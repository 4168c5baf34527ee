import Pipette.Core.Queue
import Pipette.Lib.Tree

/-! Plan manifests, and the markers that tie a job to the plans that wait on it. -/
namespace Pipette

structure PlanId where
  raw : String
deriving DecidableEq, Repr

inductive PlanStatus
  | creating
  | active
  | pendingClients
  | cancelling
  | complete
  | cancelled
deriving DecidableEq, Repr

def PlanStatus.isTerminal : PlanStatus → Bool
  | complete | cancelled => true
  | creating | active | pendingClients | cancelling => false

inductive SettledOutcome
  | finished
  | failed
deriving DecidableEq, Repr

/-- A record with no `message_type` predates the field, and is a success. -/
def SettledOutcome.ofMessageType : Option String → SettledOutcome
  | some "failure" => failed
  | _ => finished

def SettledOutcome.ofRecord (body : Json) : SettledOutcome :=
  ofMessageType ((body.get "message_type").bind Json.asStr)

structure Counts where
  total : Nat
  finished : Nat
  running : Nat
  available : Nat
  failed : Nat
  cancelled : Nat
deriving DecidableEq, Repr

structure RequirementKey where
  requires : Finset String
  anyOf : Finset (Finset String)
  clients : Finset String
  excludeClients : Finset String
  excludes : Finset String
  notAllOf : Finset (Finset String)
deriving DecidableEq

structure StarvedGroup where
  clauses : RequirementKey
  jobIds : List JobId

structure ProgressSnapshot where
  computedAt : Instant
  counts : Counts
  starved : List StarvedGroup

/-- A plan's own lapse of a job: its horizon passed with no answer. -/
structure ExpiredJob where
  horizon : Stamp
  recordedAt : Instant

structure PlanManifest where
  planId : PlanId
  status : PlanStatus
  createdAt : Instant
  jobIds : List JobId
  expiredJobs : FileTree JobId ExpiredJob
  settledJobs : FileTree JobId SettledOutcome
  progressSnapshot : Option ProgressSnapshot
  terminalAt : Option Instant

/-- `job-plans/{job_id}/{plan_id}.{expires_at}`: the plan waits on the job until the deadline. -/
structure JobPlanMarker where
  jobId : JobId
  planId : PlanId
  expiresAt : ExpiresAt
  writtenAt : Instant

structure ContentKeyRecord where
  jobId : JobId
  planId : PlanId
  createdAt : Instant
  version : Nat
deriving DecidableEq

/-- Whether `stamp` is at least `gate` old at `now`. A future stamp reads as young. -/
def pastGate (stamp now : Instant) (gate : Nat) : Bool :=
  decide (stamp ≤ now) && decide ((gate : Int) ≤ now - stamp)

end Pipette
