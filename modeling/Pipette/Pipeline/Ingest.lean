import Pipette.Pipeline.Joins
import Pipette.Pipeline.Run

/-! A plan is filed: the `creating` manifest is written, the jobs are staged and promoted, and the
manifest is written again with the status it starts from. A cancellation is a marker beside it. -/
namespace Pipette

inductive Parent
  /-- Its record answers the minted job. -/
  | recalculates (source : JobId)
  /-- The minted job runs it again. -/
  | reruns (of : JobId)
deriving DecidableEq, Repr

/-- An input placed on a job; `merged` is `none` when the input minted it. -/
structure Placement where
  jobId : JobId
  body : Json
  expiresAt : ExpiresAt
  merged : Option MergeKind
  /-- The job already has a result, or staging answers it. -/
  settled : Bool
  parent : Option Parent

namespace Placement

def recalculated (p : Placement) : Option JobId :=
  match p.parent with
  | some (.recalculates source) => some source
  | some (.reruns _) | none => none

def mints (p : Placement) : Bool := p.recalculated.isNone && p.merged.isNone

def promote (p : Placement) : Op Unit := do
  Op.queue (.writeTmp p.jobId p.body)
  promoteAvail ⟨p.jobId, p.expiresAt⟩

end Placement

/-- An ingest with every input placed. The schedules say how its concurrent steps interleave. -/
structure Filing where
  planId : PlanId
  now : Instant
  placements : List Placement
  clock : JobId → Instant
  /-- The copy of a record that answers another job; `none` when it holds no eval completions. -/
  answer : (source job : JobId) → Json → Option Json
  staging : List (List Bool)
  roster : List (List Bool)
  copying : List (List Bool)
  promoting : List (List Bool)

def answerFrom (answer : JobId → JobId → Json → Option Json) (source j : JobId) : Op Unit := do
  match ← findJob source with
  | none => Op.fail .missing
  | some record =>
    match answer source j record with
    | none => Op.fail .unscorable
    | some copy => Op.records (.write .incoming j copy)

namespace Filing

variable (f : Filing)

def distinct : List Placement := f.placements.eraseDupsBy fun p q => decide (p.jobId = q.jobId)

/-- The authoritative list of the plan's jobs, written before anything is claimable. -/
def creating : PlanManifest where
  planId := f.planId
  status := .creating
  createdAt := f.now
  jobIds := f.distinct.map (·.jobId)
  expiredJobs := ∅
  settledJobs := ∅
  progressSnapshot := none
  terminalAt := none

/-- No claimable job lacks its minting plan's marker. -/
def stage : Op Unit :=
  (Prog.parAll f.staging ((f.distinct.filter (·.mints)).map fun p =>
    Op.plans (.writeJobPlanMarker p.jobId f.planId p.expiresAt (f.clock p.jobId)))).void

def stageBesideRoster : Op (List Client × FleetRights × FleetTags) := do
  let ((_, clients), rights, tags) ← Prog.par (f.roster.headD [])
    (Prog.par (f.roster.tail.headD []) f.stage (Op.fleet .drainClients))
    (Prog.par (f.roster.tail.tail.headD []) (Op.fleet .listClientPermissions)
      (Op.fleet .listForwardTagMarkers))
  pure (clients, rights, tags)

/-- Before the promotions, so that a failed copy leaves no job claimable. -/
def copyAnswers : Op Unit :=
  (Prog.parAll f.copying (f.distinct.filterMap fun p =>
    p.recalculated.map fun source => answerFrom f.answer source p.jobId)).void

def promote : Op Unit :=
  (Prog.parAll f.promoting ((f.distinct.filter (·.mints)).map Placement.promote)).void

/-- A job with a result waits on no client. Nothing outstanding reads `active` until a run latches
it. -/
def status (workers : List Client) (tags : FleetTags) : PlanStatus :=
  let outstanding := f.distinct.filter (!·.settled)
  let unmatched := outstanding.filter fun p =>
    !workers.any fun c => jobMatchesClient p.body c tags
  if !outstanding.isEmpty && decide (unmatched.length = outstanding.length) then .pendingClients
  else .active

/-- `ingest_prepared` from its placements on. -/
def ingest : Op Unit := do
  Op.plans (.putPlan f.creating)
  let (clients, rights, tags) ← f.stageBesideRoster
  f.copyAnswers
  f.promote
  Op.plans (.putPlan { f.creating with status := f.status (rights.workers clients) tags })

end Filing

inductive CancelOutcome
  | requested
  | alreadyCancelled
  | alreadyCancelling
  | alreadyComplete
deriving DecidableEq, Repr

def requestCancel (m : PlanManifest) : Op CancelOutcome :=
  match m.status with
  | .complete => pure .alreadyComplete
  | .cancelled => pure .alreadyCancelled
  | .cancelling => pure .alreadyCancelling
  | .creating | .active | .pendingClients => do
    Op.plans (.writeCancelMarker m.planId)
    pure .requested

/-- `plans cancel`: only the marker is written, as the status belongs to maintenance. -/
def cancelPlan (p : PlanId) : Op CancelOutcome := do
  match ← Op.plans (.getPlan p) with
  | none => Op.fail .notFound
  | some m => requestCancel m

end Pipette
