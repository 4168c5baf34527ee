import Pipette.Core.Matching
import Pipette.Store.Operations

/-! The passes of a maintenance run that end leases and jobs: lapsed leases, overdue, unmatchable
and refused jobs. -/
namespace Pipette

inductive FailureSource
  | client
  | expired
  | allClientsDenied
  | unmatchable
  | leaseLost
deriving DecidableEq, Repr

def FailureSource.label : FailureSource → String
  | client => "client"
  | expired => "expired"
  | allClientsDenied => "all_clients_denied"
  | unmatchable => "unmatchable"
  | leaseLost => "lease_lost"

abbrev Catalog : Type := String → Bool

def isBenchmarkId (s : String) : Bool :=
  match s.toList with
  | [] => false
  | first :: rest =>
    first.isAlphanum && rest.all fun c => c.isAlphanum || c == '_' || c == '.' || c == '-'

def isJobId (s : String) : Bool :=
  !s.toList.isEmpty && s.toList.all fun c => c.isAlphanum || c == '-'

def specBenchmark (body : Json) : Option String :=
  ((body.get "spec").bind fun spec => spec.get "benchmark").bind Json.asStr

def systemFailureFromJobBody (body : Json) (source : FailureSource) : Except Fault (JobId × Json) :=
  match (body.get "job_id").bind Json.asStr, specBenchmark body with
  | some job, some benchmark =>
    if isBenchmarkId benchmark && isJobId job then
      .ok (⟨job⟩, .obj [("message_type", .str "failure"), ("job_id", .str job),
        ("client_id", .str "system"), ("benchmark_id", .str benchmark), ("retriable", .bool false),
        ("failure_source", .str source.label)])
    else .error .unrecordable
  | _, _ => .error .unrecordable

def recordSystemFailure (catalog : Catalog) (body : Json) (source : FailureSource) : Op Bool :=
  match specBenchmark body with
  | none => Op.fail .unrecordable
  | some benchmark =>
    if !isBenchmarkId benchmark then Op.fail .unrecordable
    else if !catalog benchmark then Op.fail .unknownBenchmark
    else
      match systemFailureFromJobBody body source with
      | .error e => Op.fail e
      | .ok (job, record) => Op.records (.create .incoming job record)

inductive QueueEntry
  | avail (k : AvailKey)
  | lease (l : Lease)

namespace QueueEntry

def jobId : QueueEntry → JobId
  | avail k => k.jobId
  | lease l => l.jobId

def delete : QueueEntry → Op Unit
  | avail k => deleteAvail k
  | lease l => deleteLease l

end QueueEntry

/-- Resolve a queue entry as terminal: record a failure, then delete the entry. A record already
there is kept. Answers whether it wrote the failure. -/
def resolveJobTerminal (catalog : Catalog) (entry : QueueEntry) (body : Json)
    (source : FailureSource) : Op Bool := do
  if ← hasRecord entry.jobId then
    entry.delete
    pure false
  else
    match ← (recordSystemFailure catalog body source).attempt with
    | .ok created =>
      -- a submission that landed after the guard wins, and the entry still goes
      entry.delete
      pure created
    | .error .unrecordable =>
      entry.delete
      pure false
    | .error e => Op.fail e

inductive LeaseResolution
  | recycled
  | resolvedStale
  | gone
deriving DecidableEq

/-- End a lease: recycle its job, unless the job has a record. -/
def resolveOrRecycleLease (l : Lease) : Op LeaseResolution := do
  if ← hasRecord l.jobId then
    deleteLease l
    pure .resolvedStale
  else if ← recycleLease l then pure .recycled
  else pure .gone

inductive ExpiredLease
  | settled (r : LeaseResolution)
  | retired (losses : Nat) (recorded : Bool)

/-- Settle one lapsed lease: count it as lost, and retire the job once its losses reach the
limit. -/
def settleExpiredLease (catalog : Catalog) (l : Lease) (lostLeaseLimit : Nat) :
    Op ExpiredLease := do
  if 0 < lostLeaseLimit then
    if ← hasRecord l.jobId then recycle
    else
      Op.notes (.writeLostLease ⟨l.jobId, l.clientId, l.leaseExpiry⟩)
      let losses ← Op.notes (.listLostLeases l.jobId)
      if lostLeaseLimit ≤ losses.length then
        match ← Op.queue (.read (.leased l)) with
        | none => pure (.settled .gone)
        | some body =>
          let recorded ← resolveJobTerminal catalog (.lease l) body .leaseLost
          pure (.retired losses.length recorded)
      else recycle
  else recycle
where
  recycle : Op ExpiredLease := do
    let r ← resolveOrRecycleLease l
    pure (.settled r)

structure Settled where
  seen : Finset JobId
  resolved : Finset JobId
  failures : Nat

def settleExpiredLeases (catalog : Catalog) (lostLeaseLimit : Nat) (now : Instant) :
    Op Settled := do
  let leases ← Op.queue .listLeased
  leases.foldlM (fun acc l => do
    let acc := { acc with seen := insert l.jobId acc.seen }
    if now ≤ l.leaseExpiry.instant then pure acc
    else
      match ← (settleExpiredLease catalog l lostLeaseLimit).attempt with
      | .ok (.settled .resolvedStale) | .ok (.retired _ _) =>
        pure { acc with resolved := insert l.jobId acc.resolved }
      | .ok (.settled .recycled) | .ok (.settled .gone) => pure acc
      | .error _ => pure { acc with failures := acc.failures + 1 }) ⟨∅, ∅, 0⟩

abbrev Bodies : Type := FileTree AvailKey Json

def cachedBody (k : AvailKey) (bodies : Bodies) : Op (Option Json × Bodies) :=
  match bodies.lookup k with
  | some body => pure (some body, bodies)
  | none => do
    match ← Op.queue (.read (.avail k)) with
    | some body => pure (some body, bodies.insert k body)
    | none => pure (none, bodies)

structure Pruned where
  survivors : List AvailKey
  removed : Finset JobId
  failures : Nat

namespace Pruned

def start : Pruned := ⟨[], ∅, 0⟩

def keep (acc : Pruned) (k : AvailKey) : Pruned :=
  { acc with survivors := acc.survivors ++ [k] }

def drop (acc : Pruned) (k : AvailKey) : Pruned :=
  { acc with removed := insert k.jobId acc.removed }

def failed (acc : Pruned) (k : AvailKey) : Pruned :=
  { acc.keep k with failures := acc.failures + 1 }

end Pruned

def expireOneJob (catalog : Catalog) (k : AvailKey) : Op Bool := do
  match ← Op.queue (.read (.avail k)) with
  | none => pure false
  | some body =>
    let _ ← resolveJobTerminal catalog (.avail k) body .expired
    pure true

inductive Overdue
  | redated (k : AvailKey)
  | retired
  | vanished

def latestHorizon (now : Instant) (markers : List (PlanId × ExpiresAt)) : Option ExpiresAt :=
  ((markers.map Prod.snd).filter fun d => !d.isExpired now).max?

theorem latestHorizon_unexpired {now : Instant} {markers : List (PlanId × ExpiresAt)}
    {d : ExpiresAt} (h : latestHorizon now markers = some d) : d.isExpired now = false := by
  have hmem := List.max?_mem h
  simpa using (List.mem_filter.mp hmem).2

/-- Settle one lapsed entry: re-date it onto the latest horizon its plans still hold, or retire
it. -/
def settleOverdueJob (catalog : Catalog) (k : AvailKey) (now : Instant) : Op Overdue := do
  let markers ← Op.plans (.listJobPlanMarkers k.jobId)
  match latestHorizon now markers with
  | none => if ← expireOneJob catalog k then pure .retired else pure .vanished
  | some horizon =>
    if ← redateAvail k horizon then
      -- its eligible markers name the old deadline
      Op.index (.writePendingReindexJob k.jobId)
      pure (.redated ⟨k.jobId, horizon⟩)
    else pure .vanished

def Pruned.settle (acc : Pruned) (k : AvailKey) : Except Fault Overdue → Pruned
  | .ok (.redated k') => acc.keep k'
  | .ok .retired => acc.drop k
  | .ok .vanished => acc
  | .error _ => acc.failed k

def expireOverdueJobs (catalog : Catalog) (keys : List AvailKey) (now : Instant) : Op Pruned :=
  keys.foldlM (fun acc k => do
    if !k.expiresAt.isExpired now then pure (acc.keep k)
    else
      let r ← (settleOverdueJob catalog k now).attempt
      pure (acc.settle k r)) .start

/-- Remove a job whose body gives a cause. The body stays in the cache also when the removal
fails. -/
def removeOneIf (cause : Json → Option FailureSource) (catalog : Catalog) (k : AvailKey)
    (bodies : Bodies) : Op (Except Fault Bool × Bodies) := do
  match ← (cachedBody k bodies).attempt with
  | .error e => pure (.error e, bodies)
  | .ok (none, bodies) => pure (.ok false, bodies)
  | .ok (some body, bodies) =>
    match cause body with
    | none => pure (.ok false, bodies)
    | some source =>
      let r ← (resolveJobTerminal catalog (.avail k) body source).attempt
      pure (r.map fun _ => true, bodies)

def unmatchableCause (body : Json) : Option FailureSource :=
  if capabilityClausesMalformed body || (unmatchableReason body).isSome then some .unmatchable
  else none

def allDeniedCause (denied : List ClientId) (body : Json) : Option FailureSource :=
  match clientsOnlyRoster body with
  | none => none
  | some roster =>
    if roster.all fun c => denied.any fun d => d.raw == c then some .allClientsDenied else none

def retireOneIfUnmatchable : Catalog → AvailKey → Bodies → Op (Except Fault Bool × Bodies) :=
  removeOneIf unmatchableCause

def escalateOneIfAllDenied (denied : List ClientId) :
    Catalog → AvailKey → Bodies → Op (Except Fault Bool × Bodies) :=
  removeOneIf (allDeniedCause denied)

def Pruned.prune (acc : Pruned) (k : AvailKey) : Except Fault Bool → Pruned
  | .ok true => acc.drop k
  | .ok false => acc.keep k
  | .error _ => acc.failed k

def pruneEach (remove : AvailKey → Bodies → Op (Except Fault Bool × Bodies))
    (keys : List AvailKey) (bodies : Bodies) : Op (Pruned × Bodies) :=
  keys.foldlM (fun (acc, bodies) k => do
    let (r, bodies) ← remove k bodies
    pure (acc.prune k r, bodies)) (.start, bodies)

def retireUnmatchableJobs (catalog : Catalog) (keys : List AvailKey) (bodies : Bodies) :
    Op (Pruned × Bodies) :=
  pruneEach (retireOneIfUnmatchable catalog) keys bodies

def escalateAllDeniedJobs (catalog : Catalog) (keys : List AvailKey) (bodies : Bodies) :
    Op (Pruned × Bodies) := do
  let denied ← Op.notes .listAllDenied
  pruneEach (fun k bodies =>
    match (denied.filter (·.1 = k.jobId)).map Prod.snd with
    | [] => pure (.ok false, bodies)
    | clients => escalateOneIfAllDenied clients catalog k bodies) keys bodies

end Pipette
