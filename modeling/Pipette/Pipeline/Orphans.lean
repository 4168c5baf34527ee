import Pipette.Pipeline.Index

/-! Markers of jobs and clients that no longer exist go once two runs in a row have seen them
orphaned. -/
namespace Pipette

structure Sweep where
  prior : Finset GcKey
  terminal : Finset JobId
  liveJobs : Finset JobId
  liveClients : List ClientId

namespace Sweep

/-- Whether to act on a group of keys now: all were staged last run, or their job was removed this
run. Otherwise they are staged. -/
def confirmOrStageGroup (sw : Sweep) (next : Finset GcKey) (keys : List GcKey)
    (owner : Option JobId) : Bool × Finset GcKey :=
  if owner.any (· ∈ sw.terminal) || keys.all (· ∈ sw.prior) then (true, next)
  else (false, next ∪ keys.toFinset)

def confirmOrStage (sw : Sweep) (next : Finset GcKey) (key : GcKey) (owner : Option JobId) :
    Bool × Finset GcKey :=
  sw.confirmOrStageGroup next [key] owner

def sweepEach {α : Type} (sw : Sweep) (dead : α → Bool) (key : α → GcKey)
    (owner : α → Option JobId) (remove : α → Op Unit) (items : List α) (next : Finset GcKey) :
    Op (Finset GcKey) :=
  items.foldlM (fun next a =>
    if !dead a then pure next
    else
      match sw.confirmOrStage next (key a) (owner a) with
      | (true, next) => do
        remove a
        pure next
      | (false, next) => pure next) next

def availExpiry (keys : List AvailKey) (j : JobId) : Option ExpiresAt :=
  match keys.filter (·.jobId = j) with
  | [k] => some k.expiresAt
  | _ => none

/-- Whether the marker names a deadline the job does not carry: what a re-date left behind. -/
def staleExpiry (keys : List AvailKey) (m : EligibleMarker) : Bool :=
  (availExpiry keys m.jobId).any (· ≠ m.expiresAt)

def sweepMarker (sw : Sweep) (keys : List AvailKey) (next : Finset GcKey) (m : EligibleMarker) :
    Op (Finset GcKey) :=
  if !sw.liveClients.contains m.clientId then pure next
  else if staleExpiry keys m then do
    -- provably stale, so it goes on first sight
    Op.index (.deleteEligible m)
    pure next
  else if decide (m.jobId ∈ sw.liveJobs) then pure next
  else
    match sw.confirmOrStage next (.eligible m) (some m.jobId) with
    | (true, next) => do
      Op.index (.deleteEligible m)
      pure next
    | (false, next) => pure next

def sweepDeadClient (sw : Sweep) (eligible : List EligibleMarker) (next : Finset GcKey)
    (c : ClientId) : Op (Finset GcKey) :=
  let markers := eligible.filter (·.clientId = c)
  match sw.confirmOrStageGroup next (markers.map .eligible) none with
  | (true, next) => do
    Op.index (.deleteEligibleForClient c)
    pure next
  | (false, next) => pure next

def sweepEligible (sw : Sweep) (keys : List AvailKey) (eligible : List EligibleMarker)
    (next : Finset GcKey) : Op (Finset GcKey) := do
  let next ← eligible.foldlM (sw.sweepMarker keys) next
  let dead := ((eligible.map (·.clientId)).filter (!sw.liveClients.contains ·)).dedup
  dead.foldlM (sw.sweepDeadClient eligible) next

def sweepDeadJob (sw : Sweep) (denied : List (JobId × ClientId)) (next : Finset GcKey)
    (j : JobId) : Op (Finset GcKey) :=
  let markers := denied.filter (·.1 = j)
  match sw.confirmOrStageGroup next (markers.map fun m => .denied m.1 m.2) (some j) with
  | (true, next) => do
    Op.notes (.deleteDeniedForJob j)
    pure next
  | (false, next) => pure next

def sweepDenied (sw : Sweep) (denied : List (JobId × ClientId)) (next : Finset GcKey) :
    Op (Finset GcKey) := do
  let live := denied.filter fun m => decide (m.1 ∈ sw.liveJobs)
  let next ← sw.sweepEach (fun m => !sw.liveClients.contains m.2) (fun m => .denied m.1 m.2)
    (fun _ => none) (fun m => Op.notes (.deleteDenied m.1 m.2)) live next
  let dead := ((denied.map Prod.fst).filter (· ∉ sw.liveJobs)).dedup
  dead.foldlM (sw.sweepDeadJob denied) next

/-- The lease of a client that is not registered is recycled, not deleted: it holds the only copy
of the body. -/
def sweepLeases (sw : Sweep) (leases : List Lease) (next : Finset GcKey) : Op (Finset GcKey) :=
  sw.sweepEach (fun l => !sw.liveClients.contains l.clientId) .leased (fun _ => none)
    (fun l => (resolveOrRecycleLease l).void) leases next

end Sweep

/-- Collect the markers of jobs and clients that no longer exist. Answers what the next run has to
confirm. -/
def reconcileOrphans (sw : Sweep) (eligible : List EligibleMarker)
    (denied : List (JobId × ClientId)) (keys : List AvailKey) : Op (Finset GcKey) := do
  let deadClient := fun c => !sw.liveClients.contains c
  let deadJob := fun j => decide (j ∉ sw.liveJobs)
  let next ← sw.sweepEligible keys eligible ∅
  let next ← sw.sweepDenied denied next
  let suspensions ← Op.notes .listSuspensions
  let next ← sw.sweepEach deadClient .suspended (fun _ => none)
    (fun c => Op.notes (.deleteSuspension c)) suspensions next
  let liveness ← Op.notes .listLiveness
  let next ← sw.sweepEach deadClient .liveness (fun _ => none)
    (fun c => Op.notes (.deleteLiveness c)) liveness next
  let flags ← Op.index .listPendingReindex
  let next ← sw.sweepEach (fun f => deadClient f.clientId) .pendingReindex (fun _ => none)
    (fun f => Op.index (.deletePendingReindex f)) flags next
  let jobFlags ← Op.index .listPendingReindexJobs
  let next ← sw.sweepEach deadJob .pendingReindexJob some
    (fun j => Op.index (.deletePendingReindexJob j)) jobFlags next
  let lost ← Op.notes .listLostLeaseJobs
  let next ← sw.sweepEach deadJob .lost some
    (fun j => Op.notes (.deleteLostLeasesForJob j)) lost next
  let leases ← Op.queue .listLeased
  sw.sweepLeases leases next

def claimableMarkers (eligible : List EligibleMarker) (keys : List AvailKey)
    (denied : List (JobId × ClientId)) (now : Instant) : List EligibleMarker :=
  eligible.filter fun m =>
    decide (Sweep.availExpiry keys m.jobId = some m.expiresAt) && !m.expiresAt.isExpired now &&
      !denied.contains (m.jobId, m.clientId)

def countBacklog (claimable : List EligibleMarker) : List (ClientId × Nat) :=
  (claimable.map (·.clientId)).dedup.map fun c => (c, (claimable.filter (·.clientId = c)).length)

end Pipette
