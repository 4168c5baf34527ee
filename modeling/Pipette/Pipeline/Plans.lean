import Pipette.Pipeline.Orphans

/-! Plan reconciliation: the status and the progress of each plan, and the plan index. -/
namespace Pipette

structure PlanView where
  cancelMarkers : List PlanId
  endings : PlanEndings
  membership : List JobPlanMarker
  avail : List AvailKey
  leased : List JobId
  live : Finset JobId
  workers : List Client
  tags : FleetTags
  now : Instant
  creatingMaxAge : Nat

namespace PlanView

def requested (v : PlanView) (m : PlanManifest) : Bool := v.cancelMarkers.contains m.planId

def isEnding (v : PlanView) (m : PlanManifest) : Bool :=
  v.requested m || decide (m.planId ∈ v.endings.stranded) || decide (m.status = .cancelling)

/-- The jobs a plan still waits on. Releases count for ending plans only: elsewhere a missing
marker beside a co-owner's would read as one. -/
def outstanding (v : PlanView) (m : PlanManifest) : List JobId :=
  m.jobIds.filter fun j =>
    decide (j ∈ v.live) && (m.expiredJobs.lookup j).isNone &&
      (!v.isEnding m ||
        (decide ((m.planId, j) ∉ v.endings.released) && !releasedBy v.membership j m.planId))

end PlanView

/-- A cancellation settles only when this run retired none of the plan's jobs: a heartbeat can
rename a lease under a delete. -/
def decideStatus (ending outstandingEmpty retiredThisPass anyMatched : Bool) (now : Instant) :
    PlanStatus × Option Instant :=
  if ending && outstandingEmpty && !retiredThisPass then (.cancelled, some now)
  else if ending then (.cancelling, none)
  else if outstandingEmpty then (.complete, some now)
  else if anyMatched then (.active, none)
  else (.pendingClients, none)

structure PlanCaches where
  bodies : Bodies
  settled : FileTree JobId SettledOutcome

/-- One plan's pass: a failure ends it and keeps what it cached for the plans after it. -/
abbrev PlanPass (α : Type) : Type := ExceptT Fault (StateT PlanCaches Op) α

def PlanPass.of {α : Type} (x : PlanCaches → Op (α × PlanCaches)) : PlanPass α := fun caches => do
  match ← (x caches).attempt with
  | .ok (a, caches) => pure (.ok a, caches)
  | .error e => pure (.error e, caches)

def PlanPass.cachedBody (k : AvailKey) : PlanPass (Option Json) := .of fun caches => do
  let (body, bodies) ← Pipette.cachedBody k caches.bodies
  pure (body, { caches with bodies })

structure Starvation where
  starved : List JobId
  anyMatched : Bool

/-- A job that left `avail/` matched a client; only a listed one can be starved. -/
def starveOne (v : PlanView) (acc : Starvation) (j : JobId) : PlanPass Starvation := do
  match availByJob v.avail j with
  | none => pure { acc with anyMatched := true }
  | some k =>
    match ← PlanPass.cachedBody k with
    | none => pure { acc with anyMatched := true }
    | some body =>
      if v.workers.any fun c => jobMatchesClient body c v.tags then
        pure { acc with anyMatched := true }
      else pure { acc with starved := acc.starved ++ [j] }

def flatFlags (body : Json) (field : String) : List String :=
  (((body.get field).bind Json.asArray).getD []).filterMap Json.asStr

def flatGroups (body : Json) (field : String) : List (Finset String) :=
  ((((body.get field).bind Json.asArray).getD []).filterMap Json.asArray).map fun group =>
    (group.filterMap Json.asStr).toFinset

def requirementKey (body : Json) : RequirementKey where
  requires := (flatFlags body "requires").toFinset
  anyOf := (flatGroups body "any_of").toFinset
  clients := (flatFlags body "clients").toFinset
  excludeClients := (flatFlags body "exclude_clients").toFinset
  excludes := (flatFlags body "excludes").toFinset
  notAllOf := (flatGroups body "not_all_of").toFinset

def addStarved (key : RequirementKey) (j : JobId) : List StarvedGroup → List StarvedGroup
  | [] => [⟨key, [j]⟩]
  | g :: rest =>
    if g.clauses = key then { g with jobIds := g.jobIds ++ [j] } :: rest
    else g :: addStarved key j rest

def groupStarved (v : PlanView) (starved : List JobId) : PlanPass (List StarvedGroup) :=
  starved.foldlM (fun groups j => do
    match availByJob v.avail j with
    | none => pure groups
    | some k =>
      match ← PlanPass.cachedBody k with
      | none => pure groups
      | some body => pure (addStarved (requirementKey body) j groups)) []

def Counts.addOutcome (counts : Counts) : SettledOutcome → Counts
  | .finished => { counts with finished := counts.finished + 1 }
  | .failed => { counts with failed := counts.failed + 1 }

structure JobCount where
  counts : Counts
  settledJobs : FileTree JobId SettledOutcome
  toProbe : List JobId

def countOne (v : PlanView) (m : PlanManifest) (settled : FileTree JobId SettledOutcome)
    (acc : JobCount) (j : JobId) : JobCount :=
  if (m.expiredJobs.lookup j).isSome then
    { acc with counts := { acc.counts with failed := acc.counts.failed + 1 } }
  else if (availByJob v.avail j).isSome then
    { acc with counts := { acc.counts with available := acc.counts.available + 1 } }
  else if v.leased.contains j then
    { acc with counts := { acc.counts with running := acc.counts.running + 1 } }
  else
    match m.settledJobs.lookup j, settled.lookup j with
    | some outcome, _ => { acc with counts := acc.counts.addOutcome outcome }
    | none, some outcome =>
      { acc with
        counts := acc.counts.addOutcome outcome
        settledJobs := acc.settledJobs.insert j outcome }
    | none, none => { acc with toProbe := acc.toProbe ++ [j] }

structure Probed extends JobCount where
  settled : FileTree JobId SettledOutcome
  found : List (JobId × SettledOutcome)

/-- A job takes its outcome out of those found. Without one it was retired by teardown; a record
can still arrive, so it is not settled. -/
def countProbed (acc : Probed) (j : JobId) : Probed :=
  match acc.found.lookup j with
  | some outcome =>
    { acc with
      counts := acc.counts.addOutcome outcome
      settled := acc.settled.insert j outcome
      settledJobs := acc.settledJobs.insert j outcome
      found := acc.found.filter (·.1 ≠ j) }
  | none => { acc with counts := { acc.counts with cancelled := acc.counts.cancelled + 1 } }

def countJobs (v : PlanView) (m : PlanManifest) : PlanPass JobCount := .of fun caches => do
  let known := m.jobIds.foldl (countOne v m caches.settled)
    ⟨⟨m.jobIds.length, 0, 0, 0, 0, 0⟩, m.settledJobs, []⟩
  let found ← findOutcomes known.toProbe
  let probed := known.toProbe.foldl countProbed ⟨known, caches.settled, found⟩
  pure (probed.toJobCount, { caches with settled := probed.settled })

structure Reconciled extends PlanCaches where
  failures : Nat

/-- A requested cancellation is collected once no ingest can overwrite the status. -/
def collectCancelMarker (v : PlanView) (m : PlanManifest) : Op Unit :=
  if v.requested m && !ingestMayOverwrite m v.now v.creatingMaxAge then
    Op.plans (.deleteCancelMarker m.planId)
  else pure ()

def refreshPlan (v : PlanView) (m : PlanManifest) : PlanPass Unit := do
  let outstanding := v.outstanding m
  let starvation ← outstanding.foldlM (starveOne v) ⟨[], false⟩
  let (status, terminalAt) := decideStatus (v.isEnding m) outstanding.isEmpty
    (decide (m.planId ∈ v.endings.perturbed)) starvation.anyMatched v.now
  let counted ← countJobs v m
  let groups ← groupStarved v starvation.starved
  .of fun caches => do
    Op.plans (.putPlan { m with
      status
      -- the moment the plan ended never moves
      terminalAt := m.terminalAt.or terminalAt
      progressSnapshot := some ⟨v.now, counted.counts, groups⟩
      settledJobs := counted.settledJobs })
    collectCancelMarker v m
    pure ((), caches)

/-- A terminal status is final, and ingestion owns a live `creating` manifest. -/
def reconcileOnePlan (v : PlanView) (m : PlanManifest) : PlanPass Unit :=
  if m.status.isTerminal then
    .of fun caches => do
      collectCancelMarker v m
      pure ((), caches)
  else if m.status = .creating ∧ !v.isEnding m then pure ()
  else refreshPlan v m

def collectOrphanedMarker (p : PlanId) : Op Unit := do
  match ← Op.plans (.getPlan p) with
  | some _ => pure ()
  | none => Op.plans (.deleteCancelMarker p)

def reconcilePlans (v : PlanView) (manifests : List PlanManifest) (bodies : Bodies) :
    Op Reconciled := do
  let settled := (manifests.flatMap fun m => m.settledJobs.entries).foldl
    (fun settled e => settled.insert e.1 e.2) (∅ : FileTree JobId SettledOutcome)
  let acc ← manifests.foldlM (fun acc m => do
    match ← reconcileOnePlan v m acc.toPlanCaches with
    | (.ok _, caches) => pure ⟨caches, acc.failures⟩
    | (.error _, caches) => pure ⟨caches, acc.failures + 1⟩) ⟨⟨bodies, settled⟩, 0⟩
  let unknown := v.cancelMarkers.filter fun p => !manifests.any (·.planId = p)
  unknown.foldlM (fun acc p => do
    match ← (collectOrphanedMarker p).attempt with
    | .ok _ => pure acc
    | .error _ => pure { acc with failures := acc.failures + 1 }) acc

structure Collected where
  next : Finset GcKey
  failures : Nat

def collectKey (prior : Finset GcKey) (key : GcKey) (remove : Op Unit) (acc : Collected) :
    Op Collected := do
  if key ∈ prior then
    match ← remove.attempt with
    | .ok _ => pure acc
    | .error _ => pure { acc with failures := acc.failures + 1 }
  else pure { acc with next := insert key acc.next }

/-- Collect content keys whose job is gone, and memberships whose job is gone or whose plan does
not list it. All are gated by age: an ingest is slower than two runs. -/
def gcPlanIndex (v : PlanView) (manifests : List PlanManifest) (prior : Finset GcKey) :
    Op Collected := do
  let listed ← (Op.plans .listContentKeys).attempt
  let (records, failures) := match listed with
    | .ok records => (records, 0)
    | .error _ => ([], 1)
  let acc ← (records.filter fun r =>
      decide (r.2.jobId ∉ v.live) && pastGate r.2.createdAt v.now v.creatingMaxAge).foldlM
    (fun acc r => collectKey prior (.contentKey r.1)
      (Op.plans (.deleteContentKey r.1 r.2.version)).void acc) ⟨∅, failures⟩
  (v.membership.filter fun mk =>
      (decide (mk.jobId ∉ v.live) ||
        !manifests.any fun m => m.planId = mk.planId && m.jobIds.contains mk.jobId) &&
      pastGate mk.writtenAt v.now v.creatingMaxAge).foldlM
    (fun acc mk => collectKey prior (.jobPlan mk.jobId mk.planId mk.expiresAt)
      (Op.plans (.deleteJobPlanMarker mk.jobId mk.planId mk.expiresAt)) acc) acc

end Pipette
