import Pipette.Store.Operations

/-! The merge of plan ingestion: a plan takes over a job that already runs its cell. The plan's
membership marker lands before the job is looked up again, so a teardown either sees the marker or
is seen. -/
namespace Pipette

inductive MergeKind
  | withinPlan
  | acrossPlans
  | carried
  | satisfied
deriving DecidableEq, Repr

structure JoinTarget where
  jobId : JobId
  expiresAt : ExpiresAt
  kind : MergeKind
  settled : Bool
deriving DecidableEq, Repr

inductive JoinAttempt
  /-- The membership marker is written and confirmed. -/
  | joined (target : JoinTarget)
  /-- The record stands, and the caller mints. -/
  | declined
  /-- The record names a job that is provably gone. -/
  | stale
deriving DecidableEq, Repr

inductive TargetState
  | live (official : ExpiresAt)
  | absent
deriving DecidableEq, Repr

structure MergeContext where
  planId : PlanId
  now : Instant
  creatingMaxAge : Nat

def leasedExpiry (leases : List Lease) (j : JobId) : Option ExpiresAt :=
  (leases.filter (·.jobId = j)).getLast?.map (·.expiresAt)

def availState (j : JobId) : Op (Option ExpiresAt) := do
  let k ← availKeyForJob j
  pure (k.map (·.expiresAt))

def leasedSnapshot : Option (List Lease) → Op (List Lease)
  | some snapshot => pure snapshot
  | none => Op.queue .listLeased

/-- The target by the deadline in its key: `avail/`, the `leased/` snapshot, `leased/` afresh, and
`avail/` again. -/
def officialState (snapshot : Option (List Lease)) (j : JobId) :
    Op (TargetState × Option (List Lease)) := do
  match ← availState j with
  | some d => pure (.live d, snapshot)
  | none =>
    let leases ← leasedSnapshot snapshot
    match leasedExpiry leases j with
    | some d => pure (.live d, some leases)
    | none =>
      match leasedExpiry (← Op.queue .listLeased) j with
      | some d => pure (.live d, some leases)
      | none =>
        match ← availState j with
        | some d => pure (.live d, some leases)
        | none => pure (.absent, some leases)

/-- Whether the target still exists, read fresh: `avail/`, `leased/`, `avail/` again for a recycle
or a restore, and the record. -/
def targetSurvives (j : JobId) : Op Bool := do
  if (← availState j).isSome then pure true
  else if (leasedExpiry (← Op.queue .listLeased) j).isSome then pure true
  else if (← availState j).isSome then pure true
  else hasRecord j

namespace MergeContext

variable (ctx : MergeContext)

/-- Inside the gate the record's ingest may still be staging; past it the job is dead. -/
def classifyAbsent (record : ContentKeyRecord) : JoinAttempt :=
  if pastGate record.createdAt ctx.now ctx.creatingMaxAge then .stale else .declined

/-- Write the membership marker, then look again; the marker of a target that is gone is dropped,
best effort. -/
def confirmMembership (clock : Instant) (j : JobId) (horizon : ExpiresAt) : Op Bool := do
  Op.plans (.writeJobPlanMarker j ctx.planId horizon clock)
  if ← targetSurvives j then pure true
  else
    let _ ← (Op.plans (.deleteJobPlanMarker j ctx.planId horizon)).attempt
    pure false

section Clock

/- The calls of the caller, and its clock. -/
variable {m : Type → Type} [Monad m] (lift : ∀ {α : Type}, Op α → m α) (now : m Instant)

/-- Try to join the job a content-key record names. The clock is read once the queue has been looked
at: a long ingest can outlive the target's deadline. A lapsed entry is dead already: a joiner would
inherit its synthetic failure. -/
def tryJoin (snapshot : Option (List Lease)) (record : ContentKeyRecord)
    (planExpiry : ExpiresAt) : m (JoinAttempt × Option (List Lease)) := do
  match ← lift (officialState snapshot record.jobId) with
  | (.absent, snapshot) => pure (ctx.classifyAbsent record, snapshot)
  | (.live official, snapshot) =>
    let clock ← now
    if official.isExpired clock then pure (ctx.classifyAbsent record, snapshot)
    else if ← lift (ctx.confirmMembership clock record.jobId planExpiry) then
      pure (.joined ⟨record.jobId, official, .acrossPlans, false⟩, snapshot)
    else pure (.stale, snapshot)

/-- Take over a job of the superseded plan; `none` places the input as any other. The record is
looked at first: a finished job is the common case. -/
def carry (snapshot : Option (List Lease)) (j : JobId) (horizon : ExpiresAt) :
    m (Option JoinTarget × Option (List Lease)) := do
  if ← lift (hasRecord j) then pure (some ⟨j, horizon, .carried, true⟩, snapshot)
  else
    match ← lift (officialState snapshot j) with
    | (.live official, snapshot) =>
      let clock ← now
      if official.isExpired clock then pure (none, snapshot)
      else if ← lift (ctx.confirmMembership clock j horizon) then
        pure (some ⟨j, official, .carried, false⟩, snapshot)
      else pure (none, snapshot)
    | (.absent, snapshot) =>
      -- it may have finished since the first look
      if ← lift (hasRecord j) then pure (some ⟨j, horizon, .carried, true⟩, snapshot)
      else pure (none, snapshot)

end Clock

end MergeContext

inductive JoinRequest
  | tryJoin (ctx : MergeContext) (clock : Instant) (snapshot : Option (List Lease))
      (record : ContentKeyRecord) (planExpiry : ExpiresAt)
  | carry (ctx : MergeContext) (clock : Instant) (snapshot : Option (List Lease)) (j : JobId)
      (horizon : ExpiresAt)

def JoinRequest.place : JoinRequest → Op (Option JoinTarget)
  | tryJoin ctx clock snapshot record planExpiry => do
    match ← ctx.tryJoin (fun p => p) (pure clock) snapshot record planExpiry with
    | (.joined target, _) => pure (some target)
    | (.declined, _) | (.stale, _) => pure none
  | carry ctx clock snapshot j horizon => do
    let (target, _) ← ctx.carry (fun p => p) (pure clock) snapshot j horizon
    pure target

end Pipette
