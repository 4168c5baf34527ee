import Pipette.Pipeline.Settle

/-! The plan passes before the index: ending the jobs of plans that owe teardown, and recording the
horizons that passed without an answer. -/
namespace Pipette

inductive Cause
  | cancelled
  | creatingStranded
deriving DecidableEq, Repr

def teardownCause (m : PlanManifest) (cancelMarkers : List PlanId) (now : Instant)
    (creatingMaxAge : Nat) : Option Cause :=
  match m.status with
  -- `cancelled` is looked at again, to catch a straggler
  | .cancelling | .cancelled => some .cancelled
  | .complete => none
  | .creating =>
    if cancelMarkers.contains m.planId then some .cancelled
    else if pastGate m.createdAt now creatingMaxAge then some .creatingStranded
    else none
  | .active | .pendingClients =>
    if cancelMarkers.contains m.planId then some .cancelled else none

def ingestMayOverwrite (m : PlanManifest) (now : Instant) (creatingMaxAge : Nat) : Bool :=
  match m.status with
  | .creating | .cancelling | .cancelled => !pastGate m.createdAt now creatingMaxAge
  | .active | .pendingClients | .complete => false

/-- Whether the plan released the job in an earlier run: others hold a membership, it does not. A
job without any marker is not released. -/
def releasedBy (markers : List JobPlanMarker) (j : JobId) (p : PlanId) : Bool :=
  let members := markers.filter (·.jobId = j)
  !members.isEmpty && !members.any (·.planId = p)

def availByJob (keys : List AvailKey) (j : JobId) : Option AvailKey :=
  (keys.filter (·.jobId = j)).getLast?

inductive JobFate
  | retired
  | released (survivingPlans : Nat)
  | alreadyGone

/-- By job id: a recycled or re-dated job can carry a deadline the run never listed. -/
def retireJob (j : JobId) (inAvail : Bool) (held : List Lease) : Op Unit := do
  if inAvail then deleteAvailByJob j
  held.forM deleteLease

/-- Drop a plan's membership of a job; a fresh listing also shows markers the run never saw. -/
def dropMembership (p : PlanId) (j : JobId) : Op Unit := do
  let markers ← Op.plans (.listJobPlanMarkers j)
  (markers.filter (·.1 = p)).forM fun m => Op.plans (.deleteJobPlanMarker j p m.2)

def bodyToRestore (j : JobId) (entry : Option AvailKey) (held : List Lease) :
    Op (Option (ExpiresAt × Option Json)) := do
  match entry, held with
  | some k, _ => do
    let body ← Op.queue (.read (.avail ⟨j, k.expiresAt⟩))
    pure (some (k.expiresAt, body))
  | none, l :: _ => do
    let body ← Op.queue (.read (.leased l))
    pure (some (l.expiresAt, body))
  | none, [] => pure none

/-- Drop one plan's membership of one job, and retire the job when that was the last one. A plan
that joins inside the retire window gets the job back under its key. -/
def endMembership (p : PlanId) (j : JobId) (entry : Option AvailKey) (held : List Lease) :
    Op JobFate := do
  dropMembership p j
  let remaining ← Op.plans (.listJobPlanMarkers j)
  if !remaining.isEmpty then pure (.released remaining.length)
  else
    match ← bodyToRestore j entry held with
    | none => pure .retired
    | some (expiresAt, body) =>
      retireJob j entry.isSome held
      let joiners ← Op.plans (.listJobPlanMarkers j)
      match body with
      | none =>
        Op.index (.writePendingReindexJob j)
        if joiners.isEmpty then pure .alreadyGone else pure (.released joiners.length)
      | some body =>
        if joiners.isEmpty then pure .retired
        else
          Op.queue (.writeTmp j body)
          promoteAvail ⟨j, expiresAt⟩
          Op.index (.writePendingReindexJob j)
          pure (.released joiners.length)

structure PlanEndings where
  /-- The jobs an ending plan let go of without retiring them. -/
  released : Finset (PlanId × JobId)
  perturbed : Finset PlanId
  stranded : Finset PlanId

structure Teardown where
  retired : Finset JobId
  released : Finset (PlanId × JobId)
  perturbed : Finset PlanId
  failures : Nat

def tearDownJob (membership : List JobPlanMarker) (avail : List AvailKey) (leases : List Lease)
    (p : PlanId) (acc : Teardown) (j : JobId) : Op Teardown := do
  if releasedBy membership j p then pure acc
  else
    let entry := availByJob avail j
    let held := leases.filter (·.jobId = j)
    if entry.isNone && held.isEmpty then pure acc
    else
      match ← (endMembership p j entry held).attempt with
      | .ok .retired =>
        pure { acc with retired := insert j acc.retired, perturbed := insert p acc.perturbed }
      | .ok (.released _) | .ok .alreadyGone =>
        pure { acc with released := insert (p, j) acc.released }
      | .error _ => pure { acc with failures := acc.failures + 1 }

structure TeardownOutcome where
  avail : List AvailKey
  leased : List Lease
  retired : Finset JobId
  endings : PlanEndings
  failures : Nat

def tearDownPlans (manifests : List PlanManifest) (cancelMarkers : List PlanId)
    (membership : List JobPlanMarker) (avail : List AvailKey) (leases : List Lease)
    (now : Instant) (creatingMaxAge : Nat) : Op TeardownOutcome := do
  let cause := fun m => teardownCause m cancelMarkers now creatingMaxAge
  let doomed := manifests.filter fun m => (cause m).isSome
  let stranded := (manifests.filter fun m => cause m = some .creatingStranded).map (·.planId)
  let acc ← doomed.foldlM (fun acc m =>
    m.jobIds.foldlM (tearDownJob membership avail leases m.planId) acc) ⟨∅, ∅, ∅, 0⟩
  pure
    { avail := avail.filter (·.jobId ∉ acc.retired)
      leased := leases.filter (·.jobId ∉ acc.retired)
      retired := acc.retired
      endings := ⟨acc.released, acc.perturbed, stranded.toFinset⟩
      failures := acc.failures }

def horizonOf (markers : List JobPlanMarker) (p : PlanId) (j : JobId) : Option ExpiresAt :=
  ((markers.filter fun m => m.planId = p ∧ m.jobId = j).map (·.expiresAt)).max?

/-- The manifest is written first: a missing marker alone reads as a release. -/
def recordOneLapse (markers : List JobPlanMarker) (p : PlanId) (j : JobId) (horizon : Stamp)
    (now : Instant) : Op (Option PlanManifest) := do
  match ← Op.plans (.getPlan p) with
  | none => pure none
  | some m =>
    let lapsed := (m.expiredJobs.lookup j).isSome
    let m' := if lapsed then m
      else { m with expiredJobs := m.expiredJobs.insert j ⟨horizon, now⟩ }
    if !lapsed then Op.plans (.putPlan m')
    ((markers.filter fun mk => mk.planId = p ∧ mk.jobId = j).map (·.expiresAt)).forM fun d =>
      Op.plans (.deleteJobPlanMarker j p d)
    pure (some m')

structure Lapses where
  manifests : List PlanManifest
  failures : Nat

def lapsedDeadline (now : Instant) : ExpiresAt → Option Stamp
  | .atStamp s => if s.instant < now then some s else none
  | .never => none

/-- Teardown owns an ending plan's markers, and a terminal status is final. -/
def lapseExempt (m : PlanManifest) (cancelMarkers : List PlanId) (stranded : Finset PlanId) :
    Bool :=
  m.status.isTerminal || decide (m.status = .cancelling) || cancelMarkers.contains m.planId ||
    decide (m.planId ∈ stranded)

def recordMemberLapse (markers : List JobPlanMarker) (cancelMarkers : List PlanId)
    (stranded : Finset PlanId) (now : Instant) (creatingMaxAge : Nat) (acc : Lapses)
    (member : PlanId × JobId) : Op Lapses := do
  let (p, j) := member
  match (horizonOf markers p j).bind (lapsedDeadline now), acc.manifests.find? (·.planId = p) with
  | some deadline, some m =>
    if lapseExempt m cancelMarkers stranded || !m.jobIds.contains j then pure acc
    else
      match ← (hasRecord j).attempt with
      | .ok true => pure acc
      | .error _ => pure { acc with failures := acc.failures + 1 }
      | .ok false =>
        if ingestMayOverwrite m now creatingMaxAge then pure acc
        else
          match ← (recordOneLapse markers p j deadline now).attempt with
          | .ok (some m') =>
            pure { acc with manifests := acc.manifests.map fun m =>
              if m.planId = p then m' else m }
          | .ok none => pure acc
          | .error _ => pure { acc with failures := acc.failures + 1 }
  | _, _ => pure acc

def recordMemberLapses (manifests : List PlanManifest) (markers : List JobPlanMarker)
    (cancelMarkers : List PlanId) (stranded : Finset PlanId) (now : Instant)
    (creatingMaxAge : Nat) : Op Lapses :=
  ((markers.map fun m => (m.planId, m.jobId)).dedup).foldlM
    (recordMemberLapse markers cancelMarkers stranded now creatingMaxAge) ⟨manifests, 0⟩

end Pipette
