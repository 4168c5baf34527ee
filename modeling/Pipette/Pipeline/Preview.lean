import Pipette.Pipeline.CarriedOnce
import Pipette.Pipeline.Grouping

/-! The dry run of a revision: it groups the bodies, draws from the superseded plan as an ingest does,
and counts what the units hold. -/
namespace Pipette

structure HeldJob where
  bodyIndex : Nat
  planId : PlanId
  jobId : JobId

structure CarryDraw where
  carried : List JobId
  newCells : Nat
  requirementsRerun : Nat
  satisfied : Nat
  offered : FileTree JobId PlanId
  held : List HeldJob

def heldFrom (offered : FileTree JobId PlanId) (head : Option PlanId) :
    Inherited → Option (PlanId × JobId)
  | .job j | .answered j => ((offered.lookup j).or head).map fun p => (p, j)
  | .nothing | .rerun _ | .recalculate _ | .satisfied _ => none

def carriedJob (offered : FileTree JobId PlanId) : Inherited → Option JobId
  | .answered j => if (offered.lookup j).isSome then none else some j
  | .job j => some j
  | .nothing | .rerun _ | .recalculate _ | .satisfied _ => none

section Draws

variable {Text : Type} (toText : Json → Text) (sha256 : Text → String) (order : HashOrder)
  (mint : Nat → JobId) (carry : Carryover) (reads : CarryReads)

structure PreviewDraw where
  grouped : Grouping
  inherited : List Inherited
  answers : Answers
  satisfied : List Satisfaction

def previewDraw (bodies : List Json) : Except IngestError PreviewDraw := do
  let grouped := Grouping.of toText sha256 mint (bodies.map fun body => (body, .never))
  let draw ← carry.draw toText sha256 order grouped.units
  let (answers, inherited) ← draw.unclaimed.answer toText sha256 order grouped.units
    (fun unit => bodies[unit.lead]?) draw.inherited reads
  let (satisfied, inherited) ← satisfyFromEarlierRuns toText sha256 grouped.units
    (fun unit => bodies[unit.lead]?) inherited reads
  pure ⟨grouped, inherited, answers, satisfied⟩

def ingestDraw (inputs : List Input) : Except IngestError CarryOutcome :=
  carry.carry toText sha256 order reads (Grouping.ofInputs toText sha256 mint inputs).units
    fun unit => (inputs[unit.lead]?).map (·.body)

/-- A cell that the head ran under other requirements runs again only if it still has nothing. -/
def PreviewDraw.summary (head : Option PlanId) (d : PreviewDraw) : CarryDraw :=
  let requirementsRerun :=
    (d.answers.requirementsRerun.filter fun unit => d.inherited[unit]? = some .nothing).card
  { carried := d.inherited.filterMap (carriedJob d.answers.offered)
    newCells := (d.inherited.filter (· = .nothing)).length - requirementsRerun
    requirementsRerun
    satisfied := d.satisfied.length
    offered := d.answers.offered
    held := d.grouped.unitOf.zipIdx.filterMap fun (unit, bodyIndex) => do
      let (planId, jobId) ← (← d.inherited[unit]?.map (heldFrom d.answers.offered head))
      pure ⟨bodyIndex, planId, jobId⟩ }

end Draws

structure RevisionPreview where
  carriedJobCount : Nat
  newJobCount : Nat
  requirementsRerunJobCount : Nat
  satisfiedJobCount : Nat
  restoredJobCount : Nat
  inheritedJobCount : Nat
  rerunJobCount : Nat
  recalculatedJobCount : Nat
  droppedJobIds : List JobId
  heldJobs : List HeldJob

def CarryDraw.preview {previous : RevisedPlan} (named : Named previous) (plans : List PlanId)
    (d : CarryDraw) : RevisionPreview :=
  let inherited := (d.offered.entries.filter fun e => e.2 ∈ plans).length
  { carriedJobCount := d.carried.length
    newJobCount := d.newCells
    requirementsRerunJobCount := d.requirementsRerun
    satisfiedJobCount := d.satisfied
    restoredJobCount := d.offered.entries.length - inherited
    inheritedJobCount := inherited
    rerunJobCount := named.rerun.card
    recalculatedJobCount := named.recalculate.card
    droppedJobIds := previous.jobIds.filter fun j =>
      decide (j ∉ d.carried) && decide (j ∉ named.rerun) && decide (j ∉ named.recalculate)
    heldJobs := d.held }

end Pipette
