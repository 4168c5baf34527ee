import Pipette.Pipeline.Carry
import Pipette.Pipeline.Ingest

/-! The inputs of an ingest are grouped into units by content key, every unit is placed once, and the
inputs share its outcome. A minted job takes the latest horizon of its inputs. -/
namespace Pipette

structure Input where
  label : String
  body : Json
  horizon : ExpiresAt
  object : ∃ fields, body = .obj fields

inductive Placed
  | fresh
  | join (target : JoinTarget)
deriving DecidableEq, Repr

/-- A unit that joined hands its target to every input, one that minted hands its siblings a merge
onto the job of the lead. -/
def CellUnit.outcomeFor (unit : CellUnit) (index : Nat) : Placed → Placed
  | .join target => .join target
  | .fresh =>
    if index = unit.lead then .fresh
    else .join ⟨unit.candidate, unit.horizon, .withinPlan, false⟩

structure Grouping where
  units : List CellUnit
  unitOf : List Nat
  /-- The unit of each digest that an input may merge onto. -/
  byDigest : FileTree String Nat

section Digest

variable {Text : Type} (toText : Json → Text) (sha256 : Text → String)

/-- The input joins the unit of its digest, or starts one. An input that opted out always starts
one. -/
def Grouping.add (mint : Nat → JobId) (g : Grouping) (body : Json) (horizon : ExpiresAt) :
    Grouping :=
  let digest := contentDigest toText sha256 body
  let existing := do
    let unit ← if mergeable body then g.byDigest.lookup digest else none
    let found ← g.units[unit]?
    pure (unit, found)
  match existing with
  | some (unit, found) =>
    { g with
      units := g.units.set unit { found with horizon := max found.horizon horizon }
      unitOf := g.unitOf ++ [unit] }
  | none =>
    let unit := g.units.length
    { units := g.units ++ [⟨g.unitOf.length, horizon, mint unit, digest⟩]
      unitOf := g.unitOf ++ [unit]
      byDigest := if mergeable body then g.byDigest.insert digest unit else g.byDigest }

def Grouping.of (mint : Nat → JobId) (bodies : List (Json × ExpiresAt)) : Grouping :=
  bodies.foldl (fun g body => g.add toText sha256 mint body.1 body.2) ⟨[], [], ∅⟩

def Grouping.ofInputs (mint : Nat → JobId) (inputs : List Input) : Grouping :=
  Grouping.of toText sha256 mint (inputs.map fun input => (input.body, input.horizon))

end Digest

structure PlacedInput extends Placement where
  label : String
  /-- The horizon this input alone asked for. -/
  horizon : ExpiresAt
  digest : String

namespace PlacedInput

variable (spell : ExpiresAt → String)

def stampField (field text : String) : Json → Json
  | .obj fields => .obj (Json.insertField field (.str text) fields)
  | other => other

def retime (p : PlacedInput) (expiresAt : ExpiresAt) : PlacedInput :=
  { p with expiresAt, body := stampField "expires_at" (spell expiresAt) p.body }

def new (input : Input) (unit : CellUnit) (placed : Placed) (parent : Option Parent) : PlacedInput :=
  let (jobId, expiresAt, merged, settled) := match placed with
    | .fresh => (unit.candidate, input.horizon, none, false)
    | .join target => (target.jobId, target.expiresAt, some target.kind, target.settled)
  let recalculated := match parent with
    | some (.recalculates _) => true
    | some (.reruns _) | none => false
  retime spell
    { jobId, expiresAt, merged, parent
      body := stampField "job_id" jobId.raw input.body
      settled := settled || recalculated
      label := input.label
      horizon := input.horizon
      digest := unit.digest } expiresAt

end PlacedInput

def mintedDeadlines (placements : List PlacedInput) : FileTree JobId ExpiresAt :=
  let minted := (placements.filter (·.merged.isNone)).map (·.jobId)
  (placements.filter fun p => p.jobId ∈ minted).foldl (fun acc p =>
    acc.insert p.jobId (((acc.lookup p.jobId).map (max · p.horizon)).getD p.horizon)) ∅

section Placements

variable (spell : ExpiresAt → String)

def parentOf : Placed → Inherited → Option Parent
  | .fresh, .recalculate source => some (.recalculates source)
  | .fresh, .rerun of => of.map .reruns
  | _, _ => none

def firstPlacements (inputs : List Input) (g : Grouping) (outcomes : List Placed)
    (inherited : List Inherited) : Option (List PlacedInput) :=
  (inputs.zip g.unitOf).zipIdx.mapM fun ((input, unitIndex), index) => do
    let unit ← g.units[unitIndex]?
    let outcome ← outcomes[unitIndex]?
    let placed := unit.outcomeFor index outcome
    pure (PlacedInput.new spell input unit placed
      ((inherited[unitIndex]?).bind (parentOf placed)))

/-- A minted job carries the latest horizon of its inputs, and every body is stamped again. -/
def retimeMinted (placements : List PlacedInput) : List PlacedInput :=
  let deadlines := mintedDeadlines placements
  placements.map fun p =>
    match deadlines.lookup p.jobId with
    | some deadline => p.retime spell deadline
    | none => p

def placeInputs (inputs : List Input) (g : Grouping) (outcomes : List Placed)
    (inherited : List Inherited) : Option (List PlacedInput) :=
  (firstPlacements spell inputs g outcomes inherited).map (retimeMinted spell)

end Placements

end Pipette
