import Mathlib.Data.Prod.Lex
import Mathlib.Order.WithBot
import Pipette.Planner.Rules

/-! The expansion of a scheduler plan into the job bodies that plan ingestion stages. -/
namespace Pipette.Planner

open Sorting

structure JobBody where
  requires : List CapabilityFlag
  anyOf : List (List CapabilityFlag)
  clients : List ClientId
  excludeClients : List ClientId
  excludes : List CapabilityFlag
  notAllOf : List (List CapabilityFlag)
  expiresAt : Option PlanExpiresAt
  mergeDuplicates : Option Bool
  spec : ClientRunSpec

inductive ExpandError
  | capabilityRule (error : VariantRuleError)
  | cells (error : SchedulerPlanError)
  | requirement (runtime : Runtime) (error : CapabilityRuleError)

def flagsJson (flags : List CapabilityFlag) : Json := .strArray (flags.map CapabilityFlag.raw)

def groupsJson (groups : List (List CapabilityFlag)) : Json := .arr (groups.map flagsJson)

def idsJson (ids : List ClientId) : Json := .strArray (ids.map ClientId.raw)

def unlessEmpty {α : Type} (field : String) (json : List α → Json) (items : List α) :
    List (String × Json) :=
  if items.isEmpty then [] else [(field, json items)]

def ClientRunSpec.toJson (spec : ClientRunSpec) : Json :=
  .obj [("benchmark", .str spec.benchmark), ("model", spec.model.toJson),
    ("runtime", spec.runtime.toJson),
    ("runtime_flags", (spec.runtimeFlags.map CellFlags.json).getD .null),
    ("model_flags", (spec.modelFlags.map ModelFlags.json).getD .null),
    ("benchmark_flags", (spec.benchmarkFlags.map CellFlags.json).getD .null)]

namespace JobBody

def clauseFields (body : JobBody) : List (String × Json) :=
  [("requires", flagsJson body.requires), ("any_of", groupsJson body.anyOf),
    ("clients", idsJson body.clients)] ++
    unlessEmpty "exclude_clients" idsJson body.excludeClients ++
    unlessEmpty "excludes" flagsJson body.excludes ++
    unlessEmpty "not_all_of" groupsJson body.notAllOf ++
    (body.expiresAt.map fun e => ("expires_at", Json.str e.toWire)).toList ++
    (body.mergeDuplicates.map fun b => ("merge_duplicates", Json.bool b)).toList

def toJson (body : JobBody) : Json :=
  .obj (body.clauseFields ++ [("spec", body.spec.toJson)])

def withoutAuthToken (body : JobBody) : JobBody :=
  { body with spec.model := body.spec.model.withoutAuthToken }

def hasToken (body : JobBody) : Bool := body.spec.model.authToken.isSome

/-- A variant without versions adds no group. The token of the model stays. -/
def fromCell (cell : SchedulerCell) (expiresAt : Option PlanExpiresAt)
    (mergeDuplicates : Option Bool) : Except ExpandError JobBody := do
  let effective ← (resolveEffectiveRequirement cell.eligibility.requires cell.spec.runtime).mapError
    (.requirement cell.spec.runtime)
  pure
    { requires := effective.requires
      anyOf := withVersions effective.anyOf cell.eligibility.clientVersions
      clients := cell.eligibility.clients
      excludeClients := cell.eligibility.excludeClients
      excludes := cell.eligibility.excludes
      notAllOf := cell.eligibility.notAllOf
      expiresAt, mergeDuplicates
      spec := cell.spec }

end JobBody

/-- The two ways a value is written: distinct values have distinct texts. -/
structure Serializer (Text : Type) where
  toStringPretty : Json → Text
  toString : Json → Text
  pretty_injective : Function.Injective toStringPretty
  injective : Function.Injective toString

structure Rendered (Text : Type) where
  key : Text
  gated : Option Text
  body : JobBody

section Expand

variable {Text : Type} [LinearOrder Text]

def Rendered.sortKey (r : Rendered Text) : Text ×ₗ (Bool ×ₗ WithBot Text) :=
  toLex (r.key, toLex (r.gated.isNone, r.gated.elim ⊥ WithBot.some))

/-- Bodies that merge: a body with a token never merges with one without. -/
def Rendered.merges (r : Rendered Text) : Text ×ₗ Bool := toLex (r.key, r.gated.isNone)

variable (ser : Serializer Text)

/-- Only a body with a token needs the second key, and a copy without it for the first. -/
def JobBody.render (body : JobBody) : Rendered Text :=
  match body.spec.model.authToken with
  | some _ =>
    ⟨ser.toStringPretty body.withoutAuthToken.toJson, some (ser.toString body.spec.model.toJson),
      body⟩
  | none => ⟨ser.toStringPretty body.toJson, none, body⟩

structure Expansion where
  bodies : List Json
  warnings : List PlanWarning

def jobCount (plan : SchedulerPlan) : Except ExpandError Nat :=
  plan.cellUpperBound.mapError .cells

/-- The bodies of the distinct cells, which a hash set gives in the order `visit`. -/
def expand (visit : List SchedulerCell → List SchedulerCell) (plan : SchedulerPlan) :
    Except ExpandError Expansion := do
  let warnings ← (validateCapabilityRules plan).mapError .capabilityRule
  let cells ← plan.cells.mapError .cells
  let rendered ← (visit cells.dedup).mapM fun cell => do
    let body ← JobBody.fromCell cell plan.expiresAt plan.mergeDuplicates
    pure (body.render ser)
  let rendered := dedupOn Rendered.merges (sortOn Rendered.sortKey rendered)
  pure ⟨rendered.map fun r => r.body.toJson, warnings⟩

end Expand

end Pipette.Planner
