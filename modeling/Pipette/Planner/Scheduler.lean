import Pipette.Lib.Result
import Pipette.Lib.Sorting
import Pipette.Planner.Matrix

/-! The scheduler plan: who may run a variant, its cells in document order, and the count of them
that builds none. -/
namespace Pipette.Planner

open Sorting

def isCanonicalCapabilityFlag (s : String) : Bool :=
  !s.toList.isEmpty && s.toList.all fun c => !isWhitespace c && decide (c.toLower = c)

structure CapabilityFlag where
  raw : String
  canonical : isCanonicalCapabilityFlag raw = true
deriving DecidableEq

theorem CapabilityFlag.ext {a b : CapabilityFlag} (h : a.raw = b.raw) : a = b := by
  cases a
  cases b
  cases h
  rfl

instance : LinearOrder CapabilityFlag :=
  LinearOrder.lift' CapabilityFlag.raw fun _ _ => CapabilityFlag.ext

def CapabilityFlag.tryNew (s : String) : Option CapabilityFlag :=
  if h : isCanonicalCapabilityFlag s = true then some ⟨s, h⟩ else none

instance : LinearOrder ClientId :=
  LinearOrder.lift' ClientId.raw fun a b h => by cases a; cases b; exact congrArg _ h

/-- A block of benchmarks, models and runtimes, and the clients that may run it. `clientVersions`
are the flags its versions make. -/
structure SchedulerVariant where
  models : List Model
  runtimes : List Runtime
  requires : List CapabilityFlag
  clients : List ClientId
  clientVersions : List CapabilityFlag
  excludeClients : List ClientId
  excludes : List CapabilityFlag
  notAllOf : List (List CapabilityFlag)
  benchmarks : Option (List String)
  runtimeFlags : List CellFlags
  modelFlags : List ModelFlags
  benchmarkFlags : List CellFlags

structure Eligibility where
  requires : List CapabilityFlag
  clients : List ClientId
  clientVersions : List CapabilityFlag
  excludeClients : List ClientId
  excludes : List CapabilityFlag
  notAllOf : List (List CapabilityFlag)
deriving DecidableEq

def normalizedFlags (flags : List CapabilityFlag) : List CapabilityFlag := sortDedup flags

def normalizedIds (ids : List ClientId) : List ClientId := sortDedup ids

def Eligibility.new (variant : SchedulerVariant) : Eligibility where
  requires := normalizedFlags variant.requires
  clients := normalizedIds variant.clients
  clientVersions := normalizedFlags variant.clientVersions
  excludeClients := normalizedIds variant.excludeClients
  excludes := normalizedFlags variant.excludes
  notAllOf := sortDedup (variant.notAllOf.map normalizedFlags)

inductive PlanExpiresAt
  | at_ (text : String)
  | never
deriving DecidableEq

def PlanExpiresAt.toWire : PlanExpiresAt → String
  | at_ text => text
  | never => "never"

structure SchedulerPlan where
  expiresAt : Option PlanExpiresAt
  mergeDuplicates : Option Bool
  benchmarks : Option (List String)
  variants : List SchedulerVariant
  benchmarkTypes : String → Option BenchmarkType

structure ClientRunSpec where
  benchmark : String
  model : Model
  runtime : Runtime
  runtimeFlags : Option CellFlags
  modelFlags : Option ModelFlags
  benchmarkFlags : Option CellFlags
deriving DecidableEq

structure SchedulerCell where
  spec : ClientRunSpec
  eligibility : Eligibility
deriving DecidableEq

structure SchedulerPlanError where
  index : Nat
  error : VariantError

def atVariant {α : Type} (index : Nat) : Except VariantError α → Except SchedulerPlanError α :=
  Except.mapError fun error => ⟨index, error⟩

namespace SchedulerPlan

variable (plan : SchedulerPlan)

def benchmarksForVariant (variant : SchedulerVariant) : Except VariantError (List String) :=
  resolveBenchmarks variant.benchmarks plan.benchmarks

def cell (variant : SchedulerVariant) (benchmark : String) (model : Model) (runtime : Runtime) :
    SchedulerCell :=
  let bt := plan.benchmarkTypes benchmark
  { spec :=
      { benchmark, model, runtime
        runtimeFlags := resolveCellFlags variant.runtimeFlags bt runtime model
        modelFlags := resolveModelFlags variant.modelFlags bt model
        benchmarkFlags := resolveCellFlags variant.benchmarkFlags bt runtime model }
    eligibility := .new variant }

def variantCells (index : Nat) (variant : SchedulerVariant) :
    Except SchedulerPlanError (List SchedulerCell) := do
  let pairs ← atVariant index (runnablePairsOf variant.models variant.runtimes)
  let benchmarks ← atVariant index (plan.benchmarksForVariant variant)
  pure (benchmarks.flatMap fun benchmark =>
    pairs.map fun (model, runtime) => plan.cell variant benchmark model runtime)

/-- Every cell in document order: variant, then benchmark, then pair. A cell two variants both
produce appears twice. -/
def cells : Except SchedulerPlanError (List SchedulerCell) :=
  (plan.variants.zipIdx.mapM fun (variant, index) => plan.variantCells index variant).map
    List.flatten

def variantUpperBound (index : Nat) (variant : SchedulerVariant) :
    Except SchedulerPlanError Nat := do
  let pairs ← atVariant index (runnableTypePairsOf variant.models variant.runtimes)
  let benchmarks ← atVariant index (plan.benchmarksForVariant variant)
  pure (saturatingMul benchmarks.length
    (pairs.foldl (fun sum pair => saturatingAdd sum pair.2.2) 0))

def cellUpperBound : Except SchedulerPlanError Nat :=
  plan.variants.zipIdx.foldlM (fun total (variant, index) => do
    let count ← plan.variantUpperBound index variant
    pure (saturatingAdd total count)) 0

end SchedulerPlan

end Pipette.Planner
