import Pipette.Core.Principal
import Pipette.Planner.Scheduler

/-! The capability rules: the hardware policy that a runtime injects into the requirements of a cell,
and the contradictions that reject a variant. -/
namespace Pipette.Planner

open Sorting

inductive CapabilityRuleError
  | oneOfNoCommit (oneOf : List String)
  | oneOfMultipleCommit (committed oneOf : List String)
  | exclusiveNamespaceConflict (ns first second : String)
  | pinExcludedFromFamily (ns pinned : String) (family : List String)
  | excludesRequiredFlag (flag : String)
  | notAllOfWithinRequires (group : List String)
  | excludesCoversAnyOfGroup (group : List String)
  | vacuousExclusionGroup (ns first second : String)
  | rosterWhollyExcluded
  -- typos of the tables
  | ruleTableFlagNotCanonical (raw : String)
  | ruleTableUnknownFloor (floor : String)
  | ruleTableEmptyGroup

structure VariantRuleError where
  variant : Nat
  runtime : RuntimeType
  rule : CapabilityRuleError

inductive PlanWarning
  /-- `exclude_clients` denies every client `clients` names. -/
  | rosterDenied (variant : Nat)
  /-- `client_versions` narrows only the `requires` path. -/
  | versionsNarrowRequires (variant : Nat)
  /-- At most the listed clients can run the variant. -/
  | deadCapabilityPath (fault : VariantRuleError) (listed : Nat)

inductive Group
  /-- `floor` and what follows it in `list`. -/
  | atLeast (list : List String) (floor : String)
  | anyOf (members : List String)

/-- Injected if `ifPresent` is a committed or unconditionally injected flag. -/
structure When where
  ifPresent : String
  require : List String
  anyOf : List Group

structure Policy where
  requires : List String
  /-- The author's own `requires` must hold exactly one of these, if there are any. -/
  oneOf : List String
  anyOf : List Group
  when : List When

def Policy.empty : Policy := ⟨[], [], [], []⟩

def iphones : List String :=
  ["device:iphonexs", "device:iphonexsmax", "device:iphonexr", "device:iphone11",
    "device:iphone11pro", "device:iphone11promax", "device:iphonese(2ndgen)",
    "device:iphone12mini", "device:iphone12", "device:iphone12pro", "device:iphone12promax",
    "device:iphone13mini", "device:iphone13", "device:iphone13pro", "device:iphone13promax",
    "device:iphonese(3rdgen)", "device:iphone14", "device:iphone14plus", "device:iphone14pro",
    "device:iphone14promax", "device:iphone15", "device:iphone15plus", "device:iphone15pro",
    "device:iphone15promax", "device:iphone16", "device:iphone16plus", "device:iphone16e",
    "device:iphone16pro", "device:iphone16promax", "device:iphone17", "device:iphone17e",
    "device:iphoneair", "device:iphone17pro", "device:iphone17promax", "device:iphone18pro",
    "device:iphone18promax", "device:iphoneduo"]

def ipads : List String :=
  ["device:ipadmini(5thgen)", "device:ipadair(3rdgen)", "device:ipad(8thgen)",
    "device:ipadpro11-inch(1stgen)", "device:ipadpro12.9-inch(3rdgen)",
    "device:ipadpro11-inch(2ndgen)", "device:ipadpro12.9-inch(4thgen)", "device:ipad(9thgen)",
    "device:ipadair(4thgen)", "device:ipad(10thgen)", "device:ipadmini(6thgen)",
    "device:ipad(a16)", "device:ipadmini(a17pro)", "device:ipadpro11-inch(3rdgen)",
    "device:ipadpro12.9-inch(5thgen)", "device:ipadair(5thgen)", "device:ipadpro11-inch(4thgen)",
    "device:ipadpro12.9-inch(6thgen)", "device:ipadair11-inch(m2)", "device:ipadair13-inch(m2)",
    "device:ipadair11-inch(m3)", "device:ipadair13-inch(m3)", "device:ipadpro11-inch(m4)",
    "device:ipadpro13-inch(m4)", "device:ipadair11-inch(m4)", "device:ipadair13-inch(m4)",
    "device:ipadpro11-inch(m5)", "device:ipadpro13-inch(m5)"]

def appleSilicon : List String :=
  ["chip:applem1", "chip:applem1pro", "chip:applem1max", "chip:applem1ultra", "chip:applem2",
    "chip:applem2pro", "chip:applem2max", "chip:applem2ultra", "chip:applem3", "chip:applem3pro",
    "chip:applem3max", "chip:applem3ultra", "chip:applem4", "chip:applem4pro", "chip:applem4max",
    "chip:applem4ultra", "chip:applem5", "chip:applem5pro", "chip:applem5max",
    "chip:applem5ultra"]

def policyFor : Runtime → Policy
  | .appleFoundation _ =>
    { requires := []
      oneOf := ["os:ios", "os:ipados", "os:macos"]
      anyOf := []
      when :=
        [⟨"os:ios", [], [.atLeast iphones "device:iphone15pro"]⟩,
          ⟨"os:ipados", [], [.atLeast ipads "device:ipadmini(a17pro)"]⟩,
          ⟨"os:macos", [], [.atLeast appleSilicon "chip:applem1"]⟩] }
  | .appleCoreAiMacosPipette _ => ⟨["os:macos"], [], [.atLeast appleSilicon "chip:applem1"], []⟩
  | .mlxMacosPipette _ => ⟨["os:macos"], [], [.atLeast appleSilicon "chip:applem1"], []⟩
  | .mlxIosPipette _ =>
    { requires := []
      oneOf := ["os:ios", "os:ipados"]
      anyOf := []
      when :=
        [⟨"os:ios", [], [.atLeast iphones "device:iphonexs"]⟩,
          ⟨"os:ipados", [], [.atLeast ipads "device:ipadmini(5thgen)"]⟩] }
  | .dockerVllm _ | .dockerSglang _ | .uvVllm _ | .uvSglang _ =>
    ⟨[], [], [.anyOf ["accel:gpu", "cpu_feature:avx512f"]], []⟩
  | .uvOpenvino _ => .empty
  -- the execution provider is the hardware target
  | .uvOnnxGenai .cuda _ => ⟨["accel:gpu"], [], [], []⟩
  | .uvOnnxGenai .cpu _ | .uvOnnxGenai .directMl _ | .uvOnnxGenai .winMl _
  | .uvOnnxGenai (.custom _) _ => .empty
  | .ovms _ => .empty
  | .trtEdgellm _ => ⟨["accel:gpu", "cpu_vendor:nvidia"], [], [], []⟩
  | .onnxGenaiIosPipette _ => ⟨[], ["os:ios", "os:ipados"], [], []⟩
  | .llamacppCliStockTools _ => .empty
  | .llamacppApkPipette _ => ⟨["os:android"], [], [], []⟩
  | .llamacppIosPipette _ => ⟨[], ["os:ios", "os:ipados"], [], []⟩

def exclusiveNamespaces : List String :=
  ["os", "os_version", "arch", "os_family", "device", "chip", "form_factor", "ram_bytes", "gpu",
    "gpu_vram_bytes", "npu", "npu_vram_bytes"]

def requiredSuffix : String := ":required"

def markedNamespaces : List String := ["tag", "client_version"]

def namespaceOf (flag : String) : Option String := (splitOnce ':' flag).map Prod.fst

def unmarked (flag : CapabilityFlag) : CapabilityFlag :=
  (do
    let plain ← (stripSuffix requiredSuffix flag.raw.toList).map String.ofList
    let ns ← namespaceOf plain
    if ns ∈ markedNamespaces then CapabilityFlag.tryNew plain else none).getD flag

structure EffectiveRequirement where
  requires : List CapabilityFlag
  anyOf : List (List CapabilityFlag)
deriving DecidableEq

def flag (raw : String) : Except CapabilityRuleError CapabilityFlag :=
  match CapabilityFlag.tryNew raw with
  | some flag => .ok flag
  | none => .error (.ruleTableFlagNotCanonical raw)

def flags (raw : List String) : Except CapabilityRuleError (List CapabilityFlag) := raw.mapM flag

def normalized (flags : List CapabilityFlag) : List CapabilityFlag := sortDedup flags

def resolveGroup : Group → Except CapabilityRuleError (List CapabilityFlag)
  | .atLeast list floor =>
    match list.dropWhile (· ≠ floor) with
    | [] => .error (.ruleTableUnknownFloor floor)
    | tail => flags tail
  | .anyOf [] => .error .ruleTableEmptyGroup
  | .anyOf members => flags members

def resolveGroups (groups : List Group) : Except CapabilityRuleError (List (List CapabilityFlag)) :=
  groups.mapM resolveGroup

def checkOneOf (committed : List CapabilityFlag) (oneOf : List String) :
    Except CapabilityRuleError Unit :=
  if oneOf.isEmpty then .ok ()
  else
    match oneOf.filter fun member => committed.any fun f => f.raw = member with
    | [_] => .ok ()
    | [] => .error (.oneOfNoCommit oneOf)
    | chosen => .error (.oneOfMultipleCommit chosen oneOf)

def exclusiveNamespaceOf (flag : String) : Option String :=
  (namespaceOf flag).filter (· ∈ exclusiveNamespaces)

/-- The first flag that differs from the one before it in its exclusive namespace, with that
namespace and that flag. `seen` has the last flag of each namespace. -/
def firstConflict (seen : List (String × String)) : List String → Option (String × String × String)
  | [] => none
  | flag :: rest =>
    match exclusiveNamespaceOf flag with
    | none => firstConflict seen rest
    | some ns =>
      match seen.lookup ns with
      | some previous =>
        if previous ≠ flag then some (ns, previous, flag)
        else firstConflict ((ns, flag) :: seen) rest
      | none => firstConflict ((ns, flag) :: seen) rest

def checkNoExclusiveConflict (flat : List CapabilityFlag) : Except CapabilityRuleError Unit :=
  match firstConflict [] (flat.map (·.raw)) with
  | some (ns, first, second) => .error (.exclusiveNamespaceConflict ns first second)
  | none => .ok ()

/-- Only a group wholly in one exclusive namespace constrains a flat pin. -/
def homogeneousExclusiveNamespace (group : List CapabilityFlag) : Option String := do
  let first ← group.head?
  let ns ← exclusiveNamespaceOf first.raw
  if group.all fun m => namespaceOf m.raw = some ns then some ns else none

def checkPin (flat group : List CapabilityFlag) : Except CapabilityRuleError Unit :=
  match homogeneousExclusiveNamespace group with
  | none => .ok ()
  | some ns =>
    match flat.find? fun f => namespaceOf f.raw = some ns with
    | none => .ok ()
    | some pin =>
      if pin ∈ group then .ok ()
      else .error (.pinExcludedFromFamily ns pin.raw (group.map (·.raw)))

def checkPinsWithinFamilies (flat : List CapabilityFlag) (groups : List (List CapabilityFlag)) :
    Except CapabilityRuleError Unit :=
  groups.forM (checkPin flat)

/-- The flags and the groups a policy adds. A committed or unconditionally injected flag triggers a
block; what a block injects does not. -/
def injection (committed : List CapabilityFlag) (policy : Policy) :
    Except CapabilityRuleError (List CapabilityFlag × List (List CapabilityFlag)) := do
  let required ← flags policy.requires
  let groups ← resolveGroups policy.anyOf
  let triggered := policy.when.filter fun w =>
    (committed ++ required).any fun f => f.raw = w.ifPresent
  let blocks ← triggered.mapM fun w => do
    let require ← flags w.require
    let anyOf ← resolveGroups w.anyOf
    pure (require, anyOf)
  pure (required ++ blocks.flatMap Prod.fst, groups ++ blocks.flatMap Prod.snd)

/-- The choice of a platform is checked before any injection, so a policy never satisfies it. -/
def resolveFromPolicy (committed : List CapabilityFlag) (policy : Policy) :
    Except CapabilityRuleError EffectiveRequirement := do
  checkOneOf committed policy.oneOf
  let (injected, groups) ← injection committed policy
  let flat := committed ++ injected
  checkNoExclusiveConflict flat
  checkPinsWithinFamilies flat groups
  pure ⟨normalized flat, groups.map normalized⟩

/-- A roster-only variant gets no injection: an injected flag would open a second path. -/
def resolveEffectiveRequirement (committed : List CapabilityFlag) (runtime : Runtime) :
    Except CapabilityRuleError EffectiveRequirement :=
  if committed.isEmpty then .ok ⟨[], []⟩ else resolveFromPolicy committed (policyFor runtime)

/-- A `not_all_of` group with two distinct flags of one exclusive namespace excludes nobody. -/
def vacuousExclusionGroup (groups : List (List CapabilityFlag)) : Option CapabilityRuleError :=
  groups.findSome? fun group =>
    (firstConflict [] (group.map (·.raw))).map fun (ns, first, second) =>
      .vacuousExclusionGroup ns first second

def deadCapabilityBranch (effective : EffectiveRequirement) (excludes : List CapabilityFlag)
    (notAllOf : List (List CapabilityFlag)) : Option CapabilityRuleError :=
  match effective.requires.find? (· ∈ excludes) with
  | some flag => some (.excludesRequiredFlag flag.raw)
  | none =>
    match notAllOf.find? fun group => group.all (· ∈ effective.requires) with
    | some group => some (.notAllOfWithinRequires (group.map (·.raw)))
    | none =>
      (effective.anyOf.find? fun group => group.all (· ∈ excludes)).map fun group =>
        .excludesCoversAnyOfGroup (group.map (·.raw))

def rosterIsLive (clients excludeClients : List ClientId) : Bool :=
  clients.any fun id => decide (id ∉ excludeClients)

def withVersions (anyOf : List (List CapabilityFlag)) (versions : List CapabilityFlag) :
    List (List CapabilityFlag) :=
  if versions.isEmpty then anyOf else anyOf ++ [versions]

/-- Exclusions are checked against the effective requirement, which is what the server matches. -/
def checkExclusions (fault : CapabilityRuleError → VariantRuleError) (variant : SchedulerVariant)
    (live : Bool) (effective : EffectiveRequirement) : Except VariantRuleError (List PlanWarning) :=
  match vacuousExclusionGroup variant.notAllOf with
  | some error => .error (fault error)
  | none =>
    if effective.requires.isEmpty then
      if live then .ok [] else .error (fault .rosterWhollyExcluded)
    else
      let versions := (Eligibility.new variant).clientVersions.map unmarked
      match deadCapabilityBranch ⟨effective.requires, withVersions effective.anyOf versions⟩
        variant.excludes variant.notAllOf with
      | none => .ok []
      | some error =>
        if live then .ok [.deadCapabilityPath (fault error) variant.clients.length]
        else .error (fault error)

/-- The rules read the flags the server matches, so without the mark. -/
def checkVariantRuntime (index : Nat) (variant : SchedulerVariant) (live : Bool)
    (runtime : Runtime) : Except VariantRuleError (List PlanWarning) := do
  let fault := VariantRuleError.mk index (.of runtime)
  let effective ← (resolveEffectiveRequirement (variant.requires.map unmarked) runtime).mapError
    fault
  checkExclusions fault variant live effective

def checkVariant (index : Nat) (variant : SchedulerVariant) :
    Except VariantRuleError (List PlanWarning) := do
  let live := rosterIsLive variant.clients variant.excludeClients
  let denied := if !live && !variant.clients.isEmpty then [PlanWarning.rosterDenied index] else []
  let narrow :=
    if live && !variant.clientVersions.isEmpty then [PlanWarning.versionsNarrowRequires index]
    else []
  let warnings ← variant.runtimes.mapM (checkVariantRuntime index variant live)
  pure (denied ++ narrow ++ warnings.flatten)

/-- A dead capability path is fatal only when the roster is dead too; else it warns. -/
def validateCapabilityRules (plan : SchedulerPlan) : Except VariantRuleError (List PlanWarning) :=
  (plan.variants.zipIdx.mapM fun (variant, index) => checkVariant index variant).map List.flatten

end Pipette.Planner
