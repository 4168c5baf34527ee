import Pipette.Core.Matching
import Pipette.Lib.Result
import Pipette.Lib.Sorting
import Pipette.Pipeline.CatalogNames
import Pipette.Pipeline.VaultCheck
import Pipette.Planner.Matrix

/-! Which member of a catalog entry a bare name stands for: the choice a device makes from its own
flags, and the one a plan makes from the clauses of a variant before any device is known. -/
namespace Pipette

open Planner (Model Runtime RuntimeType)

inductive ModelFormat
  | gguf
  | mlx
  | coreAi
  | torch
  | openvino
  | onnx
deriving DecidableEq, Repr

def ModelFormat.text : ModelFormat → String
  | .gguf => "gguf"
  | .mlx => "mlx"
  | .coreAi => "core_ai"
  | .torch => "torch"
  | .openvino => "openvino"
  | .onnx => "onnx"

def ModelFormat.fromStr : String → Option ModelFormat
  | "gguf" => some .gguf
  | "mlx" => some .mlx
  | "core_ai" => some .coreAi
  | "torch" => some .torch
  | "openvino" => some .openvino
  | "onnx" => some .onnx
  | _ => none

def isQuantizationLabel (s : String) : Bool :=
  s ≠ "" && s.toList.all fun c => c.isLower || c.isDigit || c = '_'

structure QuantizationLabel where
  raw : String
  valid : isQuantizationLabel raw = true
deriving DecidableEq

def QuantizationLabel.tryNew (s : String) : Option QuantizationLabel :=
  if h : isQuantizationLabel s = true then some ⟨s, h⟩ else none

inductive DescriptorKind
  | runtime
  | model
deriving DecidableEq, Repr

inductive DescriptorMemberKey
  | runtime (flavor : Option String)
  | model (format : ModelFormat) (quantization : QuantizationLabel)
deriving DecidableEq

inductive MemberBody
  | runtime (runtime : Runtime) (flavor : Option String)
  | model (model : Model) (format : ModelFormat) (quantization : QuantizationLabel)
deriving DecidableEq

structure DescriptorMember where
  body : MemberBody
  digest : String
deriving DecidableEq

def isAppRuntime : RuntimeType → Bool
  | .llamacppIosPipette | .mlxIosPipette | .onnxGenaiIosPipette => true
  | _ => false

def buildFlag (digest : String) : String := "runtime:descriptor:" ++ digest

namespace DescriptorMember

def runtime (member : DescriptorMember) : Option Runtime :=
  match member.body with
  | .runtime runtime _ => some runtime
  | .model .. => none

def flavor (member : DescriptorMember) : Option String :=
  match member.body with
  | .runtime _ flavor => flavor
  | .model .. => none

def descriptorKind (member : DescriptorMember) : DescriptorKind :=
  match member.body with
  | .runtime .. => .runtime
  | .model .. => .model

def key (member : DescriptorMember) : DescriptorMemberKey :=
  match member.body with
  | .runtime _ flavor => .runtime flavor
  | .model _ format quantization => .model format quantization

def descriptor (member : DescriptorMember) : Json :=
  match member.body with
  | .runtime runtime _ => runtime.toJson
  | .model model _ _ => model.toJson

def appBuildFlag (member : DescriptorMember) : Option String :=
  (member.runtime.filter fun runtime => isAppRuntime (RuntimeType.of runtime)).map fun _ =>
    buildFlag member.digest

end DescriptorMember

structure MemberedEntry extends DescriptorEntry where
  members : List DescriptorMember
  nonempty : members ≠ []

def MemberedEntry.descriptorKind (entry : MemberedEntry) : DescriptorKind :=
  (entry.members.head entry.nonempty).descriptorKind

structure OfferRule where
  runtimeType : RuntimeType
  flavor : String
  requires : Finset String
  anyOf : List (Finset String)

structure DescriptorCatalogConfig where
  offerRules : List OfferRule

def hasKnownFlavors : RuntimeType → Bool
  | .llamacppCliStockTools | .ovms | .llamacppIosPipette | .mlxIosPipette
  | .onnxGenaiIosPipette => true
  | .llamacppApkPipette | .mlxMacosPipette | .appleCoreAiMacosPipette | .dockerVllm
  | .dockerSglang | .uvVllm | .uvSglang | .uvOpenvino | .uvOnnxGenai | .appleFoundation
  | .trtEdgellm => false

def DescriptorCatalogConfig.ruleFor (config : DescriptorCatalogConfig) (runtimeType : RuntimeType)
    (flavor : String) : Option OfferRule :=
  config.offerRules.find? fun rule => rule.runtimeType = runtimeType && rule.flavor = flavor

inductive OfferError
  | modelMember
  | unsupported (runtimeType : RuntimeType)
  | noRule (runtimeType : RuntimeType) (flavor : String)
  | notMet
  | noBuild (flag : String)
deriving DecidableEq, Repr

namespace DescriptorOffer

def coverage (config : DescriptorCatalogConfig) (member : DescriptorMember) :
    Except OfferError OfferRule := do
  let runtime ← orElse .modelMember member.runtime
  let runtimeType := RuntimeType.of runtime
  let noRule := OfferError.noRule runtimeType (member.flavor.getD "<none>")
  if !hasKnownFlavors runtimeType then throw (.unsupported runtimeType)
  let flavor ← orElse noRule member.flavor
  orElse noRule (config.ruleFor runtimeType flavor)

/-- A device must meet the member's rule and, for a runtime that the iOS app builds in, report the
member's build flag. -/
def offerFlags (config : DescriptorCatalogConfig) (member : DescriptorMember)
    (flags : Finset String) : Except OfferError Unit := do
  let rule ← coverage config member
  if !capabilitiesSatisfy rule.requires rule.anyOf flags then throw .notMet
  match member.appBuildFlag with
  | some flag => if flag ∈ flags then pure () else throw (.noBuild flag)
  | none => pure ()

def offered (config : DescriptorCatalogConfig) (member : DescriptorMember)
    (flags : Finset String) : Bool :=
  (offerFlags config member flags).isOk

structure Withheld where
  member : DescriptorMember
  reason : OfferError
deriving DecidableEq

inductive Resolution
  | resolved (member : DescriptorMember)
  | withheld (members : List Withheld)
deriving DecidableEq

def withheldReason (config : DescriptorCatalogConfig) (flags : Finset String)
    (member : DescriptorMember) : Option Withheld :=
  match offerFlags config member flags with
  | .ok () => none
  | .error reason => some ⟨member, reason⟩

/-- The first member that the rules offer to a device's flags or, when they offer none, why. -/
def resolve (entry : MemberedEntry) (config : DescriptorCatalogConfig) (flags : Finset String) :
    Resolution :=
  match entry.members.find? fun member => offered config member flags with
  | some member => .resolved member
  | none => .withheld (entry.members.filterMap (withheldReason config flags))

end DescriptorOffer

def splitColons : List Char → Option (List Char × List Char)
  | [] => none
  | ':' :: ':' :: rest => some ([], rest)
  | c :: rest => (splitColons rest).map fun parts => (c :: parts.1, parts.2)

def splitOnceColons (s : String) : Option (String × String) :=
  (splitColons s.toList).map fun parts => (String.ofList parts.1, String.ofList parts.2)

inductive SelectorError
  | name (source : QualifiedNameError)
  | emptyPart
  | tooManyParts
  | incompleteModel
  | runtimeKeyShape
  | unknownFormat (format : String)
  | quantization
deriving DecidableEq, Repr

structure MemberSelector where
  name : QualifiedCatalogName
  memberKey : DescriptorMemberKey

namespace MemberSelector

def part (s : String) : Except SelectorError String :=
  if s = "" then .error .emptyPart else .ok s

def selectorMemberKey (key : Option String) (kind : DescriptorKind) :
    Except SelectorError DescriptorMemberKey :=
  match kind, key with
  | .runtime, none => .ok (.runtime none)
  | .runtime, some key =>
    if (splitOnceColons key).isSome then .error .runtimeKeyShape
    else (part key).map fun flavor => .runtime (some flavor)
  | .model, none => .error .incompleteModel
  | .model, some key =>
    match splitOnceColons key with
    | none => do
      let _ ← part key
      throw .incompleteModel
    | some parts => do
      if (splitOnceColons parts.2).isSome then throw .tooManyParts
      let format ← part parts.1
      let format ← orElse (.unknownFormat parts.1) (ModelFormat.fromStr format)
      let quantization ← part parts.2
      let quantization ← orElse .quantization (QuantizationLabel.tryNew quantization)
      pure (.model format quantization)

def parseForEntry (s : String) (entry : MemberedEntry) : Except SelectorError MemberSelector := do
  let name := ((splitOnceColons s).map Prod.fst).getD s
  let key := (splitOnceColons s).map Prod.snd
  let name ← (QualifiedCatalogName.fromStr name).mapError .name
  let memberKey ← selectorMemberKey key entry.descriptorKind
  pure ⟨name, memberKey⟩

end MemberSelector

/-- The two ways a variant admits a device: by its clauses when `requires` is not empty, or as a
listed client, with the flags that client has. -/
structure Eligibility where
  requires : Finset String
  anyOf : List (Finset String)
  clients : List (Finset String)

def Eligibility.Admits (eligibility : Eligibility) (flags : Finset String) : Prop :=
  capabilitiesSatisfy eligibility.requires eligibility.anyOf flags = true ∨
    flags ∈ eligibility.clients

namespace DescriptorPlan

inductive Warning
  | hiddenName
deriving DecidableEq, Repr

structure Resolved where
  member : DescriptorMember
  warnings : List Warning
deriving DecidableEq

inductive ResolveError
  | unknownName (selector : String)
  | tombstoned (name available : String)
  | invalidSelector (selector : String) (reason : SelectorError) (available : String)
  | missingVaultResource (name member : String) (resourceId : VaultResourceId) (available : String)
  | unknownMember (name member available : String)
  | noCandidate (name available : String)
  | notOfferedToAll (name candidate available : String)
  | clientMissingBuild (name candidate flag : String)
  | buildNotRequired (name candidate flag : String)
deriving DecidableEq

def memberKey (member : DescriptorMember) : String :=
  match member.body with
  | .model _ format quantization => format.text ++ "::" ++ quantization.raw
  | .runtime _ flavor => flavor.getD "<none>"

def memberKeys (entry : MemberedEntry) : String :=
  String.intercalate ", " (entry.members.map memberKey)

def namedResources (descriptor : Json) : List VaultResourceId :=
  match VaultCheck.vaultRefs descriptor with
  | .ok refs => refs.map VaultCheck.VaultRef.resourceId
  | .error _ => []

def checkResources (member : DescriptorMember) (name available : String)
    (availableResources : List VaultResourceId) : Except ResolveError Unit :=
  let missing := (namedResources member.descriptor).filter fun id => id ∉ availableResources
  match Sorting.sortOn (fun id => id.raw.toList) missing with
  | [] => .ok ()
  | resourceId :: _ =>
    .error (.missingVaultResource name (memberKey member) resourceId available)

def missingBuild (config : DescriptorCatalogConfig) (member : DescriptorMember)
    (flags : Finset String) : Option String :=
  match DescriptorOffer.offerFlags config member flags with
  | .error (.noBuild flag) => some flag
  | _ => none

def couldOffer (eligibility : Eligibility) (config : DescriptorCatalogConfig)
    (member : DescriptorMember) : Bool :=
  (decide (eligibility.requires ≠ ∅) && eligibility.anyOf.all fun group => decide (group ≠ ∅)) ||
    eligibility.clients.any fun flags => DescriptorOffer.offered config member flags

def candidate (eligibility : Eligibility) (config : DescriptorCatalogConfig)
    (member : DescriptorMember) : Option (DescriptorMember × OfferRule) :=
  match DescriptorOffer.coverage config member with
  | .ok rule => if couldOffer eligibility config member then some (member, rule) else none
  | .error _ => none

def noCandidate (entry : MemberedEntry) (eligibility : Eligibility)
    (config : DescriptorCatalogConfig) : ResolveError :=
  let missing := entry.members.findSome? fun member =>
    member.appBuildFlag.bind fun _ =>
      (eligibility.clients.findSome? (missingBuild config member)).map fun flag =>
        ResolveError.clientMissingBuild entry.name.raw (memberKey member) flag
  missing.getD (.noCandidate entry.name.raw (memberKeys entry))

def capabilityPass (eligibility : Eligibility) (rule : OfferRule) : Bool :=
  decide (eligibility.requires = ∅) ||
    (decide (rule.requires ⊆ eligibility.requires) &&
      rule.anyOf.all fun group =>
        decide (¬ Disjoint group eligibility.requires) ||
          eligibility.anyOf.any fun variant => decide (variant ⊆ group))

def buildNotRequired (eligibility : Eligibility) (member : DescriptorMember) : Option String :=
  member.appBuildFlag.filter fun flag =>
    decide (eligibility.requires ≠ ∅) && decide (flag ∉ eligibility.requires)

/-- The member of a bare name, before its resources are looked at. -/
def resolveBare (entry : MemberedEntry) (eligibility : Eligibility)
    (config : DescriptorCatalogConfig) : Except ResolveError DescriptorMember := do
  let name := entry.name.raw
  let (member, rule) ← orElse (noCandidate entry eligibility config)
    (entry.members.findSome? (candidate eligibility config))
  if let some flag := eligibility.clients.findSome? (missingBuild config member) then
    throw (.clientMissingBuild name (memberKey member) flag)
  let clientsPass := eligibility.clients.all fun flags =>
    DescriptorOffer.offered config member flags
  if !clientsPass || !capabilityPass eligibility rule then
    throw (.notOfferedToAll name (memberKey member) (memberKeys entry))
  if let some flag := buildNotRequired eligibility member then
    throw (.buildNotRequired name (memberKey member) flag)
  pure member

/-- The member that the author writes out; it skips the offer check. -/
def resolveExplicit (selector explicitMember : String) (entry : MemberedEntry) :
    Except ResolveError DescriptorMember := do
  let selected ← (MemberSelector.parseForEntry selector entry).mapError fun reason =>
    .invalidSelector selector reason (memberKeys entry)
  orElse (.unknownMember entry.name.raw explicitMember (memberKeys entry))
    (entry.members.find? fun member => member.key = selected.memberKey)

def warnings (entry : MemberedEntry) : List Warning :=
  if entry.state = .hidden then [.hiddenName] else []

def resolve (selector : String) (entry : Option MemberedEntry) (eligibility : Eligibility)
    (config : DescriptorCatalogConfig) (availableResources : List VaultResourceId) :
    Except ResolveError Resolved := do
  let entry ← orElse (.unknownName selector) entry
  let available := memberKeys entry
  let writtenName := ((splitOnceColons selector).map Prod.fst).getD selector
  let parsed ← (QualifiedCatalogName.fromStr writtenName).mapError fun error =>
    .invalidSelector selector (.name error) available
  if parsed.name.key ≠ entry.name.key then throw (.unknownName selector)
  if entry.state = .tombstoned then throw (.tombstoned selector available)
  let member ← match splitOnceColons selector with
    | some parts => resolveExplicit selector parts.2 entry
    | none => resolveBare entry eligibility config
  checkResources member entry.name.raw available availableResources
  pure ⟨member, warnings entry⟩

end DescriptorPlan

namespace DescriptorOffer

variable {config : DescriptorCatalogConfig} {member : DescriptorMember} {flags : Finset String}

theorem coverage_mem {rule : OfferRule} (h : coverage config member = .ok rule) :
    rule ∈ config.offerRules := by
  obtain ⟨runtime, -, h⟩ := Result.bind_eq_ok h
  dsimp only at h
  split at h
  · cases h
  · obtain ⟨flavor, -, h⟩ := Result.bind_eq_ok h
    cases hrule : config.ruleFor (RuntimeType.of runtime) flavor with
    | none => simp [hrule, orElse] at h
    | some found =>
      simp only [hrule, orElse, Except.ok.injEq] at h
      exact h ▸ List.mem_of_find?_eq_some hrule

theorem offered_iff :
    offered config member flags = true ↔
      ∃ rule, coverage config member = .ok rule ∧
        capabilitiesSatisfy rule.requires rule.anyOf flags = true ∧
        ∀ flag ∈ member.appBuildFlag, flag ∈ flags := by
  unfold offered offerFlags
  cases coverage config member with
  | error e => simp [bind, Except.bind, Except.isOk, Except.toBool]
  | ok rule =>
    cases hsat : capabilitiesSatisfy rule.requires rule.anyOf flags <;>
      cases hflag : member.appBuildFlag <;>
      simp [bind, Except.bind, Except.isOk, Except.toBool, hsat, throw, throwThe,
        MonadExceptOf.throw, pure, Except.pure]
    split <;> rename_i heq <;> split at heq <;> simp_all

theorem offered_of_coverage_error {e : OfferError} (h : coverage config member = .error e) :
    offered config member flags = false := by
  rw [Bool.eq_false_iff, ne_eq, offered_iff]
  rintro ⟨rule, hrule, -⟩
  simp [h] at hrule

theorem resolve_eq_resolved {entry : MemberedEntry} {before after : List DescriptorMember}
    (hmembers : entry.members = before ++ member :: after)
    (hbefore : ∀ earlier ∈ before, offered config earlier flags = false)
    (hoffered : offered config member flags = true) :
    resolve entry config flags = .resolved member := by
  have hfind : (entry.members.find? fun m => offered config m flags) = some member := by
    rw [List.find?_eq_some_iff_append]
    refine ⟨hoffered, before, after, hmembers, ?_⟩
    intro earlier hearlier
    simp [hbefore earlier hearlier]
  simp [resolve, hfind]

end DescriptorOffer

namespace DescriptorPlan

open DescriptorOffer (coverage offered)

variable {config : DescriptorCatalogConfig} {entry : MemberedEntry} {eligibility : Eligibility}
  {member : DescriptorMember} {flags : Finset String}

structure Chosen (entry : MemberedEntry) (eligibility : Eligibility)
    (config : DescriptorCatalogConfig) (member : DescriptorMember) : Prop where
  first : ∃ before after, entry.members = before ++ member :: after ∧
    ∀ earlier ∈ before, candidate eligibility config earlier = none
  clientsPass : ∀ flags ∈ eligibility.clients, offered config member flags = true
  covered : ∃ rule, coverage config member = .ok rule ∧ capabilityPass eligibility rule = true
  build : buildNotRequired eligibility member = none

theorem resolveBare_chosen (h : resolveBare entry eligibility config = .ok member) :
    Chosen entry eligibility config member := by
  obtain ⟨⟨found, rule⟩, hfound, h⟩ := Result.bind_eq_ok h
  have hcandidate : entry.members.findSome? (candidate eligibility config) = some (found, rule) := by
    cases hc : entry.members.findSome? (candidate eligibility config) with
    | none => simp [hc, orElse] at hfound
    | some pair => simpa [hc, orElse] using hfound
  obtain ⟨before, taken, after, hmembers, htaken, hbefore⟩ :=
    List.findSome?_eq_some_iff.mp hcandidate
  have hcovered : taken = found ∧ coverage config taken = .ok rule := by
    simp only [candidate] at htaken
    split at htaken
    · split at htaken
      · simp_all
      · cases htaken
    · cases htaken
  obtain ⟨rfl, hcovered⟩ := hcovered
  dsimp only at h
  split at h
  · cases h
  · split at h
    · cases h
    · rename_i hpass
      split at h
      · cases h
      · rename_i hbuild
        cases h
        simp only [Bool.or_eq_true, Bool.not_eq_true', not_or, Bool.not_eq_false] at hpass
        exact
          { first := ⟨before, after, hmembers, hbefore⟩
            clientsPass := List.all_eq_true.mp hpass.1
            covered := ⟨rule, hcovered, hpass.2⟩
            build := Option.eq_none_iff_forall_ne_some.mpr hbuild }

theorem capabilityPass_satisfies {rule : OfferRule} (hrule : rule.requires ≠ ∅)
    (hpass : capabilityPass eligibility rule = true)
    (hflags : capabilitiesSatisfy eligibility.requires eligibility.anyOf flags = true) :
    capabilitiesSatisfy rule.requires rule.anyOf flags = true := by
  rw [capabilitiesSatisfy_iff] at hflags ⊢
  obtain ⟨hne, hsub, hgroups⟩ := hflags
  simp only [capabilityPass, hne, decide_false, Bool.false_or, Bool.and_eq_true, decide_eq_true_eq,
    List.all_eq_true, Bool.or_eq_true, List.any_eq_true] at hpass
  refine ⟨hrule, hpass.1.trans hsub, ?_⟩
  intro group hgroup
  obtain hmeets | ⟨variant, hvariant, hwithin⟩ := hpass.2 group hgroup
  · intro hdisjoint
    apply hmeets
    apply hdisjoint.mono_right hsub
  · intro hdisjoint
    apply hgroups variant hvariant
    apply hdisjoint.mono_left hwithin

theorem Chosen.offered (hchosen : Chosen entry eligibility config member)
    (hrules : ∀ rule ∈ config.offerRules, rule.requires ≠ ∅) (hflags : eligibility.Admits flags) :
    DescriptorOffer.offered config member flags = true := by
  obtain hclauses | hclient := hflags
  · obtain ⟨rule, hcovered, hpass⟩ := hchosen.covered
    have hrule := hrules rule (DescriptorOffer.coverage_mem hcovered)
    rw [DescriptorOffer.offered_iff]
    refine ⟨rule, hcovered, capabilityPass_satisfies hrule hpass hclauses, ?_⟩
    obtain ⟨hne, hsub, -⟩ := capabilitiesSatisfy_iff.mp hclauses
    intro flag hflag
    have hbuild := hchosen.build
    rw [Option.mem_def] at hflag
    apply hsub
    by_contra hmissing
    simp [buildNotRequired, hflag, Option.filter_some, hmissing, hne] at hbuild
  · exact hchosen.clientsPass flags hclient

/-- No device that the variant admits is offered a member that is no candidate. A candidate that the
clauses alone admit is any member with a rule; otherwise only listed clients are admitted, and one of
them would have made the member a candidate. -/
theorem not_offered_of_candidate_none (hnone : candidate eligibility config member = none)
    (hflags : eligibility.Admits flags) : DescriptorOffer.offered config member flags = false := by
  cases hcovered : coverage config member with
  | error e => exact DescriptorOffer.offered_of_coverage_error hcovered
  | ok rule =>
    have hcould : couldOffer eligibility config member = false := by
      simpa [candidate, hcovered] using hnone
    simp only [couldOffer, Bool.or_eq_false_iff, List.any_eq_false] at hcould
    obtain ⟨hclauses, hclients⟩ := hcould
    obtain hmeets | hclient := hflags
    · obtain ⟨hne, -, hgroups⟩ := capabilitiesSatisfy_iff.mp hmeets
      have hempty : ∅ ∈ eligibility.anyOf := by simpa [hne] using hclauses
      have hmeets := hgroups ∅ hempty
      simp at hmeets
    · simpa using hclients flags hclient

theorem Chosen.device (hchosen : Chosen entry eligibility config member)
    (hrules : ∀ rule ∈ config.offerRules, rule.requires ≠ ∅) (hflags : eligibility.Admits flags) :
    DescriptorOffer.resolve entry config flags = .resolved member := by
  obtain ⟨before, after, hmembers, hbefore⟩ := hchosen.first
  apply DescriptorOffer.resolve_eq_resolved hmembers
  · intro earlier hearlier
    apply not_offered_of_candidate_none (hbefore earlier hearlier) hflags
  · apply hchosen.offered hrules hflags

theorem resolve_bare {selector : String} {availableResources : List VaultResourceId}
    {resolved : Resolved} (hbare : splitOnceColons selector = none)
    (h : resolve selector (some entry) eligibility config availableResources = .ok resolved) :
    resolveBare entry eligibility config = .ok resolved.member := by
  obtain ⟨found, hfound, h⟩ := Result.bind_eq_ok h
  cases hfound
  obtain ⟨parsed, -, h⟩ := Result.bind_eq_ok h
  dsimp only at h
  split at h
  · cases h
  · split at h
    · cases h
    · simp only [hbare] at h
      obtain ⟨member, hmember, h⟩ := Result.bind_eq_ok h
      obtain ⟨-, -, h⟩ := Result.bind_eq_ok h
      cases h
      exact hmember

/-- A bare name that resolves for a variant resolves to the same member on every device that the
variant admits. -/
theorem plan_choice_is_device_choice (config : DescriptorCatalogConfig) (entry : MemberedEntry)
    (eligibility : Eligibility) (selector : String) (availableResources : List VaultResourceId)
    (resolved : Resolved) (flags : Finset String)
    (hrules : ∀ rule ∈ config.offerRules, rule.requires ≠ ∅)
    (hbare : splitOnceColons selector = none)
    (h : resolve selector (some entry) eligibility config availableResources = .ok resolved)
    (hflags : eligibility.Admits flags) :
    DescriptorOffer.resolve entry config flags = .resolved resolved.member := by
  have hchosen := resolveBare_chosen (resolve_bare hbare h)
  apply hchosen.device hrules hflags

def ruledEntry : MemberedEntry where
  scope := .global
  name := ⟨"b42", rfl⟩
  state := .active
  members := [⟨.runtime (.llamacppCliStockTools .null) (some "linux-x64"), "d1"⟩,
    ⟨.runtime (.llamacppCliStockTools .null) (some "macos-arm64"), "d2"⟩]
  nonempty := by simp

def macRules : DescriptorCatalogConfig :=
  ⟨[⟨.llamacppCliStockTools, "macos-arm64", {"os:macos"}, [{"chip:m1", "chip:m2"}]⟩]⟩

def macVariant : Eligibility := ⟨{"os:macos"}, [{"chip:m2"}], []⟩

theorem plan_choice_is_device_choice_mac :
    DescriptorOffer.resolve ruledEntry macRules {"os:macos", "chip:m2"} =
      .resolved ⟨.runtime (.llamacppCliStockTools .null) (some "macos-arm64"), "d2"⟩ :=
  plan_choice_is_device_choice macRules ruledEntry macVariant "b42" [] ⟨_, []⟩ _ (by decide) rfl rfl
    (.inl (by decide))

end DescriptorPlan

end Pipette
