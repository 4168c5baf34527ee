import Pipette.Core.Descriptor
import Pipette.Core.Principal
import Pipette.Lib.Result

/-! The vault references a job body carries, checked against their records before the job is
queued. One set of bodies is checked under one scope, with what was read of each resource kept
across the set. -/
namespace Pipette.VaultCheck

inductive VaultScope
  /-- The filer's own, and its organization's when it belongs to one. -/
  | own (user : UserId) (org : Option OrgId)
  | org (scopeOrg : OrgId)
  | every
deriving DecidableEq

def VaultScope.admits : VaultScope → VaultOwner → Bool
  | .every, _ => true
  | .own user _, .user userId => userId = user
  | .own _ filerOrg, .org orgId => filerOrg = some orgId
  | .org scopeOrg, .org orgId => scopeOrg = orgId
  | .org _, .user _ => false

structure VaultResource where
  resourceId : VaultResourceId
  name : String
  owner : VaultOwner
  objectKey : String
  sha256 : String

structure VaultStore where
  getResource : VaultResourceId → Except String (Option VaultResource)
  statBlob : String → Except String (Option Nat)

structure VaultRef where
  resourceId : VaultResourceId
  principal : String
  sha256 : Option String
  customLabel : Option String
deriving DecidableEq

inductive JobRejection
  | vaultRefMalformed (reason : String)
  | unknownVaultResource (resourceId : VaultResourceId)
  | vaultPrincipalMismatch (resourceId : VaultResourceId) (claimed owner : String)
  | unbackedVaultResource (resourceId : VaultResourceId)
  | vaultDigestMismatch (resourceId : VaultResourceId) (claimed pinned : String)
  | vaultCustomLabelMismatch (resourceId : VaultResourceId) (claimed name : String)
deriving DecidableEq

/-- The path a field holds: any string field that is one. -/
def vaultPath (field : String × Json) : Option (String × VaultPath) :=
  if field.1 ≠ "principal_id" ∧ field.1 ≠ "custom_label" then
    (field.2.asStr.bind fun text => (VaultPath.parse text).toOption).map fun path =>
      (field.1, path)
  else none

def vaultPaths (fields : List (String × Json)) : List (String × VaultPath) :=
  fields.filterMap vaultPath

/-- `sha256` beside `url`, `{key}_sha256` beside a named file. -/
def digestFieldFor (key : String) : String :=
  if key = "url" then "sha256" else key ++ "_sha256"

def principalOf (fields : List (String × Json)) : Except JobRejection String :=
  match (fields.lookup "principal_id").bind Json.asStr with
  | some principal => .ok (trim principal)
  | none => .error (.vaultRefMalformed "a vault source carries no `principal_id`")

def customLabelOf (fields : List (String × Json)) : Except JobRejection (Option String) :=
  match fields.lookup "custom_label" with
  | none | some .null => .ok none
  | some (.str label) => .ok (some (trim label))
  | some _ => .error (.vaultRefMalformed "a vault source's `custom_label` is not a string")

def refsOf (fields : List (String × Json)) : Except JobRejection (List VaultRef) := do
  let principal ← principalOf fields
  let customLabel ← customLabelOf fields
  let refs := (vaultPaths fields).map fun x =>
    { resourceId := x.2.resourceId
      principal
      sha256 := ((fields.lookup (digestFieldFor x.1)).bind Json.asStr).map fun s =>
        String.ofList ((trim s).toList.map Char.toLower)
      customLabel : VaultRef }
  if refs.isEmpty then
    throw (.vaultRefMalformed
      "a vault source names no `/vault/resources/\x7bid\x7d/content` path")
  pure refs

def ownRefs (fields : List (String × Json)) : Except JobRejection (List VaultRef) :=
  if Json.isVaultSource fields then refsOf fields else .ok []

mutual

def collect : Json → Except JobRejection (List VaultRef)
  | .obj fields => do
    let own ← ownRefs fields
    let nested ← collectFields fields
    pure (own ++ nested)
  | .arr items => collectItems items
  | .null | .bool _ | .num _ | .str _ => pure []

def collectFields : List (String × Json) → Except JobRejection (List VaultRef)
  | [] => pure []
  | (_, v) :: rest => do
    let refs ← collect v
    let others ← collectFields rest
    pure (refs ++ others)

def collectItems : List Json → Except JobRejection (List VaultRef)
  | [] => pure []
  | v :: rest => do
    let refs ← collect v
    let others ← collectItems rest
    pure (refs ++ others)

end

def vaultRefs (body : Json) : Except JobRejection (List VaultRef) := collect body

structure Seen where
  owner : String
  name : String
  sha256 : String
  backed : Bool
deriving DecidableEq

/-- `none` for a record that is absent or out of scope. -/
abbrev SeenMap := List (VaultResourceId × Option Seen)

inductive VaultCheckError
  | rejected (kind : JobRejection)
  | store (reason : String)
deriving DecidableEq

def readSeen (vault : VaultStore) (scope : VaultScope) (id : VaultResourceId) :
    Except String (Option Seen) := do
  match ← vault.getResource id with
  | none => pure none
  | some resource =>
    if scope.admits resource.owner then
      let stat ← vault.statBlob resource.objectKey
      pure (some ⟨resource.owner.label, resource.name, resource.sha256, stat.isSome⟩)
    else pure none

def known (vault : VaultStore) (scope : VaultScope) (seen : SeenMap) (id : VaultResourceId) :
    Except String (Option Seen × SeenMap) :=
  match seen.lookup id with
  | some record => .ok (record, seen)
  | none => (readSeen vault scope id).map fun record => (record, (id, record) :: seen)

def mismatch (ref : VaultRef) : Option Seen → Option JobRejection
  | none => some (.unknownVaultResource ref.resourceId)
  | some record =>
    if record.owner ≠ ref.principal then
      some (.vaultPrincipalMismatch ref.resourceId ref.principal record.owner)
    else if record.backed = false then some (.unbackedVaultResource ref.resourceId)
    else if ref.sha256.any (· ≠ record.sha256) then
      some (.vaultDigestMismatch ref.resourceId (ref.sha256.getD "") record.sha256)
    else if ref.customLabel.any (· ≠ record.name) then
      some (.vaultCustomLabelMismatch ref.resourceId (ref.customLabel.getD "") record.name)
    else none

def checkRefs (vault : VaultStore) (scope : VaultScope) :
    List VaultRef → SeenMap → Except VaultCheckError Unit × SeenMap
  | [], seen => (.ok (), seen)
  | ref :: rest, seen =>
    match known vault scope seen ref.resourceId with
    | .error reason => (.error (.store reason), seen)
    | .ok (record, seen) =>
      match mismatch ref record with
      | some kind => (.error (.rejected kind), seen)
      | none => checkRefs vault scope rest seen

/-- Refuse a body unless every vault reference names a record within the scope, owned by the
claimed principal, backed by an object, and matching any pinned digest and label. -/
def check (vault : VaultStore) (scope : VaultScope) (body : Json) (seen : SeenMap) :
    Except VaultCheckError Unit × SeenMap :=
  match vaultRefs body with
  | .error kind => (.error (.rejected kind), seen)
  | .ok refs => checkRefs vault scope refs seen

inductive Within : Json → Json → Prop
  | self (v : Json) : Within v v
  | field {u v : Json} {k : String} {fields : List (String × Json)} (h : (k, v) ∈ fields)
      (hv : Within u v) : Within u (.obj fields)
  | item {u v : Json} {items : List Json} (h : v ∈ items) (hv : Within u v) :
      Within u (.arr items)

theorem collectFields_mem {fields : List (String × Json)} {refs : List VaultRef}
    (h : collectFields fields = .ok refs) {k : String} {v : Json} (hv : (k, v) ∈ fields) :
    ∃ refs', collect v = .ok refs' ∧ refs' ⊆ refs := by
  induction fields generalizing refs with
  | nil => cases hv
  | cons f rest ih =>
    rw [collectFields] at h
    obtain ⟨own, hown, h⟩ := Result.bind_eq_ok h
    obtain ⟨others, hothers, h⟩ := Result.bind_eq_ok h
    cases h
    obtain rfl | hv := List.mem_cons.mp hv
    · exact ⟨own, hown, List.subset_append_left _ _⟩
    · obtain ⟨refs', hrefs, hsub⟩ := ih hothers hv
      exact ⟨refs', hrefs, List.subset_append_of_subset_right _ hsub⟩

theorem collectItems_mem {items : List Json} {refs : List VaultRef}
    (h : collectItems items = .ok refs) {v : Json} (hv : v ∈ items) :
    ∃ refs', collect v = .ok refs' ∧ refs' ⊆ refs := by
  induction items generalizing refs with
  | nil => cases hv
  | cons item rest ih =>
    rw [collectItems] at h
    obtain ⟨own, hown, h⟩ := Result.bind_eq_ok h
    obtain ⟨others, hothers, h⟩ := Result.bind_eq_ok h
    cases h
    obtain rfl | hv := List.mem_cons.mp hv
    · exact ⟨own, hown, List.subset_append_left _ _⟩
    · obtain ⟨refs', hrefs, hsub⟩ := ih hothers hv
      exact ⟨refs', hrefs, List.subset_append_of_subset_right _ hsub⟩

theorem collect_within {u v : Json} (hwithin : Within u v) {refs : List VaultRef}
    (h : collect v = .ok refs) : ∃ refs', collect u = .ok refs' ∧ refs' ⊆ refs := by
  induction hwithin generalizing refs with
  | self => exact ⟨refs, h, fun _ h => h⟩
  | field hv _ ih =>
    rw [collect] at h
    obtain ⟨own, -, h⟩ := Result.bind_eq_ok h
    obtain ⟨nested, hnested, h⟩ := Result.bind_eq_ok h
    cases h
    obtain ⟨refs₁, h₁, hsub₁⟩ := collectFields_mem hnested hv
    obtain ⟨refs₂, h₂, hsub₂⟩ := ih h₁
    exact ⟨refs₂, h₂, fun _ hx => List.mem_append_right _ (hsub₁ (hsub₂ hx))⟩
  | item hv _ ih =>
    rw [collect] at h
    obtain ⟨refs₁, h₁, hsub₁⟩ := collectItems_mem h hv
    obtain ⟨refs₂, h₂, hsub₂⟩ := ih h₁
    exact ⟨refs₂, h₂, fun _ hx => hsub₁ (hsub₂ hx)⟩

theorem vaultRefs_complete {body : Json} {refs : List VaultRef} (h : vaultRefs body = .ok refs)
    {fields : List (String × Json)} (hsource : Within (.obj fields) body)
    (hvault : Json.isVaultSource fields = true) {x : String × VaultPath}
    (hx : x ∈ vaultPaths fields) : ∃ ref ∈ refs, ref.resourceId = x.2.resourceId := by
  obtain ⟨refs', hrefs, hsub⟩ := collect_within hsource h
  rw [collect] at hrefs
  obtain ⟨own, hown, hrefs⟩ := Result.bind_eq_ok hrefs
  obtain ⟨nested, -, hrefs⟩ := Result.bind_eq_ok hrefs
  cases hrefs
  rw [ownRefs, if_pos hvault] at hown
  obtain ⟨principal, -, hown⟩ := Result.bind_eq_ok hown
  obtain ⟨customLabel, -, hown⟩ := Result.bind_eq_ok hown
  dsimp only at hown
  split at hown
  · cases hown
  · cases hown
    exact ⟨_, hsub (List.mem_append_left _ (List.mem_map_of_mem hx)), rfl⟩

def Unchanged (filed now : VaultStore) : Prop :=
  ∀ id resource, filed.getResource id = .ok (some resource) →
    now.getResource id = .ok (some resource)

inductive SeenBy (scope : VaultScope) (now : VaultStore) : SeenMap → Prop
  | nil : SeenBy scope now []
  | check {seen : SeenMap} (h : SeenBy scope now seen) {vault : VaultStore}
      (hvault : Unchanged vault now) (body : Json) :
      SeenBy scope now (check vault scope body seen).2

def Agrees (scope : VaultScope) (now : VaultStore) (id : VaultResourceId) (record : Seen) : Prop :=
  ∃ resource, now.getResource id = .ok (some resource) ∧ scope.admits resource.owner = true ∧
    record.owner = resource.owner.label

def SeenSound (scope : VaultScope) (now : VaultStore) (seen : SeenMap) : Prop :=
  ∀ id record, seen.lookup id = some (some record) → Agrees scope now id record

variable {scope : VaultScope} {vault now : VaultStore} {seen : SeenMap}

theorem readSeen_agrees (hvault : Unchanged vault now) {id : VaultResourceId} {record : Seen}
    (h : readSeen vault scope id = .ok (some record)) : Agrees scope now id record := by
  unfold readSeen at h
  obtain ⟨found, hfound, h⟩ := Result.bind_eq_ok h
  split at h
  · cases h
  next resource =>
  split at h
  · next hadmits =>
    obtain ⟨stat, -, h⟩ := Result.bind_eq_ok h
    cases h
    exact ⟨resource, hvault id resource hfound, hadmits, rfl⟩
  · cases h

theorem known_sound (hvault : Unchanged vault now) (hseen : SeenSound scope now seen)
    {id : VaultResourceId} {record : Option Seen} {seen' : SeenMap}
    (h : known vault scope seen id = .ok (record, seen')) :
    SeenSound scope now seen' ∧ ∀ s, record = some s → Agrees scope now id s := by
  unfold known at h
  split at h
  · next hlookup =>
    cases h
    exact ⟨hseen, fun s hs => hseen id s (hs ▸ hlookup)⟩
  · cases hread : readSeen vault scope id with
    | error e => simp [hread, Except.map] at h
    | ok record' =>
      rw [hread] at h
      cases h
      have hagrees : ∀ s, record = some s → Agrees scope now id s :=
        fun s hs => readSeen_agrees hvault (hs ▸ hread)
      refine ⟨fun id' s hlookup => ?_, hagrees⟩
      rw [List.lookup_cons] at hlookup
      split at hlookup
      · next heq =>
        rw [eq_of_beq heq]
        exact hagrees s (Option.some.inj hlookup)
      · exact hseen id' s hlookup

theorem mismatch_eq_none {ref : VaultRef} {record : Option Seen} (h : mismatch ref record = none) :
    ∃ s, record = some s ∧ s.owner = ref.principal := by
  cases record with
  | none => cases h
  | some s =>
    refine ⟨s, rfl, ?_⟩
    by_contra howner
    simp [mismatch, howner] at h

theorem checkRefs_sound (hvault : Unchanged vault now) {refs : List VaultRef}
    (hseen : SeenSound scope now seen) :
    SeenSound scope now (checkRefs vault scope refs seen).2 ∧
      ((checkRefs vault scope refs seen).1 = .ok () → ∀ ref ∈ refs,
        ∃ s, Agrees scope now ref.resourceId s ∧ s.owner = ref.principal) := by
  induction refs generalizing seen with
  | nil => exact ⟨hseen, fun _ _ h => nomatch h⟩
  | cons ref rest ih =>
    rw [checkRefs]
    cases hknown : known vault scope seen ref.resourceId with
    | error reason => exact ⟨hseen, nofun⟩
    | ok x =>
      obtain ⟨record, seen'⟩ := x
      obtain ⟨hseen', hagrees⟩ := known_sound hvault hseen hknown
      dsimp only
      cases hmismatch : mismatch ref record with
      | some kind => exact ⟨hseen', nofun⟩
      | none =>
        obtain ⟨s, hs, howner⟩ := mismatch_eq_none hmismatch
        obtain ⟨hsound, hrest⟩ := ih hseen'
        refine ⟨hsound, fun hok ref' href' => ?_⟩
        obtain rfl | href' := List.mem_cons.mp href'
        · exact ⟨s, hagrees s hs, howner⟩
        · exact hrest hok ref' href'

theorem SeenBy.sound (h : SeenBy scope now seen) : SeenSound scope now seen := by
  induction h with
  | nil => exact fun _ _ h => nomatch h
  | check _ hvault body ih =>
    unfold VaultCheck.check
    split
    · exact ih
    · exact (checkRefs_sound hvault ih).1

theorem check_sound (hvault : Unchanged vault now) (hseen : SeenSound scope now seen) {body : Json}
    (h : (check vault scope body seen).1 = .ok ()) :
    ∃ refs, vaultRefs body = .ok refs ∧ ∀ ref ∈ refs,
      ∃ s, Agrees scope now ref.resourceId s ∧ s.owner = ref.principal := by
  unfold check at h
  split at h
  · cases h
  · next refs hrefs => exact ⟨refs, hrefs, (checkRefs_sound hvault hseen).2 h⟩

end Pipette.VaultCheck
