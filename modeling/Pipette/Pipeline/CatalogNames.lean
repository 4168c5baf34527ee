import Mathlib.Data.List.TakeWhile
import Pipette.Core.QueueNames
import Pipette.Lib.Assoc

/-! The descriptor catalog as one reader sees it: the entries it can read, the name that each shows to
it, and the entry that a name it writes selects. -/
namespace Pipette

def asciiLowercase (s : String) : String := String.ofList (s.toList.map Char.toLower)

/-- Whether a character may stand in a catalog name, first or inside, before `next`. A space needs a
character before it and one that is no space after it. -/
def catalogChar (inner : Bool) (ch : Char) (next : Option Char) : Bool :=
  ch.isAlphanum || (inner && (ch = '.' || ch = '_' || ch = '-')) ||
    (inner && ch = ' ' && next.any fun next => next ≠ ' ')

def badCatalogChar : Bool → List Char → Option Char
  | _, [] => none
  | inner, ch :: rest =>
    if catalogChar inner ch rest.head? then badCatalogChar true rest else some ch

def validateCatalogName (s : String) : Except IdError Unit :=
  if s = "" then .error (.empty "catalog name")
  else
    match badCatalogChar false s.toList with
    | some ch => .error (.invalidChar "catalog name" ch ("[A-Za-z0-9._-] and single spaces between " ++
        "them; the first character must be a letter or a digit"))
    | none =>
      if s.toList.length > 200 then
        .error (.width "catalog name" "at most 200 characters" s.toList.length)
      else .ok ()

structure CatalogName where
  raw : String
  valid : validateCatalogName raw = .ok ()
deriving DecidableEq

def CatalogName.tryNew (s : String) : Except IdError CatalogName :=
  match h : validateCatalogName s with
  | .ok () => .ok ⟨s, h⟩
  | .error e => .error e

def CatalogName.key (name : CatalogName) : String := asciiLowercase name.raw

inductive OrgSlugError
  | empty
  | tooLong (slug : String) (len max : Nat)
  | invalidChar (slug : String) (ch : Char)
  | idPrefixed (slug required : String)
deriving DecidableEq, Repr

def isSlugChar (c : Char) : Bool := c.isLower || c.isDigit || c = '_' || c = '-'

def validateOrgSlug (s : String) : Except OrgSlugError Unit :=
  if s = "" then .error .empty
  else if startsWith "org_" s then .error (.idPrefixed s "org_")
  else if s.utf8ByteSize > 64 then .error (.tooLong s s.utf8ByteSize 64)
  else
    match s.toList.find? fun c => !isSlugChar c with
    | some ch => .error (.invalidChar s ch)
    | none => .ok ()

structure OrgSlug where
  raw : String
  valid : validateOrgSlug raw = .ok ()
deriving DecidableEq

def OrgSlug.tryNew (s : String) : Except OrgSlugError OrgSlug :=
  match h : validateOrgSlug (asciiLowercase (trim s)) with
  | .ok () => .ok ⟨_, h⟩
  | .error e => .error e

inductive CatalogQualifier
  | global
  | org (slug : OrgSlug)
deriving DecidableEq

structure QualifiedCatalogName where
  qualifier : Option CatalogQualifier
  name : CatalogName
deriving DecidableEq

inductive QualifiedNameError
  | name (source : IdError)
  | slug (source : OrgSlugError)
deriving DecidableEq, Repr

namespace QualifiedCatalogName

def globalWord : String := "global"

def text (name : QualifiedCatalogName) : String :=
  match name.qualifier with
  | none => name.name.raw
  | some .global => globalWord ++ "/" ++ name.name.raw
  | some (.org slug) => slug.raw ++ "/" ++ name.name.raw

def fromStr (s : String) : Except QualifiedNameError QualifiedCatalogName :=
  match splitOnce '/' s with
  | none => do
    let name ← (CatalogName.tryNew s).mapError .name
    pure ⟨none, name⟩
  | some parts => do
    let qualifier ← if asciiLowercase parts.1 = globalWord then pure .global
      else ((OrgSlug.tryNew parts.1).mapError .slug).map .org
    let name ← (CatalogName.tryNew parts.2).mapError .name
    pure ⟨some qualifier, name⟩

end QualifiedCatalogName

inductive CatalogScope
  | global
  | org (orgId : OrgId)
deriving DecidableEq

inductive DescriptorEntryState
  | pinned
  | active
  | hidden
  | tombstoned
deriving DecidableEq, Repr

structure DescriptorEntry where
  scope : CatalogScope
  name : CatalogName
  state : DescriptorEntryState
deriving DecidableEq

def DescriptorEntry.live (entry : DescriptorEntry) : Bool := entry.state ≠ .tombstoned

/-- The entries are told apart by scope and folded name. -/
structure DescriptorCatalog where
  entries : List DescriptorEntry
  distinct : (entries.map fun entry => (entry.scope, entry.name.key)).Nodup

namespace DescriptorCatalog

def getEntry (catalog : DescriptorCatalog) (scope : CatalogScope) (name : CatalogName) :
    Option DescriptorEntry :=
  catalog.entries.find? fun entry => entry.scope = scope && entry.name.key = name.key

def liveEntriesInOrg (catalog : DescriptorCatalog) (orgId : OrgId) : List CatalogName :=
  (catalog.entries.filter fun entry => entry.scope = .org orgId && entry.live).map (·.name)

end DescriptorCatalog

structure Organization where
  orgId : OrgId
  slug : OrgSlug
deriving DecidableEq

/-- The organizations; no two share an id or a slug. -/
structure OrgRoster where
  orgs : List Organization
  ids : (orgs.map (·.orgId)).Nodup
  slugs : (orgs.map (·.slug.raw)).Nodup

def OrgRoster.lookupOrgBySlug (roster : OrgRoster) (slug : String) : Option OrgId :=
  (roster.orgs.find? fun org => org.slug.raw = slug).map (·.orgId)

inductive CatalogReadScope
  | unaffiliated
  | org (own : OrgId)
  | everyOrg (ownOrg : Option OrgId)
deriving DecidableEq

namespace CatalogReadScope

def canRead : CatalogReadScope → CatalogScope → Bool
  | _, .global => true
  | .everyOrg _, .org _ => true
  | .org own, .org id => own = id
  | .unaffiliated, .org _ => false

def ownOrg : CatalogReadScope → Option OrgId
  | .org id => some id
  | .everyOrg ownOrg => ownOrg
  | .unaffiliated => none

def isOwn (read : CatalogReadScope) (id : OrgId) : Bool := read.ownOrg = some id

/-- The organizations in `scopes` whose entries the reader is shown by slug. -/
def foreign (read : CatalogReadScope) (scopes : List CatalogScope) (id : OrgId) : Bool :=
  CatalogScope.org id ∈ scopes && read.canRead (.org id) && !read.isOwn id

end CatalogReadScope

structure NameView where
  read : CatalogReadScope
  shadowing : List String
  slugs : List (OrgId × OrgSlug)

namespace NameView

/-- The live names of the reader's own organization, and the slug of each other organization in
`scopes` that the reader can read. -/
def load (catalog : DescriptorCatalog) (roster : OrgRoster) (read : CatalogReadScope)
    (scopes : List CatalogScope) : NameView where
  read
  shadowing := match read.ownOrg with
    | some orgId => (catalog.liveEntriesInOrg orgId).map CatalogName.key
    | none => []
  slugs := (roster.orgs.filter fun org => read.foreign scopes org.orgId).map fun org =>
    (org.orgId, org.slug)

def displayName (view : NameView) (scope : CatalogScope) (name : CatalogName) :
    Option QualifiedCatalogName :=
  if !view.read.canRead scope then none
  else
    match scope with
    | .global => some ⟨if name.key ∈ view.shadowing then some .global else none, name⟩
    | .org id =>
      if view.read.isOwn id then some ⟨none, name⟩
      else (view.slugs.lookup id).map fun slug => ⟨some (.org slug), name⟩

end NameView

section Lookup

variable (catalog : DescriptorCatalog) (roster : OrgRoster) (read : CatalogReadScope)

def namedScopes (name : QualifiedCatalogName) : List CatalogScope :=
  match name.qualifier with
  | none => (read.ownOrg.map CatalogScope.org).toList ++ [.global]
  | some .global => [.global]
  | some (.org slug) => ((roster.lookupOrgBySlug slug.raw).map CatalogScope.org).toList

/-- The first live entry, or else the first tombstone. -/
def firstForPlan (name : CatalogName) :
    Option DescriptorEntry → List CatalogScope → Option DescriptorEntry
  | tombstone, [] => tombstone
  | tombstone, scope :: rest =>
    match catalog.getEntry scope name with
    | none => firstForPlan name tombstone rest
    | some entry =>
      if entry.live then some entry
      else firstForPlan name (tombstone.or (some entry)) rest

def resolveForPlan (name : QualifiedCatalogName) : Option DescriptorEntry :=
  firstForPlan catalog name.name none ((namedScopes roster read name).filter read.canRead)

def resolve (name : QualifiedCatalogName) : Option DescriptorEntry :=
  (resolveForPlan catalog roster read name).filter DescriptorEntry.live

end Lookup

theorem slash_not_mem_of_badCatalogChar {inner : Bool} {chars : List Char}
    (h : badCatalogChar inner chars = none) : '/' ∉ chars := by
  induction chars generalizing inner with
  | nil => simp
  | cons ch rest ih =>
    rw [badCatalogChar] at h
    split at h
    · next hchar =>
      rintro (_ | ⟨_, hmem⟩)
      · have hslash : ∀ inner, catalogChar inner '/' rest.head? = false := by
          intro inner
          cases inner <;> simp [catalogChar]
        rw [hslash] at hchar
        cases hchar
      · exact ih h hmem
    · cases h

theorem CatalogName.slash_not_mem (name : CatalogName) : '/' ∉ name.raw.toList := by
  have h := name.valid
  unfold validateCatalogName at h
  split at h
  · cases h
  split at h
  · cases h
  next hchars => exact slash_not_mem_of_badCatalogChar hchars

theorem CatalogName.tryNew_raw (name : CatalogName) : CatalogName.tryNew name.raw = .ok name := by
  unfold CatalogName.tryNew
  split
  · rfl
  · next h =>
    rw [name.valid] at h
    cases h

theorem OrgSlug.isSlugChar (slug : OrgSlug) : ∀ c ∈ slug.raw.toList, isSlugChar c = true := by
  have h := slug.valid
  unfold validateOrgSlug at h
  split at h
  · cases h
  split at h
  · cases h
  split at h
  · cases h
  split at h
  · cases h
  next hnone => simpa using hnone

theorem isIdChar_of_isSlugChar {c : Char} (h : isSlugChar c = true) : isIdChar c = true := by
  delta isIdChar Char.isAlphanum Char.isAlpha
  simp only [Pipette.isSlugChar, Bool.or_eq_true, decide_eq_true_eq] at h ⊢
  tauto

theorem OrgSlug.idText (slug : OrgSlug) : IdText slug.raw :=
  fun c hc => isIdChar_of_isSlugChar (slug.isSlugChar c hc)

theorem toLower_of_isSlugChar {c : Char} (h : isSlugChar c = true) : c.toLower = c := by
  have hrange : ¬ (65 ≤ c.toNat ∧ c.toNat ≤ 90) := by
    delta isSlugChar Char.isLower Char.isDigit at h
    simp only [Bool.or_eq_true, Bool.and_eq_true, decide_eq_true_eq, UInt32.le_iff_toNat_le] at h
    rcases h with ((h | h) | rfl) | rfl
    · change 97 ≤ c.toNat ∧ c.toNat ≤ 122 at h
      omega
    · change 48 ≤ c.toNat ∧ c.toNat ≤ 57 at h
      omega
    · decide
    · decide
  unfold Char.toLower
  split
  · next hupper => exact absurd (by simpa [UInt32.le_iff_toNat_le] using hupper) hrange
  · rfl

theorem OrgSlug.lowercase_raw (slug : OrgSlug) : asciiLowercase slug.raw = slug.raw := by
  rw [asciiLowercase, List.map_congr_left fun c hc => toLower_of_isSlugChar (slug.isSlugChar c hc),
    List.map_id', String.ofList_toList]

theorem OrgSlug.tryNew_raw (slug : OrgSlug) : OrgSlug.tryNew slug.raw = .ok slug := by
  have htrim : trim slug.raw = slug.raw :=
    trim_eq_self fun c hc => not_isWhitespace_of_isIdChar (slug.idText c hc)
  have hraw : asciiLowercase (trim slug.raw) = slug.raw := by rw [htrim, slug.lowercase_raw]
  unfold OrgSlug.tryNew
  split
  · simp only [hraw]
  · next h =>
    rw [hraw, slug.valid] at h
    cases h

/-- A text is read back as the name it spells, unless an organization goes by the word for the global
scope. -/
theorem QualifiedCatalogName.fromStr_text (name : QualifiedCatalogName)
    (hglobal : ∀ slug, name.qualifier = some (.org slug) → slug.raw ≠ globalWord) :
    fromStr name.text = .ok name := by
  obtain ⟨qualifier, name⟩ := name
  cases qualifier with
  | none =>
    have hdrop : name.raw.toList.dropWhile (· ≠ '/') = [] :=
      List.dropWhile_eq_nil_iff.mpr fun c hc => by
        simpa using fun h : c = '/' => name.slash_not_mem (h ▸ hc)
    have hsplit : splitOnce '/' name.raw = none := by rw [splitOnce, hdrop]
    simp [fromStr, text, hsplit, name.tryNew_raw, Except.mapError, bind, Except.bind, pure,
      Except.pure]
  | some qualifier =>
    cases qualifier with
    | global =>
      have hid : globalWord.toList.all isIdChar = true := by decide
      have hsplit : splitOnce '/' (globalWord ++ "/" ++ name.raw) = some (globalWord, name.raw) :=
        splitOnce_eq (List.all_eq_true.mp hid) (by decide) (by simp)
      have hword : asciiLowercase globalWord = globalWord := by decide
      simp [fromStr, text, hsplit, hword, name.tryNew_raw, Except.mapError, bind, Except.bind, pure,
        Except.pure]
    | org slug =>
      have hsplit : splitOnce '/' (slug.raw ++ "/" ++ name.raw) = some (slug.raw, name.raw) :=
        splitOnce_eq slug.idText (by decide) (by simp)
      simp [fromStr, text, hsplit, slug.lowercase_raw, hglobal slug rfl, slug.tryNew_raw,
        name.tryNew_raw, Except.mapError, Except.map, bind, Except.bind, pure, Except.pure]

section Back

variable {catalog : DescriptorCatalog} {roster : OrgRoster} {read : CatalogReadScope}
  {scopes : List CatalogScope} {entry : DescriptorEntry}

theorem DescriptorCatalog.getEntry_eq_some {scope : CatalogScope} {name : CatalogName} :
    catalog.getEntry scope name = some entry ↔
      entry ∈ catalog.entries ∧ entry.scope = scope ∧ entry.name.key = name.key := by
  have hfind := Assoc.find?_key_eq_some catalog.distinct (k := (scope, name.key)) (x := entry)
  simpa [getEntry, Prod.ext_iff] using hfind

theorem DescriptorCatalog.getEntry_of_mem (hentry : entry ∈ catalog.entries) :
    catalog.getEntry entry.scope entry.name = some entry :=
  getEntry_eq_some.mpr ⟨hentry, rfl, rfl⟩

theorem OrgRoster.lookupOrgBySlug_of_mem {org : Organization} (horg : org ∈ roster.orgs) :
    roster.lookupOrgBySlug org.slug.raw = some org.orgId := by
  rw [lookupOrgBySlug, (Assoc.find?_key_eq_some roster.slugs).mpr ⟨horg, rfl⟩]
  rfl

theorem firstForPlan_head {tombstone : Option DescriptorEntry} {rest : List CatalogScope}
    (hentry : entry ∈ catalog.entries) (hlive : entry.live = true) :
    firstForPlan catalog entry.name tombstone (entry.scope :: rest) = some entry := by
  simp [firstForPlan, DescriptorCatalog.getEntry_of_mem hentry, hlive]

theorem NameView.lookup_slugs {id : OrgId} {slug : OrgSlug} :
    (NameView.load catalog roster read scopes).slugs.lookup id = some slug ↔
      ∃ org ∈ roster.orgs, read.foreign scopes org.orgId = true ∧ org.orgId = id ∧
        org.slug = slug := by
  have hdistinct : Assoc.Distinct (NameView.load catalog roster read scopes).slugs := by
    simp only [Assoc.Distinct, NameView.load, List.map_map]
    exact roster.ids.sublist (List.filter_sublist.map _)
  rw [Assoc.lookup_eq_some_iff hdistinct]
  simp only [NameView.load, List.mem_map, List.mem_filter, Prod.mk.injEq]
  constructor
  · rintro ⟨org, ⟨horg, hforeign⟩, hid, hslug⟩
    exact ⟨org, horg, hforeign, hid, hslug⟩
  · rintro ⟨org, horg, hforeign, hid, hslug⟩
    exact ⟨org, ⟨horg, hforeign⟩, hid, hslug⟩

theorem NameView.mem_shadowing {id : OrgId} (hown : read.ownOrg = some id)
    (hentry : entry ∈ catalog.entries) (hscope : entry.scope = .org id)
    (hlive : entry.live = true) :
    entry.name.key ∈ (NameView.load catalog roster read scopes).shadowing := by
  simp only [NameView.load, hown]
  refine List.mem_map_of_mem (List.mem_map_of_mem (List.mem_filter.mpr ⟨hentry, ?_⟩))
  simp [hscope, hlive]

theorem firstForPlan_unshadowed {id : OrgId} (hown : read.ownOrg = some id)
    (hentry : entry ∈ catalog.entries) (hlive : entry.live = true)
    (hshadow : entry.name.key ∉ (NameView.load catalog roster read scopes).shadowing) :
    firstForPlan catalog entry.name none [.org id, entry.scope] = some entry := by
  rw [firstForPlan]
  split
  · exact firstForPlan_head hentry hlive
  · next own hgot =>
    obtain ⟨hmem, hscope, hkey⟩ := DescriptorCatalog.getEntry_eq_some.mp hgot
    have hdead : own.live = false := by
      by_contra h
      exact hshadow (hkey ▸ NameView.mem_shadowing hown hmem hscope (by simpa using h))
    simp only [hdead, Bool.false_eq_true, if_false]
    exact firstForPlan_head hentry hlive

theorem namedScopes_bare {id : OrgId} (hown : read.ownOrg = some id) {name : CatalogName} :
    (namedScopes roster read ⟨none, name⟩).filter read.canRead = [.org id, .global] := by
  cases read with
  | unaffiliated => cases hown
  | org own =>
    cases hown
    simp [namedScopes, CatalogReadScope.ownOrg, CatalogReadScope.canRead]
  | everyOrg ownOrg =>
    cases hown
    simp [namedScopes, CatalogReadScope.ownOrg, CatalogReadScope.canRead]

theorem resolve_displayName (hentry : entry ∈ catalog.entries) (hlive : entry.live = true)
    {shown : QualifiedCatalogName}
    (hshown : (NameView.load catalog roster read scopes).displayName entry.scope entry.name =
      some shown) : resolve catalog roster read shown = some entry := by
  suffices hplan : resolveForPlan catalog roster read shown = some entry by
    rw [resolve, hplan, Option.filter_some, if_pos hlive]
  unfold NameView.displayName at hshown
  split at hshown
  · cases hshown
  next hread =>
  replace hread : read.canRead entry.scope = true := by simpa [NameView.load] using hread
  split at hshown
  · next hscope =>
    have hglobal : ∀ read : CatalogReadScope, read.canRead .global = true := by
      rintro (_ | _ | _) <;> rfl
    split at hshown
    · cases hshown
      simp only [resolveForPlan, namedScopes, List.filter_cons, hglobal, if_true, List.filter_nil]
      rw [← hscope]
      exact firstForPlan_head hentry hlive
    · next hshadow =>
      cases hshown
      rw [← hscope] at hglobal
      cases hown : read.ownOrg with
      | none =>
        simp only [resolveForPlan, namedScopes, hown, Option.map_none, Option.toList_none,
          List.nil_append, ← hscope, List.filter_cons, hglobal, if_true, List.filter_nil]
        exact firstForPlan_head hentry hlive
      | some id =>
        simp only [resolveForPlan, namedScopes_bare hown, ← hscope]
        exact firstForPlan_unshadowed hown hentry hlive hshadow
  · next id hscope =>
    split at hshown
    · next hown =>
      cases hshown
      have hown : read.ownOrg = some id := of_decide_eq_true hown
      simp only [resolveForPlan, namedScopes_bare hown]
      rw [← hscope]
      exact firstForPlan_head hentry hlive
    · obtain ⟨slug, hslug, hname⟩ := Option.map_eq_some_iff.mp hshown
      cases hname
      obtain ⟨org, horg, -, rfl, rfl⟩ := NameView.lookup_slugs.mp hslug
      simp only [resolveForPlan, namedScopes, OrgRoster.lookupOrgBySlug_of_mem horg, Option.map_some,
        Option.toList_some, ← hscope, List.filter_cons, hread, if_true, List.filter_nil]
      exact firstForPlan_head hentry hlive

theorem NameView.slug_of_displayName {name : CatalogName} {scope : CatalogScope}
    {shown : QualifiedCatalogName} {slug : OrgSlug}
    (hshown : (NameView.load catalog roster read scopes).displayName scope name = some shown)
    (hslug : shown.qualifier = some (.org slug)) :
    ∃ org ∈ roster.orgs, read.foreign scopes org.orgId = true ∧ scope = .org org.orgId ∧
      org.slug = slug := by
  unfold NameView.displayName at hshown
  split at hshown
  · cases hshown
  split at hshown
  · cases hshown
    dsimp only at hslug
    split at hslug <;> cases hslug
  · split at hshown
    · cases hshown
      cases hslug
    · obtain ⟨found, hfound, hname⟩ := Option.map_eq_some_iff.mp hshown
      cases hname
      cases hslug
      obtain ⟨org, horg, hforeign, rfl, rfl⟩ := NameView.lookup_slugs.mp hfound
      exact ⟨org, horg, hforeign, rfl, rfl⟩

theorem NameView.displayName_foreign {org : Organization} (horg : org ∈ roster.orgs)
    (hforeign : read.foreign scopes org.orgId = true) (name : CatalogName) :
    (NameView.load catalog roster read scopes).displayName (.org org.orgId) name =
      some ⟨some (.org org.slug), name⟩ := by
  have hslug : (NameView.load catalog roster read scopes).slugs.lookup org.orgId = some org.slug :=
    NameView.lookup_slugs.mpr ⟨org, horg, hforeign, rfl, rfl⟩
  simp only [CatalogReadScope.foreign, Bool.and_eq_true, Bool.not_eq_true'] at hforeign
  obtain ⟨⟨-, hread⟩, hown⟩ := hforeign
  have hview : (NameView.load catalog roster read scopes).read = read := rfl
  simp [NameView.displayName, hview, hread, hown, hslug]

theorem scope_of_resolve_global {name : CatalogName}
    (h : resolve catalog roster read ⟨some .global, name⟩ = some entry) : entry.scope = .global := by
  obtain ⟨hplan, -⟩ := Option.filter_eq_some_iff.mp h
  have hglobal : read.canRead .global = true := by cases read <;> rfl
  simp only [resolveForPlan, namedScopes, List.filter_cons, hglobal, if_true, List.filter_nil,
    firstForPlan] at hplan
  split at hplan
  · cases hplan
  · next found hfound =>
    have hsame : found = entry := by
      split at hplan <;> simpa using hplan
    exact hsame ▸ (DescriptorCatalog.getEntry_eq_some.mp hfound).2.1

theorem QualifiedCatalogName.fromStr_globalSlug {slug : OrgSlug} {name : CatalogName}
    (hslug : slug.raw = globalWord) :
    fromStr (QualifiedCatalogName.text ⟨some (.org slug), name⟩) = .ok ⟨some .global, name⟩ := by
  have htext : QualifiedCatalogName.text ⟨some (.org slug), name⟩ =
      QualifiedCatalogName.text ⟨some .global, name⟩ := by simp [text, hslug]
  rw [htext]
  exact fromStr_text _ (by simp)

end Back

/-- The text that a live entry shows to a reader leads that reader back to it, and no two live entries
show one text, exactly when the reader is shown no live entry by the slug `global`. -/
theorem shown_name_leads_back (catalog : DescriptorCatalog) (roster : OrgRoster)
    (read : CatalogReadScope) (scopes : List CatalogScope) :
    ((∀ entry ∈ catalog.entries, entry.live = true → ∀ shown,
      (NameView.load catalog roster read scopes).displayName entry.scope entry.name = some shown →
        ∃ name, QualifiedCatalogName.fromStr shown.text = .ok name ∧
          resolve catalog roster read name = some entry) ∧
    ∀ entry ∈ catalog.entries, ∀ entry' ∈ catalog.entries, entry.live = true →
      entry'.live = true → ∀ shown shown',
      (NameView.load catalog roster read scopes).displayName entry.scope entry.name = some shown →
      (NameView.load catalog roster read scopes).displayName entry'.scope entry'.name =
        some shown' → shown.text = shown'.text → entry = entry') ↔
    ∀ org ∈ roster.orgs, org.slug.raw = QualifiedCatalogName.globalWord →
      read.foreign scopes org.orgId = true →
      ∀ entry ∈ catalog.entries, entry.scope = .org org.orgId → entry.live = false := by
  constructor
  · rintro ⟨hback, -⟩ org horg hslug hforeign entry hentry hscope
    by_contra hlive
    replace hlive : entry.live = true := by simpa using hlive
    have hshown : (NameView.load catalog roster read scopes).displayName entry.scope entry.name =
        some ⟨some (.org org.slug), entry.name⟩ :=
      hscope ▸ NameView.displayName_foreign horg hforeign entry.name
    obtain ⟨name, hname, hresolve⟩ := hback entry hentry hlive _ hshown
    rw [QualifiedCatalogName.fromStr_globalSlug hslug] at hname
    cases hname
    have hglobal := scope_of_resolve_global hresolve
    rw [hscope] at hglobal
    cases hglobal
  intro hnone
  have hread : ∀ entry ∈ catalog.entries, entry.live = true → ∀ shown,
      (NameView.load catalog roster read scopes).displayName entry.scope entry.name = some shown →
        QualifiedCatalogName.fromStr shown.text = .ok shown := by
    intro entry hentry hlive shown hshown
    refine shown.fromStr_text fun slug hslug hword => ?_
    obtain ⟨org, horg, hforeign, hscope, rfl⟩ := NameView.slug_of_displayName hshown hslug
    have hdead := hnone org horg hword hforeign entry hentry hscope
    rw [hlive] at hdead
    cases hdead
  refine ⟨fun entry hentry hlive shown hshown => ?_, ?_⟩
  · exact ⟨shown, hread entry hentry hlive shown hshown, resolve_displayName hentry hlive hshown⟩
  · intro entry hentry entry' hentry' hlive hlive' shown shown' hshown hshown' htext
    have hsame : shown = shown' := by
      have h := hread entry hentry hlive shown hshown
      rw [htext, hread entry' hentry' hlive' shown' hshown'] at h
      cases h
      rfl
    subst hsame
    have hback := resolve_displayName hentry hlive hshown
    rw [resolve_displayName hentry' hlive' hshown'] at hback
    cases hback
    rfl

def sharedName : CatalogName := ⟨"x", by decide⟩

def memberOrg : OrgId := ⟨"org_a", by decide⟩

def namesakeOrg : OrgId := ⟨"org_b", by decide⟩

def sharedCatalog : DescriptorCatalog where
  entries := [⟨.global, sharedName, .active⟩, ⟨.org memberOrg, sharedName, .active⟩,
    ⟨.org namesakeOrg, sharedName, .active⟩]
  distinct := by decide

def namesakeRoster : OrgRoster where
  orgs := [⟨memberOrg, ⟨"acme", by decide⟩⟩, ⟨namesakeOrg, ⟨"global", by decide⟩⟩]
  ids := by decide
  slugs := by decide

/-- Two live entries show `global/x` to one reader, and it leads to one of them only. -/
theorem shown_name_collides :
    let read := CatalogReadScope.everyOrg (some memberOrg)
    let view := NameView.load sharedCatalog namesakeRoster read [.org namesakeOrg]
    (view.displayName .global sharedName).map (·.text) = some "global/x" ∧
      (view.displayName (.org namesakeOrg) sharedName).map (·.text) = some "global/x" ∧
      ∃ name, QualifiedCatalogName.fromStr "global/x" = .ok name ∧
        resolve sharedCatalog namesakeRoster read name = some ⟨.global, sharedName, .active⟩ := by
  refine ⟨by decide, by decide, ⟨some .global, sharedName⟩, by decide, by decide⟩

/-- The same catalog with another handle, and a member of an organization that does not see the one
called `global`. -/
theorem shown_name_leads_back_member :
    let roster : OrgRoster := ⟨[⟨memberOrg, ⟨"acme", by decide⟩⟩, ⟨namesakeOrg, ⟨"beta", by decide⟩⟩],
      by decide, by decide⟩
    (∃ name, QualifiedCatalogName.fromStr "beta/x" = .ok name ∧
      resolve sharedCatalog roster (.everyOrg (some memberOrg)) name =
        some ⟨.org namesakeOrg, sharedName, .active⟩) ∧
    ∃ name, QualifiedCatalogName.fromStr "global/x" = .ok name ∧
      resolve sharedCatalog namesakeRoster (.org memberOrg) name =
        some ⟨.global, sharedName, .active⟩ := by
  intro roster
  have hbeta := (shown_name_leads_back sharedCatalog roster (.everyOrg (some memberOrg))
    [.org namesakeOrg]).mpr (by decide)
  have hmember := (shown_name_leads_back sharedCatalog namesakeRoster (.org memberOrg)
    [.org namesakeOrg]).mpr (by decide)
  refine ⟨hbeta.1 ⟨.org namesakeOrg, sharedName, .active⟩ (by decide) rfl
    ⟨some (.org ⟨"beta", by decide⟩), sharedName⟩ (by decide), ?_⟩
  exact hmember.1 ⟨.global, sharedName, .active⟩ (by decide) rfl ⟨some .global, sharedName⟩
    (by decide)

end Pipette
