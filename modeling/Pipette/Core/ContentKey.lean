import Mathlib.Data.Finset.Sort
import Mathlib.Data.List.Lex
import Pipette.Core.Descriptor
import Pipette.Core.Matching

/-! The content key: a digest over a job's content, so that a cell two plans describe runs once.
SHA-256 and the JSON text encoding are parameters. -/
namespace Pipette

open Json

def unkeyed : List String := ["job_id", "plan_id", "expires_at", "merge_duplicates"]

def flagClauses : List String := ["requires", "clients", "excludes", "exclude_clients"]

def groupClauses : List String := ["any_of", "not_all_of"]

def contentKeyVersion : String := "pipette-content-key-v2"

def legacyVersion : String := "pipette-content-key-v1"

def cellKeyVersion : String := "pipette-cell-key-v1"

namespace ContentKey

def arrayField (body : Json) (field : String) : List Json :=
  ((body.get field).bind Json.asArray).getD []

def strings (items : List Json) : Finset String := (items.filterMap Json.asStr).toFinset

def flagSet (body : Json) (field : String) : Json :=
  strArray ((strings (arrayField body field)).sort (· ≤ ·))

def sorted (strs : Finset String) : List String := strs.sort (· ≤ ·)

def groups (body : Json) (field : String) : Finset (Finset String) :=
  (((arrayField body field).filterMap Json.asArray).map strings).toFinset

/-- A sorted set of sorted groups; an empty group survives. -/
def groupSets (body : Json) (field : String) : Json :=
  .arr ((((groups body field).image fun group => group.sort (· ≤ ·)).sort (· ≤ ·)).map strArray)

def removeAll (fields : List String) (map : List (String × Json)) : List (String × Json) :=
  fields.foldl (fun map field => removeField field map) map

def insertAll (value : String → Json) (fields : List String) (map : List (String × Json)) :
    List (String × Json) :=
  fields.foldl (fun map field => insertField field (value field) map) map

def content (body : Json) : Json :=
  match body with
  | .obj fields =>
    .obj (insertAll (groupSets body) groupClauses
      (insertAll (flagSet body) flagClauses (removeAll unkeyed fields)))
  | other => other

/-- The content of a body without the clauses: the cell it measures, whoever runs it. -/
def cell (body : Json) : Json :=
  match body with
  | .obj fields =>
    .obj (removeAll (unkeyed ++ flagClauses ++ groupClauses ++ ["required_flags"]) fields)
  | other => other

end ContentKey

section Digest

variable {Text Digest : Type*} (toText : Json → Text) (sha256 : Text → Digest)

/-- The content digest of a job body. `toText` is the compact encoding of a value whose keys
are sorted already. -/
def contentDigest (body : Json) : Digest :=
  let preimage := Json.obj
    [("v", .str contentKeyVersion), ("body", (ContentKey.content body).dropVaultCustomLabels)]
  sha256 (toText preimage.canonical)

def cellDigest (body : Json) : Digest :=
  let preimage := Json.obj
    [("v", .str cellKeyVersion), ("body", (ContentKey.cell body).dropVaultCustomLabels)]
  sha256 (toText preimage.canonical)

/-- The former digest, which says nothing of the fields beside the clauses and `spec`. -/
def legacyContentDigest (body : Json) : Digest :=
  let preimage := Json.obj
    [("any_of", ContentKey.groupSets body "any_of"),
      ("clients", ContentKey.flagSet body "clients"),
      ("exclude_clients", ContentKey.flagSet body "exclude_clients"),
      ("excludes", ContentKey.flagSet body "excludes"),
      ("not_all_of", ContentKey.groupSets body "not_all_of"),
      ("requires", ContentKey.flagSet body "requires"),
      ("spec", (body.get "spec").getD .null), ("v", .str legacyVersion)]
  sha256 (toText preimage.canonical)

end Digest

/-- The body's `merge_duplicates`; absent or null merges. The error is the malformed value. -/
def mergeDuplicates (body : Json) : Except Json Bool :=
  match body.get "merge_duplicates" with
  | none | some .null => .ok true
  | some (.bool b) => .ok b
  | some other => .error other

def mergeable (body : Json) : Bool :=
  match mergeDuplicates body with
  | .ok b => b
  | .error _ => true

def ClausesWellFormed (body : Json) : Prop :=
  (∀ field ∈ flagClauses, (flagField body field).isSome) ∧
    ∀ field ∈ groupClauses, (flagGroups body field).isSome

structure SameClauses (body body' : Json) : Prop where
  flags : ∀ field ∈ flagClauses, flagField body field = flagField body' field
  groups : ∀ field ∈ groupClauses,
    (flagGroups body field).map List.toFinset = (flagGroups body' field).map List.toFinset

def Keyed (field : String) : Prop :=
  field ∉ unkeyed ∧ field ∉ flagClauses ∧ field ∉ groupClauses

/-- Equal apart from clause order and repetition, empty against absent clauses, object key
order, the unkeyed fields and vault labels. -/
inductive SameJob : Json → Json → Prop
  | obj {fields fields' : List (String × Json)}
      (clauses : SameClauses (.obj fields) (.obj fields'))
      (keys : ∀ k, Keyed k →
        ((unlabelled fields).lookup k).isSome = ((unlabelled fields').lookup k).isSome)
      (rest : ∀ k v w, Keyed k → (unlabelled fields).lookup k = some v →
        (unlabelled fields').lookup k = some w → SameContent v w) :
      SameJob (.obj fields) (.obj fields')
  | other {v w : Json} (hv : ∀ fields, v ≠ .obj fields) (h : SameContent v w) : SameJob v w

namespace ContentKey

theorem mapM_asStr {items : List Json} {strs : List String}
    (h : items.mapM Json.asStr = some strs) : items.filterMap Json.asStr = strs := by
  induction items generalizing strs with
  | nil => simpa using h
  | cons v rest ih =>
    simp only [List.mapM_cons, Option.bind_eq_bind, Option.bind_eq_some_iff, Option.pure_def,
      Option.some.injEq] at h
    obtain ⟨s, hs, strs', hrest, rfl⟩ := h
    simp [hs, ih hrest]

theorem strings_of_flagSet {items : List Json} {set : Finset String}
    (h : Pipette.flagSet items = some set) : strings items = set := by
  obtain ⟨strs, hstrs, rfl⟩ := Option.map_eq_some_iff.mp h
  rw [strings, mapM_asStr hstrs]

theorem strings_of_flagField {body : Json} {field : String} {set : Finset String}
    (h : flagField body field = some set) : strings (arrayField body field) = set := by
  unfold flagField at h
  cases hget : body.get field with
  | none => simpa [hget, arrayField, strings] using h
  | some v =>
    rw [hget] at h
    obtain ⟨items, hitems, h⟩ := Option.bind_eq_some_iff.mp h
    simpa [arrayField, hget, hitems] using strings_of_flagSet h

theorem groups_of_mapM {items : List Json} {sets : List (Finset String)}
    (h : items.mapM (fun group => group.asArray.bind Pipette.flagSet) = some sets) :
    (items.filterMap Json.asArray).map strings = sets := by
  induction items generalizing sets with
  | nil => simpa using h
  | cons v rest ih =>
    simp only [List.mapM_cons, Option.bind_eq_bind, Option.bind_eq_some_iff, Option.pure_def,
      Option.some.injEq] at h
    obtain ⟨set, ⟨items, hitems, hset⟩, sets', hrest, rfl⟩ := h
    simp [hitems, ih hrest, strings_of_flagSet hset]

theorem groups_of_flagGroups {body : Json} {field : String} {sets : List (Finset String)}
    (h : flagGroups body field = some sets) : groups body field = sets.toFinset := by
  unfold flagGroups at h
  cases hget : body.get field with
  | none =>
    rw [hget, Option.some.injEq] at h
    simp [groups, arrayField, hget, ← h]
  | some v =>
    rw [hget] at h
    obtain ⟨items, hitems, h⟩ := Option.bind_eq_some_iff.mp h
    simp [groups, arrayField, hget, hitems, groups_of_mapM h]

theorem sort_injective : Function.Injective fun s : Finset String => s.sort (· ≤ ·) := by
  intro s t h
  have := congrArg List.toFinset h
  simpa using this

theorem flagSet_eq_iff {body body' : Json} {field : String} :
    flagSet body field = flagSet body' field ↔
      strings (arrayField body field) = strings (arrayField body' field) :=
  ⟨fun h => sort_injective (strArray_injective h), fun h => by rw [flagSet, flagSet, h]⟩

theorem groupSets_eq_iff {body body' : Json} {field : String} :
    groupSets body field = groupSets body' field ↔
      groups body field = groups body' field := by
  refine ⟨fun h => ?_, fun h => by rw [groupSets, groupSets, h]⟩
  rw [groupSets, groupSets, Json.arr.injEq] at h
  have himage := congrArg List.toFinset (strArray_injective.list_map h)
  rw [Finset.sort_toFinset, Finset.sort_toFinset] at himage
  exact Finset.image_injective sort_injective himage

theorem contentForm_strArray (strs : List String) : contentForm (strArray strs) = strArray strs := by
  rw [strArray, contentForm_arr, List.map_map]
  rfl

theorem contentForm_groupSets (body : Json) (field : String) :
    contentForm (groupSets body field) = groupSets body field := by
  rw [groupSets, contentForm_arr, List.map_map]
  simp [Function.comp_def, contentForm_strArray]

theorem lookup_removeAll (fields : List String) (map : List (String × Json)) (k : String) :
    (removeAll fields map).lookup k = if k ∈ fields then none else map.lookup k := by
  induction fields generalizing map with
  | nil => simp [removeAll]
  | cons field rest ih =>
    rw [removeAll, List.foldl_cons, ← removeAll, ih, lookup_removeField]
    by_cases hk : k = field <;> by_cases hr : k ∈ rest <;> simp [hk, hr]

theorem lookup_insertAll (value : String → Json) (fields : List String)
    (map : List (String × Json)) (k : String) :
    (insertAll value fields map).lookup k =
      if k ∈ fields then some (value k) else map.lookup k := by
  induction fields generalizing map with
  | nil => simp [insertAll]
  | cons field rest ih =>
    rw [insertAll, List.foldl_cons, ← insertAll, ih, lookup_insertField]
    by_cases hr : k ∈ rest
    · simp [hr]
    · by_cases hk : k = field <;> simp [hk, hr]

theorem distinct_removeAll (fields : List String) {map : List (String × Json)}
    (h : Assoc.Distinct map) : Assoc.Distinct (removeAll fields map) := by
  induction fields generalizing map with
  | nil => exact h
  | cons field rest ih => exact ih (distinct_removeField h)

theorem distinct_insertAll (value : String → Json) (fields : List String)
    {map : List (String × Json)} (h : Assoc.Distinct map) :
    Assoc.Distinct (insertAll value fields map) := by
  induction fields generalizing map with
  | nil => exact h
  | cons field rest ih => exact ih (distinct_insertField h)

def contentFields (fields : List (String × Json)) : List (String × Json) :=
  insertAll (groupSets (.obj fields)) groupClauses
    (insertAll (flagSet (.obj fields)) flagClauses (removeAll unkeyed fields))

theorem content_obj (fields : List (String × Json)) :
    content (.obj fields) = .obj (contentFields fields) := rfl

theorem distinct_contentFields {fields : List (String × Json)} (h : Assoc.Distinct fields) :
    Assoc.Distinct (contentFields fields) :=
  distinct_insertAll _ _ (distinct_insertAll _ _ (distinct_removeAll _ h))

theorem lookup_contentFields (fields : List (String × Json)) (k : String) :
    (contentFields fields).lookup k =
      if k ∈ groupClauses then some (groupSets (.obj fields) k)
      else if k ∈ flagClauses then some (flagSet (.obj fields) k)
      else if k ∈ unkeyed then none else fields.lookup k := by
  rw [contentFields, lookup_insertAll, lookup_insertAll, lookup_removeAll]

theorem isVaultSource_contentFields (fields : List (String × Json)) :
    isVaultSource (contentFields fields) = isVaultSource fields := by
  have hsource := lookup_contentFields fields "source"
  have htype := lookup_contentFields fields "type"
  rw [if_neg (by decide), if_neg (by decide), if_neg (by decide)] at hsource htype
  simp only [isVaultSource, List.any_cons, List.any_nil, hsource, htype]

theorem lookup_unlabelled_contentFields (fields : List (String × Json)) (k : String) :
    (unlabelled (contentFields fields)).lookup k =
      if k ∈ groupClauses then some (groupSets (.obj fields) k)
      else if k ∈ flagClauses then some (flagSet (.obj fields) k)
      else if k ∈ unkeyed then none else (unlabelled fields).lookup k := by
  rw [lookup_unlabelled, lookup_contentFields, isVaultSource_contentFields, lookup_unlabelled]
  by_cases hlabel : k = "custom_label" ∧ isVaultSource fields = true
  · have hg : k ∉ groupClauses := by rw [hlabel.1]; decide
    have hf : k ∉ flagClauses := by rw [hlabel.1]; decide
    rw [if_pos hlabel, if_pos hlabel, if_neg hg, if_neg hf, ite_self]
  · rw [if_neg hlabel, if_neg hlabel]

end ContentKey

theorem not_mem_of_keyed {k : String} (h : Keyed k) :
    k ∉ groupClauses ∧ k ∉ flagClauses ∧ k ∉ unkeyed :=
  ⟨h.2.2, h.2.1, h.1⟩

theorem sameClauses_iff {body body' : Json} (hb : ClausesWellFormed body)
    (hb' : ClausesWellFormed body') :
    SameClauses body body' ↔
      (∀ field ∈ flagClauses, ContentKey.flagSet body field = ContentKey.flagSet body' field) ∧
        ∀ field ∈ groupClauses,
          ContentKey.groupSets body field = ContentKey.groupSets body' field := by
  have hflags : ∀ field ∈ flagClauses, (flagField body field = flagField body' field ↔
      ContentKey.flagSet body field = ContentKey.flagSet body' field) := by
    intro field hfield
    obtain ⟨set, hset⟩ := Option.isSome_iff_exists.mp (hb.1 field hfield)
    obtain ⟨set', hset'⟩ := Option.isSome_iff_exists.mp (hb'.1 field hfield)
    rw [ContentKey.flagSet_eq_iff, ContentKey.strings_of_flagField hset,
      ContentKey.strings_of_flagField hset', hset, hset', Option.some.injEq]
  have hgroups : ∀ field ∈ groupClauses,
      ((flagGroups body field).map List.toFinset = (flagGroups body' field).map List.toFinset ↔
        ContentKey.groupSets body field = ContentKey.groupSets body' field) := by
    intro field hfield
    obtain ⟨sets, hsets⟩ := Option.isSome_iff_exists.mp (hb.2 field hfield)
    obtain ⟨sets', hsets'⟩ := Option.isSome_iff_exists.mp (hb'.2 field hfield)
    rw [ContentKey.groupSets_eq_iff, ContentKey.groups_of_flagGroups hsets,
      ContentKey.groups_of_flagGroups hsets', hsets, hsets']
    simp
  constructor
  · intro h
    exact ⟨fun field hfield => (hflags field hfield).mp (h.flags field hfield),
      fun field hfield => (hgroups field hfield).mp (h.groups field hfield)⟩
  · intro h
    exact ⟨fun field hfield => (hflags field hfield).mpr (h.1 field hfield),
      fun field hfield => (hgroups field hfield).mpr (h.2 field hfield)⟩

theorem contentForm_contentFields_eq_iff {fields fields' : List (String × Json)}
    (hw : (Json.obj fields).WellFormed) (hw' : (Json.obj fields').WellFormed)
    (hb : ClausesWellFormed (.obj fields)) (hb' : ClausesWellFormed (.obj fields')) :
    contentForm (.obj (ContentKey.contentFields fields)) =
        contentForm (.obj (ContentKey.contentFields fields')) ↔
      SameJob (.obj fields) (.obj fields') := by
  cases hw with | obj hd hv =>
  cases hw' with | obj hd' hv' =>
  rw [contentForm_obj_eq_iff (ContentKey.distinct_contentFields hd)
    (ContentKey.distinct_contentFields hd')]
  simp only [ContentKey.lookup_unlabelled_contentFields]
  have hvalue : ∀ k v, (unlabelled fields).lookup k = some v → v.WellFormed :=
    fun k v h => hv _ (unlabelled_subset (Assoc.mem_of_lookup h))
  have hvalue' : ∀ k v, (unlabelled fields').lookup k = some v → v.WellFormed :=
    fun k v h => hv' _ (unlabelled_subset (Assoc.mem_of_lookup h))
  constructor
  · intro h
    refine .obj ((sameClauses_iff hb hb').mpr ⟨fun k hk => ?_, fun k hk => ?_⟩) ?_ ?_
    · have hg : k ∉ groupClauses := by revert k; decide
      have := h k
      rwa [if_neg hg, if_pos hk, if_neg hg, if_pos hk, Option.map_some, Option.map_some,
        Option.some.injEq, ContentKey.flagSet, ContentKey.flagSet,
        ContentKey.contentForm_strArray, ContentKey.contentForm_strArray] at this
    · have := h k
      rwa [if_pos hk, if_pos hk, Option.map_some, Option.map_some, Option.some.injEq,
        ContentKey.contentForm_groupSets, ContentKey.contentForm_groupSets] at this
    · intro k hk
      obtain ⟨hg, hf, hu⟩ := not_mem_of_keyed hk
      have := h k
      rw [if_neg hg, if_neg hf, if_neg hu, if_neg hg, if_neg hf, if_neg hu] at this
      exact (map_eq_map_iff.mp this).1
    · intro k v w hk hkv hkw
      obtain ⟨hg, hf, hu⟩ := not_mem_of_keyed hk
      have := h k
      rw [if_neg hg, if_neg hf, if_neg hu, if_neg hg, if_neg hf, if_neg hu] at this
      exact (contentForm_eq_iff (hvalue k v hkv) (hvalue' k w hkw)).mp
        ((map_eq_map_iff.mp this).2 v w hkv hkw)
  · intro h k
    cases h with
    | other hno _ => exact absurd rfl (hno fields)
    | obj clauses keys rest =>
      obtain ⟨hflags, hgroups⟩ := (sameClauses_iff hb hb').mp clauses
      by_cases hg : k ∈ groupClauses
      · rw [if_pos hg, if_pos hg, hgroups k hg]
      by_cases hf : k ∈ flagClauses
      · rw [if_neg hg, if_pos hf, if_neg hg, if_pos hf, hflags k hf]
      by_cases hu : k ∈ unkeyed
      · rw [if_neg hg, if_neg hf, if_pos hu, if_neg hg, if_neg hf, if_pos hu]
      rw [if_neg hg, if_neg hf, if_neg hu, if_neg hg, if_neg hf, if_neg hu]
      refine map_eq_map_iff.mpr ⟨keys k ⟨hu, hf, hg⟩, fun v w hkv hkw => ?_⟩
      exact (contentForm_eq_iff (hvalue k v hkv) (hvalue' k w hkw)).mpr
        (rest k v w ⟨hu, hf, hg⟩ hkv hkw)

theorem content_of_not_obj {v : Json} (h : ∀ fields, v ≠ .obj fields) :
    ContentKey.content v = v := by
  cases v with
  | obj fields => exact absurd rfl (h fields)
  | _ => rfl

theorem contentForm_ne_obj {v : Json} (h : ∀ fields, v ≠ .obj fields)
    (fields : List (String × Json)) : contentForm v ≠ .obj fields := by
  cases v with
  | obj fs => exact absurd rfl (h fs)
  | _ => simp [contentForm, dropVaultCustomLabels, canonical]

theorem contentForm_content_eq_iff {body body' : Json} (hw : body.WellFormed)
    (hw' : body'.WellFormed) (hb : ClausesWellFormed body) (hb' : ClausesWellFormed body') :
    contentForm (ContentKey.content body) = contentForm (ContentKey.content body') ↔
      SameJob body body' := by
  by_cases ho : ∃ fields, body = .obj fields
  · obtain ⟨fields, rfl⟩ := ho
    by_cases ho' : ∃ fields', body' = .obj fields'
    · obtain ⟨fields', rfl⟩ := ho'
      exact contentForm_contentFields_eq_iff hw hw' hb hb'
    · have hno := not_exists.mp ho'
      rw [ContentKey.content_obj, content_of_not_obj hno, contentForm_obj]
      refine ⟨fun h => absurd h.symm (contentForm_ne_obj hno _), fun h => ?_⟩
      cases h with
      | obj => exact absurd rfl (hno _)
      | other h _ => exact absurd rfl (h fields)
  · have hno := not_exists.mp ho
    rw [content_of_not_obj hno]
    by_cases ho' : ∃ fields', body' = .obj fields'
    · obtain ⟨fields', rfl⟩ := ho'
      rw [ContentKey.content_obj, contentForm_obj]
      refine ⟨fun h => absurd h (contentForm_ne_obj hno _), fun h => ?_⟩
      cases h with
      | obj => exact absurd rfl (hno _)
      | other h hs => cases hs with | obj => exact absurd rfl (hno _)
    · rw [content_of_not_obj (not_exists.mp ho'), contentForm_eq_iff hw hw']
      refine ⟨fun h => .other hno h, fun h => ?_⟩
      cases h with
      | obj => exact absurd rfl (hno _)
      | other _ h => exact h

theorem parse_of_flagField {body : Json} {requires excludes ids : Finset String}
    {anyOf notAllOf : List (Finset String)} (hreq : flagField body "requires" = some requires)
    (hexc : flagField body "excludes" = some excludes)
    (hids : flagField body "exclude_clients" = some ids)
    (hany : flagGroups body "any_of" = some anyOf)
    (hnot : flagGroups body "not_all_of" = some notAllOf) :
    Clauses.parse body = some ⟨requires, excludes, ids, anyOf, notAllOf⟩ := by
  unfold flagField at hreq
  cases hget : body.get "requires" with
  | none =>
    simp only [hget, Option.some.injEq] at hreq
    simp [Clauses.parse, hget, hreq, jobExcludes, jobExcludeClients, jobAnyOf, jobNotAllOf, hexc,
      hids, hany, hnot]
  | some v =>
    simp only [hget] at hreq
    simp [Clauses.parse, hget, jobRequires, hreq, jobExcludes, jobExcludeClients, jobAnyOf,
      jobNotAllOf, hexc, hids, hany, hnot]

theorem clientListed_iff_mem {body : Json} {set : Finset String}
    (h : flagField body "clients" = some set) (clientId : ClientId) :
    clientListed body clientId = true ↔ clientId.raw ∈ set := by
  rw [← ContentKey.strings_of_flagField h, clientListed_iff]
  cases hget : body.get "clients" with
  | none => simp [ContentKey.arrayField, ContentKey.strings, hget]
  | some v =>
    cases v <;>
      simp [ContentKey.arrayField, ContentKey.strings, hget, Json.asArray, Json.asStr_eq_some]

theorem parse_of_sameClauses {body body' : Json} (hb : ClausesWellFormed body)
    (h : SameClauses body body') :
    ∃ clauses clauses', Clauses.parse body = some clauses ∧ Clauses.parse body' = some clauses' ∧
      clauses.requires = clauses'.requires ∧ clauses.excludes = clauses'.excludes ∧
      clauses.excludeClients = clauses'.excludeClients ∧
      clauses.anyOf.toFinset = clauses'.anyOf.toFinset ∧
      clauses.notAllOf.toFinset = clauses'.notAllOf.toFinset := by
  obtain ⟨requires, hreq⟩ := Option.isSome_iff_exists.mp (hb.1 "requires" (by decide))
  obtain ⟨excludes, hexc⟩ := Option.isSome_iff_exists.mp (hb.1 "excludes" (by decide))
  obtain ⟨ids, hids⟩ := Option.isSome_iff_exists.mp (hb.1 "exclude_clients" (by decide))
  obtain ⟨anyOf, hany⟩ := Option.isSome_iff_exists.mp (hb.2 "any_of" (by decide))
  obtain ⟨notAllOf, hnot⟩ := Option.isSome_iff_exists.mp (hb.2 "not_all_of" (by decide))
  have hany' := h.groups "any_of" (by decide)
  have hnot' := h.groups "not_all_of" (by decide)
  rw [hany, Option.map_some, eq_comm, Option.map_eq_some_iff] at hany'
  rw [hnot, Option.map_some, eq_comm, Option.map_eq_some_iff] at hnot'
  obtain ⟨anyOf', hany', hanyEq⟩ := hany'
  obtain ⟨notAllOf', hnot', hnotEq⟩ := hnot'
  refine ⟨⟨requires, excludes, ids, anyOf, notAllOf⟩, ⟨requires, excludes, ids, anyOf', notAllOf'⟩,
    ?_, ?_, rfl, rfl, rfl, hanyEq.symm, hnotEq.symm⟩
  · exact parse_of_flagField hreq hexc hids hany hnot
  · rw [h.flags "requires" (by decide)] at hreq
    rw [h.flags "excludes" (by decide)] at hexc
    rw [h.flags "exclude_clients" (by decide)] at hids
    exact parse_of_flagField hreq hexc hids hany' hnot'

theorem forall_mem_of_toFinset_eq {α : Type*} [DecidableEq α] {l l' : List α}
    (h : l.toFinset = l'.toFinset) {p : α → Prop} : (∀ a ∈ l, p a) ↔ ∀ a ∈ l', p a := by
  have hmem : ∀ a, a ∈ l ↔ a ∈ l' := fun a => by
    rw [← List.mem_toFinset, h, List.mem_toFinset]
  simp only [hmem]

theorem jobMatchesClient_of_sameClauses {body body' : Json} (hb : ClausesWellFormed body)
    (h : SameClauses body body') (client : Client) (tags : FleetTags) :
    jobMatchesClient body client tags = jobMatchesClient body' client tags := by
  obtain ⟨clauses, clauses', hparse, hparse', hreq, hexc, hids, hany, hnot⟩ :=
    parse_of_sameClauses hb h
  obtain ⟨ids, hclients⟩ := Option.isSome_iff_exists.mp (hb.1 "clients" (by decide))
  have hlisted := (clientListed_iff_mem hclients client.clientId).trans
    (clientListed_iff_mem (h.flags "clients" (by decide) ▸ hclients) client.clientId).symm
  rw [jobMatchesClient, jobMatchesClient, hparse, hparse', Option.any_some, Option.any_some,
    Bool.eq_iff_iff, Clauses.admits_iff, Clauses.admits_iff, Clauses.excludesClient_eq_false_iff,
    Clauses.excludesClient_eq_false_iff, capabilitiesSatisfy_iff, capabilitiesSatisfy_iff,
    hreq, hexc, hids, hlisted, forall_mem_of_toFinset_eq hany, forall_mem_of_toFinset_eq hnot]

theorem SameJob.sameClauses {body body' : Json} (h : SameJob body body') :
    SameClauses body body' := by
  cases h with
  | obj clauses => exact clauses
  | other hno hs =>
    -- neither body has fields, so every clause is absent in both
    have hget : ∀ field, body.get field = none ∧ body'.get field = none := by
      intro field
      cases hs with
      | obj => exact absurd rfl (hno _)
      | _ => exact ⟨rfl, rfl⟩
    constructor
    · intro field _
      simp [flagField, hget field]
    · intro field _
      simp [flagGroups, hget field]

section Digest

variable {Text Digest : Type*} {toText : Json → Text} {sha256 : Text → Digest}

theorem contentDigest_eq_iff (hsha : Function.Injective sha256)
    (htext : Function.Injective toText) (body body' : Json) :
    contentDigest toText sha256 body = contentDigest toText sha256 body' ↔
      contentForm (ContentKey.content body) = contentForm (ContentKey.content body') := by
  have hdistinct : ∀ v : Json, Assoc.Distinct
      [("v", Json.str contentKeyVersion), ("body", v)] := fun v => by
    simp [Assoc.Distinct]
  rw [contentDigest, contentDigest, hsha.eq_iff, htext.eq_iff]
  simp only [canonical, canonicalFields, Json.obj.injEq,
    Assoc.sortByKey_eq_iff (hdistinct _) (hdistinct _)]
  constructor
  · intro h
    simpa [contentForm, List.lookup_cons] using h "body"
  · intro h k
    rw [contentForm, contentForm] at h
    rw [h]

end Digest

structure JobBody where
  json : Json
  wellFormed : json.WellFormed
  clausesWellFormed : ClausesWellFormed json

/-- Equal digests are interchangeable jobs, and nothing finer: the digests of two bodies agree
exactly when the bodies are the same job, and then every client matches both or neither. -/
theorem contentDigest_interchangeable {Text Digest : Type} (toText : Json → Text)
    (sha256 : Text → Digest) (hsha : Function.Injective sha256)
    (htext : Function.Injective toText) (body body' : JobBody) :
    (contentDigest toText sha256 body.json = contentDigest toText sha256 body'.json →
      (∀ (client : Client) (tags : FleetTags),
        jobMatchesClient body.json client tags = jobMatchesClient body'.json client tags) ∧
      SameJob body.json body'.json) ∧
    (SameJob body.json body'.json →
      contentDigest toText sha256 body.json = contentDigest toText sha256 body'.json) := by
  have hiff := (contentDigest_eq_iff hsha htext body.json body'.json).trans
    (contentForm_content_eq_iff body.wellFormed body'.wellFormed body.clausesWellFormed
      body'.clausesWellFormed)
  refine ⟨fun h => ?_, hiff.mpr⟩
  have hsame := hiff.mp h
  exact ⟨jobMatchesClient_of_sameClauses body.clausesWellFormed hsame.sameClauses, hsame⟩

def stampedBody : JobBody where
  json := .obj [("job_id", .str "job"), ("requires", .arr [.str "b", .str "a", .str "a"]),
    ("spec", .str "cell")]
  wellFormed := .obj (by simp [Assoc.Distinct]) (by
    simp only [List.forall_mem_cons]
    refine ⟨.str _, .arr ?_, .str _, by simp⟩
    simp only [List.forall_mem_cons]
    exact ⟨.str _, .str _, .str _, by simp⟩)
  clausesWellFormed := ⟨by decide, by decide⟩

def respelledBody : JobBody where
  json := .obj [("spec", .str "cell"), ("excludes", .arr []),
    ("requires", .arr [.str "a", .str "b"])]
  wellFormed := .obj (by simp [Assoc.Distinct]) (by
    simp only [List.forall_mem_cons]
    refine ⟨.str _, .arr (by simp), .arr ?_, by simp⟩
    simp only [List.forall_mem_cons]
    exact ⟨.str _, .str _, by simp⟩)
  clausesWellFormed := ⟨by decide, by decide⟩

theorem sameJob_respelled : SameJob stampedBody.json respelledBody.json := by
  have hkeyed : ∀ k, Keyed k → k ≠ "job_id" ∧ k ≠ "requires" ∧ k ≠ "excludes" := by
    rintro k ⟨hu, hf, -⟩
    refine ⟨?_, ?_, ?_⟩ <;> rintro rfl <;> revert hu hf <;> decide
  have hlookup : ∀ k, Keyed k →
      (unlabelled [("job_id", Json.str "job"), ("requires", .arr [.str "b", .str "a", .str "a"]),
        ("spec", .str "cell")]).lookup k =
      (unlabelled [("spec", Json.str "cell"), ("excludes", .arr []),
        ("requires", .arr [.str "a", .str "b"])]).lookup k := by
    intro k hk
    obtain ⟨hj, hr, he⟩ := hkeyed k hk
    have hv : isVaultSource [("job_id", Json.str "job"),
        ("requires", .arr [.str "b", .str "a", .str "a"]), ("spec", .str "cell")] = false := rfl
    have hv' : isVaultSource [("spec", Json.str "cell"), ("excludes", .arr []),
        ("requires", .arr [.str "a", .str "b"])] = false := rfl
    simp [unlabelled, hv, hv', List.lookup_cons, beq_false_of_ne hj, beq_false_of_ne hr,
      beq_false_of_ne he]
  refine .obj ⟨by decide, by decide⟩ (fun k hk => by rw [hlookup k hk]) ?_
  intro k v w hk hv hw
  rw [hlookup k hk, hw, Option.some.injEq] at hv
  subst hv
  have hmem := unlabelled_subset (Assoc.mem_of_lookup hw)
  obtain ⟨-, hr, he⟩ := hkeyed k hk
  simp only [List.mem_cons, Prod.mk.injEq, List.not_mem_nil, or_false] at hmem
  rcases hmem with ⟨-, rfl⟩ | ⟨rfl, -⟩ | ⟨rfl, -⟩
  · exact .str _
  · exact absurd rfl he
  · exact absurd rfl hr

/-- The respelled body has the digest of the stamped one, with text and hash the identity. -/
theorem contentDigest_interchangeable_respelled :
    (∀ (client : Client) (tags : FleetTags), jobMatchesClient stampedBody.json client tags =
      jobMatchesClient respelledBody.json client tags) ∧
    contentDigest id id stampedBody.json = contentDigest id id respelledBody.json := by
  obtain ⟨hto, hof⟩ := contentDigest_interchangeable id id Function.injective_id
    Function.injective_id stampedBody respelledBody
  exact ⟨(hto (hof sameJob_respelled)).1, hof sameJob_respelled⟩

end Pipette
