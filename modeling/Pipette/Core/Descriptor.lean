import Pipette.Core.Json

/-! Canonical descriptor JSON: keys sorted at every depth, vault labels dropped. Two values have
one canonical form exactly when they differ in key order and vault labels alone. -/
namespace Pipette.Json

mutual

def canonical : Json → Json
  | .null => .null
  | .bool b => .bool b
  | .num n => .num n
  | .str s => .str s
  | .arr items => .arr (canonicalItems items)
  | .obj fields => .obj (Assoc.sortByKey (canonicalFields fields))

def canonicalItems : List Json → List Json
  | [] => []
  | v :: rest => v.canonical :: canonicalItems rest

def canonicalFields : List (String × Json) → List (String × Json)
  | [] => []
  | (k, v) :: rest => (k, v.canonical) :: canonicalFields rest

end

def isVaultSource (fields : List (String × Json)) : Bool :=
  ["source", "type"].any fun key =>
    ((fields.lookup key).bind asStr).any fun tag => "vault_".toList.isPrefixOf tag.toList

def unlabelled (fields : List (String × Json)) : List (String × Json) :=
  if isVaultSource fields then removeField "custom_label" fields else fields

mutual

/-- Remove the `custom_label` of every vault source, at any depth. The label of an object is
taken off after its values were visited; the object is judged by its own fields as given. -/
def dropVaultCustomLabels : Json → Json
  | .null => .null
  | .bool b => .bool b
  | .num n => .num n
  | .str s => .str s
  | .arr items => .arr (dropLabelsItems items)
  | .obj fields =>
    .obj (if isVaultSource fields then removeField "custom_label" (dropLabelsFields fields)
      else dropLabelsFields fields)

def dropLabelsItems : List Json → List Json
  | [] => []
  | v :: rest => v.dropVaultCustomLabels :: dropLabelsItems rest

def dropLabelsFields : List (String × Json) → List (String × Json)
  | [] => []
  | (k, v) :: rest => (k, v.dropVaultCustomLabels) :: dropLabelsFields rest

end

theorem canonicalItems_eq (items : List Json) : canonicalItems items = items.map canonical := by
  induction items with
  | nil => rfl
  | cons v rest ih => simp [canonicalItems, ih]

theorem canonicalFields_eq (fields : List (String × Json)) :
    canonicalFields fields = fields.map fun f => (f.1, f.2.canonical) := by
  induction fields with
  | nil => rfl
  | cons f rest ih => simp [canonicalFields, ih]

theorem dropLabelsItems_eq (items : List Json) :
    dropLabelsItems items = items.map dropVaultCustomLabels := by
  induction items with
  | nil => rfl
  | cons v rest ih => simp [dropLabelsItems, ih]

theorem dropLabelsFields_eq (fields : List (String × Json)) :
    dropLabelsFields fields = fields.map fun f => (f.1, f.2.dropVaultCustomLabels) := by
  induction fields with
  | nil => rfl
  | cons f rest ih => simp [dropLabelsFields, ih]

theorem lookup_unlabelled (fields : List (String × Json)) (key : String) :
    (unlabelled fields).lookup key =
      if key = "custom_label" ∧ isVaultSource fields = true then none
      else fields.lookup key := by
  unfold unlabelled
  cases h : isVaultSource fields <;> simp [lookup_removeField]

theorem distinct_unlabelled {fields : List (String × Json)} (h : Assoc.Distinct fields) :
    Assoc.Distinct (unlabelled fields) := by
  unfold unlabelled
  split
  · exact distinct_removeField h
  · exact h

theorem unlabelled_subset {fields : List (String × Json)} {f : String × Json}
    (h : f ∈ unlabelled fields) : f ∈ fields := by
  unfold unlabelled at h
  split at h
  · exact List.mem_of_mem_filter h
  · exact h

theorem dropVaultCustomLabels_obj (fields : List (String × Json)) :
    (Json.obj fields).dropVaultCustomLabels =
      .obj ((unlabelled fields).map fun f => (f.1, f.2.dropVaultCustomLabels)) := by
  rw [dropVaultCustomLabels, dropLabelsFields_eq, unlabelled]
  cases isVaultSource fields with
  | false => rfl
  | true =>
    simp only [if_true, removeField, List.filter_map]
    rfl

def contentForm (v : Json) : Json := v.dropVaultCustomLabels.canonical

theorem contentForm_arr (items : List Json) :
    contentForm (.arr items) = .arr (items.map contentForm) := by
  simp [contentForm, dropVaultCustomLabels, canonical, dropLabelsItems_eq, canonicalItems_eq,
    Function.comp_def]

theorem contentForm_obj (fields : List (String × Json)) :
    contentForm (.obj fields) =
      .obj (Assoc.sortByKey ((unlabelled fields).map fun f => (f.1, contentForm f.2))) := by
  simp [contentForm, dropVaultCustomLabels_obj, canonical, canonicalFields_eq,
    Function.comp_def]

inductive SameContent : Json → Json → Prop
  | null : SameContent .null .null
  | bool (b : Bool) : SameContent (.bool b) (.bool b)
  | num (n : Number) : SameContent (.num n) (.num n)
  | str (s : String) : SameContent (.str s) (.str s)
  | arr {items items' : List Json} (len : items.length = items'.length)
      (h : ∀ (i : Nat) (v w : Json), items[i]? = some v → items'[i]? = some w → SameContent v w) :
      SameContent (.arr items) (.arr items')
  | obj {fields fields' : List (String × Json)}
      (keys : ∀ k, ((unlabelled fields).lookup k).isSome = ((unlabelled fields').lookup k).isSome)
      (h : ∀ k v w, (unlabelled fields).lookup k = some v →
        (unlabelled fields').lookup k = some w → SameContent v w) :
      SameContent (.obj fields) (.obj fields')

theorem contentForm_obj_eq_iff {fields fields' : List (String × Json)}
    (hd : Assoc.Distinct fields) (hd' : Assoc.Distinct fields') :
    contentForm (.obj fields) = contentForm (.obj fields') ↔
      ∀ k, ((unlabelled fields).lookup k).map contentForm =
        ((unlabelled fields').lookup k).map contentForm := by
  rw [contentForm_obj, contentForm_obj, Json.obj.injEq,
    Assoc.sortByKey_eq_iff ((distinct_unlabelled hd).map_snd _)
      ((distinct_unlabelled hd').map_snd _)]
  simp only [Assoc.lookup_map_snd]

theorem map_eq_map_iff {α β : Type*} {f : α → β} {a b : Option α} :
    a.map f = b.map f ↔
      a.isSome = b.isSome ∧ ∀ v w, a = some v → b = some w → f v = f w := by
  cases a <;> cases b <;> simp

theorem SameContent.contentForm_eq {v w : Json} (h : SameContent v w) (hv : v.WellFormed)
    (hw : w.WellFormed) : contentForm v = contentForm w := by
  induction h with
  | null | bool | num | str => rfl
  | arr len _ ih =>
    cases hv with | arr hv =>
    cases hw with | arr hw =>
    rw [contentForm_arr, contentForm_arr, Json.arr.injEq]
    refine List.ext_getElem (by simpa using len) fun i hi hi' => ?_
    simp only [List.length_map] at hi hi'
    simp only [List.getElem_map]
    exact ih i _ _ (List.getElem?_eq_getElem hi) (List.getElem?_eq_getElem hi')
      (hv _ (List.getElem_mem hi)) (hw _ (List.getElem_mem hi'))
  | obj keys _ ih =>
    cases hv with | obj hd hv =>
    cases hw with | obj hd' hw =>
    refine (contentForm_obj_eq_iff hd hd').mpr fun k => map_eq_map_iff.mpr ⟨keys k, ?_⟩
    intro v w hv' hw'
    exact ih k v w hv' hw' (hv _ (unlabelled_subset (Assoc.mem_of_lookup hv')))
      (hw _ (unlabelled_subset (Assoc.mem_of_lookup hw')))

theorem sameContent_of_contentForm_eq {v w : Json} (hv : v.WellFormed) (hw : w.WellFormed)
    (h : contentForm v = contentForm w) : SameContent v w := by
  induction v using Json.induct generalizing w with
  | null | bool | num | str =>
    cases w <;> simp [contentForm, dropVaultCustomLabels, canonical] at h
    all_goals first | exact h ▸ .bool _ | exact h ▸ .num _ | exact h ▸ .str _ | exact .null
  | arr items ih =>
    cases w with
    | arr items' =>
      cases hv with | arr hv =>
      cases hw with | arr hw =>
      rw [contentForm_arr, contentForm_arr, Json.arr.injEq] at h
      refine .arr (by simpa using congrArg List.length h) fun i v w hi hi' => ?_
      refine ih v (List.mem_of_getElem? hi) (hv v (List.mem_of_getElem? hi))
        (hw w (List.mem_of_getElem? hi')) ?_
      simpa [hi, hi'] using congrArg (fun l => l[i]?) h
    | _ => simp [contentForm, dropVaultCustomLabels, canonical] at h
  | obj fields ih =>
    cases w with
    | obj fields' =>
      cases hv with | obj hd hv =>
      cases hw with | obj hd' hw =>
      have hk := (contentForm_obj_eq_iff hd hd').mp h
      refine .obj (fun k => (map_eq_map_iff.mp (hk k)).1) fun k v w hk' hw' => ?_
      have hmem := unlabelled_subset (Assoc.mem_of_lookup hk')
      exact ih _ hmem (hv _ hmem) (hw _ (unlabelled_subset (Assoc.mem_of_lookup hw')))
        ((map_eq_map_iff.mp (hk k)).2 v w hk' hw')
    | _ => simp [contentForm, dropVaultCustomLabels, canonical] at h

theorem contentForm_eq_iff {v w : Json} (hv : v.WellFormed) (hw : w.WellFormed) :
    contentForm v = contentForm w ↔ SameContent v w :=
  ⟨sameContent_of_contentForm_eq hv hw, fun h => h.contentForm_eq hv hw⟩

end Pipette.Json
