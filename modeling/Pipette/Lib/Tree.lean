import Mathlib.Data.List.AList

/-! Trees of files: a name holds at most one content, and a rename moves it whole or not at all. -/

abbrev FileTree (K V : Type) : Type := AList fun _ : K => V

namespace FileTree

variable {K V : Type} [DecidableEq K] {t : FileTree K V} {k k' src dst : K} {v : V}

/-- Move the content of `src` to `dst`, over whatever `dst` held; `none` when `src` is gone. -/
def rename (t : FileTree K V) (src dst : K) : Option (FileTree K V) :=
  (t.lookup src).map fun v => (t.erase src).insert dst v

def eraseWhere (p : K → Bool) (t : FileTree K V) : FileTree K V :=
  ⟨t.entries.filter fun e => !p e.1, t.nodupKeys.sublist List.filter_sublist⟩

def retain (p : V → Bool) (t : FileTree K V) : FileTree K V :=
  ⟨t.entries.filter fun e => p e.2, t.nodupKeys.sublist List.filter_sublist⟩

def mapContents {V' : Type} (f : K → V → V') (t : FileTree K V) : FileTree K V' :=
  ⟨t.entries.map fun e => ⟨e.1, f e.1 e.2⟩, by
    have hkeys : (t.entries.map fun e => (⟨e.1, f e.1 e.2⟩ : Sigma fun _ : K => V')).keys =
        t.entries.keys := by simp [List.keys]
    simpa only [List.NodupKeys, hkeys] using t.nodupKeys⟩

omit [DecidableEq K] in
theorem mem_mapContents {V' : Type} {f : K → V → V'} : k ∈ t.mapContents f ↔ k ∈ t := by
  simp [AList.mem_keys, AList.keys, List.keys, mapContents]

theorem lookup_write : (t.insert k' v).lookup k = if k = k' then some v else t.lookup k := by
  split
  · next h => subst h; exact AList.lookup_insert t
  · next h => exact AList.lookup_insert_ne h

theorem lookup_remove : (t.erase k').lookup k = if k = k' then none else t.lookup k := by
  split
  · next h => subst h; exact AList.lookup_erase k t
  · next h => exact AList.lookup_erase_ne h

theorem rename_eq_none : t.rename src dst = none ↔ t.lookup src = none := by
  simp [rename]

theorem rename_eq_some {t' : FileTree K V} (h : t.rename src dst = some t') :
    ∃ v, t.lookup src = some v ∧ t' = (t.erase src).insert dst v := by
  obtain ⟨v, hv, rfl⟩ := Option.map_eq_some_iff.mp h
  exact ⟨v, hv, rfl⟩

theorem lookup_rename {t' : FileTree K V} (h : t.rename src dst = some t') :
    t'.lookup k =
      if k = dst then t.lookup src else if k = src then none else t.lookup k := by
  obtain ⟨v, hv, rfl⟩ := rename_eq_some h
  rw [lookup_write, lookup_remove, hv]

theorem lookup_eraseWhere {p : K → Bool} :
    (eraseWhere p t).lookup k = if p k then none else t.lookup k := by
  refine Option.ext fun v => AList.mem_lookup_iff.trans ?_
  by_cases hp : p k = true
  · simp [eraseWhere, hp]
  · simp only [eraseWhere, List.mem_filter, hp, Bool.not_false, and_true]
    exact AList.mem_lookup_iff.symm

theorem isSome_write (h : (t.lookup k).isSome) : ((t.insert k' v).lookup k).isSome := by
  rw [lookup_write]
  split
  · rfl
  · exact h

theorem eq_of_gone (h : (t.lookup k).isSome) (hgone : (t.erase k').lookup k = none) : k = k' := by
  by_contra hne
  rw [lookup_remove, if_neg hne] at hgone
  simp [hgone] at h

theorem holds_of_gone {p : K → Bool} (h : (t.lookup k).isSome)
    (hgone : (eraseWhere p t).lookup k = none) : p k = true := by
  by_contra hne
  rw [lookup_eraseWhere, if_neg hne] at hgone
  simp [hgone] at h

theorem lookup_retain {p : V → Bool} : (retain p t).lookup k = (t.lookup k).filter p := by
  refine Option.ext fun v => ?_
  simp only [Option.filter_eq_some_iff]
  rw [← Option.mem_def, ← Option.mem_def, AList.mem_lookup_iff, AList.mem_lookup_iff]
  exact List.mem_filter

theorem mem_keys_iff : k ∈ t.keys ↔ (t.lookup k).isSome := by
  rw [AList.lookup_isSome, AList.mem_keys]

theorem filter_values {name : V → K} (h : ∀ k v, t.lookup k = some v → name v = k) :
    (t.entries.map (·.2)).filter (name · = k) = (t.lookup k).toList := by
  have hentries : ∀ l : List (Sigma fun _ : K => V), l.NodupKeys → (∀ e ∈ l, name e.2 = e.1) →
      (l.map (·.2)).filter (name · = k) = (l.dlookup k).toList := by
    intro l hnodup hname
    induction l with
    | nil => rfl
    | cons e rest ih =>
      obtain ⟨hnew, hrest⟩ := List.nodupKeys_cons.mp hnodup
      have ih := ih hrest fun e he => hname e (List.mem_cons_of_mem _ he)
      have hhead : name e.2 = e.1 := hname e List.mem_cons_self
      by_cases hk : k = e.1
      · subst hk
        have hnone : rest.dlookup e.1 = none := List.dlookup_eq_none.mpr hnew
        rw [hnone] at ih
        rw [List.map_cons, List.filter_cons_of_pos (by simpa using hhead), ih]
        exact (congrArg Option.toList (List.dlookup_cons_eq rest e.1 e.2)).symm
      · have hne : name e.2 ≠ k := fun he => hk (he.symm.trans hhead)
        rw [List.map_cons, List.filter_cons_of_neg (by simpa using hne), ih,
          List.dlookup_cons_ne rest e hk]
  exact hentries t.entries t.nodupKeys fun e he => h e.1 e.2 (AList.mem_lookup_iff.mpr he)

end FileTree
