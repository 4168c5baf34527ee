import Mathlib.Data.List.Sort

/-! Lists of key and value pairs read by `List.lookup`: replacing and removing a key, and sorting
by key as a normal form of lists with distinct keys. -/
namespace Assoc

variable {K V W : Type*}

def Distinct (fs : List (K × V)) : Prop := (fs.map Prod.fst).Nodup

theorem distinct_cons {k : K} {v : V} {fs : List (K × V)} :
    Distinct ((k, v) :: fs) ↔ (∀ w, (k, w) ∉ fs) ∧ Distinct fs := by
  simp [Distinct]

theorem Distinct.sublist {fs gs : List (K × V)} (h : Distinct gs) (hs : fs.Sublist gs) :
    Distinct fs :=
  List.Nodup.sublist (hs.map _) h

theorem Distinct.map_snd {fs : List (K × V)} (h : Distinct fs) (g : V → W) :
    Distinct (fs.map fun f => (f.1, g f.2)) := by
  simpa [Distinct, Function.comp_def] using h

theorem find?_key_eq_some {α : Type*} [DecidableEq K] {key : α → K} {l : List α}
    (h : (l.map key).Nodup) {k : K} {x : α} :
    (l.find? fun y => key y = k) = some x ↔ x ∈ l ∧ key x = k := by
  refine ⟨fun hx => ⟨List.mem_of_find?_eq_some hx, by simpa using List.find?_some hx⟩, ?_⟩
  rintro ⟨hx, rfl⟩
  obtain ⟨y, hy⟩ := Option.isSome_iff_exists.mp
    (List.find?_isSome.mpr ⟨x, hx, by simp⟩ : (l.find? fun y => key y = key x).isSome)
  have hkey : key y = key x := by simpa using List.find?_some hy
  rw [hy, List.inj_on_of_nodup_map h (List.mem_of_find?_eq_some hy) hx hkey]

section Lookup

variable [BEq K] [LawfulBEq K]

theorem mem_of_lookup {fs : List (K × V)} {k : K} {v : V} (h : fs.lookup k = some v) :
    (k, v) ∈ fs := by
  induction fs with
  | nil => simp at h
  | cons f fs ih =>
    obtain ⟨l, w⟩ := f
    rw [List.lookup_cons] at h
    by_cases hk : k = l
    · subst hk
      simp only [beq_self_eq_true, Option.some.injEq] at h
      simp [h]
    · rw [beq_false_of_ne hk] at h
      exact List.mem_cons_of_mem _ (ih h)

theorem lookup_eq_some_iff {fs : List (K × V)} (hd : Distinct fs) {k : K} {v : V} :
    fs.lookup k = some v ↔ (k, v) ∈ fs := by
  refine ⟨mem_of_lookup, fun h => ?_⟩
  induction fs with
  | nil => simp at h
  | cons f fs ih =>
    obtain ⟨l, w⟩ := f
    obtain ⟨hl, hd⟩ := distinct_cons.mp hd
    rw [List.lookup_cons]
    rcases List.mem_cons.mp h with heq | hmem
    · cases heq
      simp
    · have hk : k ≠ l := by
        rintro rfl
        exact hl v hmem
      rw [beq_false_of_ne hk]
      exact ih hd hmem

omit [LawfulBEq K] in
theorem lookup_map_snd (fs : List (K × V)) (g : V → W) (k : K) :
    (fs.map fun f => (f.1, g f.2)).lookup k = (fs.lookup k).map g := by
  induction fs with
  | nil => rfl
  | cons f fs ih =>
    rw [List.map_cons, List.lookup_cons, List.lookup_cons, ih]
    cases k == f.1 <;> rfl

theorem lookup_filter (p : K → Bool) (fs : List (K × V)) (k : K) :
    (fs.filter fun f => p f.1).lookup k = if p k then fs.lookup k else none := by
  induction fs with
  | nil => simp
  | cons f fs ih =>
    obtain ⟨l, w⟩ := f
    by_cases hk : k = l
    · subst hk
      cases hp : p k <;> simp [hp, ih]
    · cases hp : p l <;> simp [hp, List.lookup_cons, beq_false_of_ne hk, ih]

end Lookup

section Sorting

variable [LinearOrder K]

def sortByKey (fs : List (K × V)) : List (K × V) := fs.insertionSort fun a b => a.1 ≤ b.1

theorem sortByKey_perm (fs : List (K × V)) : (sortByKey fs).Perm fs :=
  List.perm_insertionSort _ fs

theorem mem_sortByKey {fs : List (K × V)} {f : K × V} : f ∈ sortByKey fs ↔ f ∈ fs :=
  (sortByKey_perm fs).mem_iff

theorem Distinct.sortByKey {fs : List (K × V)} (h : Distinct fs) : Distinct (sortByKey fs) :=
  (((sortByKey_perm fs).map _).nodup_iff).mpr h

theorem pairwise_sortByKey {fs : List (K × V)} (h : Distinct fs) :
    (Assoc.sortByKey fs).Pairwise fun a b => a.1 < b.1 := by
  have hle : (Assoc.sortByKey fs).Pairwise fun a b => a.1 ≤ b.1 :=
    have : Std.Total fun a b : K × V => a.1 ≤ b.1 := ⟨fun a b => le_total a.1 b.1⟩
    have : IsTrans (K × V) fun a b => a.1 ≤ b.1 := ⟨fun _ _ _ => le_trans⟩
    List.pairwise_insertionSort _ fs
  have hne : (Assoc.sortByKey fs).Pairwise fun a b => a.1 ≠ b.1 :=
    List.pairwise_map.mp h.sortByKey
  exact (hle.and hne).imp fun h => lt_of_le_of_ne h.1 h.2

theorem eq_of_increasing {fs gs : List (K × V)} (hf : fs.Pairwise fun a b => a.1 < b.1)
    (hg : gs.Pairwise fun a b => a.1 < b.1) (h : ∀ f, f ∈ fs ↔ f ∈ gs) : fs = gs := by
  have : Std.Irrefl fun a b : K × V => a.1 < b.1 := ⟨fun a => lt_irrefl a.1⟩
  have : Std.Antisymm fun a b : K × V => a.1 < b.1 := ⟨fun _ _ hab hba => absurd hab hba.asymm⟩
  exact List.Pairwise.eq_of_mem_iff hf hg fun {f} => h f

theorem sortByKey_eq_iff [BEq K] [LawfulBEq K] {fs gs : List (K × V)} (hf : Distinct fs)
    (hg : Distinct gs) : sortByKey fs = sortByKey gs ↔ ∀ k, fs.lookup k = gs.lookup k := by
  constructor
  · intro h k
    have hmem : ∀ v, (k, v) ∈ fs ↔ (k, v) ∈ gs := by
      intro v
      rw [← mem_sortByKey, h, mem_sortByKey]
    refine Option.ext fun v => ?_
    rw [lookup_eq_some_iff hf, lookup_eq_some_iff hg, hmem]
  · intro h
    refine eq_of_increasing (pairwise_sortByKey hf) (pairwise_sortByKey hg) ?_
    rintro ⟨k, v⟩
    rw [mem_sortByKey, mem_sortByKey, ← lookup_eq_some_iff hf, ← lookup_eq_some_iff hg, h]

theorem sortByKey_eq_of_perm {fs gs : List (K × V)} (hf : Distinct fs) (h : fs.Perm gs) :
    sortByKey fs = sortByKey gs := by
  have hg : Distinct gs := (h.map _).nodup_iff.mp hf
  refine eq_of_increasing (pairwise_sortByKey hf) (pairwise_sortByKey hg) fun f => ?_
  rw [mem_sortByKey, mem_sortByKey, h.mem_iff]

end Sorting

end Assoc
