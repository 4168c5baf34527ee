import Mathlib.Data.List.Perm.Basic
import Pipette.Lib.Tree

/-! Items in bins: a tree whose contents hold several items each. An item goes in and out by the
name of its bin; the order of the tree says nothing. -/
namespace FileTree

variable {K V α : Type} [DecidableEq K] {t : FileTree K V} {k : K} {v v' : V} {f : V → List α}
  {l : List α}

def items (f : V → List α) (t : FileTree K V) : List α := t.entries.flatMap fun e => f e.2

def InBin (f : V → List α) (t : FileTree K V) (k : K) (a : α) : Prop :=
  ∃ v, t.lookup k = some v ∧ a ∈ f v

theorem mem_items {a : α} : a ∈ items f t ↔ ∃ k, InBin f t k a := by
  rw [items, List.mem_flatMap]
  constructor
  · rintro ⟨⟨k, v⟩, he, ha⟩
    exact ⟨k, v, AList.mem_lookup_iff.mpr he, ha⟩
  · rintro ⟨k, v, hk, ha⟩
    exact ⟨⟨k, v⟩, AList.mem_lookup_iff.mp hk, ha⟩

theorem inBin_insert {k' : K} {a : α} (h : InBin f (t.insert k v) k' a) :
    (k' = k ∧ a ∈ f v) ∨ InBin f t k' a := by
  obtain ⟨w, hw, ha⟩ := h
  rw [lookup_write] at hw
  split at hw
  · next hk =>
    cases hw
    exact .inl ⟨hk, ha⟩
  · exact .inr ⟨w, hw, ha⟩

theorem items_insert : items f (t.insert k v) = f v ++ items f (t.erase k) := rfl

theorem items_erase (h : t.lookup k = some v) :
    (items f t).Perm (f v ++ items f (t.erase k)) := by
  have hmem : k ∈ t.entries.keys := AList.mem_keys.mp (AList.lookup_isSome.mp (h ▸ rfl))
  obtain ⟨w, front, back, hfront, hentries, herase⟩ := List.exists_of_kerase hmem
  have hw : w = v := by
    have hlookup : t.lookup k = some w :=
      AList.mem_lookup_iff.mpr (by rw [hentries]; exact List.mem_append_right _ List.mem_cons_self)
    exact Option.some.inj (hlookup.symm.trans h)
  have hrest : (t.erase k).entries = front ++ back := herase
  rw [items, items, hentries, hrest, hw]
  simp only [List.flatMap_append, List.flatMap_cons]
  exact List.perm_append_comm_assoc _ _ _

theorem items_erase_of_none (h : t.lookup k = none) : items f (t.erase k) = items f t := by
  have hrest : (t.erase k).entries = t.entries :=
    List.kerase_of_notMem_keys (AList.lookup_eq_none.mp h)
  rw [items, hrest, items]

theorem items_take (h : t.lookup k = some v) (hv : (f v).Perm (l ++ f v')) :
    (items f t).Perm (l ++ items f (t.insert k v')) := by
  rw [items_insert, ← List.append_assoc]
  exact (items_erase h).trans (hv.append_right _)

theorem items_file (hv : (f v').Perm (((t.lookup k).elim [] f) ++ l)) :
    (items f (t.insert k v')).Perm (l ++ items f t) := by
  rw [items_insert]
  cases h : t.lookup k with
  | none =>
    rw [h] at hv
    rw [items_erase_of_none h]
    exact hv.append_right _
  | some v =>
    rw [h] at hv
    refine (hv.append_right _).trans ?_
    rw [List.append_assoc]
    refine (List.perm_append_comm_assoc _ _ _).trans (List.Perm.append_left _ ?_)
    exact (items_erase h).symm

variable {bins : FileTree K (List α)} {a : α}

def pushBack (bins : FileTree K (List α)) (k : K) (a : α) : FileTree K (List α) :=
  bins.insert k ((bins.lookup k).getD [] ++ [a])

def popFront (bins : FileTree K (List α)) (k : K) : Option (α × FileTree K (List α)) :=
  match bins.lookup k with
  | some (a :: rest) => some (a, bins.insert k rest)
  | some [] | none => none

theorem items_pushBack : (items id (bins.pushBack k a)).Perm (a :: items id bins) := by
  refine items_file (t := bins) (l := [a]) ?_
  cases bins.lookup k <;> exact .refl _

theorem popFront_eq_some {bins' : FileTree K (List α)} (h : bins.popFront k = some (a, bins')) :
    ∃ rest, bins.lookup k = some (a :: rest) ∧ bins' = bins.insert k rest := by
  unfold popFront at h
  split at h
  · next rest hk =>
    cases h
    exact ⟨rest, hk, rfl⟩
  · cases h
  · cases h

theorem popFront_eq_none (h : bins.popFront k = none) : (bins.lookup k).getD [] = [] := by
  unfold popFront at h
  split at h
  · cases h
  · next hk => rw [hk, Option.getD_some]
  · next hk => rw [hk, Option.getD_none]

theorem inBin_pushBack {k' : K} {b : α} (h : InBin id (bins.pushBack k a) k' b) :
    (k' = k ∧ b = a) ∨ InBin id bins k' b := by
  obtain ⟨rfl, hb⟩ | hb := inBin_insert h
  · obtain hb | hb := List.mem_append.mp hb
    · cases hlookup : bins.lookup k' with
      | none => simp [hlookup] at hb
      | some q => exact .inr ⟨q, hlookup, by simpa [hlookup] using hb⟩
    · exact .inl ⟨rfl, List.mem_singleton.mp hb⟩
  · exact .inr hb

theorem inBin_popFront {bins' : FileTree K (List α)} (h : bins.popFront k = some (a, bins')) :
    InBin id bins k a ∧ ∀ k' b, InBin id bins' k' b → InBin id bins k' b := by
  obtain ⟨rest, hk, rfl⟩ := popFront_eq_some h
  refine ⟨⟨_, hk, List.mem_cons_self⟩, fun k' b hb => ?_⟩
  obtain ⟨rfl, hrest⟩ | hrest := inBin_insert hb
  · exact ⟨_, hk, List.mem_cons_of_mem _ hrest⟩
  · exact hrest

theorem items_popFront {bins' : FileTree K (List α)} (h : bins.popFront k = some (a, bins')) :
    (items id bins).Perm (a :: items id bins') := by
  obtain ⟨rest, hk, rfl⟩ := popFront_eq_some h
  exact items_take (l := [a]) hk (.refl _)

end FileTree
