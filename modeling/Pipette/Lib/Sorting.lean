import Mathlib.Data.List.Sort
import Mathlib.Order.Basic

/-! Lists put in the order of a key, and of a run of neighbours of one class only the first kept:
`sort_by_key` and `dedup_by_key`. -/
namespace Sorting

section Class

variable {α β γ : Type} [DecidableEq γ] (c : α → γ)

def dedupAfter (last : γ) : List α → List α
  | [] => []
  | x :: rest => if c x = last then dedupAfter last rest else x :: dedupAfter (c x) rest

def dedupOn : List α → List α
  | [] => []
  | x :: rest => x :: dedupAfter c (c x) rest

theorem dedupAfter_sublist (last : γ) (l : List α) : (dedupAfter c last l).Sublist l := by
  induction l generalizing last with
  | nil => exact .slnil
  | cons x rest ih =>
    rw [dedupAfter]
    split
    · exact (ih last).cons x
    · exact (ih (c x)).cons_cons x

theorem dedupOn_sublist (l : List α) : (dedupOn c l).Sublist l := by
  cases l with
  | nil => exact .slnil
  | cons x rest => exact (dedupAfter_sublist c (c x) rest).cons_cons x

theorem mem_class_dedupAfter (last : γ) {l : List α} {x : α} (hx : x ∈ l) :
    c x = last ∨ ∃ y ∈ dedupAfter c last l, c y = c x := by
  induction l generalizing last with
  | nil => cases hx
  | cons z rest ih =>
    rw [dedupAfter]
    obtain rfl | hx := List.mem_cons.mp hx
    · split
      · next h => exact .inl h
      · exact .inr ⟨x, List.mem_cons_self, rfl⟩
    · split
      · exact ih last hx
      · obtain h | ⟨y, hy, h⟩ := ih (c z) hx
        · exact .inr ⟨z, List.mem_cons_self, h.symm⟩
        · exact .inr ⟨y, List.mem_cons_of_mem _ hy, h⟩

theorem mem_class_dedupOn {l : List α} {x : α} (hx : x ∈ l) : ∃ y ∈ dedupOn c l, c y = c x := by
  cases l with
  | nil => cases hx
  | cons z rest =>
    obtain rfl | hx := List.mem_cons.mp hx
    · exact ⟨x, List.mem_cons_self, rfl⟩
    · obtain h | ⟨y, hy, h⟩ := mem_class_dedupAfter c (c z) hx
      · exact ⟨z, List.mem_cons_self, h.symm⟩
      · exact ⟨y, List.mem_cons_of_mem _ hy, h⟩

theorem map_dedupOn (f : β → α) (l : List β) :
    (dedupOn (fun x => c (f x)) l).map f = dedupOn c (l.map f) := by
  have hafter : ∀ (last : γ) (l : List β),
      (dedupAfter (fun x => c (f x)) last l).map f = dedupAfter c last (l.map f) := by
    intro last l
    induction l generalizing last with
    | nil => rfl
    | cons x rest ih =>
      rw [dedupAfter, List.map_cons, dedupAfter]
      split
      · exact ih last
      · rw [List.map_cons, ih]
  cases l with
  | nil => rfl
  | cons x rest => rw [dedupOn, List.map_cons, List.map_cons, dedupOn, hafter]

end Class

section Order

variable {α β κ : Type} [LinearOrder κ] (key : α → κ)

theorem pairwise_dedupOn {l : List α} (h : l.Pairwise fun a b => key a ≤ key b) :
    (dedupOn key l).Pairwise fun a b => key a < key b := by
  have hafter : ∀ (l : List α) (last : κ), (∀ x ∈ l, last ≤ key x) →
      l.Pairwise (fun a b => key a ≤ key b) →
      (∀ x ∈ dedupAfter key last l, last < key x) ∧
        (dedupAfter key last l).Pairwise fun a b => key a < key b := by
    intro l
    induction l with
    | nil => exact fun _ _ _ => ⟨by simp [dedupAfter], .nil⟩
    | cons x rest ih =>
      intro last hlast hsorted
      obtain ⟨hx, hrest⟩ := List.pairwise_cons.mp hsorted
      rw [dedupAfter]
      split
      · exact ih last (fun y hy => hlast y (List.mem_cons_of_mem _ hy)) hrest
      · next hne =>
        obtain ⟨habove, hkept⟩ := ih (key x) hx hrest
        have hlt : last < key x := lt_of_le_of_ne (hlast x List.mem_cons_self) (Ne.symm hne)
        refine ⟨fun y hy => ?_, List.pairwise_cons.mpr ⟨habove, hkept⟩⟩
        obtain rfl | hy := List.mem_cons.mp hy
        · exact hlt
        · exact hlt.trans (habove y hy)
  cases l with
  | nil => exact .nil
  | cons x rest =>
    obtain ⟨hx, hrest⟩ := List.pairwise_cons.mp h
    obtain ⟨habove, hkept⟩ := hafter rest (key x) hx hrest
    exact List.pairwise_cons.mpr ⟨habove, hkept⟩

def sortOn (l : List α) : List α := l.insertionSort fun a b => key a ≤ key b

theorem perm_sortOn (l : List α) : (sortOn key l).Perm l := List.perm_insertionSort _ l

theorem pairwise_sortOn (l : List α) : (sortOn key l).Pairwise fun a b => key a ≤ key b := by
  have : Std.Total fun a b : α => key a ≤ key b := ⟨fun a b => le_total (key a) (key b)⟩
  have : IsTrans α fun a b => key a ≤ key b := ⟨fun _ _ _ => le_trans⟩
  exact List.pairwise_insertionSort _ l

theorem map_sortOn_of_perm {f : α → β} {l l' : List α} (h : l.Perm l')
    (hf : ∀ a ∈ l, ∀ b ∈ l, key a = key b → f a = f b) :
    (sortOn key l).map f = (sortOn key l').map f := by
  have hkeys : (sortOn key l).map key = (sortOn key l').map key := by
    refine List.Perm.eq_of_pairwise' (r := (· ≤ ·)) ?_ ?_
      ((((perm_sortOn key l).trans h).trans (perm_sortOn key l').symm).map key)
    · exact List.pairwise_map.mpr (pairwise_sortOn key l)
    · exact List.pairwise_map.mpr (pairwise_sortOn key l')
  refine List.ext_getElem? fun i => ?_
  have hi : ((sortOn key l)[i]?).map key = ((sortOn key l')[i]?).map key := by
    rw [← List.getElem?_map, ← List.getElem?_map, hkeys]
  rw [List.getElem?_map, List.getElem?_map]
  cases ha : (sortOn key l)[i]? with
  | none =>
    rw [ha, Option.map_none, eq_comm, Option.map_eq_none_iff] at hi
    rw [hi]
  | some a =>
    rw [ha, Option.map_some, eq_comm, Option.map_eq_some_iff] at hi
    obtain ⟨b, hb, hkey⟩ := hi
    have hal : a ∈ l := (perm_sortOn key l).mem_iff.mp (List.mem_of_getElem? ha)
    have hbl : b ∈ l := h.mem_iff.mpr ((perm_sortOn key l').mem_iff.mp (List.mem_of_getElem? hb))
    rw [hb, Option.map_some, Option.map_some, hf a hal b hbl hkey.symm]

end Order

section Normal

variable {α : Type} [LinearOrder α]

def sortDedup (l : List α) : List α := dedupOn id (sortOn id l)

theorem mem_sortDedup {l : List α} {x : α} : x ∈ sortDedup l ↔ x ∈ l := by
  rw [← (perm_sortOn id l).mem_iff]
  constructor
  · exact fun h => (dedupOn_sublist id _).subset h
  · intro h
    obtain ⟨y, hy, rfl⟩ := mem_class_dedupOn id h
    exact hy

theorem pairwise_sortDedup (l : List α) : (sortDedup l).Pairwise (· < ·) :=
  pairwise_dedupOn id (pairwise_sortOn id l)

theorem sortDedup_congr {l l' : List α} (h : ∀ x, x ∈ l ↔ x ∈ l') : sortDedup l = sortDedup l' := by
  refine List.Pairwise.eq_of_mem_iff (pairwise_sortDedup l) (pairwise_sortDedup l') fun {x} => ?_
  rw [mem_sortDedup, mem_sortDedup, h]

end Normal

end Sorting
