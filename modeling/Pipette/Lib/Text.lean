import Mathlib.Data.List.Basic

/-! Texts cut at the first separator, and texts joined. -/
namespace Text

variable {α : Type*} {c : α} {a b : List α}

theorem prefix_segment {t r : List α} (ha : c ∉ a) (hb : c ∉ b) (hr : ∀ x ∈ r.head?, x = c)
    (h : a ++ c :: t <+: b ++ r) : a = b ∧ c :: t <+: r := by
  induction a generalizing b with
  | nil =>
    cases b with
    | nil => exact ⟨rfl, h⟩
    | cons y b =>
      obtain ⟨rfl, -⟩ := List.cons_prefix_cons.mp h
      exact absurd List.mem_cons_self hb
  | cons x a ih =>
    cases b with
    | nil =>
      cases r with
      | nil => simp at h
      | cons y r =>
        obtain ⟨rfl, -⟩ := List.cons_prefix_cons.mp h
        exact absurd (hr x rfl ▸ List.mem_cons_self) ha
    | cons y b =>
      obtain ⟨rfl, htail⟩ := List.cons_prefix_cons.mp h
      obtain ⟨rfl, hrest⟩ := ih (fun h => ha (List.mem_cons_of_mem x h))
        (fun h => hb (List.mem_cons_of_mem x h)) htail
      exact ⟨rfl, hrest⟩

theorem append_cons_inj {x y : List α} (ha : c ∉ a) (hb : c ∉ b)
    (h : a ++ c :: x = b ++ c :: y) : a = b ∧ x = y := by
  obtain ⟨rfl, -⟩ := prefix_segment (t := x) (r := c :: y) ha hb (by simp)
    (h ▸ List.prefix_refl _)
  simpa using h

theorem mem_intercalate {x : α} {sep : List α} {texts : List (List α)}
    (h : x ∈ sep.intercalate texts) : x ∈ sep ∨ ∃ t ∈ texts, x ∈ t := by
  induction texts with
  | nil => simp at h
  | cons t rest ih =>
    cases rest with
    | nil => exact .inr ⟨t, List.mem_cons_self, by simpa using h⟩
    | cons t' rest =>
      rw [List.intercalate_cons_cons, List.mem_append, List.mem_append] at h
      obtain (h | h) | h := h
      · exact .inr ⟨t, List.mem_cons_self, h⟩
      · exact .inl h
      · exact (ih h).imp_right fun ⟨t, ht, hx⟩ => ⟨t, List.mem_cons_of_mem _ ht, hx⟩

end Text
