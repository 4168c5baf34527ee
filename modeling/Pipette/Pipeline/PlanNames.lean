import Mathlib.Data.List.Basic

/-! The text of a plan with its catalog names replaced, and the way back from an offset of it to the
submitted text. The rewrite runs from the last name to the first, and the map from the first to the
last. -/
namespace Pipette

structure ByteRange where
  start : Nat
  stop : Nat
deriving DecidableEq, Repr

abbrev Edit : Type := ByteRange × List UInt8

def replaceRange (text : List UInt8) (span : ByteRange) (replacement : List UInt8) : List UInt8 :=
  text.take span.start ++ replacement ++ text.drop span.stop

/-- The names are replaced from the last to the first, so that the spans that are left keep their
place. -/
def rewriteNames (text : List UInt8) (edits : List Edit) : List UInt8 :=
  edits.reverse.foldl (fun text edit => replaceRange text edit.1 edit.2) text

structure OffsetMap where
  replaced : List (ByteRange × Nat)

namespace OffsetMap

def ofEdits (edits : List Edit) : OffsetMap := ⟨edits.map fun edit => (edit.1, edit.2.length)⟩

/-- The walk of `submitted`, with the ends of the last replacement it passed in both texts. -/
def submittedFrom (offset : Nat) : Nat → Nat → List (ByteRange × Nat) → Nat
  | submittedEnd, rewrittenEnd, [] => submittedEnd + (offset - rewrittenEnd)
  | submittedEnd, rewrittenEnd, (span, len) :: rest =>
    let rewrittenStart := rewrittenEnd + (span.start - submittedEnd)
    if offset < rewrittenStart then submittedEnd + (offset - rewrittenEnd)
    else if offset < rewrittenStart + len then span.start
    else submittedFrom offset span.stop (rewrittenStart + len) rest

def submitted (m : OffsetMap) (offset : Nat) : Nat := submittedFrom offset 0 0 m.replaced

end OffsetMap

/-- A byte of the rewritten text was kept from its place, or belongs to the replacement of the span
that begins there. -/
inductive Origin
  | kept (place : Nat)
  | replaced (start : Nat)
deriving DecidableEq, Repr

def Origin.place : Origin → Nat
  | kept place => place
  | replaced start => start

/-- The spans are apart and in text order, from `done` on, in a text of `size` bytes. Adjacent and
empty ones are allowed. -/
def InTextOrder (size : Nat) : Nat → List Edit → Prop
  | done, [] => done ≤ size
  | done, (span, _) :: rest =>
    done ≤ span.start ∧ span.start ≤ span.stop ∧ InTextOrder size span.stop rest

def placed (text : List UInt8) : List (UInt8 × Origin) :=
  text.zipIdx.map fun b => (b.1, .kept b.2)

def traced (text : List UInt8) : Nat → List Edit → List (UInt8 × Origin)
  | done, [] => (placed text).drop done
  | done, (span, replacement) :: rest =>
    ((placed text).drop done).take (span.start - done) ++
      replacement.map (fun b => (b, .replaced span.start)) ++ traced text span.stop rest

section Rewrite

variable {text : List UInt8} {done : Nat} {edits : List Edit}

theorem placed_map_fst : (placed text).map Prod.fst = text := by
  simp [placed, List.map_map, Function.comp_def]

theorem length_placed : (placed text).length = text.length := by simp [placed]

theorem getElem?_placed (i : Nat) : (placed text)[i]? = text[i]?.map fun b => (b, .kept i) := by
  simp [placed, List.getElem?_zipIdx, Function.comp_def]

theorem InTextOrder.done_le (h : InTextOrder text.length done edits) : done ≤ text.length := by
  induction edits generalizing done with
  | nil => exact h
  | cons edit rest ih =>
    obtain ⟨hstart, hstop, hrest⟩ := h
    have := ih hrest
    omega

theorem rewriteNames_eq (h : InTextOrder text.length done edits) :
    rewriteNames text edits = text.take done ++ (traced text done edits).map Prod.fst := by
  induction edits generalizing done with
  | nil => simp [rewriteNames, traced, List.map_drop, placed_map_fst]
  | cons edit rest ih =>
    obtain ⟨span, replacement⟩ := edit
    obtain ⟨hstart, hstop, hrest⟩ := h
    have hsize : span.stop ≤ text.length := hrest.done_le
    have hstep : rewriteNames text ((span, replacement) :: rest) =
        replaceRange (rewriteNames text rest) span replacement := by
      simp [rewriteNames, List.foldl_append]
    have hkept : text.take span.start = text.take done ++ (text.drop done).take (span.start - done) := by
      rw [← List.take_add]
      congr 1
      omega
    rw [hstep, ih hrest, replaceRange, List.take_append_of_le_length (by simp; omega), List.take_take,
      Nat.min_eq_left hstop, List.drop_append_of_le_length (by simp; omega), List.drop_take, Nat.sub_self,
      hkept]
    simp [traced, List.map_drop, List.map_take, placed_map_fst, Function.comp_def]

theorem submittedFrom_eq (passed : Nat) (h : InTextOrder text.length done edits) {i : Nat}
    (hi : i < (traced text done edits).length) :
    some (OffsetMap.submittedFrom (passed + i) done passed (OffsetMap.ofEdits edits).replaced) =
      (traced text done edits)[i]?.map fun b => b.2.place := by
  induction edits generalizing done passed i with
  | nil =>
    simp only [traced, List.length_drop, length_placed] at hi
    have hbound : done + i < text.length := by omega
    simp [traced, OffsetMap.ofEdits, OffsetMap.submittedFrom, getElem?_placed, hbound, Origin.place]
  | cons edit rest ih =>
    obtain ⟨span, replacement⟩ := edit
    obtain ⟨hstart, hstop, hrest⟩ := h
    have hsize : span.stop ≤ text.length := hrest.done_le
    have hgap : (((placed text).drop done).take (span.start - done)).length = span.start - done := by
      simp only [List.length_take, List.length_drop, length_placed]
      omega
    simp only [OffsetMap.ofEdits, List.map_cons, OffsetMap.submittedFrom, traced, List.append_assoc]
    by_cases hbefore : i < span.start - done
    · have hbound : done + i < text.length := by omega
      rw [if_pos (by omega), List.getElem?_append_left (by omega), List.getElem?_take_of_lt hbefore,
        List.getElem?_drop, getElem?_placed]
      simp [hbound, Origin.place]
    by_cases hinside : i < span.start - done + replacement.length
    · have hbound : i - (span.start - done) < replacement.length := by omega
      rw [if_neg (by omega), if_pos (by omega), List.getElem?_append_right (by omega), hgap,
        List.getElem?_append_left (by simpa using hbound)]
      simp [hbound, Origin.place]
    · have hlast : i - (span.start - done) - replacement.length < (traced text span.stop rest).length := by
        simp only [traced, List.length_append, hgap, List.length_map] at hi
        omega
      have hnext := ih (passed + (span.start - done) + replacement.length) hrest hlast
      rw [if_neg (by omega), if_neg (by omega), List.getElem?_append_right (by omega), hgap,
        List.getElem?_append_right (by simp; omega), List.length_map, ← hnext]
      congr 2
      omega

def InRange (edits : List Edit) (place : Nat) : Prop :=
  ∃ edit ∈ edits, edit.1.start ≤ place ∧ place < edit.1.stop

instance (edits : List Edit) (place : Nat) : Decidable (InRange edits place) :=
  inferInstanceAs (Decidable (∃ edit ∈ edits, _))

theorem InTextOrder.not_inRange {size place : Nat} (h : InTextOrder size done edits)
    (hplace : place < done) : ¬ InRange edits place := by
  induction edits generalizing done with
  | nil => simp [InRange]
  | cons edit rest ih =>
    obtain ⟨hstart, hstop, hrest⟩ := h
    rintro ⟨edit', hmem, hlow, hhigh⟩
    obtain rfl | hmem := List.mem_cons.mp hmem
    · omega
    · exact ih hrest (by omega) ⟨edit', hmem, hlow, hhigh⟩

def Origin.keptAt (b : UInt8 × Origin) : Option (UInt8 × Nat) :=
  match b.2 with
  | kept place => some (b.1, place)
  | replaced _ => none

theorem mem_zipIdx_drop {b : UInt8 × Nat} {n : Nat} (h : b ∈ text.zipIdx.drop n) : n ≤ b.2 := by
  obtain ⟨i, hi, rfl⟩ := List.getElem_of_mem h
  simp

theorem mem_zipIdx_take {b : UInt8 × Nat} {n m : Nat} (h : b ∈ (text.zipIdx.drop n).take m) :
    b.2 < n + m := by
  obtain ⟨i, hi, rfl⟩ := List.getElem_of_mem h
  simp at hi ⊢
  omega

theorem traced_kept (h : InTextOrder text.length done edits) :
    (traced text done edits).filterMap Origin.keptAt =
      (text.zipIdx.drop done).filter fun b => ¬ InRange edits b.2 := by
  induction edits generalizing done with
  | nil => simp [traced, placed, ← List.map_drop, InRange, Origin.keptAt, Function.comp_def]
  | cons edit rest ih =>
    obtain ⟨span, replacement⟩ := edit
    have hall := h
    obtain ⟨hstart, hstop, hrest⟩ := h
    have hparts : text.zipIdx.drop done = (text.zipIdx.drop done).take (span.start - done) ++
        ((text.zipIdx.drop span.start).take (span.stop - span.start) ++ text.zipIdx.drop span.stop) := by
      have hfirst := List.take_append_drop (span.start - done) (text.zipIdx.drop done)
      have hsecond := List.take_append_drop (span.stop - span.start) (text.zipIdx.drop span.start)
      rw [List.drop_drop, Nat.add_sub_cancel' hstart] at hfirst
      rw [List.drop_drop, Nat.add_sub_cancel' hstop] at hsecond
      rw [hsecond, hfirst]
    have hbefore : ((text.zipIdx.drop done).take (span.start - done)).filter
        (fun b => ¬ InRange ((span, replacement) :: rest) b.2) =
          (text.zipIdx.drop done).take (span.start - done) := by
      refine List.filter_eq_self.mpr fun b hb => ?_
      have hplace := mem_zipIdx_take hb
      have hnot : ¬ InRange ((span, replacement) :: rest) b.2 := by
        have hlater : InTextOrder text.length span.start ((span, replacement) :: rest) :=
          ⟨Nat.le_refl _, hstop, hrest⟩
        exact hlater.not_inRange (by omega)
      simpa using hnot
    have hinside : ((text.zipIdx.drop span.start).take (span.stop - span.start)).filter
        (fun b => ¬ InRange ((span, replacement) :: rest) b.2) = [] := by
      refine List.filter_eq_nil_iff.mpr fun b hb => ?_
      have hlow := mem_zipIdx_drop (List.mem_of_mem_take hb)
      have hhigh := mem_zipIdx_take hb
      have hin : InRange ((span, replacement) :: rest) b.2 :=
        ⟨_, List.mem_cons_self, hlow, by simp only; omega⟩
      simpa using hin
    have hafter : (text.zipIdx.drop span.stop).filter
        (fun b => ¬ InRange ((span, replacement) :: rest) b.2) =
          (text.zipIdx.drop span.stop).filter fun b => ¬ InRange rest b.2 := by
      refine List.filter_congr fun b hb => ?_
      have hlow := mem_zipIdx_drop hb
      have hiff : InRange ((span, replacement) :: rest) b.2 ↔ InRange rest b.2 := by
        simp only [InRange, List.mem_cons, exists_eq_or_imp]
        constructor
        · rintro (hspan | hrest)
          · omega
          · exact hrest
        · exact .inr
      simp [hiff]
    rw [hparts, List.filter_append, List.filter_append, hbefore, hinside, hafter, ← ih hrest, traced,
      List.filterMap_append, List.filterMap_append]
    simp [placed, ← List.map_drop, ← List.map_take, List.filterMap_map, Function.comp_def,
      Origin.keptAt]

end Rewrite

/-- The rewritten text is the submitted one with the replacements for the spans, all other bytes kept
in their order; and the map sends each of its bytes to the place it was kept from, or to the start of
the span it replaces. -/
theorem offsets_map_back (text : List UInt8) (edits : List Edit)
    (h : InTextOrder text.length 0 edits) :
    rewriteNames text edits = (traced text 0 edits).map Prod.fst ∧
      (traced text 0 edits).filterMap Origin.keptAt =
        text.zipIdx.filter (fun b => ¬ InRange edits b.2) ∧
      ∀ (i : Nat) (byte : UInt8) (origin : Origin), (traced text 0 edits)[i]? = some (byte, origin) →
        (rewriteNames text edits)[i]? = some byte ∧
          (OffsetMap.ofEdits edits).submitted i = origin.place := by
  have hrewrite : rewriteNames text edits = (traced text 0 edits).map Prod.fst := by
    simpa using rewriteNames_eq h
  refine ⟨hrewrite, by simpa using traced_kept h, fun i byte origin hi => ⟨?_, ?_⟩⟩
  · rw [hrewrite, List.getElem?_map, hi]
    rfl
  · obtain ⟨hbound, -⟩ := List.getElem?_eq_some_iff.mp hi
    have hplace := submittedFrom_eq 0 h hbound
    rw [hi, Nat.zero_add] at hplace
    exact Option.some.inj hplace

/-- Two bytes of four are replaced by three: the byte after them is found again. -/
theorem offsets_map_back_growing :
    InTextOrder 4 0 [(⟨1, 3⟩, [7, 8, 9])] ∧
      (OffsetMap.ofEdits [(⟨1, 3⟩, [7, 8, 9])]).submitted 4 = 3 := by
  have h : InTextOrder 4 0 [(⟨1, 3⟩, [7, 8, 9])] := ⟨by decide, by decide, Nat.le_of_ble_eq_true rfl⟩
  exact ⟨h, ((offsets_map_back [1, 2, 3, 4] _ h).2.2 4 4 (.kept 3) rfl).2⟩

end Pipette
