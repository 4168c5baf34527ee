import Mathlib.Data.List.Forall2
import Mathlib.Tactic.Common

/-! Device readings are an array of JSON text, cut to a limit of bytes from its front. The text is
split into its elements by the JSON parser, which is outside the model: the grammar says what it
accepts. -/
namespace Pipette

def IsBlank (text : List UInt8) : Prop := ∀ b ∈ text, b = 32 ∨ b = 9 ∨ b = 10 ∨ b = 13

def IsDigits (text : List UInt8) : Prop := text ≠ [] ∧ ∀ b ∈ text, 48 ≤ b ∧ b ≤ 57

/-- `-? (0 | [1-9][0-9]*) (. [0-9]+)? ([eE] [+-]? [0-9]+)?` -/
inductive NumberText : List UInt8 → Prop
  | number (sign whole fraction exponent : List UInt8) (hsign : sign = [] ∨ sign = [45])
      (hwhole : IsDigits whole) (hzero : whole.head? = some 48 → whole = [48])
      (hfraction : fraction = [] ∨ ∃ digits, IsDigits digits ∧ fraction = 46 :: digits)
      (hexponent : exponent = [] ∨ ∃ e ∈ [69, 101], ∃ s ∈ [[], [43], [45]], ∃ digits,
        IsDigits digits ∧ exponent = e :: s ++ digits) :
      NumberText (sign ++ whole ++ fraction ++ exponent)

def IsHexDigit (b : UInt8) : Prop :=
  48 ≤ b ∧ b ≤ 57 ∨ 65 ≤ b ∧ b ≤ 70 ∨ 97 ≤ b ∧ b ≤ 102

inductive StringInside : List UInt8 → Prop
  | nil : StringInside []
  | plain {b : UInt8} {rest : List UInt8} (hb : 32 ≤ b ∧ b ≠ 34 ∧ b ≠ 92)
      (h : StringInside rest) : StringInside (b :: rest)
  /-- `\"`, `\\`, `\/`, `\b`, `\f`, `\n`, `\r`, `\t` -/
  | short {b : UInt8} {rest : List UInt8} (hb : b ∈ [34, 92, 47, 98, 102, 110, 114, 116])
      (h : StringInside rest) : StringInside (92 :: b :: rest)
  | unicode {hex rest : List UInt8} (hlen : hex.length = 4) (hhex : ∀ b ∈ hex, IsHexDigit b)
      (h : StringInside rest) : StringInside (92 :: 117 :: hex ++ rest)

inductive StringText : List UInt8 → Prop
  | string {inside : List UInt8} (h : StringInside inside) : StringText (34 :: inside ++ [34])

inductive Padded (items : List (List UInt8)) : List UInt8 → Prop
  | empty (hitems : items = []) {blank : List UInt8} (hblank : IsBlank blank) : Padded items blank
  | items (hitems : items ≠ []) {texts : List (List UInt8)}
      (htexts : List.Forall₂ (fun item text => ∃ before after, IsBlank before ∧ IsBlank after ∧
        text = before ++ item ++ after) items texts) : Padded items ([44].intercalate texts)

inductive ValueText : List UInt8 → Prop
  | null : ValueText [110, 117, 108, 108]
  | true : ValueText [116, 114, 117, 101]
  | false : ValueText [102, 97, 108, 115, 101]
  | number {text : List UInt8} (h : NumberText text) : ValueText text
  | string {text : List UInt8} (h : StringText text) : ValueText text
  | array {items : List (List UInt8)} {inside : List UInt8} (hitems : ∀ e ∈ items, ValueText e)
      (h : Padded items inside) : ValueText (91 :: inside ++ [93])
  | object {keys values members : List (List UInt8)} {inside : List UInt8}
      (hkeys : ∀ k ∈ keys, ∃ key before, StringText key ∧ IsBlank before ∧ k = key ++ before)
      (hvalues : ∀ v ∈ values, ValueText v)
      (hmembers : List.Forall₂ (fun kv member => ∃ blank, IsBlank blank ∧
        member = kv.1 ++ 58 :: blank ++ kv.2) (keys.zip values) members)
      (hlen : keys.length = values.length) (h : Padded members inside) :
      ValueText (123 :: inside ++ [125])

inductive ArrayText (elements : List (List UInt8)) : List UInt8 → Prop
  | array {before inside after : List UInt8} (hbefore : IsBlank before) (hafter : IsBlank after)
      (hvalues : ∀ e ∈ elements, ValueText e) (h : Padded elements inside) :
      ArrayText elements (before ++ 91 :: inside ++ 93 :: after)

theorem NumberText.ne_nil {text : List UInt8} (h : NumberText text) : text ≠ [] := by
  cases h with
  | number sign whole fraction exponent hsign hwhole => simp [hwhole.1]

theorem ValueText.ne_nil {text : List UInt8} (h : ValueText text) : text ≠ [] := by
  cases h with
  | number h => exact h.ne_nil
  | string h =>
    cases h
    simp
  | _ => simp

def bracketed (elements : List (List UInt8)) : List UInt8 :=
  91 :: [44].intercalate elements ++ [93]

def runningLengths : Nat → List (List UInt8) → List Nat
  | _, [] => []
  | len, element :: rest =>
    let len := len + (element.length + if 2 < len then 1 else 0)
    len :: runningLengths len rest

def keepLastElements {ε : Type} (parse : List UInt8 → Except ε (List (List UInt8)))
    (s : List UInt8) (maxBytes : Nat) : Except ε (List UInt8) := do
  let elements ← parse s
  if s.length ≤ maxBytes then pure s
  else
    let kept := ((runningLengths 2 elements.reverse).takeWhile (· ≤ maxBytes)).length
    pure (bracketed (elements.drop (elements.length - kept)))

section Lengths

variable {kept : List (List UInt8)} {e : List UInt8} {maxBytes : Nat}

theorem length_bracketed_cons :
    (bracketed (e :: kept)).length =
      (bracketed kept).length + (e.length + if kept = [] then 0 else 1) := by
  cases kept with
  | nil =>
    simp [bracketed]
    omega
  | cons e' kept =>
    simp [bracketed, List.intercalate_cons_cons]
    omega

theorem two_le_length_bracketed (kept : List (List UInt8)) : 2 ≤ (bracketed kept).length := by
  simp [bracketed]

theorem two_lt_length_bracketed (hkept : ∀ e ∈ kept, e ≠ []) :
    2 < (bracketed kept).length ↔ kept ≠ [] := by
  cases kept with
  | nil => simp [bracketed]
  | cons e kept =>
    have hne : 0 < e.length := List.length_pos_iff.mpr (hkept e List.mem_cons_self)
    have hrest := two_le_length_bracketed kept
    rw [length_bracketed_cons]
    simp only [ne_eq, reduceCtorEq, not_false_eq_true, iff_true]
    omega

theorem length_bracketed_le_append (ys kept : List (List UInt8)) :
    (bracketed kept).length ≤ (bracketed (ys ++ kept)).length := by
  induction ys with
  | nil => simp
  | cons y ys ih =>
    rw [List.cons_append, length_bracketed_cons]
    omega

theorem takeWhile_runningLengths (kept xs : List (List UInt8)) (hkept : ∀ e ∈ kept, e ≠ [])
    (hxs : ∀ e ∈ xs, e ≠ []) (hfits : (bracketed kept).length ≤ maxBytes) :
    let n := ((runningLengths (bracketed kept).length xs).takeWhile (· ≤ maxBytes)).length
    n ≤ xs.length ∧ (bracketed ((xs.take n).reverse ++ kept)).length ≤ maxBytes ∧
      ∀ i, n < i → i ≤ xs.length → maxBytes < (bracketed ((xs.take i).reverse ++ kept)).length := by
  induction xs generalizing kept with
  | nil => exact ⟨Nat.le_refl _, hfits, fun i hi hle => absurd hi (Nat.not_lt.mpr hle)⟩
  | cons x xs ih =>
    have hlen : (bracketed kept).length + (x.length + if 2 < (bracketed kept).length then 1 else 0) =
        (bracketed (x :: kept)).length := by
      rw [length_bracketed_cons]
      by_cases h : kept = []
      · simp [h, bracketed]
      · rw [if_pos ((two_lt_length_bracketed hkept).mpr h), if_neg h]
    have hstep : ∀ i, ((x :: xs).take (i + 1)).reverse ++ kept = (xs.take i).reverse ++ x :: kept := by
      simp
    simp only [runningLengths, hlen]
    by_cases hx : (bracketed (x :: kept)).length ≤ maxBytes
    · obtain ⟨hn, hfit, hmore⟩ := ih (x :: kept)
        (List.forall_mem_cons.mpr ⟨hxs x List.mem_cons_self, hkept⟩)
        (fun e he => hxs e (List.mem_cons_of_mem _ he)) hx
      rw [List.takeWhile_cons_of_pos (by simpa using hx), List.length_cons]
      refine ⟨by simpa using hn, ?_, fun i hi hle => ?_⟩
      · rw [hstep]
        exact hfit
      · obtain ⟨i, rfl⟩ : ∃ i', i = i' + 1 := ⟨i - 1, by omega⟩
        rw [hstep]
        exact hmore i (by omega) (by simpa using hle)
    · rw [List.takeWhile_cons_of_neg (by simpa using hx)]
      refine ⟨Nat.zero_le _, by simpa using hfits, fun i hi _ => ?_⟩
      obtain ⟨i, rfl⟩ : ∃ i', i = i' + 1 := ⟨i - 1, by simp at hi; omega⟩
      rw [hstep]
      have hle := length_bracketed_le_append (xs.take i).reverse (x :: kept)
      omega

end Lengths

theorem arrayText_bracketed {elements : List (List UInt8)} (h : ∀ e ∈ elements, ValueText e) :
    ArrayText elements (bracketed elements) := by
  have hinside : Padded elements ([44].intercalate elements) := by
    by_cases hnil : elements = []
    · subst hnil
      exact .empty rfl (by simp [IsBlank])
    · refine .items hnil (List.forall₂_same.mpr fun e _ => ⟨[], [], ?_, ?_, by simp⟩) <;>
        simp [IsBlank]
  have hblank : IsBlank [] := by simp [IsBlank]
  simpa [bracketed] using ArrayText.array hblank hblank h hinside

/-- An array that fits is kept as it is. Of any other, the elements of the longest tail that fits are
kept, joined by single commas. -/
theorem keepLastElements_longest {ε : Type} (parse : List UInt8 → Except ε (List (List UInt8)))
    {s : List UInt8} {elements : List (List UInt8)} (htext : ArrayText elements s)
    (hparse : parse s = .ok elements) {maxBytes : Nat} (hmax : 2 ≤ maxBytes) :
    (s.length ≤ maxBytes → keepLastElements parse s maxBytes = .ok s) ∧
      (maxBytes < s.length → ∃ kept text, keepLastElements parse s maxBytes = .ok text ∧
        kept <:+ elements ∧ ArrayText kept text ∧ text.length ≤ maxBytes ∧
        ∀ longer, longer <:+ elements → kept.length < longer.length →
          maxBytes < (bracketed longer).length) := by
  have hvalues : ∀ e ∈ elements, ValueText e := by
    cases htext
    assumption
  refine ⟨fun hfits => ?_, fun hlong => ?_⟩
  · simp [keepLastElements, hparse, hfits, bind, Except.bind, pure, Except.pure]
  obtain ⟨hn, hfit, hmore⟩ := takeWhile_runningLengths [] elements.reverse (by simp)
    (fun e he => (hvalues e (List.mem_reverse.mp he)).ne_nil)
    (by simpa [bracketed] using hmax)
  have hstart : (bracketed []).length = 2 := rfl
  rw [hstart] at hn hfit hmore
  generalize hcount : ((runningLengths 2 elements.reverse).takeWhile (· ≤ maxBytes)).length = n
    at hn hfit hmore
  have htail : ∀ i, (elements.reverse.take i).reverse ++ [] = elements.drop (elements.length - i) := by
    simp [List.take_reverse]
  have hkept : ∀ e ∈ elements.drop (elements.length - n), ValueText e :=
    fun e he => hvalues e (List.mem_of_mem_drop he)
  refine ⟨elements.drop (elements.length - n), bracketed (elements.drop (elements.length - n)), ?_,
    List.drop_suffix _ _, arrayText_bracketed hkept, htail n ▸ hfit, ?_⟩
  · simp [keepLastElements, hparse, Nat.not_le.mpr hlong, hcount, bind, Except.bind, pure,
      Except.pure]
  · intro longer hsuffix hlen
    have hlonger := hsuffix.length_le
    have hdrop : longer = elements.drop (elements.length - longer.length) :=
      List.suffix_iff_eq_drop.mp hsuffix
    simp only [List.length_reverse] at hn
    have := hmore longer.length (by simp at hlen; omega) (by simpa using hlonger)
    rwa [htail, ← hdrop] at this

/-- `[ 1, 22]` cut to five bytes. -/
theorem keepLastElements_longest_two :
    2 ≤ 5 ∧ ∃ kept text, keepLastElements (fun _ => (.ok [[49], [50, 50]] : Except Unit _))
        [91, 32, 49, 44, 32, 50, 50, 93] 5 = .ok text ∧ kept <:+ [[49], [50, 50]] ∧
      ArrayText kept text ∧ text.length ≤ 5 ∧
      ∀ longer, longer <:+ [[49], [50, 50]] → kept.length < longer.length →
        5 < (bracketed longer).length := by
  have hone : ValueText [49] :=
    .number (.number [] [49] [] [] (.inl rfl) (by simp [IsDigits]) (by decide) (.inl rfl) (.inl rfl))
  have htwo : ValueText [50, 50] := .number
    (.number [] [50, 50] [] [] (.inl rfl) (by simp [IsDigits]) (by decide) (.inl rfl) (.inl rfl))
  have hblank : IsBlank [] := by simp [IsBlank]
  have hspace : IsBlank [32] := by simp [IsBlank]
  have htext : ArrayText [[49], [50, 50]] [91, 32, 49, 44, 32, 50, 50, 93] :=
    .array hblank hblank (by simp [hone, htwo]) (.items (by simp)
      (.cons ⟨[32], [], hspace, hblank, rfl⟩ (.cons ⟨[32], [], hspace, hblank, rfl⟩ .nil)))
  exact ⟨by decide, (keepLastElements_longest _ htext rfl (by decide)).2 (by decide)⟩

end Pipette
