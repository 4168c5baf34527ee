import Pipette.Lib.Interleave

/-! A process that reads and later acts on what it read. Between the two it depends on the others
holding still; outside that window they may do as they like. -/
namespace Prog

variable {I : Interface} {W α β ι : Type} {ρ : ι → Type}

section Carries

variable (opens acts : I.Call → Prop)

inductive Carries : Prog I α → Prop
  | act {c : I.Call} {k : Except I.Fault (I.Answer c) → Prog I α} (hc : acts c) :
      Carries (.call c k)
  | later {c : I.Call} {k : Except I.Fault (I.Answer c) → Prog I α} (r : Except I.Fault (I.Answer c))
      (hc : ¬ opens c) (h : Carries (k r)) : Carries (.call c k)

variable {opens acts}

theorem not_carries_of_calls {p : Prog I α} (h : p.Calls fun c => ¬ acts c) :
    ¬ p.Carries opens acts := by
  induction p with
  | ret a => rintro ⟨⟩
  | fail e => rintro ⟨⟩
  | call c k ih =>
    rintro (hc | ⟨r, -, hr⟩)
    · exact h.1 hc
    · exact ih r (h.2 r) hr

theorem not_carries_of_outcome {p : Prog I α} (h : p.outcome.isSome) :
    ¬ p.Carries opens acts := by
  cases p with
  | call c k => cases h
  | _ => rintro ⟨⟩

theorem not_carries_bind {p : Prog I α} {f : α → Prog I β} (hp : ¬ p.Carries opens acts)
    (hf : ∀ a, ¬ (f a).Carries opens acts) : ¬ (p.bind f).Carries opens acts := by
  induction p with
  | ret a => exact hf a
  | fail e => rintro ⟨⟩
  | call c k ih =>
    rintro (hc | ⟨r, hc, hr⟩)
    · exact hp (.act hc)
    · exact ih r (fun h => hp (.later r hc h)) hr

theorem not_carries_attempt {p : Prog I α} (hp : ¬ p.Carries opens acts) :
    ¬ p.attempt.Carries opens acts := by
  induction p with
  | ret a => rintro ⟨⟩
  | fail e => rintro ⟨⟩
  | call c k ih =>
    rintro (hc | ⟨r, hc, hr⟩)
    · exact hp (.act hc)
    · exact ih r (fun h => hp (.later r hc h)) hr

end Carries

/-- What one process needs of its window: an opening call, an acting call, what the others bear in
between, where acting is allowed, and the property of the state it is all for. -/
structure Window (I : Interface) (W : Type) where
  outcomes : Outcomes I W
  opens : I.Call → Prop
  acts : I.Call → Prop
  bears : W → W → Prop
  allows : W → Prop
  inv : W → Prop

namespace Window

variable (V : Window I W)

def Guards (p : Prog I α) (w : W) : Prop :=
  p.Sat V.outcomes V.bears (fun c w => V.acts c → V.allows w) (fun _ w => V.inv w) w

def Fetches (c : I.Call) (k : Except I.Fault (I.Answer c) → Prog I α) : Prop :=
  V.opens c → ∀ w r w', V.inv w → V.outcomes c w r w' → V.Guards (k r) w'

structure Tidy (p : Prog I α) : Prop where
  fetches : p.CallsThen V.Fetches
  idle : ¬ p.Carries V.opens V.acts

/-- The rules of the window: the property withstands what the others may do, and every call that
does not act. -/
class Lawful : Prop where
  refl : Std.Refl V.bears
  trans : IsTrans W V.bears
  stable : ∀ w w', V.inv w → V.bears w w' → V.inv w'
  keeps : ∀ c w r w', (V.acts c → V.allows w) → V.outcomes c w r w' → V.inv w → V.inv w'

variable {V} [hV : V.Lawful]

theorem Guards.of_calls {p : Prog I α} (h : p.Calls fun c => ¬ V.acts c) {w : W} (hw : V.inv w) :
    V.Guards p w := by
  refine Sat.invariant hV.stable (fun c w hc hw => ?_) h hw
  exact ⟨fun ha => absurd ha hc, fun r w' hout => hV.keeps c w r w' (fun ha => absurd ha hc) hout hw⟩

theorem Tidy.guards {p : Prog I α} (h : V.Tidy p) {w : W} (hw : V.inv w) : V.Guards p w := by
  induction p generalizing w with
  | ret a => exact fun w' hR => hV.stable w w' hw hR
  | fail e => exact fun w' hR => hV.stable w w' hw hR
  | call c k ih =>
    intro w' hR
    have hact : ¬ V.acts c := fun hc => h.idle (.act hc)
    have hw' : V.inv w' := hV.stable w w' hw hR
    refine ⟨fun hc => absurd hc hact, fun r w'' hout => ?_⟩
    by_cases hopen : V.opens c
    · exact h.fetches.1 hopen w' r w'' hw' hout
    · refine ih r ⟨h.fetches.2 r, fun hr => h.idle (.later r hopen hr)⟩ ?_
      exact hV.keeps c w' r w'' (fun hc => absurd hc hact) hout hw'

theorem Guards.of_sat_bind {p : Prog I α} {f : α → Prog I β} {Q : Except I.Fault α → W → Prop}
    {w : W} (hp : p.Sat V.outcomes V.bears (fun c w => V.acts c → V.allows w) Q w)
    (hok : ∀ a w, Q (.ok a) w → V.Guards (f a) w) (herr : ∀ e w, Q (.error e) w → V.inv w) :
    V.Guards (p.bind f) w := by
  have := hV.refl
  exact Sat.bind hp hok fun e w hw w' hR => hV.stable w w' (herr e w hw) hR

theorem Guards.bind {p : Prog I α} {f : α → Prog I β} {w : W} (hp : V.Guards p w)
    (hf : ∀ a, V.Tidy (f a)) : V.Guards (p.bind f) w :=
  .of_sat_bind hp (fun a _ hw => (hf a).guards hw) fun _ _ hw => hw

omit hV in
theorem Tidy.of_calls {p : Prog I α} (h : p.Calls fun c => ¬ V.opens c ∧ ¬ V.acts c) : V.Tidy p :=
  ⟨.of_calls (h.mono fun _ hc _ ho => absurd ho hc.1), not_carries_of_calls (h.mono fun _ hc => hc.2)⟩

theorem Tidy.bind {p : Prog I α} {f : α → Prog I β} (hp : V.Tidy p) (hf : ∀ a, V.Tidy (f a)) :
    V.Tidy (p.bind f) := by
  refine ⟨?_, not_carries_bind hp.idle fun a => (hf a).idle⟩
  have hcalls := hp.fetches
  clear hp
  induction p with
  | ret a => exact (hf a).fetches
  | fail e => trivial
  | call c k ih =>
    exact ⟨fun hc w r w' hw hout => (hcalls.1 hc w r w' hw hout).bind hf,
      fun r => ih r (hcalls.2 r)⟩

omit hV in
theorem Tidy.attempt {p : Prog I α} (hp : V.Tidy p) : V.Tidy p.attempt := by
  refine ⟨?_, not_carries_attempt hp.idle⟩
  have hcalls := hp.fetches
  clear hp
  induction p with
  | ret a => trivial
  | fail e => trivial
  | call c k ih =>
    exact ⟨fun hc w r w' hw hout => Sat.attempt (hcalls.1 hc w r w' hw hout),
      fun r => ih r (hcalls.2 r)⟩

omit hV in
theorem Tidy.ret (a : α) : V.Tidy (Prog.ret a : Prog I α) := ⟨trivial, by rintro ⟨⟩⟩

theorem Tidy.foldlM {f : β → α → Prog I β} (h : ∀ b a, V.Tidy (f b a)) (xs : List α) (b : β) :
    V.Tidy (xs.foldlM f b) := by
  induction xs generalizing b with
  | nil => exact .ret b
  | cons a rest ih => exact (h b a).bind fun b' => ih b'

theorem Tidy.open_bind {c : I.Call} {f : I.Answer c → Prog I β} (hact : ¬ V.acts c)
    (hopen : V.opens c) (hf : ∀ a, (f a).Calls fun c => ¬ V.opens c)
    (hok : ∀ w a w', V.inv w → V.outcomes c w (.ok a) w' → V.Guards (f a) w') :
    V.Tidy ((store c).bind f) := by
  refine ⟨⟨fun _ w r w' hw hout => ?_, fun r => ?_⟩, ?_⟩
  · cases r with
    | ok a => exact hok w a w' hw hout
    | error e =>
      refine fun w'' hR => hV.stable w' w'' (hV.keeps c w _ w' (fun hc => absurd hc hact) hout hw) hR
  · cases r with
    | ok a => exact .of_calls ((hf a).mono fun _ hc _ ho => absurd ho hc)
    | error e => trivial
  · rintro (hc | ⟨r, hc, -⟩)
    · exact hact hc
    · exact hc hopen

end Window

namespace Pool

variable [DecidableEq ι] {V : Window I W} [hV : V.Lawful] {s t u : Pool I W ι ρ} {i₀ : ι}
  {P : ι → I.Call → Prop} {cond : Pool I W ι ρ → ι → I.Call → Prop}

structure Around (V : Window I W) (i₀ : ι) (P : ι → I.Call → Prop) (t : Pool I W ι ρ) : Prop where
  inv : V.inv t.world
  calls : ∀ i, i ≠ i₀ → (t.procs i).Calls (P i)
  fetches : (t.procs i₀).CallsThen V.Fetches
  guards : V.Guards (t.procs i₀) t.world

theorem Around.step {i : ι} {c : I.Call} (h : Around V i₀ P t)
    (hkeep : ∀ i c w r w', i ≠ i₀ → P i c → V.outcomes c w r w' → V.inv w → V.inv w')
    (hbear : ∀ r w', i ≠ i₀ → P i c → V.outcomes c t.world r w' →
      V.bears t.world w' ∨ ¬ (t.procs i₀).Carries V.opens V.acts)
    (hs : Step V.outcomes t i c u) : Around V i₀ P u := by
  have := hV.refl
  have := hV.trans
  cases hs with
  | @mk k r w' hcall hout =>
    by_cases hi : i = i₀
    · subst hi
      have hown := h.guards
      have hfetch := h.fetches
      rw [hcall] at hown hfetch
      obtain ⟨hG, hk⟩ := hown t.world (refl_of V.bears _)
      refine ⟨hV.keeps c _ r _ hG hout h.inv, fun i' hi' => ?_, ?_, ?_⟩
      · simpa [Function.update_of_ne hi'] using h.calls i' hi'
      · simpa using hfetch.2 r
      · simpa [Window.Guards] using hk r w' hout
    · have hcalls := h.calls i hi
      rw [hcall] at hcalls
      have hinv : V.inv w' := hkeep i c _ r _ hi hcalls.1 hout h.inv
      refine ⟨hinv, fun i' hi' => ?_, ?_, ?_⟩
      · by_cases he : i' = i
        · subst he
          simpa using hcalls.2 r
        · simpa [Function.update_of_ne he] using h.calls i' hi'
      · simpa [Function.update_of_ne (Ne.symm hi)] using h.fetches
      · have hsame : Function.update t.procs i (k r) i₀ = t.procs i₀ :=
          Function.update_of_ne (Ne.symm hi) _ _
        simp only [hsame]
        obtain hb | hidle := hbear r w' hi hcalls.1 hout
        · exact Sat.stable h.guards hb
        · exact Window.Tidy.guards ⟨h.fetches, hidle⟩ hinv

theorem Reach.around (hinv : V.inv s.world) (htidy : V.Tidy (s.procs i₀))
    (hcalls : ∀ i, i ≠ i₀ → (s.procs i).Calls (P i))
    (hkeep : ∀ i c w r w', i ≠ i₀ → P i c → V.outcomes c w r w' → V.inv w → V.inv w')
    (hbear : ∀ t i c r w', i ≠ i₀ → P i c → cond t i c → V.outcomes c t.world r w' →
      V.bears t.world w' ∨ ¬ (t.procs i₀).Carries V.opens V.acts)
    (h : Reach V.outcomes cond s t) : Around V i₀ P t := by
  refine h.invariant (Around V i₀ P) ⟨hinv, hcalls, htidy.fetches, htidy.guards hinv⟩ ?_
  intro t i c u ht hc hs
  exact ht.step hkeep (fun r w' hi hP => hbear t i c r w' hi hP hc) hs

end Pool

end Prog
