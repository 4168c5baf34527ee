import Pipette.Lib.Interleave

/-! A program on its way: what is left of it after some of its calls. A program that is stopped
stays where it is. -/
namespace Prog

variable {I : Interface} {W α β : Type} {O : Outcomes I W} {R : W → W → Prop}

/-- The program, begun in state `w`, has come to the program that is left and the state. Between its
calls others act as `R` allows. -/
inductive Walk (O : Outcomes I W) (R : W → W → Prop) (p : Prog I α) (w : W) : Prog I α → W → Prop
  | start : Walk O R p w p w
  | others {q : Prog I α} {u v : W} (h : Walk O R p w q u) (hR : R u v) : Walk O R p w q v
  | call {c : I.Call} {k : Except I.Fault (I.Answer c) → Prog I α} {u v : W}
      {r : Except I.Fault (I.Answer c)} (h : Walk O R p w (.call c k) u) (hout : O c u r v) :
      Walk O R p w (k r) v

/-- What is left after `n` calls, the program left to itself. -/
def after (m : Machine I W) : Nat → Prog I α → W → Prog I α × W
  | n + 1, .call c k, w => after m n (k (.ok (m c w).1)) (m c w).2
  | _, p, w => (p, w)

namespace Walk

variable {p q : Prog I α} {f : α → Prog I β} {w u : W}

theorem calls {P : I.Call → Prop} (h : Walk O R p w q u) (hp : p.Calls P) : q.Calls P := by
  induction h with
  | start => exact hp
  | others _ _ ih => exact ih
  | call _ _ ih => exact ih.2 _

theorem ends {E : α → Prop} (h : Walk O R p w q u) (hp : p.Ends E) : q.Ends E := by
  induction h with
  | start => exact hp
  | others _ _ ih => exact ih
  | call _ _ ih => exact ih _

theorem keeps {P : I.Call → Prop} {J : W → Prop} (hR : ∀ u v, J u → R u v → J v)
    (hP : ∀ c u r v, P c → O c u r v → J u → J v) (hp : p.Calls P) (hw : J w)
    (h : Walk O R p w q u) : J u := by
  induction h with
  | start => exact hw
  | others _ hstep ih => exact hR _ _ ih hstep
  | call hwalk hout ih => exact hP _ _ _ _ (hwalk.calls hp).1 hout ih

theorem sat [IsTrans W R] [Std.Refl R] {G : I.Call → W → Prop} {Q : Except I.Fault α → W → Prop}
    (h : Walk O R p w q u) (hp : p.Sat O R G Q w) : q.Sat O R G Q u := by
  induction h with
  | start => exact hp
  | others _ hR ih => exact ih.stable hR
  | call _ hout ih => exact (ih _ (refl_of R _)).2 _ _ hout

theorem guard [IsTrans W R] [Std.Refl R] {G : I.Call → W → Prop}
    {Q : Except I.Fault α → W → Prop} {c : I.Call} {k : Except I.Fault (I.Answer c) → Prog I α}
    (h : Walk O R p w (.call c k) u) (hp : p.Sat O R G Q w) : G c u :=
  (h.sat hp u (refl_of R u)).1

theorem invariant [IsTrans W R] [Std.Refl R] {G : I.Call → W → Prop}
    {Q : Except I.Fault α → W → Prop} {J : W → Prop} (hR : ∀ u v, J u → R u v → J v)
    (hG : ∀ c u r v, G c u → O c u r v → J u → J v) (hp : p.Sat O R G Q w) (hw : J w)
    (h : Walk O R p w q u) : J u := by
  induction h with
  | start => exact hw
  | others _ hstep ih => exact hR _ _ ih hstep
  | call hwalk hout ih => exact hG _ _ _ _ (hwalk.guard hp) hout ih

section Alone

variable {m : Machine I W} (hO : ∀ c u r v, m.clean c u r v → O c u r v)

include hO

theorem exec (p : Prog I α) (w : W) :
    ∃ q, Walk O R p w q (p.exec m w).2 ∧ ∀ a, (p.exec m w).1 = .ok a → q = .ret a := by
  have hall : ∀ (q : Prog I α) (u : W), Walk O R p w q u →
      ∃ q', Walk O R p w q' (q.exec m u).2 ∧ ∀ a, (q.exec m u).1 = .ok a → q' = .ret a := by
    intro q
    induction q with
    | ret a => exact fun u h => ⟨_, h, fun _ ha => by cases ha; rfl⟩
    | fail e => exact fun u h => ⟨_, h, fun _ ha => by cases ha⟩
    | call c k ih => exact fun u h => ih _ _ (h.call (hO c u _ _ ⟨rfl, rfl⟩))
  exact hall p w .start

theorem exec_ok {a : α} (h : p.exec m w = (.ok a, u)) : Walk O R p w (.ret a) u := by
  obtain ⟨q, hwalk, hret⟩ := exec (R := R) hO p w
  rw [h] at hwalk hret
  exact hret a rfl ▸ hwalk

theorem exec_breaks {J : W → Prop} (hw : J w) (hend : ¬ J (p.exec m w).2) :
    ∃ c k v, Walk O R p w (.call c k) v ∧ J v ∧ ¬ J (m c v).2 := by
  have hall : ∀ (q : Prog I α) (u : W), Walk O R p w q u → J u → ¬ J (q.exec m u).2 →
      ∃ c k v, Walk O R p w (.call c k) v ∧ J v ∧ ¬ J (m c v).2 := by
    intro q
    induction q with
    | ret a => exact fun u _ hu hend => (hend hu).elim
    | fail e => exact fun u _ hu hend => (hend hu).elim
    | call c k ih =>
      intro u h hu hend
      by_cases hstep : J (m c u).2
      · exact ih _ _ (h.call (hO c u _ _ ⟨rfl, rfl⟩)) hstep hend
      · exact ⟨c, k, u, h, hu, hstep⟩
  exact hall p w .start hw hend

end Alone

theorem after {m : Machine I W} {n : Nat} (hO : ∀ c w r w', m.clean c w r w' → O c w r w')
    (h : Walk O R p w q u) : Walk O R p w (q.after m n u).1 (q.after m n u).2 := by
  induction n generalizing q u with
  | zero => exact h
  | succ n ih =>
    cases q with
    | ret a => exact h
    | fail e => exact h
    | call c k => exact ih (h.call (hO _ _ _ _ ⟨rfl, rfl⟩))

/-- A program of two parts is on its way through the first one, or has ended it and is on its way
through the second. -/
theorem bind_cases {q : Prog I β} (h : Walk O R (p.bind f) w q u) :
    (∃ p', Walk O R p w p' u ∧ q = p'.bind f) ∨
      ∃ a v, Walk O R p w (.ret a) v ∧ Walk O R (f a) v q u := by
  induction h with
  | start => exact .inl ⟨p, .start, rfl⟩
  | others _ hR ih =>
    obtain ⟨p', hp', rfl⟩ | ⟨a, v, hp, hf⟩ := ih
    · exact .inl ⟨p', hp'.others hR, rfl⟩
    · exact .inr ⟨a, v, hp, hf.others hR⟩
  | @call c k u v r _ hout ih =>
    obtain ⟨p', hp', heq⟩ | ⟨a, v, hp, hf⟩ := ih
    · cases p' with
      | ret a =>
        have hf : Walk O R (f a) u (.call c k) u := heq ▸ .start
        exact .inr ⟨a, u, hp', hf.call hout⟩
      | fail e => cases heq
      | call c' k' =>
        cases heq
        exact .inl ⟨k' r, hp'.call hout, rfl⟩
    · exact .inr ⟨a, v, hp, hf.call hout⟩

end Walk

end Prog
