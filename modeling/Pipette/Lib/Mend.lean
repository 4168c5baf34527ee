import Pipette.Lib.Interleave

/-! A property of the shared state that a process may break for a while, as long as it restores it
before it ends. When the processes that break it have ended, it holds again. -/
namespace Prog

variable {I : Interface} {W α β ι : Type} {ρ : ι → Type}

def Heads (c : I.Call) (p : Prog I α) : Prop := ∃ k, p = .call c k

section Programs

variable (O : Outcomes I W) (R : I.Call → W → W → Prop) (S : W → Prop)

/-- The program ends with the property, whether or not it holds now. While it is about to make a
call the others keep to what `R` says for that call, and break the property only for others to
restore. -/
def Restores : Prog I α → W → Prop
  | ret _, w => S w
  | fail _, w => S w
  | call c k, w => ∀ w', R c w w' → (S w → S w') → ∀ r w'', O c w' r w'' → (k r).Restores w''

/-- Whenever the program breaks the property, what is left of it restores it. -/
def Upholds : Prog I α → W → Prop
  | ret _, _ => True
  | fail _, _ => True
  | call c k, w => ∀ w', R c w w' → ∀ r w'', O c w' r w'' →
    (S w' → ¬ S w'' → (k r).Restores O R S w'') ∧ (k r).Upholds w''

/-- What follows the call restores the property if the call breaks it, in any state. -/
def Mends (c : I.Call) (k : Except I.Fault (I.Answer c) → Prog I α) : Prop :=
  ∀ w r w', O c w r w' → S w → ¬ S w' → (k r).Restores O R S w'

variable {O R S}

theorem Mends.of_keeps {c : I.Call} {k : Except I.Fault (I.Answer c) → Prog I α}
    (h : ∀ w r w', O c w r w' → S w → S w') : Mends O R S c k :=
  fun w r w' hout hw hbroken => absurd (h w r w' hout hw) hbroken

theorem Upholds.of_mends {p : Prog I α} (hp : p.CallsThen (Mends O R S)) {w : W} :
    p.Upholds O R S w := by
  induction p generalizing w with
  | ret a => trivial
  | fail e => trivial
  | call c k ih =>
    exact fun w' _ r w'' hout => ⟨fun hw hbroken => hp.1 w' r w'' hout hw hbroken, ih r (hp.2 r)⟩

theorem Restores.of_upholds {p : Prog I α} {w : W} (hp : p.Upholds O R S w) (hw : S w) :
    p.Restores O R S w := by
  induction p generalizing w with
  | ret a => exact hw
  | fail e => exact hw
  | call c k ih =>
    intro w' hR hS r w'' hout
    obtain ⟨hbreak, hrest⟩ := hp w' hR r w'' hout
    by_cases hkept : S w''
    · exact ih r hrest hkept
    · exact hbreak (hS hw) hkept

theorem Restores.ret {a : α} {w : W} (hw : S w) : (Prog.ret a : Prog I α).Restores O R S w := hw

theorem Restores.fail {e : I.Fault} {w : W} (hw : S w) :
    (Prog.fail e : Prog I α).Restores O R S w :=
  hw

theorem Restores.bind_restores {p : Prog I α} {f : α → Prog I β} {w : W} (hp : p.Restores O R S w)
    (hf : ∀ a w, S w → (f a).Restores O R S w) : (p.bind f).Restores O R S w := by
  induction p generalizing w with
  | ret a => exact hf a w hp
  | fail e => exact hp
  | call c k ih => exact fun w' hR hS r w'' hout => ih r (hp w' hR hS r w'' hout)

theorem Restores.bind {p : Prog I α} {f : α → Prog I β} {w : W} (hp : p.Restores O R S w)
    (hf : ∀ a, (f a).CallsThen (Mends O R S)) : (p.bind f).Restores O R S w :=
  hp.bind_restores fun a _ => .of_upholds (.of_mends (hf a))

theorem CallsThen.mends_bind {p : Prog I α} {f : α → Prog I β} (hp : p.CallsThen (Mends O R S))
    (hf : ∀ a, (f a).CallsThen (Mends O R S)) : (p.bind f).CallsThen (Mends O R S) := by
  induction p with
  | ret a => exact hf a
  | fail e => trivial
  | call c k ih =>
    exact ⟨fun w r w' hout hw hbroken => (hp.1 w r w' hout hw hbroken).bind hf,
      fun r => ih r (hp.2 r)⟩

theorem Restores.store_bind {c : I.Call} {f : I.Answer c → Prog I β} {w : W}
    (hok : ∀ w', R c w w' → ∀ a w'', O c w' (.ok a) w'' → (f a).Restores O R S w'')
    (herr : ∀ w', R c w w' → ∀ e w'', O c w' (.error e) w'' → S w'') :
    ((store c).bind f).Restores O R S w := by
  intro w' hR _ r w'' hout
  cases r with
  | ok a => exact hok w' hR a w'' hout
  | error e => exact herr w' hR e w'' hout

theorem Upholds.store_bind {c : I.Call} {f : I.Answer c → Prog I β} {w : W}
    (hkeep : ∀ w' r w'', R c w w' → O c w' r w'' → S w' → S w'')
    (hok : ∀ w', R c w w' → ∀ a w'', O c w' (.ok a) w'' → (f a).Upholds O R S w'') :
    ((store c).bind f).Upholds O R S w := by
  intro w' hR r w'' hout
  refine ⟨fun hw hbroken => absurd (hkeep w' r w'' hR hout hw) hbroken, ?_⟩
  cases r with
  | ok a => exact hok w' hR a w'' hout
  | error e => trivial

theorem Upholds.bind_of_calls {p : Prog I α} {f : α → Prog I β} {w : W}
    (hp : p.Calls fun c => ∀ w r w', O c w r w' → S w → S w') (hf : ∀ a w, (f a).Upholds O R S w) :
    (p.bind f).Upholds O R S w := by
  induction p generalizing w with
  | ret a => exact hf a w
  | fail e => trivial
  | call c k ih =>
    exact fun w' _ r w'' hout =>
      ⟨fun hw hbroken => absurd (hp.1 w' r w'' hout hw) hbroken, ih r (hp.2 r)⟩

theorem Upholds.bind {p : Prog I α} {f : α → Prog I β} {w : W} (hp : p.Upholds O R S w)
    (hf : ∀ a w, (f a).Upholds O R S w) : (p.bind f).Upholds O R S w := by
  induction p generalizing w with
  | ret a => exact hf a w
  | fail e => trivial
  | call c k ih =>
    intro w' hR r w'' hout
    obtain ⟨hbreak, hrest⟩ := hp w' hR r w'' hout
    exact ⟨fun hw hbroken => (hbreak hw hbroken).bind_restores fun a v => .of_upholds (hf a v),
      ih r hrest⟩

theorem Restores.attempt {p : Prog I α} {w : W} (h : p.Restores O R S w) :
    p.attempt.Restores O R S w := by
  induction p generalizing w with
  | ret a => exact h
  | fail e => exact h
  | call c k ih => exact fun w' hR hS r w'' hout => ih r (h w' hR hS r w'' hout)

theorem Upholds.attempt {p : Prog I α} {w : W} (h : p.Upholds O R S w) :
    p.attempt.Upholds O R S w := by
  induction p generalizing w with
  | ret a => trivial
  | fail e => trivial
  | call c k ih =>
    intro w' hR r w'' hout
    obtain ⟨hbreak, hrest⟩ := h w' hR r w'' hout
    exact ⟨fun hw hbroken => (hbreak hw hbroken).attempt, ih r hrest⟩

variable (O R S) in
def Renews (p : Prog I α) (w : W) : Prop := p.Restores O R S w ∧ p.Upholds O R S w

theorem Renews.ret {a : α} {w : W} (hw : S w) : (Prog.ret a : Prog I α).Renews O R S w :=
  ⟨hw, trivial⟩

theorem Renews.of_upholds {p : Prog I α} {w : W} (hp : p.Upholds O R S w) (hw : S w) :
    p.Renews O R S w :=
  ⟨.of_upholds hp hw, hp⟩

theorem Renews.store_bind {c : I.Call} {f : I.Answer c → Prog I β} {w : W}
    (hok : ∀ w', R c w w' → ∀ a w'', O c w' (.ok a) w'' → (f a).Renews O R S w'')
    (herr : ∀ w', R c w w' → ∀ e w'', O c w' (.error e) w'' → S w'') :
    ((store c).bind f).Renews O R S w := by
  refine ⟨.store_bind (fun w' hR a w'' hout => (hok w' hR a w'' hout).1) herr, ?_⟩
  intro w' hR r w'' hout
  cases r with
  | ok a => exact ⟨fun _ _ => (hok w' hR a w'' hout).1, (hok w' hR a w'' hout).2⟩
  | error e => exact ⟨fun _ hbroken => absurd (herr w' hR e w'' hout) hbroken, trivial⟩

variable [∀ c, IsTrans W (R c)] {w w' : W} {p : Prog I α}

theorem Restores.stable (h : p.Restores O R S w) (hR : ∀ c, p.Heads c → R c w w')
    (hS : S w → S w') : p.Restores O R S w' := by
  cases p with
  | ret a => exact hS h
  | fail e => exact hS h
  | call c k =>
    exact fun v hv hSv r v' hout =>
      h v (trans_of (R c) (hR c ⟨k, rfl⟩) hv) (fun hw => hSv (hS hw)) r v' hout

theorem Upholds.stable (h : p.Upholds O R S w) (hR : ∀ c, p.Heads c → R c w w') :
    p.Upholds O R S w' := by
  cases p with
  | ret a => trivial
  | fail e => trivial
  | call c k => exact fun v hv => h v (trans_of (R c) (hR c ⟨k, rfl⟩) hv)

end Programs

namespace Pool

variable [DecidableEq ι] {P : Outcomes I W} {O : ι → Outcomes I W} {R : ι → I.Call → W → W → Prop}
  {S : W → Prop} {menders : ι → Prop} {cond : Pool I W ι ρ → ι → I.Call → Prop}
  {s t u : Pool I W ι ρ}

/-- The property holds, or a process that may break it is on its way to restore it. Each process
counts on outcomes of its own. -/
structure Upheld (O : ι → Outcomes I W) (R : ι → I.Call → W → W → Prop) (S : W → Prop)
    (menders : ι → Prop) (t : Pool I W ι ρ) : Prop where
  upholds : ∀ i, menders i → (t.procs i).Upholds (O i) (R i) S t.world
  mending : S t.world ∨ ∃ i, menders i ∧ (t.procs i).Restores (O i) (R i) S t.world

theorem Upheld.step [∀ i c, IsTrans W (R i c)] {i : ι} {c : I.Call} (h : Upheld O R S menders t)
    (hcount : menders i → ∀ r w', P c t.world r w' → O i c t.world r w')
    (hown : menders i → R i c t.world t.world)
    (hframe : ∀ i', i' ≠ i → menders i' → ∀ c', (t.procs i').Heads c' →
      R i' c' t.world u.world)
    (hkeep : ¬ menders i → S t.world → S u.world) (hs : Step P t i c u) :
    Upheld O R S menders u := by
  cases hs with
  | @mk k r w' hcall hout =>
    have hmoves : ∀ i', menders i' → (i' = i → (k r).Upholds (O i) (R i) S w' ∧
        (S t.world → ¬ S w' → (k r).Restores (O i) (R i) S w')) := by
      intro i' hi' he
      subst he
      have hup := h.upholds i' hi'
      rw [hcall] at hup
      exact (hup t.world (hown hi') r w' (hcount hi' r w' hout)).symm
    refine ⟨fun i' hi' => ?_, ?_⟩
    · by_cases he : i' = i
      · subst he
        simpa using (hmoves i' hi' rfl).1
      · simpa [Function.update_of_ne he] using (h.upholds i' hi').stable (hframe i' he hi')
    · by_cases hw' : S w'
      · exact .inl hw'
      by_cases ht : S t.world
      · -- this call breaks the property, so its process restores it
        have hi : menders i := by
          by_contra hi
          exact hw' (hkeep hi ht)
        exact .inr ⟨i, hi, by simpa using (hmoves i hi rfl).2 ht hw'⟩
      · obtain ht' | ⟨i', hi', hmend⟩ := h.mending
        · exact absurd ht' ht
        · refine .inr ⟨i', hi', ?_⟩
          by_cases he : i' = i
          · subst he
            rw [hcall] at hmend
            simpa using hmend t.world (hown hi') (fun hw => hw) r w' (hcount hi' r w' hout)
          · simpa [Function.update_of_ne he] using
              hmend.stable (hframe i' he hi') fun hw => absurd hw ht

omit [DecidableEq ι] in
theorem Upheld.holds (h : Upheld O R S menders t)
    (hdone : ∀ i, menders i → (t.procs i).outcome.isSome) : S t.world := by
  obtain ht | ⟨i, hi, hmend⟩ := h.mending
  · exact ht
  · have hi' := hdone i hi
    cases hp : t.procs i with
    | call c k =>
      rw [hp] at hi'
      cases hi'
    | _ =>
      rw [hp] at hmend
      exact hmend

theorem Reach.mended
    (hmends : ∀ i, (s.procs i).CallsThen (Mends P (fun _ _ _ => True) S)) (hs : S s.world)
    (h : Reach P cond s t) (hdone : t.Finished) : S t.world := by
  have : ∀ (_ : ι) (_ : I.Call), IsTrans W fun _ _ => True := fun _ _ => ⟨fun _ _ _ _ _ => trivial⟩
  have hup : Upheld (fun _ => P) (fun _ _ _ _ => True) S (fun _ => True) t := by
    refine h.invariant (Upheld (fun _ => P) (fun _ _ _ _ => True) S fun _ => True) ?_ ?_
    · exact ⟨fun i _ => .of_mends (hmends i), .inl hs⟩
    · intro t i c u ht _ hstep
      exact ht.step (fun _ _ _ hout => hout) (fun _ => trivial) (fun _ _ _ _ _ => trivial)
        (fun hi => absurd trivial hi) hstep
  exact hup.holds fun i _ => finished_iff.mp hdone i

end Pool

end Prog
