import Mathlib.Logic.Function.Basic
import Pipette.Lib.Prog

/-! Processes that interleave at their calls, and the rules to reason about them: an invariant
every call keeps, and one process under interference from the rest. -/
namespace Prog

variable {I : Interface} {α β : Type} {W ι : Type} {ρ : ι → Type}

abbrev Outcomes (I : Interface) (W : Type) : Type :=
  (c : I.Call) → W → Except I.Fault (I.Answer c) → W → Prop

def Machine.clean (m : Machine I W) : Outcomes I W :=
  fun c w r w' => r = .ok (m c w).1 ∧ w' = (m c w).2

/-- A call may also fail, with or without its effect. -/
def Machine.faulty (m : Machine I W) : Outcomes I W :=
  fun c w r w' => m.clean c w r w' ∨ ∃ e, r = .error e ∧ (w' = w ∨ w' = (m c w).2)

def Outcomes.within (O : Outcomes I W) (A : W → Prop) : Outcomes I W :=
  fun c w r w' => O c w r w' ∧ A w'

structure Pool (I : Interface) (W ι : Type) (ρ : ι → Type) where
  world : W
  procs : (i : ι) → Prog I (ρ i)

namespace Pool

def Finished (s : Pool I W ι ρ) : Prop :=
  ∀ i, (∃ a, s.procs i = .ret a) ∨ ∃ e, s.procs i = .fail e

theorem finished_iff {s : Pool I W ι ρ} : s.Finished ↔ ∀ i, (s.procs i).outcome.isSome := by
  refine forall_congr' fun i => ?_
  cases s.procs i <;> simp [outcome]

variable [DecidableEq ι] {O : Outcomes I W} {m : Machine I W}

inductive Step (O : Outcomes I W) : Pool I W ι ρ → ι → I.Call → Pool I W ι ρ → Prop
  | mk {s : Pool I W ι ρ} {i : ι} {c : I.Call} {k : Except I.Fault (I.Answer c) → Prog I (ρ i)}
      {r : Except I.Fault (I.Answer c)} {w : W} (hcall : s.procs i = .call c k)
      (hout : O c s.world r w) : Step O s i c ⟨w, Function.update s.procs i (k r)⟩

/-- The pools reached by steps that each meet a condition on the pool before the step, the
process and its call. -/
inductive Reach (O : Outcomes I W) (cond : Pool I W ι ρ → ι → I.Call → Prop)
    (s : Pool I W ι ρ) : Pool I W ι ρ → Prop
  | refl : Reach O cond s s
  | tail {t u : Pool I W ι ρ} {i : ι} {c : I.Call} (h : Reach O cond s t) (hc : cond t i c)
      (hs : Step O t i c u) : Reach O cond s u

theorem Reach.invariant {cond : Pool I W ι ρ → ι → I.Call → Prop} {s t : Pool I W ι ρ}
    (Inv : Pool I W ι ρ → Prop) (h0 : Inv s)
    (hstep : ∀ t i c u, Inv t → cond t i c → Step O t i c u → Inv u)
    (h : Reach O cond s t) : Inv t := by
  induction h with
  | refl => exact h0
  | tail _ hc hs ih => exact hstep _ _ _ _ ih hc hs

theorem Step.inv {s t : Pool I W ι ρ} {i : ι} {c : I.Call} (h : Step O s i c t) :
    ∃ k r, s.procs i = .call c k ∧ O c s.world r t.world ∧ t.procs i = k r := by
  cases h with
  | mk hcall hout => exact ⟨_, _, hcall, hout, by simp⟩

theorem Step.frame {s t : Pool I W ι ρ} {i j : ι} {c : I.Call} (h : Step O s i c t) (hj : j ≠ i) :
    t.procs j = s.procs j := by
  cases h with
  | mk hcall hout => simp [Function.update_of_ne hj]

theorem Step.calls {s t : Pool I W ι ρ} {i : ι} {c : I.Call} {P : ι → I.Call → Prop}
    (h : Step O s i c t) (hp : ∀ j, (s.procs j).Calls (P j)) :
    P i c ∧ ∀ j, (t.procs j).Calls (P j) := by
  cases h with
  | mk hcall hout =>
    have hi := hp i
    rw [hcall] at hi
    refine ⟨hi.1, fun j => ?_⟩
    by_cases hj : j = i
    · subst hj
      simpa using hi.2 _
    · simpa [Function.update_of_ne hj] using hp j

theorem Step.callsThen {s t : Pool I W ι ρ} {i : ι} {c : I.Call}
    {P : (i : ι) → (c : I.Call) → (Except I.Fault (I.Answer c) → Prog I (ρ i)) → Prop}
    (h : Step O s i c t) (hp : ∀ j, (s.procs j).CallsThen (P j)) :
    ∀ j, (t.procs j).CallsThen (P j) := by
  cases h with
  | mk hcall hout =>
    intro j
    by_cases hj : j = i
    · subst hj
      have hi := hp j
      rw [hcall] at hi
      simpa using hi.2 _
    · simpa [Function.update_of_ne hj] using hp j

theorem Reach.world_invariant {cond : Pool I W ι ρ → ι → I.Call → Prop} {s t : Pool I W ι ρ}
    {P : ι → I.Call → Prop} (Inv : W → Prop) (h0 : Inv s.world)
    (hp : ∀ i, (s.procs i).Calls (P i))
    (hkeep : ∀ i c w r w', P i c → O c w r w' → Inv w → Inv w') (h : Reach O cond s t) :
    Inv t.world ∧ ∀ i, (t.procs i).Calls (P i) := by
  refine h.invariant (fun u => Inv u.world ∧ ∀ i, (u.procs i).Calls (P i)) ⟨h0, hp⟩ ?_
  intro u i c v hu _ hs
  obtain ⟨hc, hcalls⟩ := hs.calls hu.2
  refine ⟨?_, hcalls⟩
  cases hs with
  | mk hcall hout => exact hkeep i c _ _ _ hc hout hu.1

theorem Step.mono {O' : Outcomes I W} {s t : Pool I W ι ρ} {i : ι} {c : I.Call}
    (hO : ∀ c w r w', O c w r w' → O' c w r w') (h : Step O s i c t) : Step O' s i c t := by
  cases h with
  | mk hcall hout => exact .mk hcall (hO _ _ _ _ hout)

theorem Reach.mono {O' : Outcomes I W} {cond cond' : Pool I W ι ρ → ι → I.Call → Prop}
    {s t : Pool I W ι ρ} (hO : ∀ c w r w', O c w r w' → O' c w r w')
    (hcond : ∀ s i c, cond s i c → cond' s i c) (h : Reach O cond s t) : Reach O' cond' s t := by
  induction h with
  | refl => exact .refl
  | tail _ hc hs ih => exact ih.tail (hcond _ _ _ hc) (hs.mono hO)

theorem Reach.trans {cond : Pool I W ι ρ → ι → I.Call → Prop} {s t u : Pool I W ι ρ}
    (h : Reach O cond s t) (h' : Reach O cond t u) : Reach O cond s u := by
  induction h' with
  | refl => exact h
  | tail _ hc hs ih => exact ih.tail hc hs

theorem Reach.within_or {cond : Pool I W ι ρ → ι → I.Call → Prop} {s t : Pool I W ι ρ}
    {A : W → Prop} (hs : A s.world) (h : Reach O cond s t) :
    (A t.world ∧ Reach (O.within A) (fun u i c => cond u i c ∧ A u.world) s t) ∨
      ∃ u, Reach O cond s u ∧ Reach O cond u t ∧ ¬ A u.world := by
  induction h with
  | refl => exact .inl ⟨hs, .refl⟩
  | @tail t v i c h hc hstep ih =>
    obtain ⟨ht, hin⟩ | ⟨u, hsu, hut, hu⟩ := ih
    · by_cases hv : A v.world
      · refine .inl ⟨hv, hin.tail ⟨hc, ht⟩ ?_⟩
        cases hstep with
        | mk hcall hout => exact .mk hcall ⟨hout, hv⟩
      · exact .inr ⟨v, h.tail hc hstep, .refl, hv⟩
    · exact .inr ⟨u, hsu, hut.tail hc hstep, hu⟩

def replace (s : Pool I W ι ρ) (i : ι) (p : Prog I (ρ i)) : Pool I W ι ρ :=
  ⟨s.world, Function.update s.procs i p⟩

@[simp] theorem replace_world {s : Pool I W ι ρ} {i : ι} {p : Prog I (ρ i)} :
    (s.replace i p).world = s.world := rfl

@[simp] theorem replace_self {s : Pool I W ι ρ} {i : ι} {p : Prog I (ρ i)} :
    (s.replace i p).procs i = p := by
  simp [replace]

theorem replace_of_ne {s : Pool I W ι ρ} {i j : ι} {p : Prog I (ρ i)} (h : j ≠ i) :
    (s.replace i p).procs j = s.procs j := by
  simp [replace, Function.update_of_ne h]

/-- A run in which a process also makes way for another one, where `start` allows it. A process
that takes turns with its successors this way never acts beside them. -/
inductive Relay (O : Outcomes I W) (start : Pool I W ι ρ → (i : ι) → Prog I (ρ i) → Prop)
    (s : Pool I W ι ρ) : Pool I W ι ρ → Prop
  | refl : Relay O start s s
  | step {t u : Pool I W ι ρ} {i : ι} {c : I.Call} (h : Relay O start s t) (hs : Step O t i c u) :
      Relay O start s u
  | replace {t : Pool I W ι ρ} {i : ι} {p : Prog I (ρ i)} (h : Relay O start s t)
      (hp : start t i p) : Relay O start s (t.replace i p)

theorem Relay.invariant {start : Pool I W ι ρ → (i : ι) → Prog I (ρ i) → Prop}
    {s t : Pool I W ι ρ} (Inv : Pool I W ι ρ → Prop) (h0 : Inv s)
    (hstep : ∀ t i c u, Inv t → Step O t i c u → Inv u)
    (hreplace : ∀ t i p, Inv t → start t i p → Inv (t.replace i p)) (h : Relay O start s t) :
    Inv t := by
  induction h with
  | refl => exact h0
  | step _ hs ih => exact hstep _ _ _ _ ih hs
  | replace _ hp ih => exact hreplace _ _ _ ih hp

theorem Reach.relay {cond : Pool I W ι ρ → ι → I.Call → Prop}
    {start : Pool I W ι ρ → (i : ι) → Prog I (ρ i) → Prop} {s t u : Pool I W ι ρ}
    (hs : Relay O start s t) (h : Reach O cond t u) : Relay O start s u := by
  induction h with
  | refl => exact hs
  | tail _ _ hstep ih => exact ih.step hstep

def advance (m : Machine I W) (s : Pool I W ι ρ) (i : ι) : Pool I W ι ρ :=
  match s.procs i with
  | .call c k => ⟨(m c s.world).2, Function.update s.procs i (k (.ok (m c s.world).1))⟩
  | .ret _ | .fail _ => s

def play (m : Machine I W) (s : Pool I W ι ρ) (sched : List ι) : Pool I W ι ρ :=
  sched.foldl (advance m) s

def trace (m : Machine I W) : Pool I W ι ρ → List ι → List (Pool I W ι ρ)
  | s, [] => [s]
  | s, i :: rest => s :: trace m (s.advance m i) rest

def next (s : Pool I W ι ρ) (i : ι) : Option I.Call :=
  match s.procs i with
  | .call c _ => some c
  | .ret _ | .fail _ => none

theorem Step.advance {s : Pool I W ι ρ} {i : ι} {c : I.Call} (h : s.next i = some c) :
    Step m.clean s i c (s.advance m i) := by
  unfold Pool.next at h
  unfold Pool.advance
  split at h
  · next hcall =>
    cases h
    exact .mk hcall ⟨rfl, rfl⟩
  · cases h
  · cases h

theorem advance_of_next_none {s : Pool I W ι ρ} {i : ι} (h : s.next i = none) :
    s.advance m i = s := by
  unfold Pool.next at h
  unfold Pool.advance
  split at h
  · cases h
  · rfl
  · rfl

def moves (m : Machine I W) : Pool I W ι ρ → List ι → List (Pool I W ι ρ × ι)
  | _, [] => []
  | s, i :: rest => (s, i) :: moves m (s.advance m i) rest

theorem mem_trace_of_mem_moves {s u : Pool I W ι ρ} {sched : List ι} {i : ι}
    (h : (u, i) ∈ s.moves m sched) : u ∈ s.trace m sched := by
  induction sched generalizing s with
  | nil => cases h
  | cons j rest ih =>
    obtain h | h := List.mem_cons.mp h
    · cases h
      exact List.mem_cons_self
    · exact List.mem_cons_of_mem _ (ih h)

theorem Reach.play_moves {cond : Pool I W ι ρ → ι → I.Call → Prop} {s : Pool I W ι ρ}
    {sched : List ι} (h : ∀ x ∈ s.moves m sched, ∀ c ∈ x.1.next x.2, cond x.1 x.2 c) :
    Reach m.clean cond s (s.play m sched) := by
  induction sched generalizing s with
  | nil => exact .refl
  | cons i rest ih =>
    have hrest := ih fun x hx => h x (List.mem_cons_of_mem _ hx)
    have hfirst : Reach m.clean cond s (s.advance m i) := by
      cases hnext : s.next i with
      | none =>
        rw [advance_of_next_none hnext]
        exact .refl
      | some c => exact .tail .refl (h (s, i) List.mem_cons_self c hnext) (.advance hnext)
    exact hfirst.trans hrest

theorem Reach.play_next {cond : Pool I W ι ρ → ι → I.Call → Prop} {s : Pool I W ι ρ}
    {sched : List ι} (h : ∀ u ∈ s.trace m sched, ∀ i, ∀ c ∈ u.next i, cond u i c) :
    Reach m.clean cond s (s.play m sched) :=
  .play_moves fun x hx => h x.1 (mem_trace_of_mem_moves hx) x.2

theorem Reach.play {P : Pool I W ι ρ → Prop} {s : Pool I W ι ρ} {sched : List ι}
    (h : ∀ u ∈ s.trace m sched, P u) :
    Reach m.clean (fun u _ _ => P u) s (s.play m sched) :=
  .play_next fun u hu _ _ _ => h u hu

/-- A run with its history, the latest step first: the pool before the step, the process and its
call. Each process has outcomes of its own. -/
inductive Run (O : ι → Outcomes I W) (cond : Pool I W ι ρ → ι → I.Call → Prop)
    (s : Pool I W ι ρ) : List (Pool I W ι ρ × ι × I.Call) → Pool I W ι ρ → Prop
  | refl : Run O cond s [] s
  | tail {log : List (Pool I W ι ρ × ι × I.Call)} {t u : Pool I W ι ρ} {i : ι} {c : I.Call}
      (h : Run O cond s log t) (hc : cond t i c) (hs : Step (O i) t i c u) :
      Run O cond s ((t, i, c) :: log) u

section Run

variable {O : ι → Outcomes I W} {cond : Pool I W ι ρ → ι → I.Call → Prop} {s t : Pool I W ι ρ}
  {log : List (Pool I W ι ρ × ι × I.Call)}

theorem Run.invariant (Inv : List (Pool I W ι ρ × ι × I.Call) → Pool I W ι ρ → Prop)
    (h0 : Inv [] s)
    (hstep : ∀ log t i c u, Inv log t → cond t i c → Step (O i) t i c u → Inv ((t, i, c) :: log) u)
    (h : Run O cond s log t) : Inv log t := by
  induction h with
  | refl => exact h0
  | tail _ hc hs ih => exact hstep _ _ _ _ _ ih hc hs

theorem Reach.run (hO : ∀ i c w r w', m.clean c w r w' → O i c w r w')
    (h : Reach m.clean cond s t) : ∃ log, Run O cond s log t := by
  induction h with
  | refl => exact ⟨[], .refl⟩
  | tail _ hc hs ih =>
    obtain ⟨log, hlog⟩ := ih
    exact ⟨_, hlog.tail hc (hs.mono (hO _))⟩

end Run

end Pool

section Until

variable {O : Outcomes I W} {P : I.Call → Prop} {T : Prog I α → W → Prop}

variable (O P T) in
/-- The program makes only calls `P` until it fails or reaches the point `T` tells by the program
that is left and the state. -/
def Until : Prog I α → Prop
  | ret _ => False
  | fail _ => True
  | call c k => P c ∧ ∀ w r w', O c w r w' → T (k r) w' ∨ (k r).Until

theorem Until.bind {p : Prog I β} {f : β → Prog I α} (hp : p.Calls P)
    (hf : ∀ b, (f b).Until O P T) : (p.bind f).Until O P T := by
  induction p with
  | ret b => exact hf b
  | fail e => trivial
  | call c k ih => exact ⟨hp.1, fun _ r _ _ => .inr (ih r (hp.2 r))⟩

end Until

section RelyGuarantee

variable (O : Outcomes I W) (R : W → W → Prop) (G : I.Call → W → Prop)

/-- Under interference `R` before each call and at the end, every call is made where `G` allows
it and the program ends with `Q`. -/
def Sat : Prog I α → (Except I.Fault α → W → Prop) → W → Prop
  | ret a, Q, w => ∀ w', R w w' → Q (.ok a) w'
  | fail e, Q, w => ∀ w', R w w' → Q (.error e) w'
  | call c k, Q, w => ∀ w', R w w' → G c w' ∧ ∀ r w'', O c w' r w'' → (k r).Sat Q w''

variable {O R G} {Q Q' : Except I.Fault α → W → Prop}

theorem Sat.mono {G' : I.Call → W → Prop} (hG : ∀ c w, G c w → G' c w)
    (hQ : ∀ r w, Q r w → Q' r w) {p : Prog I α} {w : W} (h : p.Sat O R G Q w) :
    p.Sat O R G' Q' w := by
  induction p generalizing w with
  | ret a => exact fun w' hw => hQ _ _ (h w' hw)
  | fail e => exact fun w' hw => hQ _ _ (h w' hw)
  | call c k ih =>
    exact fun w' hw => ⟨hG _ _ (h w' hw).1, fun r v hv => ih r ((h w' hw).2 r v hv)⟩

theorem Sat.and_calls {P : I.Call → Prop} {p : Prog I α} {w : W} (h : p.Sat O R G Q w)
    (hp : p.Calls P) : p.Sat O R (fun c w => P c ∧ G c w) Q w := by
  induction p generalizing w with
  | ret a => exact h
  | fail e => exact h
  | call c k ih =>
    exact fun w' hw => ⟨⟨hp.1, (h w' hw).1⟩, fun r v hv => ih r ((h w' hw).2 r v hv) (hp.2 r)⟩

theorem Sat.and_ends {E : α → Prop} {p : Prog I α} {w : W} (h : p.Sat O R G Q w) (hp : p.Ends E) :
    p.Sat O R G (fun r w => Q r w ∧ ∀ a, r = .ok a → E a) w := by
  induction p generalizing w with
  | ret a =>
    refine fun w' hw => ⟨h w' hw, fun b hb => ?_⟩
    cases hb
    exact hp
  | fail e => exact fun w' hw => ⟨h w' hw, fun b hb => by cases hb⟩
  | call c k ih => exact fun w' hw => ⟨(h w' hw).1, fun r v hv => ih r ((h w' hw).2 r v hv) (hp r)⟩

theorem Sat.rely {R' : W → W → Prop} (hR : ∀ w w', R' w w' → R w w') {p : Prog I α} {w : W}
    (h : p.Sat O R G Q w) : p.Sat O R' G Q w := by
  induction p generalizing w with
  | ret a => exact fun w' hw => h w' (hR w w' hw)
  | fail e => exact fun w' hw => h w' (hR w w' hw)
  | call c k ih =>
    exact fun w' hw => ⟨(h w' (hR w w' hw)).1, fun r v hv => ih r ((h w' (hR w w' hw)).2 r v hv)⟩

theorem Sat.stable [IsTrans W R] {p : Prog I α} {w w' : W} (h : p.Sat O R G Q w) (hw : R w w') :
    p.Sat O R G Q w' := by
  cases p with
  | ret a => exact fun v hv => h v (trans_of R hw hv)
  | fail e => exact fun v hv => h v (trans_of R hw hv)
  | call c k => exact fun v hv => h v (trans_of R hw hv)

theorem Sat.bind [Std.Refl R] {p : Prog I α} {f : α → Prog I β}
    {S : Except I.Fault β → W → Prop} {w : W} (hp : p.Sat O R G Q w)
    (hok : ∀ a w, Q (.ok a) w → (f a).Sat O R G S w)
    (herr : ∀ e w, Q (.error e) w → ∀ w', R w w' → S (.error e) w') :
    (p.bind f).Sat O R G S w := by
  induction p generalizing w with
  | ret a => exact hok a w (hp w (refl_of R w))
  | fail e => exact herr e w (hp w (refl_of R w))
  | call c k ih => exact fun w' hw => ⟨(hp w' hw).1, fun r v hv => ih r ((hp w' hw).2 r v hv)⟩

theorem Sat.attempt {S : Except I.Fault (Except I.Fault α) → W → Prop} {p : Prog I α} {w : W}
    (h : p.Sat O R G (fun r w => S (.ok r) w) w) : p.attempt.Sat O R G S w := by
  induction p generalizing w with
  | ret a => exact h
  | fail e => exact h
  | call c k ih => exact fun w' hw => ⟨(h w' hw).1, fun r v hv => ih r ((h w' hw).2 r v hv)⟩

theorem Sat.attempt_bind [Std.Refl R] {p : Prog I α} {f : Except I.Fault α → Prog I β}
    {S : Except I.Fault β → W → Prop} {w : W} (hp : p.Sat O R G Q w)
    (hf : ∀ r w, Q r w → (f r).Sat O R G S w) : (p.attempt.bind f).Sat O R G S w := by
  induction p generalizing w with
  | ret a => exact hf _ w (hp w (refl_of R w))
  | fail e => exact hf _ w (hp w (refl_of R w))
  | call c k ih => exact fun w' hw => ⟨(hp w' hw).1, fun r v hv => ih r ((hp w' hw).2 r v hv)⟩

theorem Sat.store_any {c : I.Call} {Q : Except I.Fault (I.Answer c) → W → Prop} {w : W}
    (h : ∀ w', R w w' → G c w' ∧ ∀ r v, O c w' r v → ∀ v', R v v' → Q r v') :
    (store c).Sat O R G Q w := by
  intro w' hw
  refine ⟨(h w' hw).1, fun r v hv => ?_⟩
  cases r with
  | ok a => exact (h w' hw).2 _ v hv
  | error e => exact (h w' hw).2 _ v hv

theorem Sat.store_bind {c : I.Call} {f : I.Answer c → Prog I α} {w : W}
    (h : ∀ w', R w w' → G c w' ∧ (∀ a v, O c w' (.ok a) v → (f a).Sat O R G Q v) ∧
      ∀ e v, O c w' (.error e) v → ∀ v', R v v' → Q (.error e) v') :
    ((store c).bind f).Sat O R G Q w := by
  intro w' hw
  obtain ⟨hG, hok, herr⟩ := h w' hw
  refine ⟨hG, fun r v hv => ?_⟩
  cases r with
  | ok a => exact hok a v hv
  | error e => exact herr e v hv

theorem Sat.store_faulty {m : Machine I W} {c : I.Call}
    {Q : Except I.Fault (I.Answer c) → W → Prop} {w : W}
    (h : ∀ w', R w w' → G c w' ∧ ∀ v, R (m c w').2 v → Q (.ok (m c w').1) v)
    (herr : ∀ e v, Q (.error e) v) : (store c).Sat m.faulty R G Q w := by
  intro w' hw
  refine ⟨(h w' hw).1, fun r w'' hout => ?_⟩
  obtain ⟨rfl, rfl⟩ | ⟨e, rfl, -⟩ := hout
  · exact (h w' hw).2
  · exact fun v _ => herr e v

theorem Sat.store_clean {m : Machine I W} {c : I.Call}
    {Q : Except I.Fault (I.Answer c) → W → Prop} {w : W}
    (h : ∀ w', R w w' → G c w' ∧ ∀ v, R (m c w').2 v → Q (.ok (m c w').1) v) :
    (store c).Sat m.clean R G Q w := by
  intro w' hw
  refine ⟨(h w' hw).1, fun r w'' hout => ?_⟩
  obtain ⟨rfl, rfl⟩ := hout
  exact (h w' hw).2

theorem Sat.invariant {P : I.Call → Prop} {J : W → Prop} (hJ : ∀ w w', J w → R w w' → J w')
    (hkeep : ∀ c w, P c → J w → G c w ∧ ∀ r w', O c w r w' → J w') {p : Prog I α}
    (hp : p.Calls P) {w : W} (hw : J w) : p.Sat O R G (fun _ w => J w) w := by
  induction p generalizing w with
  | ret a => exact fun w' hR => hJ w w' hw hR
  | fail e => exact fun w' hR => hJ w w' hw hR
  | call c k ih =>
    intro w' hR
    obtain ⟨hG, hnext⟩ := hkeep c w' hp.1 (hJ w w' hw hR)
    exact ⟨hG, fun r v hv => ih r (hp.2 r) (hnext r v hv)⟩

theorem Sat.of_calls {p : Prog I α} {w : W} (h : p.Calls fun c => ∀ w, G c w) :
    p.Sat O R G (fun _ _ => True) w := by
  induction p generalizing w with
  | ret a => exact fun _ _ => trivial
  | fail e => exact fun _ _ => trivial
  | call c k ih => exact fun w' _ => ⟨h.1 w', fun r _ _ => ih r (h.2 r)⟩

theorem Sat.attempt_ok {p : Prog I α} {w : W} (h : p.Calls fun c => ∀ w, G c w) :
    p.attempt.Sat O R G (fun r _ => ∃ a, r = .ok a) w :=
  .attempt ((Sat.of_calls h).mono (fun _ _ h => h) fun r _ _ => ⟨r, rfl⟩)

theorem Sat.after {p : Prog I α} {f : α → Prog I β} {S : Except I.Fault β → W → Prop}
    (hG : ∀ c w, G c w) (hf : ∀ a w, (f a).Sat O R G S w) (herr : ∀ e w, S (.error e) w) {w : W} :
    (p.bind f).Sat O R G S w := by
  induction p generalizing w with
  | ret a => exact hf a w
  | fail e => exact fun w' _ => herr e w'
  | call c k ih => exact fun w' _ => ⟨hG c w', fun r _ _ => ih r⟩

theorem Sat.foldlM_rest [Std.Refl R] {f : β → α → Prog I β} {J : List α → β → W → Prop}
    (hJ : ∀ xs b w w', J xs b w → R w w' → J xs b w') {xs : List α}
    (h : ∀ a rest b w, a :: rest <:+ xs → J (a :: rest) b w →
      (f b a).Sat O R G (fun r w => ∀ b', r = .ok b' → J rest b' w) w)
    {b : β} {w : W} (hb : J xs b w) :
    (xs.foldlM f b).Sat O R G (fun r w => ∀ b', r = .ok b' → J [] b' w) w := by
  induction xs generalizing b w with
  | nil =>
    intro w' hw b' hb'
    cases hb'
    exact hJ [] b w w' hb hw
  | cons a rest ih =>
    refine (h a rest b w List.suffix_rfl hb).bind (fun b' w' hb' => ?_) fun e w' _ v _ b' hb' => ?_
    · refine ih (fun a' rest' b w hsuf => h a' rest' b w ?_) (hb' b' rfl)
      exact hsuf.trans (List.suffix_cons a rest)
    · cases hb'

theorem Sat.foldlM [Std.Refl R] {f : β → α → Prog I β} {xs : List α} {J : β → W → Prop}
    (hJ : ∀ b w w', J b w → R w w' → J b w')
    (h : ∀ b, ∀ a ∈ xs, ∀ w, J b w → (f b a).Sat O R G (fun r w => ∀ b', r = .ok b' → J b' w) w)
    {b : β} {w : W} (hb : J b w) :
    (xs.foldlM f b).Sat O R G (fun r w => ∀ b', r = .ok b' → J b' w) w :=
  .foldlM_rest (J := fun _ => J) (fun _ => hJ)
    (fun a _ b w hsuf => h b a (hsuf.subset List.mem_cons_self) w) hb

theorem Sat.forM [Std.Refl R] {f : α → Prog I PUnit} {xs : List α} {J : W → Prop}
    (hJ : ∀ w w', J w → R w w' → J w')
    (h : ∀ a ∈ xs, ∀ w, J w → (f a).Sat O R G (fun r w => r = .ok () → J w) w) {w : W} (hw : J w) :
    (xs.forM f).Sat O R G (fun r w => r = .ok () → J w) w := by
  induction xs generalizing w with
  | nil => exact fun w' hR _ => hJ w w' hw hR
  | cons a rest ih =>
    refine (h a List.mem_cons_self w hw).bind (fun _ w' hw' => ?_) fun e w' _ v _ he => ?_
    · exact ih (fun a ha => h a (List.mem_cons_of_mem _ ha)) (hw' rfl)
    · cases he

theorem Sat.exec [Std.Refl R] {m : Machine I W} {p : Prog I α} {w : W}
    (h : p.Sat m.clean R G Q w) : Q (p.exec m w).1 (p.exec m w).2 := by
  induction p generalizing w with
  | ret a => exact h w (refl_of R w)
  | fail e => exact h w (refl_of R w)
  | call c k ih => exact ih _ ((h w (refl_of R w)).2 _ _ ⟨rfl, rfl⟩)

section Par

/-- Two programs side by side: what interferes with both interferes with each, and each bears the
calls of the other. -/
structure Abreast (O : Outcomes I W) (R R₁ R₂ : W → W → Prop) (G G₁ G₂ : I.Call → W → Prop) :
    Prop where
  left : ∀ w w', R w w' → R₁ w w'
  right : ∀ w w', R w w' → R₂ w w'
  callsLeft : ∀ c w, G₁ c w → G c w
  callsRight : ∀ c w, G₂ c w → G c w
  bearsLeft : ∀ c w r w', G₂ c w → O c w r w' → R₁ w w'
  bearsRight : ∀ c w r w', G₁ c w → O c w r w' → R₂ w w'

theorem Abreast.same (hbear : ∀ c w r w', G c w → O c w r w' → R w w') :
    Abreast O R R R G G G :=
  ⟨fun _ _ h => h, fun _ _ h => h, fun _ _ h => h, fun _ _ h => h, hbear, hbear⟩

variable {R₁ R₂ : W → W → Prop} {G₁ G₂ : I.Call → W → Prop} [IsTrans W R₁] {p : Prog I α}
  {q : Prog I β} {P : Except I.Fault α → W → Prop}
  {Q : Except I.Fault β → W → Prop} {S : Except I.Fault (α × β) → W → Prop} {w : W}

theorem Sat.pair_right (habreast : Abreast O R R₁ R₂ G G₁ G₂)
    (hok : ∀ a b w, P (.ok a) w → Q (.ok b) w → S (.ok (a, b)) w)
    (hright : ∀ e w, Q (.error e) w → S (.error e) w) {a : α}
    (ha : ∀ w', R₁ w w' → P (.ok a) w') (hq : q.Sat O R₂ G₂ Q w) :
    (q.bind fun b => ret (a, b)).Sat O R G S w := by
  induction q generalizing w with
  | ret b =>
    exact fun w' hw => hok a b w' (ha w' (habreast.left w w' hw)) (hq w' (habreast.right w w' hw))
  | fail e => exact fun w' hw => hright e w' (hq w' (habreast.right w w' hw))
  | call c k ih =>
    intro w' hw
    obtain ⟨hG, hk⟩ := hq w' (habreast.right w w' hw)
    refine ⟨habreast.callsRight c w' hG, fun r v hv => ih r (fun v' hv' => ha v' ?_) (hk r v hv)⟩
    exact trans_of R₁ (habreast.left w w' hw)
      (trans_of R₁ (habreast.bearsLeft c w' r v hG hv) hv')

variable [IsTrans W R₂]

theorem Sat.pair (habreast : Abreast O R R₁ R₂ G G₁ G₂)
    (hok : ∀ a b w, P (.ok a) w → Q (.ok b) w → S (.ok (a, b)) w)
    (hleft : ∀ e w, P (.error e) w → S (.error e) w)
    (hright : ∀ e w, Q (.error e) w → S (.error e) w)
    (hp : p.Sat O R₁ G₁ P w) (hq : q.Sat O R₂ G₂ Q w) :
    (p.bind fun a => q.bind fun b => ret (a, b)).Sat O R G S w := by
  induction p generalizing w with
  | ret a => exact .pair_right habreast hok hright hp hq
  | fail e => exact fun w' hw => hleft e w' (hp w' (habreast.left w w' hw))
  | call c k ih =>
    intro w' hw
    obtain ⟨hG, hk⟩ := hp w' (habreast.left w w' hw)
    refine ⟨habreast.callsLeft c w' hG, fun r v hv => ih r (hk r v hv) (hq.stable ?_)⟩
    exact trans_of R₂ (habreast.right w w' hw) (habreast.bearsRight c w' r v hG hv)

/-- Two programs in one process, each making only calls the other bears. -/
theorem Sat.par (sched : List Bool) (habreast : Abreast O R R₁ R₂ G G₁ G₂)
    (hok : ∀ a b w, P (.ok a) w → Q (.ok b) w → S (.ok (a, b)) w)
    (hleft : ∀ e w, P (.error e) w → S (.error e) w)
    (hright : ∀ e w, Q (.error e) w → S (.error e) w)
    (hp : p.Sat O R₁ G₁ P w) (hq : q.Sat O R₂ G₂ Q w) : (Prog.par sched p q).Sat O R G S w := by
  induction sched generalizing p q w with
  | nil => exact .pair habreast hok hleft hright hp hq
  | cons turn rest ih =>
    -- the side that moves follows its own judgement, the other one bears the move
    cases turn with
    | true =>
      cases p with
      | call c k =>
        intro w' hw
        obtain ⟨hG, hk⟩ := hp w' (habreast.left w w' hw)
        refine ⟨habreast.callsLeft c w' hG, fun r v hv => ih (hk r v hv) (hq.stable ?_)⟩
        exact trans_of R₂ (habreast.right w w' hw) (habreast.bearsRight c w' r v hG hv)
      | ret a => exact .pair habreast hok hleft hright hp hq
      | fail e => exact .pair habreast hok hleft hright hp hq
    | false =>
      cases q with
      | call c k =>
        have hmove : ∀ w', R w w' → G c w' ∧ ∀ r v, O c w' r v →
            (Prog.par rest p (k r)).Sat O R G S v := by
          intro w' hw
          obtain ⟨hG, hk⟩ := hq w' (habreast.right w w' hw)
          refine ⟨habreast.callsRight c w' hG, fun r v hv => ih (hp.stable ?_) (hk r v hv)⟩
          exact trans_of R₁ (habreast.left w w' hw) (habreast.bearsLeft c w' r v hG hv)
        cases p <;> exact hmove
      | ret b => cases p <;> exact .pair habreast hok hleft hright hp hq
      | fail e => cases p <;> exact .pair habreast hok hleft hright hp hq

/-- Programs side by side, each with a result that lasts: where all come to an end, all results
stand; what none of them fails with, all together do not. -/
theorem Sat.parAll {f : β → Prog I α} {R : β → W → W → Prop} {G : β → I.Call → W → Prop}
    {J : β → W → Prop} {E : I.Fault → Prop} [∀ x, Std.Refl (R x)] [∀ x, IsTrans W (R x)]
    (hJ : ∀ x w w', J x w → R x w w' → J x w') {xs : List β}
    (hbear : xs.Pairwise fun x y => (∀ c w r w', G x c w → O c w r w' → R y w w') ∧
      ∀ c w r w', G y c w → O c w r w' → R x w w')
    (h : ∀ x ∈ xs, (f x).Sat O (R x) (G x)
      (fun r w => (∀ a, r = .ok a → J x w) ∧ ∀ e, r = .error e → E e) w)
    (scheds : List (List Bool)) :
    (Prog.parAll scheds (xs.map f)).Sat O (fun w w' => ∀ x ∈ xs, R x w w')
      (fun c w => ∃ x ∈ xs, G x c w)
      (fun r w => (∀ as, r = .ok as → ∀ x ∈ xs, J x w) ∧ ∀ e, r = .error e → E e) w := by
  induction xs generalizing scheds with
  | nil => exact fun _ _ => ⟨nofun, nofun⟩
  | cons x rest ih =>
    obtain ⟨hhead, htail⟩ := List.pairwise_cons.mp hbear
    have hrest := ih htail (fun y hy => h y (List.mem_cons_of_mem x hy)) scheds.tail
    have hrefl : Std.Refl fun w w' => ∀ y ∈ x :: rest, R y w w' := ⟨fun w y _ => refl_of (R y) w⟩
    have htrans : IsTrans W fun w w' => ∀ y ∈ rest, R y w w' :=
      ⟨fun _ _ _ hab hbc y hy => trans_of (R y) (hab y hy) (hbc y hy)⟩
    have habreast : Abreast O (fun w w' => ∀ y ∈ x :: rest, R y w w') (R x)
        (fun w w' => ∀ y ∈ rest, R y w w') (fun c w => ∃ y ∈ x :: rest, G y c w) (G x)
        (fun c w => ∃ y ∈ rest, G y c w) := by
      refine ⟨fun w w' hw => hw x List.mem_cons_self,
        fun w w' hw y hy => hw y (List.mem_cons_of_mem x hy),
        fun c w hG => ⟨x, List.mem_cons_self, hG⟩,
        fun c w ⟨y, hy, hG⟩ => ⟨y, List.mem_cons_of_mem x hy, hG⟩, ?_, ?_⟩
      · rintro c w r w' ⟨y, hy, hG⟩ hO
        exact (hhead y hy).2 c w r w' hG hO
      · exact fun c w r w' hG hO y hy => (hhead y hy).1 c w r w' hG hO
    have hboth : (Prog.par (scheds.headD []) (f x) (Prog.parAll scheds.tail (rest.map f))).Sat
        O (fun w w' => ∀ y ∈ x :: rest, R y w w') (fun c w => ∃ y ∈ x :: rest, G y c w)
        (fun r w => (∀ a, r = .ok a → ∀ y ∈ x :: rest, J y w) ∧ ∀ e, r = .error e → E e) w := by
      refine .par _ habreast ?_ ?_ ?_ (h x List.mem_cons_self) hrest
      · refine fun a as v hx hall => ⟨fun _ _ y hy => ?_, nofun⟩
        obtain rfl | hy := List.mem_cons.mp hy
        · exact hx.1 a rfl
        · exact hall.1 as rfl y hy
      · exact fun e v he => ⟨nofun, fun e' he' => he.2 e' (congrArg _ (Except.error.inj he'))⟩
      · exact fun e v he => ⟨nofun, fun e' he' => he.2 e' (congrArg _ (Except.error.inj he'))⟩
    refine hboth.bind (fun a v hall v' hv => ⟨fun _ _ y hy => ?_, nofun⟩)
      fun e v he v' _ => ⟨nofun, fun e' he' => he.2 e' (congrArg _ (Except.error.inj he'))⟩
    exact hJ y v v' (hall.1 a rfl y hy) (hv y hy)

end Par

/-- What each process does is among what the others bear: then each keeps its judgement. -/
theorem Pool.Step.sat [DecidableEq ι] {R : ι → W → W → Prop} {G : ι → I.Call → W → Prop}
    {Q : (i : ι) → Except I.Fault (ρ i) → W → Prop} [∀ i, Std.Refl (R i)] [∀ i, IsTrans W (R i)]
    {s t : Pool I W ι ρ} {i : ι} {c : I.Call} (hs : Pool.Step O s i c t)
    (hsat : ∀ j, (s.procs j).Sat O (R j) (G j) (Q j) s.world)
    (hbear : ∀ j, j ≠ i → G i c s.world → R j s.world t.world) :
    G i c s.world ∧ ∀ j, (t.procs j).Sat O (R j) (G j) (Q j) t.world := by
  cases hs with
  | @mk k r w hcall hout =>
    have hi := hsat i
    rw [hcall] at hi
    obtain ⟨hG, hk⟩ := hi s.world (refl_of (R i) _)
    refine ⟨hG, fun j => ?_⟩
    by_cases hj : j = i
    · subst hj
      simpa using hk r w hout
    · simpa [Function.update_of_ne hj] using (hsat j).stable (hbear j hj hG)

/-- A run in which a process may also be stopped at any moment, with a program that `start` allows
put in its place. -/
inductive Pool.Lives [DecidableEq ι] (O : Outcomes I W) (start : (i : ι) → Prog I (ρ i) → Prop)
    (s : Pool I W ι ρ) : Pool I W ι ρ → Prop
  | refl : Lives O start s s
  | step {t u : Pool I W ι ρ} {i : ι} {c : I.Call} (h : Lives O start s t)
      (hs : Pool.Step O t i c u) : Lives O start s u
  | restart {t : Pool I W ι ρ} {i : ι} {p : Prog I (ρ i)} (h : Lives O start s t)
      (hp : start i p) : Lives O start s ⟨t.world, Function.update t.procs i p⟩

section Lives

variable [DecidableEq ι] {start : (i : ι) → Prog I (ρ i) → Prop} {s t u : Pool I W ι ρ}

theorem Pool.Lives.trans (h : Pool.Lives O start s t) (h' : Pool.Lives O start t u) :
    Pool.Lives O start s u := by
  induction h' with
  | refl => exact h
  | step _ hs ih => exact ih.step hs
  | restart _ hp ih => exact ih.restart hp

theorem Pool.Reach.lives {cond : Pool I W ι ρ → ι → I.Call → Prop} (h : Pool.Reach O cond s t) :
    Pool.Lives O start s t := by
  induction h with
  | refl => exact .refl
  | tail _ _ hs ih => exact ih.step hs

/-- Processes that each bear what the others do keep doing so through every restart, and nothing
happens to the state but what they bear. -/
theorem Pool.Lives.sat [Std.Refl R] [IsTrans W R]
    (hbear : ∀ c w r w', G c w → O c w r w' → R w w')
    (hstart : ∀ i p, start i p → ∀ w, p.Sat O R G (fun _ _ => True) w)
    (hs : ∀ i, (s.procs i).Sat O R G (fun _ _ => True) s.world) (h : Pool.Lives O start s t) :
    R s.world t.world ∧ ∀ i, (t.procs i).Sat O R G (fun _ _ => True) t.world := by
  induction h with
  | refl => exact ⟨refl_of R _, hs⟩
  | @step t u i c _ hstep ih =>
    obtain ⟨hR, hsat⟩ := ih
    have houtcome : G c t.world → R t.world u.world := by
      cases hstep with
      | mk _ hout => exact fun hG => hbear c _ _ _ hG hout
    obtain ⟨hG, hsat'⟩ := hstep.sat hsat fun _ _ => houtcome
    exact ⟨trans_of R hR (houtcome hG), hsat'⟩
  | @restart t i p _ hp ih =>
    obtain ⟨hR, hsat⟩ := ih
    refine ⟨hR, fun j => ?_⟩
    by_cases hj : j = i
    · subst hj
      simpa using hstart j p hp t.world
    · simpa [Function.update_of_ne hj] using hsat j

end Lives

end RelyGuarantee

end Prog
