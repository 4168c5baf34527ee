import Mathlib.Logic.Relation
import Mathlib.Order.Defs.Unbundled

/-! Programs that act only through calls on a shared state. A program is the tree of the calls it
makes, so one text has a sequential meaning, a meaning cut short at any call, and a meaning
under interference. -/

structure Interface where
  Call : Type
  Answer : Call → Type
  Fault : Type

/-- A program: done, failed, or a call and what follows each of its outcomes. -/
inductive Prog (I : Interface) (α : Type) : Type
  | ret (a : α) : Prog I α
  | fail (e : I.Fault) : Prog I α
  | call (c : I.Call) (k : Except I.Fault (I.Answer c) → Prog I α) : Prog I α

namespace Prog

variable {I : Interface} {α β γ : Type} {W : Type}

def bind : Prog I α → (α → Prog I β) → Prog I β
  | ret a, f => f a
  | fail e, _ => fail e
  | call c k, f => call c fun r => (k r).bind f

instance : Monad (Prog I) where
  pure := ret
  bind := bind

@[simp] theorem pure_eq (a : α) : (Pure.pure a : Prog I α) = ret a := rfl

@[simp] theorem bind_eq (p : Prog I α) (f : α → Prog I β) : p >>= f = p.bind f := rfl

@[simp] theorem ret_bind (a : α) (f : α → Prog I β) : (ret a).bind f = f a := rfl

@[simp] theorem fail_bind (e : I.Fault) (f : α → Prog I β) : (fail e).bind f = fail e := rfl

@[simp] theorem call_bind (c : I.Call) (k : Except I.Fault (I.Answer c) → Prog I α)
    (f : α → Prog I β) : (call c k).bind f = call c fun r => (k r).bind f := rfl

theorem bind_assoc (p : Prog I α) (f : α → Prog I β) (g : β → Prog I γ) :
    (p.bind f).bind g = p.bind fun a => (f a).bind g := by
  induction p with
  | ret a => rfl
  | fail e => rfl
  | call c k ih => simp only [call_bind, ih]

def store (c : I.Call) : Prog I (I.Answer c) :=
  call c fun
    | .ok a => ret a
    | .error e => fail e

def attempt : Prog I α → Prog I (Except I.Fault α)
  | ret a => ret (.ok a)
  | fail e => ret (.error e)
  | call c k => call c fun r => (k r).attempt

theorem attempt_attempt_bind (p : Prog I α) (f : Except I.Fault α → Prog I β) :
    (p.attempt.bind f).attempt = p.attempt.bind fun r => (f r).attempt := by
  induction p with
  | ret a => rfl
  | fail e => rfl
  | call c k ih => simp only [call_bind, attempt, ih]

theorem bind_eq_attempt_bind (p : Prog I α) (f : α → Prog I β) :
    p.bind f = p.attempt.bind fun
      | .ok a => f a
      | .error e => fail e := by
  induction p with
  | ret a => rfl
  | fail e => rfl
  | call c k ih => simp only [call_bind, attempt, ih]

def outcome : Prog I α → Option (Except I.Fault α)
  | ret a => some (.ok a)
  | fail e => some (.error e)
  | call _ _ => none

theorem outcome_eq_ok {p : Prog I α} {a : α} : p.outcome = some (.ok a) ↔ p = ret a := by
  cases p <;> simp [outcome]

def void (p : Prog I α) : Prog I Unit := p.bind fun _ => ret ()

/-- Two programs side by side in one process, the next call taken from the left on `true` and
from the right on `false`; past the schedule the left one goes first. -/
def par : List Bool → Prog I α → Prog I β → Prog I (α × β)
  | true :: rest, call c k, q => call c fun r => par rest (k r) q
  | false :: rest, p, call c k => call c fun r => par rest p (k r)
  | _, p, q => p.bind fun a => q.bind fun b => ret (a, b)

/-- Any number of programs side by side, each beside all that stand after it. -/
def parAll : List (List Bool) → List (Prog I α) → Prog I (List α)
  | _, [] => ret []
  | scheds, p :: rest =>
    (par (scheds.headD []) p (parAll scheds.tail rest)).bind fun r => ret (r.1 :: r.2)

abbrev Machine (I : Interface) (W : Type) : Type := (c : I.Call) → W → I.Answer c × W

section Sequential

variable (m : Machine I W)

def exec : Prog I α → W → Except I.Fault α × W
  | ret a, w => (.ok a, w)
  | fail e, w => (.error e, w)
  | call c k, w => (k (.ok (m c w).1)).exec (m c w).2

/-- The state after the first `n` calls, where a program that is cut short stops. -/
def cut : Nat → Prog I α → W → W
  | n + 1, call c k, w => cut n (k (.ok (m c w).1)) (m c w).2
  | _, _, w => w

@[simp] theorem exec_ret (a : α) (w : W) : (ret a).exec m w = (.ok a, w) := rfl

@[simp] theorem exec_fail (e : I.Fault) (w : W) : (fail e : Prog I α).exec m w = (.error e, w) :=
  rfl

@[simp] theorem exec_store (c : I.Call) (w : W) : (store c).exec m w = (.ok (m c w).1, (m c w).2) :=
  rfl

theorem exec_bind (p : Prog I α) (f : α → Prog I β) (w : W) :
    (p.bind f).exec m w =
      match p.exec m w with
      | (.ok a, w') => (f a).exec m w'
      | (.error e, w') => (.error e, w') := by
  induction p generalizing w with
  | ret a => rfl
  | fail e => rfl
  | call c k ih => exact ih _ _

theorem exec_attempt (p : Prog I α) (w : W) :
    p.attempt.exec m w = (.ok (p.exec m w).1, (p.exec m w).2) := by
  induction p generalizing w with
  | ret a => rfl
  | fail e => rfl
  | call c k ih => exact ih _ _

end Sequential

/-- Every call the program can make satisfies `P`, whatever the answers and failures. -/
def Calls (P : I.Call → Prop) : Prog I α → Prop
  | ret _ => True
  | fail _ => True
  | call c k => P c ∧ ∀ r, (k r).Calls P

namespace Calls

variable {P Q : I.Call → Prop}

theorem mono (h : ∀ c, P c → Q c) {p : Prog I α} (hp : p.Calls P) : p.Calls Q := by
  induction p with
  | ret a => trivial
  | fail e => trivial
  | call c k ih => exact ⟨h c hp.1, fun r => ih r (hp.2 r)⟩

theorem all {κ : Type} {P : κ → I.Call → Prop} {p : Prog I α} (h : ∀ x, p.Calls (P x)) :
    p.Calls fun c => ∀ x, P x c := by
  induction p with
  | ret a => trivial
  | fail e => trivial
  | call c k ih => exact ⟨fun x => (h x).1, fun r => ih r fun x => (h x).2 r⟩

theorem of_all (h : ∀ c, P c) (p : Prog I α) : p.Calls P := by
  induction p with
  | ret a => trivial
  | fail e => trivial
  | call c k ih => exact ⟨h c, ih⟩

theorem ret (a : α) : (Prog.ret a : Prog I α).Calls P := trivial

theorem fail (e : I.Fault) : (Prog.fail e : Prog I α).Calls P := trivial

theorem store {c : I.Call} (h : P c) : (Prog.store c).Calls P :=
  ⟨h, fun r => by cases r <;> trivial⟩

theorem of_bind {p : Prog I α} {f : α → Prog I β} (h : (p.bind f).Calls P) : p.Calls P := by
  induction p with
  | ret a => trivial
  | fail e => trivial
  | call c k ih => exact ⟨h.1, fun r => ih r (h.2 r)⟩

theorem bind {p : Prog I α} {f : α → Prog I β} (hp : p.Calls P) (hf : ∀ a, (f a).Calls P) :
    (p.bind f).Calls P := by
  induction p with
  | ret a => exact hf a
  | fail e => trivial
  | call c k ih => exact ⟨hp.1, fun r => ih r (hp.2 r)⟩

theorem attempt {p : Prog I α} (hp : p.Calls P) : p.attempt.Calls P := by
  induction p with
  | ret a => trivial
  | fail e => trivial
  | call c k ih => exact ⟨hp.1, fun r => ih r (hp.2 r)⟩

theorem void {p : Prog I α} (hp : p.Calls P) : p.void.Calls P :=
  bind hp fun _ => ret ()

theorem forM {f : α → Prog I PUnit} {xs : List α} (h : ∀ a ∈ xs, (f a).Calls P) :
    (xs.forM f).Calls P := by
  induction xs with
  | nil => trivial
  | cons a rest ih =>
    exact bind (h a List.mem_cons_self) fun _ => ih fun b hb => h b (List.mem_cons_of_mem a hb)

theorem foldlM {f : β → α → Prog I β} {xs : List α} (h : ∀ b, ∀ a ∈ xs, (f b a).Calls P) (b : β) :
    (xs.foldlM f b).Calls P := by
  induction xs generalizing b with
  | nil => trivial
  | cons a rest ih =>
    refine bind (h b a List.mem_cons_self) fun b' => ih (fun b' a' ha => ?_) b'
    exact h b' a' (List.mem_cons_of_mem a ha)

theorem par {p : Prog I α} {q : Prog I β} (sched : List Bool) (hp : p.Calls P) (hq : q.Calls P) :
    (Prog.par sched p q).Calls P := by
  induction sched generalizing p q with
  | nil => exact bind hp fun a => bind hq fun b => ret (a, b)
  | cons turn rest ih =>
    cases turn with
    | true =>
      cases p with
      | call c k => exact ⟨hp.1, fun r => ih (hp.2 r) hq⟩
      | ret a => exact bind hp fun a => bind hq fun b => ret (a, b)
      | fail e => exact bind hp fun a => bind hq fun b => ret (a, b)
    | false =>
      cases q with
      | call c k =>
        cases p <;> exact ⟨hq.1, fun r => ih hp (hq.2 r)⟩
      | ret b => cases p <;> exact bind hp fun a => bind hq fun b => ret (a, b)
      | fail e => cases p <;> exact bind hp fun a => bind hq fun b => ret (a, b)

theorem parAll {ps : List (Prog I α)} (scheds : List (List Bool)) (h : ∀ p ∈ ps, p.Calls P) :
    (Prog.parAll scheds ps).Calls P := by
  induction ps generalizing scheds with
  | nil => trivial
  | cons p rest ih =>
    refine bind (par _ (h p List.mem_cons_self) (ih _ fun q hq => ?_)) fun r => ret _
    exact h q (List.mem_cons_of_mem p hq)

end Calls

def Ends (Q : α → Prop) : Prog I α → Prop
  | ret a => Q a
  | fail _ => True
  | call _ k => ∀ r, (k r).Ends Q

theorem Ends.bind {Q : β → Prop} {p : Prog I α} {f : α → Prog I β} (hf : ∀ a, (f a).Ends Q) :
    (p.bind f).Ends Q := by
  induction p with
  | ret a => exact hf a
  | fail e => trivial
  | call c k ih => exact fun r => ih r

theorem Ends.attempt {Q : α → Prop} {p : Prog I α} (h : p.Ends Q) :
    p.attempt.Ends fun r => ∀ a, r = .ok a → Q a := by
  induction p with
  | ret a =>
    rintro _ ⟨⟩
    exact h
  | fail e => exact fun a ha => nomatch ha
  | call c k ih => exact fun r => ih r (h r)

theorem Ends.seq {P : α → Prop} {Q : β → Prop} {p : Prog I α} {f : α → Prog I β} (hp : p.Ends P)
    (hf : ∀ a, P a → (f a).Ends Q) : (p.bind f).Ends Q := by
  induction p with
  | ret a => exact hf a hp
  | fail e => trivial
  | call c k ih => exact fun r => ih r (hp r)

theorem Ends.foldlM {Q : β → Prop} {f : β → α → Prog I β} {xs : List α}
    (h : ∀ b, ∀ a ∈ xs, Q b → (f b a).Ends Q) {b : β} (hb : Q b) : (xs.foldlM f b).Ends Q := by
  induction xs generalizing b with
  | nil => exact hb
  | cons a rest ih =>
    rw [List.foldlM_cons]
    refine Ends.seq (h b a List.mem_cons_self hb) fun b' hb' => ?_
    exact ih (fun b a ha => h b a (List.mem_cons_of_mem _ ha)) hb'

theorem Calls.bind_ends {P : I.Call → Prop} {E : α → Prop} {p : Prog I α} {f : α → Prog I β}
    (hp : p.Calls P) (he : p.Ends E) (hf : ∀ a, E a → (f a).Calls P) : (p.bind f).Calls P := by
  induction p with
  | ret a => exact hf a he
  | fail e => trivial
  | call c k ih => exact ⟨hp.1, fun r => ih r (hp.2 r) (he r)⟩

def CallsThen (P : (c : I.Call) → (Except I.Fault (I.Answer c) → Prog I α) → Prop) :
    Prog I α → Prop
  | ret _ => True
  | fail _ => True
  | call c k => P c k ∧ ∀ r, (k r).CallsThen P

namespace CallsThen

variable {P : (c : I.Call) → (Except I.Fault (I.Answer c) → Prog I β) → Prop}

theorem of_calls {p : Prog I β} (h : p.Calls fun c => ∀ k, P c k) : p.CallsThen P := by
  induction p with
  | ret a => trivial
  | fail e => trivial
  | call c k ih => exact ⟨h.1 k, fun r => ih r (h.2 r)⟩

theorem bind {p : Prog I α} {f : α → Prog I β} (hp : p.Calls fun c => ∀ k, P c k)
    (hf : ∀ a, (f a).CallsThen P) : (p.bind f).CallsThen P := by
  induction p with
  | ret a => exact hf a
  | fail e => trivial
  | call c k ih => exact ⟨hp.1 _, fun r => ih r (hp.2 r)⟩

end CallsThen

end Prog
