import Mathlib.Data.List.Basic

/-! The total of a weight over a list. -/
namespace Total

variable {α β : Type}

def total (f : α → Nat) (l : List α) : Nat := l.foldr (fun x sum => f x + sum) 0

variable {f g : α → Nat}

@[simp] theorem total_nil : total f [] = 0 := rfl

@[simp] theorem total_cons (x : α) (l : List α) : total f (x :: l) = f x + total f l := rfl

theorem total_append (l l' : List α) : total f (l ++ l') = total f l + total f l' := by
  induction l with
  | nil => simp
  | cons x rest ih => simp [ih, Nat.add_assoc]

theorem total_perm {l l' : List α} (h : l.Perm l') : total f l = total f l' := by
  induction h with
  | nil => rfl
  | cons x _ ih => rw [total_cons, total_cons, ih]
  | swap x y l => simp only [total_cons, Nat.add_left_comm]
  | trans _ _ ih ih' => exact ih.trans ih'

theorem total_map (h : β → α) (l : List β) : total f (l.map h) = total (fun x => f (h x)) l := by
  induction l with
  | nil => rfl
  | cons x rest ih => simp [ih]

theorem total_flatMap (h : β → List α) (l : List β) :
    total f (l.flatMap h) = total (fun x => total f (h x)) l := by
  induction l with
  | nil => rfl
  | cons x rest ih => rw [List.flatMap_cons, total_append, ih, total_cons]

theorem length_eq_total (l : List α) : l.length = total (fun _ => 1) l := by
  induction l with
  | nil => rfl
  | cons x rest ih => rw [List.length_cons, total_cons, ih, Nat.add_comm]

theorem total_mul (n : Nat) (l : List α) : total (fun x => n * f x) l = n * total f l := by
  induction l with
  | nil => rfl
  | cons x rest ih => rw [total_cons, total_cons, ih, Nat.mul_add]

theorem total_const (n : Nat) (l : List α) : total (fun _ => n) l = l.length * n := by
  induction l with
  | nil => simp
  | cons x rest ih => rw [total_cons, ih, List.length_cons, Nat.succ_mul, Nat.add_comm]

theorem total_filter (p : α → Bool) (l : List α) :
    total f (l.filter p) = total (fun x => if p x then f x else 0) l := by
  induction l with
  | nil => rfl
  | cons x rest ih => cases hx : p x <;> simp [hx, ih]

end Total
