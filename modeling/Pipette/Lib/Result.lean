import Mathlib.Data.List.Forall2

/-! Computations that fail: what a successful sequence or traversal went through. -/
namespace Result

variable {α β ε : Type}

theorem bind_eq_ok {x : Except ε α} {f : α → Except ε β} {b : β} (h : x >>= f = .ok b) :
    ∃ a, x = .ok a ∧ f a = .ok b := by
  cases x with
  | error e => cases h
  | ok a => exact ⟨a, rfl, h⟩

theorem map_eq_ok {x : Except ε α} {f : α → β} {b : β} (h : x.map f = .ok b) :
    ∃ a, x = .ok a ∧ f a = b := by
  cases x with
  | error e => cases h
  | ok a => exact ⟨a, rfl, Except.ok.inj h⟩

theorem mapError_eq_ok {ε' : Type} {x : Except ε α} {f : ε → ε'} {a : α}
    (h : x.mapError f = .ok a) : x = .ok a := by
  cases x with
  | error e => cases h
  | ok b =>
    cases h
    rfl

theorem forall₂_of_mapM {f : α → Except ε β} {xs : List α} {ys : List β}
    (h : xs.mapM f = .ok ys) : List.Forall₂ (fun x y => f x = .ok y) xs ys := by
  induction xs generalizing ys with
  | nil =>
    cases h
    exact .nil
  | cons x xs ih =>
    rw [List.mapM_cons] at h
    obtain ⟨y, hy, h⟩ := bind_eq_ok h
    obtain ⟨ys, hys, h⟩ := bind_eq_ok h
    cases h
    exact .cons hy (ih hys)

theorem forall₂_mem {R : α → β → Prop} {l : List α} {l' : List β}
    (h : List.Forall₂ R l l') : ∀ a ∈ l, ∃ b ∈ l', R a b := by
  induction h with
  | nil => simp
  | cons hab _ ih =>
    intro a ha
    obtain rfl | ha := List.mem_cons.mp ha
    · exact ⟨_, List.mem_cons_self, hab⟩
    · obtain ⟨b, hb, hr⟩ := ih a ha
      exact ⟨b, List.mem_cons_of_mem _ hb, hr⟩

theorem mapM_mem {f : α → Except ε β} {xs : List α} {ys : List β} (h : xs.mapM f = .ok ys)
    {x : α} (hx : x ∈ xs) : ∃ y ∈ ys, f x = .ok y :=
  forall₂_mem (forall₂_of_mapM h) x hx

theorem mem_mapM {f : α → Except ε β} {xs : List α} {ys : List β} (h : xs.mapM f = .ok ys)
    {y : β} (hy : y ∈ ys) : ∃ x ∈ xs, f x = .ok y :=
  forall₂_mem (forall₂_of_mapM h).flip y hy

theorem toOption_guard_congr {g g' : Except ε Unit} {k k' : Except ε α}
    (hg : g = .ok () ↔ g' = .ok ()) (hk : g = .ok () → k.toOption = k'.toOption) :
    (g >>= fun _ => k).toOption = (g' >>= fun _ => k').toOption := by
  cases g with
  | error e =>
    cases g' with
    | error e' => rfl
    | ok u => cases hg.mpr rfl
  | ok u =>
    rw [hg.mp rfl]
    exact hk rfl

theorem exists_of_isOk {x : Except ε α} (h : x.isOk = true) : ∃ a, x = .ok a := by
  cases x with
  | error e => cases h
  | ok a => exact ⟨a, rfl⟩

theorem isOk_mapM (f : α → Except ε β) (xs : List α) :
    (xs.mapM f).isOk = xs.all fun x => (f x).isOk := by
  induction xs with
  | nil => rfl
  | cons x rest ih =>
    rw [List.mapM_cons, List.all_cons, ← ih]
    cases f x with
    | error e => rfl
    | ok y => cases rest.mapM f <;> rfl

theorem mapM_perm {f : α → Except ε β} {xs xs' : List α} {ys : List β} (hp : xs.Perm xs')
    (h : xs.mapM f = .ok ys) : ∃ ys', xs'.mapM f = .ok ys' ∧ ys.Perm ys' := by
  induction hp generalizing ys with
  | nil => exact ⟨ys, h, .refl _⟩
  | cons x _ ih =>
    rw [List.mapM_cons] at h
    obtain ⟨y, hy, h⟩ := bind_eq_ok h
    obtain ⟨rest, hrest, h⟩ := bind_eq_ok h
    cases h
    obtain ⟨rest', hrest', hperm⟩ := ih hrest
    exact ⟨y :: rest', by rw [List.mapM_cons, hy, hrest']; rfl, hperm.cons y⟩
  | swap x x' l =>
    rw [List.mapM_cons, List.mapM_cons] at h
    obtain ⟨y', hy', h⟩ := bind_eq_ok h
    obtain ⟨rest, hrest, h⟩ := bind_eq_ok h
    obtain ⟨y, hy, hrest⟩ := bind_eq_ok hrest
    obtain ⟨rest, hl, hrest⟩ := bind_eq_ok hrest
    cases hrest
    cases h
    exact ⟨y :: y' :: rest, by rw [List.mapM_cons, List.mapM_cons, hy, hy', hl]; rfl, .swap _ _ _⟩
  | trans _ _ ih ih' =>
    obtain ⟨mid, hmid, hperm⟩ := ih h
    obtain ⟨ys', hys', hperm'⟩ := ih' hmid
    exact ⟨ys', hys', hperm.trans hperm'⟩

theorem mapM_agree {f g : α → Except ε β} {xs : List α} {ys : List β} (hf : xs.mapM f = .ok ys)
    (hg : xs.mapM g = .ok ys) {x : α} (hx : x ∈ xs) : f x = g x := by
  have hzip := forall₂_of_mapM hf
  have hzip' := forall₂_of_mapM hg
  clear hf hg
  induction hzip with
  | nil => cases hx
  | cons hy _ ih =>
    cases hzip' with
    | cons hy' hrest =>
      obtain rfl | hx := List.mem_cons.mp hx
      · rw [hy, hy']
      · exact ih hx hrest

end Result
