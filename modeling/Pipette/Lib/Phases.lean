import Pipette.Lib.Result

/-! Work done in phases. The tasks of a phase run side by side, each a list of calls made in order,
and the next phase starts when all of them are done. The work may stop after any call. -/
namespace Phases

variable {C S X : Type}

inductive Step (call : C → S → Option S) : List (List C) → S → List (List C) → S → Prop
  | mk (before after : List (List C)) {c : C} {rest : List C} {s s' : S} (h : call c s = some s') :
    Step call (before ++ (c :: rest) :: after) s (before ++ rest :: after) s'

inductive Reaches (call : C → S → Option S) (tasks : List (List C)) (s : S) :
    List (List C) → S → Prop
  | refl : Reaches call tasks s tasks s
  | tail {left left' : List (List C)} {t t' : S} (h : Reaches call tasks s left t)
      (hstep : Step call left t left' t') : Reaches call tasks s left' t'

def Done (left : List (List C)) : Prop := ∀ task ∈ left, task = []

/-- The states that a list of phases passes through, with whether all of it is done. -/
inductive Runs (call : C → S → Option S) : List (List (List C)) → S → S → Bool → Prop
  | finished {s : S} : Runs call [] s s true
  | stopped {tasks left : List (List C)} {phases : List (List (List C))} {s t : S}
      (h : Reaches call tasks s left t) : Runs call (tasks :: phases) s t false
  | next {tasks left : List (List C)} {phases : List (List (List C))} {s t u : S} {done : Bool}
      (h : Reaches call tasks s left t) (hdone : Done left) (hrest : Runs call phases t u done) :
      Runs call (tasks :: phases) s u done

variable {call : C → S → Option S}

theorem forall₂_imp_mem {α β : Type} {R R' : α → β → Prop} {l : List α} {l' : List β}
    (h : List.Forall₂ R l l') (himp : ∀ a ∈ l, ∀ b, R a b → R' a b) : List.Forall₂ R' l l' := by
  induction h with
  | nil => exact .nil
  | cons hab _ ih =>
    simp only [List.mem_cons, forall_eq_or_imp] at himp
    exact .cons (himp.1 _ hab) (ih himp.2)

/-- The rule of a phase. `At x left s` says where task `x` stands when `left` is left of it. A call
moves its own task on, and disturbs neither a task apart from it nor what holds of the whole. -/
theorem Reaches.tasks_at (At : X → List C → S → Prop) (Whole : S → Prop) (Apart : X → X → Prop)
    (hsymm : ∀ x y, Apart x y → Apart y x)
    (hcall : ∀ x c rest s s', At x (c :: rest) s → Whole s → call c s = some s' →
      At x rest s' ∧ Whole s' ∧ ∀ y left, Apart x y → At y left s → At y left s')
    {xs : List X} (hxs : xs.Pairwise Apart) {tasks left : List (List C)} {s t : S}
    (hat : List.Forall₂ (fun x task => At x task s) xs tasks) (hwhole : Whole s)
    (h : Reaches call tasks s left t) :
    List.Forall₂ (fun x task => At x task t) xs left ∧ Whole t := by
  induction h with
  | refl => exact ⟨hat, hwhole⟩
  | tail _ hstep ih =>
    obtain ⟨hat, hwhole⟩ := ih
    obtain ⟨before, after, hc⟩ := hstep
    -- the items split where the call was made
    have hbefore := List.forall₂_take_append _ _ _ hat
    have hrest := List.forall₂_drop_append _ _ _ hat
    rw [← List.take_append_drop before.length xs] at hxs ⊢
    generalize xs.take before.length = xsBefore at hbefore hxs ⊢
    generalize xs.drop before.length = xsRest at hrest hxs ⊢
    obtain ⟨x, xsAfter, hx, hafter, rfl⟩ := List.forall₂_cons_right_iff.mp hrest
    obtain ⟨hown, hwhole', hothers⟩ := hcall x _ _ _ _ hx hwhole hc
    obtain ⟨-, hxsRest, hcross⟩ := List.pairwise_append.mp hxs
    obtain ⟨hxsAfter, -⟩ := List.pairwise_cons.mp hxsRest
    refine ⟨?_, hwhole'⟩
    apply List.rel_append
    · refine forall₂_imp_mem hbefore ?_
      intro y hy task htask
      apply hothers y task (hsymm y x (hcross y hy x List.mem_cons_self)) htask
    · refine .cons hown (forall₂_imp_mem hafter ?_)
      intro y hy task htask
      apply hothers y task (hxsAfter y hy) htask

theorem Reaches.singles {c : X → C} (Had : X → S → Prop) (Whole : S → Prop)
    (Apart : X → X → Prop) (hsymm : ∀ x y, Apart x y → Apart y x) {xs : List X}
    (hxs : xs.Pairwise Apart)
    (hcall : ∀ x ∈ xs, ∀ s s', Whole s → call (c x) s = some s' →
      Had x s' ∧ Whole s' ∧ ∀ y, Apart x y → Had y s → Had y s')
    {left : List (List C)} {s t : S} (hwhole : Whole s)
    (h : Reaches call (xs.map fun x => [c x]) s left t) :
    Whole t ∧ (Done left → ∀ x ∈ xs, Had x t) := by
  have hat := Reaches.tasks_at (fun x left s => x ∈ xs ∧ (left = [c x] ∨ left = [] ∧ Had x s)) Whole
    Apart hsymm ?_ hxs ?_ hwhole h
  · refine ⟨hat.2, ?_⟩
    intro hdone x hx
    obtain ⟨task, htask, -, hhad⟩ := Result.forall₂_mem hat.1 x hx
    simpa [hdone task htask] using hhad
  · rintro x c' rest s s' ⟨hx, hleft⟩ hwhole hc
    obtain ⟨rfl, rfl⟩ : c' = c x ∧ rest = [] := by simpa using hleft
    obtain ⟨hhad, hwhole', hothers⟩ := hcall x hx s s' hwhole hc
    refine ⟨⟨hx, .inr ⟨rfl, hhad⟩⟩, hwhole', ?_⟩
    rintro y left hapart ⟨hy, hleft | ⟨rfl, hhad⟩⟩
    · exact ⟨hy, .inl hleft⟩
    · exact ⟨hy, .inr ⟨rfl, hothers y hapart hhad⟩⟩
  · rw [List.forall₂_map_right_iff]
    apply List.forall₂_same.mpr
    intro x hx
    exact ⟨hx, .inl rfl⟩

theorem Reaches.exists_done (At : X → List C → S → Prop) (Whole : S → Prop) (Apart : X → X → Prop)
    (hsymm : ∀ x y, Apart x y → Apart y x)
    (hcall : ∀ x c rest s s', At x (c :: rest) s → Whole s → call c s = some s' →
      At x rest s' ∧ Whole s' ∧ ∀ y left, Apart x y → At y left s → At y left s')
    (hable : ∀ x c rest s, At x (c :: rest) s → Whole s → ∃ s', call c s = some s')
    {xs : List X} (hxs : xs.Pairwise Apart) {tasks : List (List C)} {s : S}
    (hat : List.Forall₂ (fun x task => At x task s) xs tasks) (hwhole : Whole s) :
    ∃ left t, Reaches call tasks s left t ∧ Done left := by
  -- by the number of calls left, from any point of the phase
  have hfrom : ∀ n left t, left.flatten.length = n → Reaches call tasks s left t →
      ∃ left' t', Reaches call tasks s left' t' ∧ Done left' := by
    intro n
    induction n with
    | zero =>
      intro left t hlength h
      refine ⟨left, t, h, ?_⟩
      simpa [Done] using List.length_eq_zero_iff.mp hlength
    | succ n ih =>
      intro left t hlength h
      obtain ⟨hat, hwhole⟩ := h.tasks_at At Whole Apart hsymm hcall hxs hat hwhole
      by_cases hdone : Done left
      · exact ⟨left, t, h, hdone⟩
      · simp only [Done, not_forall] at hdone
        obtain ⟨task, htask, hne⟩ := hdone
        obtain ⟨c, rest, rfl⟩ := List.exists_cons_of_ne_nil hne
        obtain ⟨x, -, hx⟩ := Result.forall₂_mem hat.flip _ htask
        obtain ⟨t', hc⟩ := hable x c rest t hx hwhole
        obtain ⟨before, after, rfl⟩ := List.append_of_mem htask
        apply ih (before ++ rest :: after) t' _ (.tail h (.mk before after hc))
        simp at hlength ⊢
        omega
  exact hfrom _ tasks s rfl .refl

theorem Reaches.exists_done_singles {c : X → C} {xs : List X} (s : S)
    (hable : ∀ x ∈ xs, ∀ s, ∃ s', call (c x) s = some s') :
    ∃ left t, Reaches call (xs.map fun x => [c x]) s left t ∧ Done left := by
  have hat : List.Forall₂ (fun x left => x ∈ xs ∧ (left = [c x] ∨ left = [])) xs
      (xs.map fun x => [c x]) := by
    rw [List.forall₂_map_right_iff]
    apply List.forall₂_same.mpr
    intro x hx
    exact ⟨hx, .inl rfl⟩
  refine Reaches.exists_done (fun x left _ => x ∈ xs ∧ (left = [c x] ∨ left = []))
    (fun _ => True) (fun _ _ => True) ?_ ?_ ?_ (List.pairwise_of_forall fun _ _ => trivial) hat trivial
  · simp
  · rintro x c' rest s s' ⟨hx, hleft⟩ - -
    refine ⟨⟨hx, by simp_all⟩, trivial, ?_⟩
    intro y left _ hleft
    exact hleft
  · rintro x c' rest s ⟨hx, hleft⟩ -
    obtain ⟨rfl, -⟩ : c' = c x ∧ rest = [] := by simpa using hleft
    exact hable x hx s

end Phases
