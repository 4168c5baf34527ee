import Pipette.Lib.Prog

/-! A program that runs alone, judged at each of its calls and at its end. -/
namespace Prog

variable {I : Interface} {W α β : Type} (m : Machine I W) (G : I.Call → W → Prop)

/-- Every call is made where `G` allows it, and the program ends with `Q`. -/
def Alone : Prog I α → (Except I.Fault α → W → Prop) → W → Prop
  | ret a, Q, w => Q (.ok a) w
  | fail e, Q, w => Q (.error e) w
  | call c k, Q, w => G c w ∧ (k (.ok (m c w).1)).Alone Q (m c w).2

variable {m G} {Q Q' : Except I.Fault α → W → Prop}

namespace Alone

theorem mono {G' : I.Call → W → Prop} (hG : ∀ c w, G c w → G' c w)
    (hQ : ∀ r w, Q r w → Q' r w) {p : Prog I α} {w : W} (h : p.Alone m G Q w) :
    p.Alone m G' Q' w := by
  induction p generalizing w with
  | ret a => exact hQ _ _ h
  | fail e => exact hQ _ _ h
  | call c k ih => exact ⟨hG _ _ h.1, ih _ h.2⟩

theorem post (hQ : ∀ r w, Q r w → Q' r w) {p : Prog I α} {w : W} (h : p.Alone m G Q w) :
    p.Alone m G Q' w :=
  h.mono (fun _ _ h => h) hQ

theorem bind {p : Prog I α} {f : α → Prog I β} {S : Except I.Fault β → W → Prop} {w : W}
    (hp : p.Alone m G Q w) (hok : ∀ a w, Q (.ok a) w → (f a).Alone m G S w)
    (herr : ∀ e w, Q (.error e) w → S (.error e) w) : (p.bind f).Alone m G S w := by
  induction p generalizing w with
  | ret a => exact hok a w hp
  | fail e => exact herr e w hp
  | call c k ih => exact ⟨hp.1, ih _ hp.2⟩

theorem attempt_bind {p : Prog I α} {f : Except I.Fault α → Prog I β}
    {S : Except I.Fault β → W → Prop} {w : W} (hp : p.Alone m G Q w)
    (hf : ∀ r w, Q r w → (f r).Alone m G S w) : (p.attempt.bind f).Alone m G S w := by
  induction p generalizing w with
  | ret a => exact hf _ w hp
  | fail e => exact hf _ w hp
  | call c k ih => exact ⟨hp.1, ih _ hp.2⟩

theorem store {c : I.Call} {Q : Except I.Fault (I.Answer c) → W → Prop} {w : W} (hG : G c w)
    (hQ : Q (.ok (m c w).1) (m c w).2) : (Prog.store c).Alone m G Q w :=
  ⟨hG, hQ⟩

theorem store_bind {c : I.Call} {f : I.Answer c → Prog I β} {S : Except I.Fault β → W → Prop}
    {w : W} (hG : G c w) (h : (f (m c w).1).Alone m G S (m c w).2) :
    ((Prog.store c).bind f).Alone m G S w :=
  ⟨hG, h⟩

theorem and {G' : I.Call → W → Prop} {p : Prog I α} {w : W} (h : p.Alone m G Q w)
    (h' : p.Alone m G' Q' w) :
    p.Alone m (fun c w => G c w ∧ G' c w) (fun r w => Q r w ∧ Q' r w) w := by
  induction p generalizing w with
  | ret a => exact ⟨h, h'⟩
  | fail e => exact ⟨h, h'⟩
  | call c k ih => exact ⟨⟨h.1, h'.1⟩, ih _ h.2 h'.2⟩

theorem keep {J : W → Prop} (hkeep : ∀ c w, G c w → J w → J (m c w).2) {p : Prog I α} {w : W}
    (h : p.Alone m G Q w) (hw : J w) :
    p.Alone m (fun c w => G c w ∧ J w) (fun r w => Q r w ∧ J w) w := by
  induction p generalizing w with
  | ret a => exact ⟨h, hw⟩
  | fail e => exact ⟨h, hw⟩
  | call c k ih => exact ⟨⟨h.1, hw⟩, ih _ h.2 (hkeep _ _ h.1 hw)⟩

theorem of_calls {P : I.Call → Prop} {p : Prog I α} {w : W} (hp : p.Calls P) :
    p.Alone m (fun c _ => P c) (fun _ _ => True) w := by
  induction p generalizing w with
  | ret a => trivial
  | fail e => trivial
  | call c k ih => exact ⟨hp.1, ih _ (hp.2 _)⟩

theorem invariant {P : I.Call → Prop} {J : W → Prop}
    (hkeep : ∀ c w, P c → J w → J (m c w).2) {p : Prog I α} {w : W} (hp : p.Calls P)
    (hw : J w) : p.Alone m (fun c w => P c ∧ J w) (fun _ w => J w) w :=
  ((of_calls hp).keep hkeep hw).post fun _ _ h => h.2

theorem foldlM_rest {f : β → α → Prog I β} {J : List α → β → W → Prop}
    {S : Except I.Fault β → W → Prop} {xs : List α}
    (h : ∀ a rest b w, a :: rest <:+ xs → J (a :: rest) b w →
      (f b a).Alone m G (fun r w => (∀ b', r = .ok b' → J rest b' w) ∧
        ∀ e, r = .error e → S (.error e) w) w)
    (hdone : ∀ b w, J [] b w → S (.ok b) w) {b : β} {w : W} (hb : J xs b w) :
    (xs.foldlM f b).Alone m G S w := by
  induction xs generalizing b w with
  | nil => exact hdone b w hb
  | cons a rest ih =>
    refine (h a rest b w List.suffix_rfl hb).bind (fun b' w' hb' => ?_) fun e w' he => he.2 e rfl
    refine ih (fun a' rest' b w hsuf => h a' rest' b w ?_) (hb'.1 b' rfl)
    exact hsuf.trans (List.suffix_cons a rest)

theorem forM_rest {f : α → Prog I PUnit} {J : List α → W → Prop}
    {S : Except I.Fault PUnit → W → Prop} {xs : List α}
    (h : ∀ a rest w, a :: rest <:+ xs → J (a :: rest) w →
      (f a).Alone m G (fun r w => (r = .ok () → J rest w) ∧ ∀ e, r = .error e → S (.error e) w) w)
    (hdone : ∀ w, J [] w → S (.ok ()) w) {w : W} (hw : J xs w) :
    (xs.forM f).Alone m G S w := by
  induction xs generalizing w with
  | nil => exact hdone w hw
  | cons a rest ih =>
    refine (h a rest w List.suffix_rfl hw).bind (fun _ w' hw' => ?_) fun e w' he => he.2 e rfl
    refine ih (fun a' rest' w hsuf => h a' rest' w ?_) (hw'.1 rfl)
    exact hsuf.trans (List.suffix_cons a rest)

theorem exec {p : Prog I α} {w : W} (h : p.Alone m G Q w) : Q (p.exec m w).1 (p.exec m w).2 := by
  induction p generalizing w with
  | ret a => exact h
  | fail e => exact h
  | call c k ih => exact ih _ h.2

theorem of_exec {p : Prog I α} {w : W} (h : Q (p.exec m w).1 (p.exec m w).2) :
    p.Alone m (fun _ _ => True) Q w := by
  induction p generalizing w with
  | ret a => exact h
  | fail e => exact h
  | call c k ih => exact ⟨trivial, ih _ h⟩

end Alone

/-- Run alone, the program comes to a result, and `Q` holds of it and of the state it leaves. -/
def Lands (m : Machine I W) (p : Prog I α) (Q : α → W → Prop) (w : W) : Prop :=
  ∃ a w', p.exec m w = (.ok a, w') ∧ Q a w'

namespace Lands

variable {Q Q' : α → W → Prop} {S : β → W → Prop} {p : Prog I α} {w : W}

theorem alone (h : p.Lands m Q w) :
    p.Alone m (fun _ _ => True) (fun r w => ∃ a, r = .ok a ∧ Q a w) w := by
  obtain ⟨a, w', hexec, hpost⟩ := h
  refine .of_exec ?_
  rw [hexec]
  exact ⟨a, rfl, hpost⟩

theorem mono (hQ : ∀ a w, Q a w → Q' a w) (h : p.Lands m Q w) : p.Lands m Q' w := by
  obtain ⟨a, w', hexec, hpost⟩ := h
  exact ⟨a, w', hexec, hQ a w' hpost⟩

theorem ret {a : α} (h : Q a w) : (Prog.ret a).Lands m Q w :=
  ⟨a, w, rfl, h⟩

theorem store {c : I.Call} {Q : I.Answer c → W → Prop} (h : Q (m c w).1 (m c w).2) :
    (Prog.store c).Lands m Q w :=
  ⟨_, _, rfl, h⟩

theorem bind {f : α → Prog I β} (h : p.Lands m Q w) (hf : ∀ a w, Q a w → (f a).Lands m S w) :
    (p.bind f).Lands m S w := by
  obtain ⟨a, w', hexec, hpost⟩ := h
  obtain ⟨b, w'', hexec', hpost'⟩ := hf a w' hpost
  refine ⟨b, w'', ?_, hpost'⟩
  rw [exec_bind, hexec]
  exact hexec'

theorem store_bind {c : I.Call} {f : I.Answer c → Prog I β}
    (h : (f (m c w).1).Lands m S (m c w).2) : ((Prog.store c).bind f).Lands m S w :=
  h

theorem attempt_bind {f : Except I.Fault α → Prog I β} (h : p.Lands m Q w)
    (hf : ∀ a w, Q a w → (f (.ok a)).Lands m S w) : (p.attempt.bind f).Lands m S w := by
  obtain ⟨a, w', hexec, hpost⟩ := h
  obtain ⟨b, w'', hexec', hpost'⟩ := hf a w' hpost
  refine ⟨b, w'', ?_, hpost'⟩
  rw [exec_bind, exec_attempt, hexec]
  exact hexec'

theorem keep {P : I.Call → Prop} {J : W → Prop} (hkeep : ∀ c w, P c → J w → J (m c w).2)
    (hp : p.Calls P) (hw : J w) (h : p.Lands m Q w) : p.Lands m (fun a w => Q a w ∧ J w) w := by
  obtain ⟨a, w', hexec, hpost⟩ := h
  have hend := (Alone.invariant hkeep hp hw).exec
  rw [hexec] at hend
  exact ⟨a, w', hexec, hpost, hend⟩

theorem foldlM_rest {f : β → α → Prog I β} {J : List α → β → W → Prop} {xs : List α}
    (h : ∀ a rest b w, a :: rest <:+ xs → J (a :: rest) b w → (f b a).Lands m (J rest) w) {b : β}
    {w : W} (hb : J xs b w) : (xs.foldlM f b).Lands m (J []) w := by
  induction xs generalizing b w with
  | nil => exact .ret hb
  | cons a rest ih =>
    refine (h a rest b w List.suffix_rfl hb).bind fun b' w' hb' => ?_
    exact ih (fun a' rest' b w hsuf => h a' rest' b w (hsuf.trans (List.suffix_cons a rest))) hb'

theorem forM_rest {f : α → Prog I PUnit} {J : List α → W → Prop} {xs : List α}
    (h : ∀ a rest w, a :: rest <:+ xs → J (a :: rest) w → (f a).Lands m (fun _ w => J rest w) w)
    {w : W} (hw : J xs w) : (xs.forM f).Lands m (fun _ w => J [] w) w := by
  induction xs generalizing w with
  | nil => exact .ret hw
  | cons a rest ih =>
    refine (h a rest w List.suffix_rfl hw).bind fun _ w' hw' => ?_
    exact ih (fun a' rest' w hsuf => h a' rest' w (hsuf.trans (List.suffix_cons a rest))) hw'

end Lands

/-- If the program, run alone, comes to a result, `Q` holds of it and of the state it leaves. -/
def Yields (m : Machine I W) (p : Prog I α) (Q : α → W → Prop) (w : W) : Prop :=
  p.Alone m (fun _ _ => True) (fun r w => ∀ a, r = .ok a → Q a w) w

namespace Yields

variable {Q Q' : α → W → Prop} {S : β → W → Prop} {p : Prog I α} {w : W}

theorem mono (hQ : ∀ a w, Q a w → Q' a w) (h : p.Yields m Q w) : p.Yields m Q' w :=
  h.post fun _ w h a ha => hQ a w (h a ha)

theorem and (h : p.Yields m Q w) (h' : p.Yields m Q' w) :
    p.Yields m (fun a w => Q a w ∧ Q' a w) w :=
  (Alone.and h h').mono (fun _ _ _ => trivial) fun _ _ hr a ha => ⟨hr.1 a ha, hr.2 a ha⟩

theorem ret {a : α} (h : Q a w) : (Prog.ret a).Yields m Q w := by
  rintro _ ⟨⟩
  exact h

theorem store {c : I.Call} {Q : I.Answer c → W → Prop} (h : Q (m c w).1 (m c w).2) :
    (Prog.store c).Yields m Q w := by
  refine ⟨trivial, ?_⟩
  rintro _ ⟨⟩
  exact h

theorem store_bind {c : I.Call} {f : I.Answer c → Prog I β}
    (h : (f (m c w).1).Yields m S (m c w).2) : ((Prog.store c).bind f).Yields m S w :=
  ⟨trivial, h⟩

theorem bind {f : α → Prog I β} (h : p.Yields m Q w) (hf : ∀ a w, Q a w → (f a).Yields m S w) :
    (p.bind f).Yields m S w :=
  Alone.bind h (fun a w ha => hf a w (ha a rfl)) fun _ _ _ _ he => by cases he

theorem attempt_bind {f : Except I.Fault α → Prog I β} {Q : Except I.Fault α → W → Prop}
    (h : p.Alone m (fun _ _ => True) Q w) (hf : ∀ r w, Q r w → (f r).Yields m S w) :
    (p.attempt.bind f).Yields m S w :=
  Alone.attempt_bind h hf

theorem of_calls {P : I.Call → Prop} {J : W → Prop} (hkeep : ∀ c w, P c → J w → J (m c w).2)
    (hp : p.Calls P) (hw : J w) : p.Yields m (fun _ w => J w) w :=
  (Alone.invariant hkeep hp hw).mono (fun _ _ _ => trivial) fun _ _ h _ _ => h

theorem foldlM_rest {f : β → α → Prog I β} {J : List α → β → W → Prop} (xs : List α)
    (h : ∀ a rest b w, J (a :: rest) b w → (f b a).Yields m (J rest) w) {b : β} {w : W}
    (hb : J xs b w) : (xs.foldlM f b).Yields m (J []) w :=
  Alone.foldlM_rest
    (fun a rest b w _ hb => (h a rest b w hb).post fun _ _ hr => ⟨hr, fun _ _ _ he => by cases he⟩ )
    (fun _ _ hb _ ha => by cases ha; exact hb) hb

theorem forM_rest {f : α → Prog I PUnit} {J : List α → W → Prop} (xs : List α)
    (h : ∀ a rest w, J (a :: rest) w → (f a).Yields m (fun _ w => J rest w) w) {w : W}
    (hw : J xs w) : (xs.forM f).Yields m (fun _ w => J [] w) w :=
  Alone.forM_rest
    (fun a rest w _ hw => (h a rest w hw).post fun _ _ hr => ⟨hr (), fun _ _ _ he => by cases he⟩)
    (fun _ hw _ _ => hw) hw

theorem exec {a : α} {w' : W} (h : p.Yields m Q w) (hexec : p.exec m w = (.ok a, w')) : Q a w' := by
  have hend := Alone.exec h
  rw [hexec] at hend
  exact hend a rfl

end Yields

end Prog
