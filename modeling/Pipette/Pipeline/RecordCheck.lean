import Pipette.Pipeline.Score

/-! Whether a job has a record, asked place by place while scoring moves the record. Every move but
one goes forward in the order of the probes; parking from `to_finalize/` goes back. -/
namespace Pipette

def Place.rank : Place → Nat
  | incoming => 0
  | toDo => 1
  | parked => 2
  | toFinalize => 3
  | processed => 4

namespace RecordState

variable {s t u : RecordState} {j : JobId} {p : Place} {n : Nat}

def Holds (s : RecordState) (j : JobId) (p : Place) : Prop := (s.places.lookup (p, j)).isSome

instance (s : RecordState) (j : JobId) (p : Place) : Decidable (s.Holds j p) :=
  inferInstanceAs (Decidable (_ = true))

def Past (s : RecordState) (j : JobId) (n : Nat) : Prop := ∃ p, n ≤ p.rank ∧ s.Holds j p

/-- A record that stands in this place stands in another one too, which no move empties before the
record is further on. -/
def Covered (s : RecordState) (j : JobId) : Place → Prop
  | .incoming => s.Past j 1
  | .toDo => s.Past j 2
  | .toFinalize => s.Holds j .parked ∨ s.Holds j .processed
  | .parked | .processed => False

structure Kept (s t : RecordState) : Prop where
  past : ∀ j n, n ≤ 2 → s.Past j n → t.Past j n
  parked : ∀ j, s.Holds j .parked → t.Holds j .parked
  processed : ∀ j, s.Holds j .processed → t.Holds j .processed

theorem Kept.refl (s : RecordState) : Kept s s := ⟨fun _ _ _ h => h, fun _ h => h, fun _ h => h⟩

theorem Kept.trans (h : Kept s t) (h' : Kept t u) : Kept s u :=
  ⟨fun j n hn hp => h'.past j n hn (h.past j n hn hp), fun j hp => h'.parked j (h.parked j hp),
    fun j hp => h'.processed j (h.processed j hp)⟩

theorem Covered.kept (h : s.Covered j p) (hst : Kept s t) : t.Covered j p := by
  cases p with
  | incoming => exact hst.past j 1 (by omega) h
  | toDo => exact hst.past j 2 (by omega) h
  | toFinalize => exact h.imp (hst.parked j) (hst.processed j)
  | parked => exact h
  | processed => exact h

theorem Kept.of_grows (h : ∀ j p, s.Holds j p → t.Holds j p) : Kept s t :=
  ⟨fun j _ _ ⟨p, hn, hp⟩ => ⟨p, hn, h j p hp⟩, fun j => h j .parked, fun j => h j .processed⟩

theorem holds_write {body : Json} {j' : JobId} {p' : Place} (h : s.Holds j p) :
    ({ s with places := s.places.insert (p', j') body } : RecordState).Holds j p := by
  unfold Holds
  rw [FileTree.lookup_write]
  split
  · rfl
  · exact h

theorem holds_remove {j' : JobId} {p' : Place} (h : s.Holds j p) (hne : (p, j) ≠ (p', j')) :
    ({ s with places := s.places.erase (p', j') } : RecordState).Holds j p := by
  unfold Holds
  rw [FileTree.lookup_remove, if_neg hne]
  exact h

theorem Covered.kept_remove (h : s.Covered j p) :
    Kept s { s with places := s.places.erase (p, j) } := by
  have hother : ∀ {j' : JobId} {q : Place}, q ≠ p → s.Holds j' q →
      ({ s with places := s.places.erase (p, j) } : RecordState).Holds j' q :=
    fun hq hs => holds_remove hs fun he => hq (Prod.mk.inj he).1
  have hpast : ∀ j' n, n ≤ 2 → s.Past j' n →
      ({ s with places := s.places.erase (p, j) } : RecordState).Past j' n := by
    rintro j' n hn ⟨q, hq, hs⟩
    by_cases he : (q, j') = (p, j)
    · -- the record taken away: its cover stands no lower than any rank asked for
      obtain ⟨rfl, rfl⟩ := Prod.mk.inj he
      cases q with
      | incoming =>
        obtain ⟨q, hq1, hs⟩ := h
        exact ⟨q, le_trans hq (by simp [Place.rank]), hother (by rintro rfl; simp [Place.rank] at hq1) hs⟩
      | toDo =>
        obtain ⟨q, hq2, hs⟩ := h
        refine ⟨q, by omega, hother ?_ hs⟩
        rintro rfl
        simp [Place.rank] at hq2
      | toFinalize =>
        obtain hs | hs := h
        · exact ⟨.parked, hn, hother (by decide) hs⟩
        · exact ⟨.processed, by simp only [Place.rank]; omega, hother (by decide) hs⟩
      | parked => exact h.elim
      | processed => exact h.elim
    · exact ⟨q, hq, holds_remove hs he⟩
  refine ⟨hpast, fun j' hs => hother ?_ hs, fun j' hs => hother ?_ hs⟩
  · rintro rfl
    exact h
  · rintro rfl
    exact h

end RecordState

open RecordState

def Covering : StoreCall → World → Prop
  | .records (.remove p j), w => w.records.Covered j p
  | _, _ => True

theorem RecordCall.kept {c : RecordCall} {s : RecordState}
    (h : ∀ p j, c = .remove p j → s.Covered j p) : Kept s (c.step s).2 := by
  cases c with
  | write p j body => exact .of_grows fun _ _ => holds_write
  | create p j body =>
    simp only [RecordCall.step]
    split
    · exact .refl s
    · exact .of_grows fun _ _ => holds_write
  | remove p j => exact (h p j rfl).kept_remove
  | tryExists p j => exact .refl s
  | read p j => exact .refl s
  | readFailures j => exact .refl s
  | writeFailures j attempts => exact .of_grows fun _ _ hs => hs
  | removeFailures j => exact .of_grows fun _ _ hs => hs
  | writeUnverified c j body => exact .of_grows fun _ _ hs => hs

theorem Covering.kept_step {c : StoreCall} {w : World} (h : Covering c w) :
    Kept w.records (machine c w).2.records := by
  cases c with
  | records c => exact RecordCall.kept fun p j hc => by subst hc; exact h
  | queue c => exact .refl _
  | index c => exact .refl _
  | notes c => exact .refl _
  | plans c => exact .refl _
  | fleet c => exact .refl _

theorem Covering.kept {c : StoreCall} {w w' : World} {r : Except Fault c.Answer}
    (h : Covering c w) (hout : machine.faulty c w r w') : Kept w.records w'.records := by
  obtain ⟨-, rfl⟩ | ⟨-, -, rfl | rfl⟩ := hout
  · exact h.kept_step
  · exact .refl _
  · exact h.kept_step

def KeptWorld (w w' : World) : Prop := Kept w.records w'.records

instance : Std.Refl KeptWorld := ⟨fun w => .refl w.records⟩

instance : IsTrans World KeptWorld := ⟨fun _ _ _ h h' => h.trans h'⟩

abbrev Careful {α : Type} (p : Op α) (Q : Except Fault α → World → Prop) (w : World) : Prop :=
  p.Sat machine.faulty KeptWorld Covering Q w

section Moves

variable {α β : Type} {w : World} {j : JobId} {src dst : Place}

inductive Onward : Place → Place → Prop
  | route : Onward .incoming .toDo
  | archive : Onward .incoming .processed
  | stage : Onward .toDo .toFinalize
  | park : Onward .toDo .parked
  | finalize : Onward .toFinalize .processed
  | parkStaged : Onward .toFinalize .parked

theorem Onward.covered {s : RecordState} (h : Onward src dst) (hs : s.Holds j dst) :
    s.Covered j src := by
  cases h with
  | route => exact ⟨.toDo, by decide, hs⟩
  | archive => exact ⟨.processed, by decide, hs⟩
  | stage => exact ⟨.toFinalize, by decide, hs⟩
  | park => exact ⟨.parked, by decide, hs⟩
  | finalize => exact .inr hs
  | parkStaged => exact .inl hs

theorem careful_bind {p : Op α} {f : α → Op β} {Q : Except Fault α → World → Prop}
    (hp : Careful p Q w) (hf : ∀ a w, Q (.ok a) w → Careful (f a) (fun _ _ => True) w) :
    Careful (p.bind f) (fun _ _ => True) w :=
  Prog.Sat.bind hp hf fun _ _ _ _ _ => trivial

theorem careful_of_calls {p : Op α} (h : p.Calls fun c => ∀ w, Covering c w) :
    Careful p (fun _ _ => True) w :=
  .of_calls h

theorem careful_records {c : RecordCall} (h : ∀ p j, c ≠ .remove p j) :
    Careful (Op.records c) (fun _ _ => True) w := by
  refine careful_of_calls (.store fun _ => ?_)
  cases c with
  | remove p j => exact (h p j rfl).elim
  | _ => trivial

theorem careful_enqueue (h : Onward src dst) (body : Json) :
    Careful (enqueue dst j body) (fun r w => ∀ a, r = .ok a → w.records.Covered j src) w := by
  refine .store_faulty (fun w' _ => ⟨trivial, fun v hv _ _ => ?_⟩) fun e v a ha => nomatch ha
  refine (h.covered ?_).kept hv
  show RecordState.Holds _ j dst
  unfold RecordState.Holds
  simp [machine, RecordCall.step]

theorem careful_dequeue (h : w.records.Covered j src) :
    Careful (dequeue src j) (fun _ _ => True) w := by
  refine careful_bind (Q := fun _ _ => True) ?_ fun _ _ _ _ _ => trivial
  exact .store_faulty (fun w' hw => ⟨h.kept hw, fun _ _ => trivial⟩) fun _ _ => trivial

theorem careful_move (h : Onward src dst) (body : Json) {q : Op α}
    (hq : ∀ w, Careful q (fun _ _ => True) w) :
    Careful ((enqueue dst j body).bind fun _ => (dequeue src j).bind fun _ => q)
      (fun _ _ => True) w :=
  careful_bind (careful_enqueue h body) fun a _ hw =>
    careful_bind (careful_dequeue (hw a rfl)) fun _ w _ => hq w

theorem careful_attempt_bind {p : Op α} {q : Except Fault α → Op β}
    (h : Careful p (fun _ _ => True) w) (hq : ∀ r w, Careful (q r) (fun _ _ => True) w) :
    Careful (p.attempt.bind q) (fun _ _ => True) w :=
  careful_bind (Q := fun _ _ => True) (.attempt h) fun r w _ => hq r w

theorem careful_ret (a : α) : Careful (.ret a) (fun _ _ => True) w := fun _ _ => trivial

theorem careful_fail (e : Fault) : Careful (α := α) (.fail e) (fun _ _ => True) w :=
  fun _ _ => trivial

theorem careful_clearFailedAttempts : Careful (clearFailedAttempts j) (fun _ _ => True) w :=
  careful_attempt_bind (careful_records fun _ _ h => nomatch h) fun _ _ => careful_ret _

theorem careful_recordFailedAttempt (h : Onward src .parked) :
    Careful (recordFailedAttempt src j) (fun _ _ => True) w := by
  refine careful_bind (careful_records fun _ _ h => nomatch h) fun attempts _ _ => ?_
  refine careful_bind (careful_records fun _ _ h => nomatch h) fun _ _ _ => ?_
  split
  · exact careful_ret _
  · refine careful_bind (careful_records fun _ _ h => nomatch h) fun entry w _ => ?_
    cases entry with
    | none => exact careful_ret _
    | some entry =>
      simp only
      split
      · exact careful_fail _
      · exact careful_move h _ fun w => careful_ret _

theorem careful_countFailedAttempt (h : Onward src .parked) :
    Careful (countFailedAttempt src j) (fun _ _ => True) w := by
  refine careful_attempt_bind (careful_recordFailedAttempt h) fun r w => ?_
  cases r <;> exact careful_ret _

theorem careful_scoreEvalOne {scorer : Scorer} :
    Careful (scoreEvalOne scorer j) (fun _ _ => True) w := by
  have hread : Careful (Op.records (.read .toFinalize j))
      (fun r w => ∀ body, r = .ok (some body) → w.records.Covered j .toDo) w := by
    refine .store_faulty (fun w' _ => ⟨trivial, fun v hv body hb => ?_⟩) fun e v a ha => nomatch ha
    refine (Onward.stage.covered ?_).kept hv
    exact Option.isSome_iff_exists.mpr ⟨body, Except.ok.inj hb⟩
  refine careful_bind hread fun staged w hw => ?_
  cases staged with
  | some _ => exact careful_dequeue (hw _ rfl)
  | none =>
    refine careful_bind (careful_records fun _ _ h => nomatch h) fun body w _ => ?_
    cases body with
    | none => exact careful_fail _
    | some body =>
      simp only
      split
      · exact careful_fail _
      · exact careful_bind (careful_enqueue .stage _) fun a w hw => careful_dequeue (hw a rfl)

theorem careful_runScoreEval {scorer : Scorer} {jobs : List JobId} :
    Careful (runScoreEval scorer jobs) (fun _ _ => True) w := by
  induction jobs generalizing w with
  | nil => exact careful_ret _
  | cons j rest ih =>
    refine careful_attempt_bind careful_scoreEvalOne fun r w => ?_
    split
    · exact careful_bind careful_clearFailedAttempts fun _ w _ => ih
    · split
      · exact careful_bind (careful_countFailedAttempt .park) fun _ _ _ => careful_ret _
      · exact careful_ret _
    · exact careful_bind (careful_countFailedAttempt .park) fun _ w _ => ih

theorem careful_finalizeOne {scorer : Scorer} :
    Careful (finalizeOne scorer j) (fun _ _ => True) w := by
  refine careful_bind (careful_records fun _ _ h => nomatch h) fun payload w _ => ?_
  cases payload with
  | none => exact careful_fail _
  | some payload =>
    simp only
    split
    · split
      · exact careful_bind (careful_enqueue .finalize _) fun a w hw => careful_dequeue (hw a rfl)
      · exact careful_fail _
    · exact careful_fail _

theorem careful_forM {f : α → Op PUnit} {xs : List α}
    (h : ∀ a w, Careful (f a) (fun _ _ => True) w) : Careful (xs.forM f) (fun _ _ => True) w := by
  refine (Prog.Sat.forM (J := fun _ => True) (fun _ _ _ _ => trivial) (fun a _ w _ => ?_)
    trivial).mono (fun _ _ h => h) fun _ _ _ => trivial
  exact (h a w).mono (fun _ _ h => h) fun r _ _ (_ : r = .ok ()) => trivial

theorem careful_foldlM {f : β → α → Op β} {xs : List α} {b : β}
    (h : ∀ b a w, Careful (f b a) (fun _ _ => True) w) :
    Careful (xs.foldlM f b) (fun _ _ => True) w := by
  refine (Prog.Sat.foldlM (J := fun _ _ => True) (fun _ _ _ _ _ => trivial)
    (fun b a _ w _ => ?_) trivial).mono (fun _ _ h => h) fun _ _ _ => trivial
  exact (h b a w).mono (fun _ _ h => h) fun _ _ _ _ _ => trivial

theorem careful_finalizeScoredEvals {scorer : Scorer} {jobs : List JobId} :
    Careful (finalizeScoredEvals scorer jobs) (fun _ _ => True) w := by
  refine careful_forM fun j w => ?_
  refine careful_attempt_bind careful_finalizeOne fun r w => ?_
  cases r with
  | ok _ => exact careful_clearFailedAttempts
  | error _ => exact careful_bind (careful_countFailedAttempt .parkStaged) fun _ _ _ => careful_ret _

theorem careful_getSubmission : Careful (getSubmission j) (fun _ _ => True) w := by
  refine careful_bind (careful_records fun _ _ h => nomatch h) fun body w _ => ?_
  cases body with
  | none => exact careful_bind (careful_records fun _ _ h => nomatch h) fun _ _ _ => careful_ret _
  | some body => exact careful_ret _

theorem careful_readAndScore {scorer : Scorer} :
    Careful (readAndScore scorer j) (fun _ _ => True) w := by
  refine careful_bind careful_getSubmission fun body w _ => ?_
  cases body with
  | none => exact careful_fail _
  | some body =>
    simp only
    split
    · exact careful_move .route _ fun w => careful_ret _
    split
    · exact careful_fail _
    · split
      · exact careful_fail _
      · exact careful_ret _
      · exact careful_ret _

theorem careful_markProcessed : Careful (markProcessed j) (fun _ _ => True) w := by
  refine careful_bind (careful_records fun _ _ h => nomatch h) fun body w _ => ?_
  cases body with
  | none => exact careful_fail _
  | some body =>
    refine careful_bind (careful_enqueue .archive body) fun a w hw => ?_
    refine careful_bind (Q := fun _ _ => True) ?_ fun removed w _ => ?_
    · exact .store_faulty (fun w' hR => ⟨(hw a rfl).kept hR, fun _ _ => trivial⟩) fun _ _ => trivial
    · cases removed
      · exact careful_fail _
      · exact careful_ret _

theorem careful_commitChunk {outcomes : List ScoreOutcome} :
    Careful (commitChunk outcomes) (fun _ _ => True) w := by
  refine careful_bind (careful_foldlM fun deferred j w => ?_) fun deferred w _ => ?_
  · refine careful_attempt_bind careful_markProcessed fun r w => ?_
    cases r <;> exact careful_ret _
  · split
    · exact careful_fail _
    · exact careful_ret _

theorem careful_scoreChunk {scorer : Scorer} {chunk : List JobId} :
    Careful (scoreChunk scorer chunk) (fun _ _ => True) w := by
  refine careful_foldlM fun outcomes j w => ?_
  refine careful_attempt_bind careful_readAndScore fun r w => ?_
  cases r <;> exact careful_ret _

theorem careful_processSubmissions {scorer : Scorer} {chunks : List (List JobId)}
    {staged : List JobId} : Careful (processSubmissions scorer chunks staged) (fun _ _ => True) w := by
  refine careful_bind (careful_forM fun chunk w => ?_) fun _ w _ => careful_finalizeScoredEvals
  exact careful_bind careful_scoreChunk fun _ w _ => careful_bind careful_commitChunk fun _ _ _ => careful_ret _

end Moves

inductive ScoringPass
  | processSubmissions (scorer : Scorer) (chunks : List (List JobId)) (staged : List JobId)
  | scoreEval (scorer : Scorer) (jobs : List JobId)

def ScoringPass.run : ScoringPass → Op Unit
  | processSubmissions scorer chunks staged => Pipette.processSubmissions scorer chunks staged
  | scoreEval scorer jobs => runScoreEval scorer jobs

theorem ScoringPass.careful (pass : ScoringPass) (w : World) :
    Careful pass.run (fun _ _ => True) w := by
  cases pass with
  | processSubmissions scorer chunks staged => exact careful_processSubmissions
  | scoreEval scorer jobs => exact careful_runScoreEval

section Check

variable {ι : Type}

abbrev CheckResult : Option ι → Type
  | none => Bool
  | some _ => Unit

def checkPool (w : World) (j : JobId) (passes : ι → ScoringPass) :
    Prog.Pool Stores World (Option ι) CheckResult :=
  ⟨w, fun
    | none => hasRecord j
    | some i => (passes i).run⟩

/-- While the check stands between its probe of `parked/` and its probe of `to_finalize/`, no
call takes the job's `to_finalize/` entry away unless the job is archived. -/
def KeepsStaged (j : JobId) (s : Prog.Pool Stores World (Option ι) CheckResult) (_ : Option ι)
    (c : StoreCall) : Prop :=
  s.procs none = hasRecordFrom [.toFinalize, .processed] j →
    c = .records (.remove .toFinalize j) → s.world.records.Holds j .processed

theorem checkPool_careful {w : World} {j : JobId} {passes : ι → ScoringPass} (i : Option ι) :
    Careful ((checkPool w j passes).procs i) (fun _ _ => True) w := by
  cases i with
  | some i => exact (passes i).careful w
  | none =>
    have hprobe : ∀ places, (hasRecordFrom places j).Calls fun c => ∀ w, Covering c w := by
      intro places
      induction places with
      | nil => exact .ret _
      | cons p rest ih =>
        refine .bind (.store fun _ => trivial) fun found => ?_
        cases found
        · exact ih
        · exact .ret _
    exact careful_of_calls (hprobe recordPlaces)

theorem holds_step {c : StoreCall} {w : World} {j : JobId} {p : Place} (h : w.records.Holds j p)
    (hc : c ≠ .records (.remove p j)) : (machine c w).2.records.Holds j p := by
  cases c with
  | records c =>
    cases c with
    | write p' j' body => exact holds_write h
    | create p' j' body =>
      simp only [machine, RecordCall.step]
      split
      · exact h
      · exact holds_write h
    | remove p' j' => exact holds_remove h fun he => hc (by cases he; rfl)
    | _ => exact h
  | _ => exact h

def Standing (j : JobId) (p : Op Bool) (w : World) : Prop :=
  p = .ret true ∨ (∃ e, p = .fail e) ∨
    ∃ n, p = hasRecordFrom (recordPlaces.drop n) j ∧ w.records.Past j n

theorem RecordState.Past.lt {s : RecordState} {j : JobId} {n : Nat} (h : s.Past j n) : n < 5 := by
  obtain ⟨p, hn, -⟩ := h
  cases p <;> simp only [Place.rank] at hn <;> omega

theorem hasRecordFrom_drop {n : Nat} (hn : n < 5) (j : JobId) :
    ∃ p : Place, p.rank = n ∧ hasRecordFrom (recordPlaces.drop n) j =
      (Op.records (.tryExists p j)).bind fun found =>
        if found then .ret true else hasRecordFrom (recordPlaces.drop (n + 1)) j := by
  obtain rfl | rfl | rfl | rfl | rfl : n = 0 ∨ n = 1 ∨ n = 2 ∨ n = 3 ∨ n = 4 := by omega
  · exact ⟨.incoming, rfl, rfl⟩
  · exact ⟨.toDo, rfl, rfl⟩
  · exact ⟨.parked, rfl, rfl⟩
  · exact ⟨.toFinalize, rfl, rfl⟩
  · exact ⟨.processed, rfl, rfl⟩

theorem RecordState.Past.succ {s : RecordState} {j : JobId} {p : Place} (h : s.Past j p.rank)
    (hp : ¬ s.Holds j p) : s.Past j (p.rank + 1) := by
  obtain ⟨q, hq, hs⟩ := h
  refine ⟨q, ?_, hs⟩
  have hne : q ≠ p := by
    rintro rfl
    exact hp hs
  cases p <;> cases q <;> simp_all [Place.rank]

theorem Standing.probe {j : JobId} {w w' : World} {c : StoreCall}
    {k : Except Fault c.Answer → Op Bool} {r : Except Fault c.Answer}
    (h : Standing j (.call c k) w) (hout : machine.faulty c w r w') : Standing j (k r) w' := by
  obtain h | ⟨e, h⟩ | ⟨n, h, hpast⟩ := h
  · cases h
  · cases h
  obtain ⟨p, rfl, hp⟩ := hasRecordFrom_drop (Past.lt hpast) j
  rw [hp] at h
  cases h
  obtain ⟨rfl, rfl⟩ | ⟨e, rfl, hw⟩ := hout
  · by_cases hs : w.records.Holds j p
    · refine .inl ?_
      simp only [machine, RecordCall.step]
      rw [hs]
      rfl
    · refine .inr (.inr ⟨p.rank + 1, ?_, Past.succ hpast hs⟩)
      simp only [machine, RecordCall.step]
      rw [Bool.eq_false_of_not_eq_true hs]
      rfl
  · exact .inr (.inl ⟨e, rfl⟩)

theorem Standing.bear {j : JobId} {p : Op Bool} {w w' : World} {c : StoreCall}
    {r : Except Fault c.Answer} (h : Standing j p w) (hcov : Covering c w)
    (hkeep : p = hasRecordFrom [.toFinalize, .processed] j →
      c = .records (.remove .toFinalize j) → w.records.Holds j .processed)
    (hout : machine.faulty c w r w') : Standing j p w' := by
  obtain h | h | ⟨n, rfl, hpast⟩ := h
  · exact .inl h
  · exact .inr (.inl h)
  refine .inr (.inr ⟨n, rfl, ?_⟩)
  have hkept := hcov.kept hout
  obtain hn | rfl | rfl : n ≤ 2 ∨ n = 3 ∨ n = 4 := by
    have := Past.lt hpast
    omega
  · exact hkept.past j n hn hpast
  · -- past the probe of `parked/`: only a removal of the staged entry can take the record back
    obtain ⟨q, hq, hs⟩ := hpast
    by_cases hproc : w.records.Holds j .processed
    · exact ⟨.processed, by decide, hkept.processed j hproc⟩
    · have hqf : q = .toFinalize := by
        cases q with
        | toFinalize => rfl
        | processed => exact (hproc hs).elim
        | _ => simp [Place.rank] at hq
      subst hqf
      refine ⟨.toFinalize, hq, ?_⟩
      have hstep := holds_step hs fun hc => hproc (hkeep rfl hc)
      obtain ⟨-, rfl⟩ | ⟨-, -, rfl | rfl⟩ := hout
      · exact hstep
      · exact hs
      · exact hstep
  · obtain ⟨q, hq, hs⟩ := hpast
    have hqp : q = .processed := by cases q <;> simp [Place.rank] at hq ⊢
    subst hqp
    exact ⟨.processed, hq, hkept.processed j hs⟩

/-- A check that starts while the job has a record still has a place to probe, or has answered
`true`, or failed on the store: among any scoring passes, in every run that keeps the job's staged
entry while the check stands between `parked/` and `to_finalize/`. -/
theorem hasRecord_finds [DecidableEq ι] {w : World} {j : JobId} {passes : ι → ScoringPass}
    {s t : Prog.Pool Stores World (Option ι) CheckResult}
    (hbefore : Prog.Pool.Reach machine.faulty (fun _ _ _ => True) (checkPool w j passes) s)
    (hstart : s.procs none = hasRecord j) (hrec : s.world.records.Recorded j)
    (hrun : Prog.Pool.Reach machine.faulty (KeepsStaged j) s t) :
    t.procs none = .ret true ∨ (∃ e, t.procs none = .fail e) ∨
      ∃ p rest, t.procs none = hasRecordFrom (p :: rest) j := by
  let Inv (u : Prog.Pool Stores World (Option ι) CheckResult) : Prop :=
    ∀ i, Careful (u.procs i) (fun _ _ => True) u.world
  have hsafe {u v : Prog.Pool Stores World (Option ι) CheckResult} {i : Option ι} {c : StoreCall}
      (hu : Inv u) (hs : Prog.Pool.Step machine.faulty u i c v) :
      Covering c u.world ∧ Inv v := by
    refine hs.sat hu fun j _ hG => ?_
    cases hs with
    | mk _ hout => exact hG.kept hout
  have hcareful : Inv s :=
    hbefore.invariant Inv checkPool_careful fun u i c v hu _ hs => (hsafe hu hs).2
  have hstand : Inv t ∧ Standing j (t.procs none) t.world := by
    refine hrun.invariant (fun u => Inv u ∧ Standing j (u.procs none) u.world) ⟨hcareful, ?_⟩ ?_
    · obtain ⟨p, hp⟩ := hrec
      exact .inr (.inr ⟨0, hstart, p, Nat.zero_le _, hp⟩)
    · rintro u i c v ⟨hu, hstand⟩ hc hs
      obtain ⟨hcov, hv⟩ := hsafe hu hs
      refine ⟨hv, ?_⟩
      cases hs with
      | mk hcall hout =>
        cases i with
        | none =>
          rw [hcall] at hstand
          simpa using hstand.probe hout
        | some i => simpa using hstand.bear hcov (fun hp => hc hp) hout
  obtain h | h | ⟨n, h, hpast⟩ := hstand.2
  · exact .inl h
  · exact .inr (.inl h)
  · obtain ⟨p, rest, hrest⟩ : ∃ p rest, recordPlaces.drop n = p :: rest := by
      have hn := Past.lt hpast
      obtain rfl | rfl | rfl | rfl | rfl : n = 0 ∨ n = 1 ∨ n = 2 ∨ n = 3 ∨ n = 4 := by omega
      all_goals exact ⟨_, _, rfl⟩
    exact .inr (.inr ⟨p, rest, hrest ▸ h⟩)

end Check

def stagedWorld (j : JobId) : World :=
  let payload := Json.obj [("submission", .obj []), ("score", .null)]
  { World.empty with
    records := ⟨(∅ : FileTree _ _).insert (.toFinalize, j) payload, (∅ : FileTree _ _).insert j 11, ∅⟩ }

def finalizingPass (j : JobId) (finalizes : Bool) : ScoringPass :=
  .processSubmissions ⟨fun _ => false, fun _ => .error .unscorable, fun _ _ => finalizes,
    fun _ => none⟩ [] [j]

/-- The check runs to its end while the pass takes the staged eval, which is archived already. -/
theorem hasRecord_finds_finalized :
    let j : JobId := ⟨"job"⟩
    let w : World := { stagedWorld j with
      records := { (stagedWorld j).records with
        places := (stagedWorld j).records.places.insert (.processed, j) .null } }
    let t := (checkPool w j fun _ : Unit => finalizingPass j true).play machine
      [none, none, none, some (), some (), some (), none, none]
    t.procs none = .ret true ∨ (∃ e, t.procs none = .fail e) ∨
      ∃ p rest, t.procs none = hasRecordFrom (p :: rest) j := by
  intro j w t
  have hplay : Prog.Pool.Reach machine.clean (fun u _ _ => u.world.records.Holds j .processed)
      (checkPool w j fun _ : Unit => finalizingPass j true) t :=
    .play (by decide +kernel)
  have hrun : Prog.Pool.Reach machine.faulty (KeepsStaged j) _ t :=
    hplay.mono (fun _ _ _ _ h => .inl h) fun _ _ _ h _ _ => h
  exact hasRecord_finds .refl rfl (by decide +kernel) hrun

/-- The pass parks the staged eval between the check's probes: the check answers `false` though
the job had a record all along. -/
theorem hasRecord_misses_parked :
    ∃ (w : World) (j : JobId) (passes : Unit → ScoringPass)
      (t : Prog.Pool Stores World (Option Unit) CheckResult),
      Prog.Pool.Reach machine.clean (fun u _ _ => u.world.records.Recorded j)
        (checkPool w j passes) t ∧
      t.world.records.Recorded j ∧ t.procs none = .ret false := by
  let j : JobId := ⟨"job"⟩
  -- the check probes three places; the pass parks; the check probes the last two
  let sched : List (Option Unit) :=
    [some (), some (), some (), some (), none, none, none, some (), some (), none, none]
  refine ⟨stagedWorld j, j, fun _ => finalizingPass j false,
    (checkPool (stagedWorld j) j fun _ => finalizingPass j false).play machine sched, ?_, ?_, ?_⟩
  · exact .play (by decide +kernel)
  · decide +kernel
  · exact Prog.outcome_eq_ok.mp (by decide +kernel)

end Pipette
