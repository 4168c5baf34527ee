import Pipette.Lib.Mend
import Pipette.System.Mindful

/-! A plan that joins a job writes its membership and then looks for the job. A teardown deletes the
job and then looks for members. Whichever comes second sees the other. -/
namespace Pipette

open Prog

def Alive (j : JobId) (w : World) : Prop :=
  (∃ q, q.IsOf j ∧ (w.queue.files.lookup q).isSome) ∨ w.records.Recorded j

def Member (j : JobId) (p : PlanId) (d : ExpiresAt) (w : World) : Prop :=
  (w.plans.jobPlans.lookup (j, p, d)).isSome

def MemberKept (j : JobId) (p : PlanId) (d : ExpiresAt) (w : World) : Prop := Member j p d w → Alive j w

def Still (j : JobId) (w w' : World) : Prop :=
  ∀ q, q.IsOf j → w'.queue.files.lookup q = w.queue.files.lookup q

section Calls

variable {j : JobId} {p : PlanId} {d : ExpiresAt} {w : World} {c : StoreCall}

theorem QueueActorCall.alive (h : QueueActorCall c)
    (hremove : RemovesEntry j c → w.records.Recorded j) (hw : Alive j w) :
    Alive j (machine c w).2 := by
  obtain ⟨q, hq, hthere⟩ | hrec := hw
  · cases c with
    | queue c =>
      cases c with
      | rename src dst =>
        obtain ⟨k, k', hsrc, hdst, hjob⟩ := h.onEntries
        cases hmove : w.queue.files.rename src dst with
        | none =>
          refine .inl ⟨q, hq, ?_⟩
          simpa [machine, QueueState.step_rename, hmove] using hthere
        | some files =>
          have hfiles : (machine (.queue (.rename src dst)) w).2.queue.files = files := by
            simp [machine, QueueState.step_rename, hmove]
          have hmoved : (files.lookup dst).isSome := by
            obtain ⟨b, hb, rfl⟩ := FileTree.rename_eq_some hmove
            simp
          by_cases hqs : q = src
          · -- the entry moves to another entry of its job
            obtain ⟨k₀, hk₀, hj⟩ := hq
            rw [hqs, hsrc] at hk₀
            cases hk₀
            exact .inl ⟨dst, ⟨k', hdst, hjob.trans hj⟩, by rwa [hfiles]⟩
          · refine .inl ⟨q, hq, ?_⟩
            rw [hfiles, FileTree.lookup_rename hmove]
            split
            · simpa [FileTree.lookup_rename hmove] using hmoved
            · simpa [hqs] using hthere
      | remove q' =>
        by_cases hqq : q = q'
        · exact .inr (hremove (hqq ▸ hq))
        · exact .inl ⟨q, hq, by simpa [machine, QueueCall.step, FileTree.lookup_remove, hqq] using hthere⟩
      | writeTmp => exact h.onEntries.elim
      | _ => exact .inl ⟨q, hq, hthere⟩
    | _ => exact .inl ⟨q, hq, hthere⟩
  · exact .inr (h.recorded hrec)

theorem QueueActorCall.plans (h : QueueActorCall c) : (machine c w).2.plans = w.plans := by
  cases c with
  | plans c =>
    obtain h | ⟨now, h⟩ := h
    · exact h.elim
    · cases c <;> first | exact h.elim | rfl
  | _ => rfl

theorem MemberKept.frame {w' : World} (h : MemberKept j p d w) (hqueue : w'.queue = w.queue)
    (hrec : w'.records = w.records) (hmember : Member j p d w' → Member j p d w) :
    MemberKept j p d w' := by
  intro hm
  rw [Alive, hqueue, hrec]
  exact h (hmember hm)

theorem MemberKept.remove_absent {q : QueuePath} (h : MemberKept j p d w)
    (hq : w.queue.files.lookup q = none) : MemberKept j p d (machine (.queue (.remove q)) w).2 := by
  intro hm
  obtain ⟨q', hof, hthere⟩ | hrec := h hm
  · refine .inl ⟨q', hof, ?_⟩
    have hne : q' ≠ q := by
      rintro rfl
      simp [hq] at hthere
    simpa [machine, QueueCall.step, FileTree.lookup_remove, hne] using hthere
  · exact .inr hrec

end Calls

/-- The calls of a retire: from the read of the body to the last delete one of them is next. -/
def RetireCall (j : JobId) : StoreCall → Prop
  | .queue (.listAvailOf j') => j' = j
  | .queue (.remove q) => q.IsOf j
  | _ => False

/-- What a teardown counts on while a call of it is next: its file in `tmp/` is left alone, and so
are the job's entries until the last delete. -/
def TeardownRely (j : JobId) (c : StoreCall) (w w' : World) : Prop :=
  w'.queue.files.lookup (.tmp j) = w.queue.files.lookup (.tmp j) ∧ (RetireCall j c → Still j w w')

instance {j : JobId} {c : StoreCall} : IsTrans World (TeardownRely j c) :=
  ⟨fun _ _ _ h h' => ⟨h'.1.trans h.1, fun hc q hq => (h'.2 hc q hq).trans (h.2 hc q hq)⟩⟩

def NothingToDelete (j : JobId) (inAvail : Bool) (held : List Lease) (w : World) : Prop :=
  (inAvail = true → ∀ d, w.queue.files.lookup (.avail ⟨j, d⟩) = none) ∧
    ∀ l ∈ held, w.queue.files.lookup (.leased l) = none

/-- Every call is answered, and the read of the body misses no job that a delete finds. -/
def teardownOutcomes (j : JobId) (inAvail : Bool) (held : List Lease) : Outcomes Stores World :=
  fun c w r w' => machine.clean c w r w' ∧
    ∀ q, c = .queue (.read q) → (w.queue.files.lookup q).isSome ∨ NothingToDelete j inAvail held w

section Teardown

variable {j : JobId} {p p' : PlanId} {d : ExpiresAt} {w : World} {inAvail : Bool}
  {held held' : List Lease} {α : Type}

abbrev JobRenewed (j : JobId) (p : PlanId) (d : ExpiresAt) (inAvail : Bool) (held : List Lease)
    (q : Op α) (w : World) : Prop :=
  q.Renews (teardownOutcomes j inAvail held) (TeardownRely j) (MemberKept j p d) w

abbrev JobUpheld (j : JobId) (p : PlanId) (d : ExpiresAt) (inAvail : Bool) (held : List Lease)
    (q : Op α) (w : World) : Prop :=
  q.Upholds (teardownOutcomes j inAvail held) (TeardownRely j) (MemberKept j p d) w

theorem JobRenewed.store_bind {c : StoreCall} {f : c.Answer → Op α}
    (h : ∀ w', TeardownRely j c w w' →
      JobRenewed j p d inAvail held (f (machine c w').1) (machine c w').2) :
    JobRenewed j p d inAvail held ((store (I := Stores) c).bind f) w := by
  refine Renews.store_bind (fun w' hR a w'' hout => ?_) fun w' hR e w'' hout => ?_
  · obtain ⟨⟨ha, rfl⟩, -⟩ := hout
    cases ha
    exact h w' hR
  · cases hout.1.1

theorem JobUpheld.store_bind {c : StoreCall} {f : c.Answer → Op α}
    (hkeep : ∀ w', TeardownRely j c w w' → MemberKept j p d w' → MemberKept j p d (machine c w').2)
    (h : ∀ w', TeardownRely j c w w' →
      (∀ q, c = .queue (.read q) → (w'.queue.files.lookup q).isSome ∨
        NothingToDelete j inAvail held w') →
      JobUpheld j p d inAvail held (f (machine c w').1) (machine c w').2) :
    JobUpheld j p d inAvail held ((store (I := Stores) c).bind f) w := by
  refine Upholds.store_bind (fun w' r w'' hR hout => ?_) fun w' hR a w'' hout => ?_
  · obtain ⟨⟨-, rfl⟩, -⟩ := hout
    exact hkeep w' hR
  · obtain ⟨⟨ha, rfl⟩, hread⟩ := hout
    cases ha
    exact h w' hR hread

theorem restoreJoined_renewed {body : Json} {e : ExpiresAt} :
    JobRenewed j p d inAvail held ((Op.plans (.listJobPlanMarkers j)).bind fun joiners =>
      if joiners.isEmpty then pure .retired
      else do
        Op.queue (.writeTmp j body)
        promoteAvail ⟨j, e⟩
        Op.index (.writePendingReindexJob j)
        pure (.released joiners.length) : Op JobFate) w := by
  refine JobRenewed.store_bind fun v _ => ?_
  split
  · next hempty =>
    refine .ret fun hm => ?_
    have hmem : (p, d) ∈ (machine (.plans (.listJobPlanMarkers j)) v).1 := mem_listJobPlanMarkers.mpr hm
    rw [List.isEmpty_iff.mp hempty] at hmem
    cases hmem
  · refine JobRenewed.store_bind fun v _ => ?_
    rw [show (promoteAvail ⟨j, e⟩ : Op Unit) = (Op.queue (.rename (.tmp j) (.avail ⟨j, e⟩))).bind
      fun moved => if moved then pure () else Op.fail .missing from rfl, bind_eq, Prog.bind_assoc]
    refine JobRenewed.store_bind fun u hu => ?_
    have htmp : u.queue.files.lookup (.tmp j) = some body := by
      rw [hu.1]
      simp [machine, QueueCall.step]
    obtain ⟨files, hmove⟩ : ∃ files, u.queue.files.rename (.tmp j) (.avail ⟨j, e⟩) = some files := by
      simp [FileTree.rename, htmp]
    have halive : Alive j (machine (.queue (.rename (.tmp j) (.avail ⟨j, e⟩))) u).2 := by
      refine .inl ⟨.avail ⟨j, e⟩, ⟨_, rfl, rfl⟩, ?_⟩
      simp [machine, QueueState.step_rename, hmove, FileTree.lookup_rename hmove, htmp]
    have hanswer : (machine (.queue (.rename (.tmp j) (.avail ⟨j, e⟩))) u).1 = true := by
      simp [machine, QueueState.step_rename, hmove]
    rw [hanswer]
    refine Renews.of_upholds ?_ fun _ => halive
    exact JobUpheld.store_bind (fun v _ hv => hv.frame rfl rfl fun h => h) fun _ _ _ => trivial

theorem removeListed_renewed {ds : List ExpiresAt} {f : Op α} (hnodup : ds.Nodup)
    (hthere : ∀ e ∈ ds, (w.queue.files.lookup (.avail ⟨j, e⟩)).isSome)
    (hf : ∀ w, JobRenewed j p d inAvail held f w) :
    JobRenewed j p d inAvail held ((ds.forM fun e => (Op.queue (.remove (.avail ⟨j, e⟩))).bind
      fun removed => if removed then pure () else Op.fail .missing).bind fun _ => f) w := by
  induction ds generalizing w with
  | nil => exact hf w
  | cons e rest ih =>
    obtain ⟨hfresh, hrest⟩ := List.nodup_cons.mp hnodup
    change JobRenewed j p d inAvail held ((((Op.queue (.remove (.avail ⟨j, e⟩))).bind fun removed =>
      if removed then pure () else Op.fail .missing).bind fun _ => rest.forM _).bind fun _ => f) w
    rw [Prog.bind_assoc, Prog.bind_assoc]
    refine JobRenewed.store_bind fun v hv => ?_
    have hstill : ∀ e', v.queue.files.lookup (.avail ⟨j, e'⟩) =
        w.queue.files.lookup (.avail ⟨j, e'⟩) := fun e' => hv.2 ⟨_, rfl, rfl⟩ _ ⟨_, rfl, rfl⟩
    have hanswer : (machine (.queue (.remove (.avail ⟨j, e⟩))) v).1 = true := by
      simpa [machine, QueueCall.step, hstill] using hthere e List.mem_cons_self
    rw [hanswer]
    refine ih hrest fun e' he' => ?_
    have hne : e' ≠ e := fun h => hfresh (h ▸ he')
    simpa [machine, QueueCall.step, FileTree.lookup_remove, hne, hstill] using
      hthere e' (List.mem_cons_of_mem e he')

theorem forM_deleteLease_renewed {f : Op α} (hf : ∀ w, JobRenewed j p d inAvail held f w) :
    JobRenewed j p d inAvail held ((held'.forM deleteLease).bind fun _ => f) w := by
  induction held' generalizing w with
  | nil => exact hf w
  | cons l rest ih =>
    change JobRenewed j p d inAvail held
      ((((Op.queue (.remove (.leased l))).bind fun _ => .ret ()).bind fun _ =>
        rest.forM deleteLease).bind fun _ => f) w
    rw [Prog.bind_assoc, Prog.bind_assoc]
    exact JobRenewed.store_bind fun v _ => ih

/-- Whatever the deletes take, what follows puts back. -/
theorem retireJob_renewed {f : Op α} {b : Bool} (hf : ∀ w, JobRenewed j p d inAvail held f w) :
    JobRenewed j p d inAvail held ((retireJob j b held').bind fun _ => f) w := by
  cases b with
  | false => exact forM_deleteLease_renewed hf
  | true =>
    change JobRenewed j p d inAvail held
      ((((Op.queue (.listAvailOf j)).bind fun ds => ds.forM fun e =>
        (Op.queue (.remove (.avail ⟨j, e⟩))).bind fun removed =>
          if removed then pure () else Op.fail .missing).bind fun _ =>
        held'.forM deleteLease).bind fun _ => f) w
    rw [Prog.bind_assoc, Prog.bind_assoc]
    refine JobRenewed.store_bind fun v _ => ?_
    exact removeListed_renewed nodup_listAvailOf (fun e he => mem_listAvailOf.mp he)
      fun w => forM_deleteLease_renewed hf

theorem NothingToDelete.still {w' : World} (h : NothingToDelete j inAvail held w)
    (hheld : ∀ l ∈ held, l.jobId = j) (hw : Still j w w') : NothingToDelete j inAvail held w' := by
  refine ⟨fun hin e => ?_, fun l hl => ?_⟩
  · rw [hw _ ⟨_, rfl, rfl⟩]
    exact h.1 hin e
  · rw [hw _ ⟨_, rfl, hheld l hl⟩]
    exact h.2 l hl

theorem forM_deleteLease_upheld {f : Op α} (hjob : ∀ l ∈ held', l.jobId = j)
    (hgone : ∀ l ∈ held', w.queue.files.lookup (.leased l) = none)
    (hf : ∀ w, JobUpheld j p d inAvail held f w) :
    JobUpheld j p d inAvail held ((held'.forM deleteLease).bind fun _ => f) w := by
  induction held' generalizing w with
  | nil => exact hf w
  | cons l rest ih =>
    change JobUpheld j p d inAvail held
      ((((Op.queue (.remove (.leased l))).bind fun _ => .ret ()).bind fun _ =>
        rest.forM deleteLease).bind fun _ => f) w
    rw [Prog.bind_assoc, Prog.bind_assoc]
    have hstill : ∀ v, TeardownRely j (.queue (.remove (.leased l))) w v → ∀ l' ∈ l :: rest,
        v.queue.files.lookup (.leased l') = none := by
      intro v hv l' hl'
      rw [hv.2 ⟨_, rfl, hjob l List.mem_cons_self⟩ _ ⟨_, rfl, hjob l' hl'⟩]
      exact hgone l' hl'
    refine JobUpheld.store_bind (fun v hv hkept => ?_) fun v hv _ => ?_
    · exact hkept.remove_absent (hstill v hv l List.mem_cons_self)
    · refine ih (fun l' hl' => hjob l' (List.mem_cons_of_mem l hl')) fun l' hl' => ?_
      simp only [machine, QueueCall.step, FileTree.lookup_remove]
      split
      · rfl
      · exact hstill v hv l' (List.mem_cons_of_mem l hl')

theorem retireJob_upheld {f : Op α} (hheld : ∀ l ∈ held, l.jobId = j)
    (h : NothingToDelete j inAvail held w) (hf : ∀ w, JobUpheld j p d inAvail held f w) :
    JobUpheld j p d inAvail held ((retireJob j inAvail held).bind fun _ => f) w := by
  cases inAvail with
  | false => exact forM_deleteLease_upheld hheld h.2 hf
  | true =>
    change JobUpheld j p d true held
      ((((Op.queue (.listAvailOf j)).bind fun ds => ds.forM fun e =>
        (Op.queue (.remove (.avail ⟨j, e⟩))).bind fun removed =>
          if removed then pure () else Op.fail .missing).bind fun _ =>
        held.forM deleteLease).bind fun _ => f) w
    rw [Prog.bind_assoc, Prog.bind_assoc]
    refine JobUpheld.store_bind (fun v _ hkept => hkept) fun v hv _ => ?_
    have hv' : NothingToDelete j true held v := h.still hheld (hv.2 rfl)
    have hnone : (machine (.queue (.listAvailOf j)) v).1 = [] := by
      refine List.eq_nil_iff_forall_not_mem.mpr fun e he => ?_
      have hthere := mem_listAvailOf.mp he
      rw [hv'.1 rfl e] at hthere
      cases hthere
    rw [hnone]
    exact forM_deleteLease_upheld hheld hv'.2 hf

theorem retireOrRestore_upheld {e : ExpiresAt} {body : Option Json}
    (hheld : ∀ l ∈ held, l.jobId = j)
    (h : body.isSome ∨ NothingToDelete j inAvail held w) :
    JobUpheld j p d inAvail held (retireOrRestore j inAvail held e body) w := by
  cases body with
  | some body => exact (retireJob_renewed fun w => restoreJoined_renewed).2
  | none =>
    obtain h | h := h
    · cases h
    refine retireJob_upheld hheld h fun w => ?_
    refine JobUpheld.store_bind (fun v _ hkept => hkept) fun v _ _ => ?_
    refine JobUpheld.store_bind (fun v _ hkept => hkept.frame rfl rfl fun h => h) fun v _ _ => ?_
    split <;> trivial

theorem endMembership_upheld {entry : Option AvailKey} (hp : p ≠ p')
    (hheld : ∀ l ∈ held, l.jobId = j) :
    JobUpheld j p d entry.isSome held (endMembership p' j entry held) w := by
  rw [endMembership_eq]
  refine Upholds.bind_of_calls (dropMembership_calls ?_ fun e => ?_) fun _ w => ?_
  · rintro w r w' ⟨⟨-, rfl⟩, -⟩ hkept
    exact hkept
  · rintro w r w' ⟨⟨-, rfl⟩, -⟩ hkept
    refine hkept.frame rfl rfl fun hm => ?_
    have hne : (j, p, d) ≠ (j, p', e) := by simp [hp]
    simpa [Member, machine, PlanCall.step, FileTree.lookup_remove, hne] using hm
  refine JobUpheld.store_bind (fun v _ hkept => hkept) fun v _ _ => ?_
  split
  · trivial
  cases entry with
  | some k =>
    rw [show bodyToRestore j (some k) held = (Op.queue (.read (.avail ⟨j, k.expiresAt⟩))).bind
      fun body => .ret (some (k.expiresAt, body)) from rfl, Prog.bind_assoc]
    exact JobUpheld.store_bind (fun v _ hkept => hkept) fun v _ hread =>
      retireOrRestore_upheld hheld (hread _ rfl)
  | none =>
    cases held with
    | nil => trivial
    | cons l rest =>
      rw [show bodyToRestore j none (l :: rest) = (Op.queue (.read (.leased l))).bind
        fun body => .ret (some (l.expiresAt, body)) from rfl, Prog.bind_assoc]
      exact JobUpheld.store_bind (fun v _ hkept => hkept) fun v _ hread =>
        retireOrRestore_upheld hheld (hread _ rfl)

def StagesRecordable (j : JobId) : StoreCall → Prop
  | .queue (.writeTmp _ b) => Recordable j b
  | _ => True

theorem read_sat {q : QueuePath} {f : Option Json → Op α} (hq : q.IsOf j)
    (hw : w.queue.RecordableFiles j)
    (hf : ∀ body, (∀ b ∈ body, Recordable j b) → (f body).Calls (StagesRecordable j)) :
    ((Op.queue (.read q)).bind f).Sat machine.clean (Heeds j) (fun c _ => StagesRecordable j c)
      (fun _ _ => True) w := by
  intro v hv
  refine ⟨trivial, fun r v' hout => ?_⟩
  obtain ⟨rfl, rfl⟩ := hout
  refine Sat.of_calls ((hf _ fun b hb => ?_).mono fun _ h _ => h)
  exact hv.2 hw q b (.inl hq) hb

theorem endMembership_sat {entry : Option AvailKey} (hw : w.queue.RecordableFiles j)
    (hheld : ∀ l ∈ held, l.jobId = j) :
    (endMembership p j entry held).Sat machine.clean (Heeds j) (fun c _ => StagesRecordable j c)
      (fun _ _ => True) w := by
  have hplans : ∀ {β : Type} {q : Op β} {w : World}, q.Calls (fun c => ∃ c', c = StoreCall.plans c') →
      w.queue.RecordableFiles j → q.Sat machine.clean (Heeds j) (fun c _ => StagesRecordable j c)
        (fun _ w => w.queue.RecordableFiles j) w := by
    intro β q w hq hw
    refine Sat.invariant (fun _ _ h hR => hR.2 h) (fun c w hc hw => ?_) hq hw
    obtain ⟨c, rfl⟩ := hc
    refine ⟨trivial, fun r w' hout => ?_⟩
    obtain ⟨-, rfl⟩ := hout
    exact hw
  have hrest : ∀ e body, (∀ b ∈ body, Recordable j b) →
      (retireOrRestore j entry.isSome held e body).Calls (StagesRecordable j) := fun e body hb =>
    retireOrRestore_calls (retireJob_calls trivial (fun _ => trivial) fun _ _ => trivial) trivial
      trivial hb trivial
  rw [endMembership_eq]
  refine (hplans (dropMembership_calls ⟨_, rfl⟩ fun _ => ⟨_, rfl⟩) hw).bind (fun _ v hv => ?_)
    fun _ _ _ _ _ => trivial
  refine (hplans (.store ⟨_, rfl⟩) hv).bind (fun remaining v hv => ?_) fun _ _ _ _ _ => trivial
  split
  · exact fun _ _ => trivial
  cases entry with
  | some k =>
    rw [show bodyToRestore j (some k) held = (Op.queue (.read (.avail ⟨j, k.expiresAt⟩))).bind
      fun body => .ret (some (k.expiresAt, body)) from rfl, Prog.bind_assoc]
    exact read_sat ⟨_, rfl, rfl⟩ hv (hrest k.expiresAt)
  | none =>
    cases held with
    | nil => exact fun _ _ => trivial
    | cons l rest =>
      rw [show bodyToRestore j none (l :: rest) = (Op.queue (.read (.leased l))).bind
        fun body => .ret (some (l.expiresAt, body)) from rfl, Prog.bind_assoc]
      exact read_sat ⟨_, rfl, hheld l List.mem_cons_self⟩ hv (hrest l.expiresAt)

end Teardown

structure PlanTeardown where
  planId : PlanId
  jobId : JobId
  membership : List JobPlanMarker
  avail : List AvailKey
  leases : List Lease
  done : Teardown

namespace PlanTeardown

variable (td : PlanTeardown)

def program : Op Teardown :=
  tearDownJob td.membership td.avail td.leases td.planId td.done td.jobId

def held : List Lease := td.leases.filter (·.jobId = td.jobId)

theorem jobId_of_held : ∀ l ∈ td.held, l.jobId = td.jobId := fun l hl => by
  simpa using (List.mem_filter.mp hl).2

def NothingLeft (w : World) : Prop :=
  NothingToDelete td.jobId (availByJob td.avail td.jobId).isSome td.held w

theorem program_cases : (∃ acc, td.program = .ret acc) ∨
    ∃ f : Except Fault JobFate → Teardown, td.program = (endMembership td.planId td.jobId
      (availByJob td.avail td.jobId) td.held).attempt.bind fun r => .ret (f r) := by
  unfold program tearDownJob
  split
  · exact .inl ⟨_, rfl⟩
  extract_lets entry held
  split
  · exact .inl ⟨_, rfl⟩
  · refine .inr ⟨fun
      | .ok .retired =>
        { td.done with retired := insert td.jobId td.done.retired,
                       perturbed := insert td.planId td.done.perturbed }
      | .ok (.released _) | .ok .alreadyGone =>
        { td.done with released := insert (td.planId, td.jobId) td.done.released }
      | .error _ => { td.done with failures := td.done.failures + 1 }, ?_⟩
    refine congrArg _ (funext fun r => ?_)
    match r with
    | .ok .retired => rfl
    | .ok (.released _) => rfl
    | .ok .alreadyGone => rfl
    | .error _ => rfl

def MayCall : StoreCall → Prop
  | .queue (.listAvailOf _) => True
  | .queue (.read q) => q.IsOf td.jobId
  | .queue (.remove q) => q.IsOf td.jobId
  | .queue (.writeTmp j _) => j = td.jobId
  | .queue (.rename src dst) => src = .tmp td.jobId ∧ dst.IsOf td.jobId
  | .plans (.listJobPlanMarkers _) => True
  | .plans (.deleteJobPlanMarker _ p _) => p = td.planId
  | .index (.writePendingReindexJob _) => True
  | _ => False

theorem program_calls : td.program.Calls td.MayCall := by
  obtain ⟨acc, h⟩ | ⟨f, h⟩ := td.program_cases
  · rw [h]
    exact .ret _
  · rw [h]
    refine .bind (.attempt (endMembership_calls ?_ td.jobId_of_held)) fun _ => .ret _
    exact
      { markers := trivial
        drop := fun _ => rfl
        list := trivial
        entry := fun d => ⟨⟨_, rfl, rfl⟩, ⟨_, rfl, rfl⟩⟩
        lease := fun l hl => ⟨⟨_, rfl, hl⟩, ⟨_, rfl, hl⟩⟩
        restore := fun d body => ⟨rfl, rfl, ⟨_, rfl, rfl⟩⟩
        flag := trivial }

theorem program_upholds {p : PlanId} {d : ExpiresAt} {w : World} (hp : p ≠ td.planId) :
    JobUpheld td.jobId p d (availByJob td.avail td.jobId).isSome td.held td.program w := by
  obtain ⟨acc, h⟩ | ⟨f, h⟩ := td.program_cases
  · rw [h]
    trivial
  · rw [h]
    exact (endMembership_upheld hp td.jobId_of_held).attempt.bind fun _ _ => trivial

theorem program_sat {w : World} (hw : w.queue.RecordableFiles td.jobId) :
    td.program.Sat machine.clean (Heeds td.jobId) (fun c _ => StagesRecordable td.jobId c)
      (fun _ _ => True) w := by
  obtain ⟨acc, h⟩ | ⟨f, h⟩ := td.program_cases
  · rw [h]
    exact fun _ _ => trivial
  · rw [h]
    exact (endMembership_sat hw td.jobId_of_held).attempt_bind fun _ _ _ _ _ => trivial

end PlanTeardown

namespace JoinRequest

def jobId : JoinRequest → JobId
  | tryJoin _ _ _ record _ => record.jobId
  | carry _ _ _ j _ => j

def planId : JoinRequest → PlanId
  | tryJoin ctx .. | carry ctx .. => ctx.planId

def horizon : JoinRequest → ExpiresAt
  | tryJoin _ _ _ _ planExpiry => planExpiry
  | carry _ _ _ _ horizon => horizon

end JoinRequest

section Join

variable {j : JobId} {p : PlanId} {d : ExpiresAt} {w : World} {α : Type}

abbrev Rejoins (j : JobId) (p : PlanId) (d : ExpiresAt) (q : Op α) (w : World) : Prop :=
  q.Restores machine.clean (fun _ _ _ => True) (MemberKept j p d) w

theorem Rejoins.store_bind {c : StoreCall} {f : c.Answer → Op α}
    (h : ∀ w', Rejoins j p d (f (machine c w').1) (machine c w').2) :
    Rejoins j p d ((store (I := Stores) c).bind f) w := by
  refine Restores.store_bind (fun w' _ a w'' hout => ?_) fun w' _ e w'' hout => ?_
  · obtain ⟨ha, rfl⟩ := hout
    cases ha
    exact h w'
  · cases hout.1

theorem alive_of_availState {e : ExpiresAt}
    (h : ((machine (.queue (.listAvailOf j)) w).1.head?.map fun e => (⟨j, e⟩ : AvailKey)).map
      (·.expiresAt) = some e) : Alive j w := by
  have hhead : (machine (.queue (.listAvailOf j)) w).1.head? = some e := by
    simpa [Option.map_map, Function.comp_def] using h
  exact .inl ⟨_, ⟨⟨j, e⟩, rfl, rfl⟩, mem_listAvailOf.mp (List.mem_of_mem_head? hhead)⟩

theorem alive_of_leasedExpiry {e : ExpiresAt} (h : leasedExpiry w.queue.leases j = some e) :
    Alive j w := by
  obtain ⟨l, hl, -⟩ := Option.map_eq_some_iff.mp h
  have hmem := List.mem_filter.mp (List.mem_of_getLast? hl)
  have hjob : l.jobId = j := by simpa using hmem.2
  exact .inl ⟨.leased l, ⟨_, rfl, hjob⟩, QueueState.mem_leases.mp hmem.1⟩

theorem Rejoins.availState_bind {f : Option ExpiresAt → Op α}
    (hsome : ∀ e w, MemberKept j p d w → Rejoins j p d (f (some e)) w)
    (hnone : ∀ w, Rejoins j p d (f none) w) : Rejoins j p d ((availState j).bind f) w := by
  rw [show availState j = ((Op.queue (.listAvailOf j)).bind fun ds =>
    .ret (ds.head?.map fun e => (⟨j, e⟩ : AvailKey))).bind fun k => .ret (k.map (·.expiresAt))
    from rfl, Prog.bind_assoc, Prog.bind_assoc]
  refine Rejoins.store_bind fun v => ?_
  simp only [ret_bind]
  cases h : ((machine (.queue (.listAvailOf j)) v).1.head?.map fun e => (⟨j, e⟩ : AvailKey)).map
      (·.expiresAt) with
  | none => exact hnone _
  | some e => exact hsome e v fun _ => alive_of_availState h

theorem Rejoins.hasRecordFrom_bind {places : List Place} {f : Bool → Op α}
    (hfound : ∀ w, MemberKept j p d w → Rejoins j p d (f true) w)
    (hnone : ∀ w, Rejoins j p d (f false) w) : Rejoins j p d ((hasRecordFrom places j).bind f) w := by
  induction places generalizing w with
  | nil => exact hnone w
  | cons place rest ih =>
    rw [show hasRecordFrom (place :: rest) j = (Op.records (.tryExists place j)).bind fun found =>
      if found then .ret true else hasRecordFrom rest j from rfl, Prog.bind_assoc]
    refine Rejoins.store_bind fun v => ?_
    cases h : (machine (.records (.tryExists place j)) v).1 with
    | false => exact ih
    | true => exact hfound v fun _ => .inr ⟨place, h⟩

theorem Rejoins.targetSurvives_bind {f : Bool → Op α}
    (hyes : ∀ w, MemberKept j p d w → Rejoins j p d (f true) w)
    (hno : ∀ w, Rejoins j p d (f false) w) : Rejoins j p d ((targetSurvives j).bind f) w := by
  rw [show targetSurvives j = (availState j).bind fun e =>
    if e.isSome then .ret true
    else (Op.queue .listLeased).bind fun leases =>
      if (leasedExpiry leases j).isSome then .ret true
      else (availState j).bind fun e => if e.isSome then .ret true else hasRecord j from rfl,
    Prog.bind_assoc]
  refine Rejoins.availState_bind (fun _ => hyes) fun v => ?_
  change Rejoins j p d (((Op.queue .listLeased).bind _).bind f) v
  rw [Prog.bind_assoc]
  refine Rejoins.store_bind fun v => ?_
  split
  · next hleased =>
    obtain ⟨e, he⟩ := Option.isSome_iff_exists.mp hleased
    exact hyes v fun _ => alive_of_leasedExpiry he
  · rw [Prog.bind_assoc]
    exact Rejoins.availState_bind (fun _ => hyes) fun v => Rejoins.hasRecordFrom_bind hyes hno

variable {ctx : MergeContext} {clock : Instant} {snapshot : Option (List Lease)}

theorem mends_of_look {c : StoreCall} (h : ∀ w, (machine c w).2 = w)
    (k : Except Fault c.Answer → Op α) :
    Mends machine.clean (fun _ _ _ => True) (MemberKept j p d) c k := by
  refine .of_keeps fun w r w' hout hw => ?_
  obtain ⟨-, rfl⟩ := hout
  rwa [h]

theorem confirmMembership_mends :
    (ctx.confirmMembership clock j d).CallsThen
      (Mends machine.clean (fun _ _ _ => True) (MemberKept j ctx.planId d)) := by
  have hlook : (targetSurvives j).Calls fun (c : StoreCall) => ∀ k : Except Fault c.Answer → Op Bool,
      Mends machine.clean (fun _ _ _ => True) (MemberKept j ctx.planId d) c k :=
    targetSurvives_calls (fun k => mends_of_look (fun _ => rfl) k)
      (fun k => mends_of_look (fun _ => rfl) k) fun _ k => mends_of_look (fun _ => rfl) k
  refine ⟨?_, fun r => ?_⟩
  · rintro w r w' ⟨rfl, rfl⟩ - -
    refine Rejoins.targetSurvives_bind (fun _ hw => hw) ?_
    rintro w v - - r v' ⟨rfl, rfl⟩
    intro hm
    simp [Member, machine, PlanCall.step] at hm
  · cases r with
    | error e => trivial
    | ok u =>
      refine CallsThen.bind (p := targetSurvives j) hlook fun survives => ?_
      split
      · trivial
      · refine ⟨.of_keeps ?_, fun r => by cases r <;> trivial⟩
        rintro w r w' ⟨-, rfl⟩ hkept
        refine hkept.frame rfl rfl fun hm => ?_
        simp [Member, machine, PlanCall.step] at hm

theorem JoinRequest.place_mends (r : JoinRequest) :
    r.place.CallsThen
      (Mends machine.clean (fun _ _ _ => True) (MemberKept r.jobId r.planId r.horizon)) := by
  have hstate : ∀ {β : Type} {snapshot : Option (List Lease)}, (officialState snapshot r.jobId).Calls
      fun (c : StoreCall) => ∀ k : Except Fault c.Answer → Op β, Mends machine.clean
        (fun _ _ _ => True) (MemberKept r.jobId r.planId r.horizon) c k :=
    officialState_calls (fun k => mends_of_look (fun _ => rfl) k) fun k =>
      mends_of_look (fun _ => rfl) k
  have hrecord : ∀ {β : Type}, (hasRecord r.jobId).Calls fun (c : StoreCall) =>
      ∀ k : Except Fault c.Answer → Op β, Mends machine.clean (fun _ _ _ => True)
        (MemberKept r.jobId r.planId r.horizon) c k :=
    hasRecord_calls fun _ k => mends_of_look (fun _ => rfl) k
  cases r with
  | tryJoin ctx clock snapshot record planExpiry =>
    refine CallsThen.mends_bind (.bind hstate fun state => ?_) fun attempt => ?_
    · obtain ⟨official | _, snapshot⟩ := state
      · simp only [pure_eq, bind_eq, ret_bind]
        split
        · trivial
        · refine CallsThen.mends_bind confirmMembership_mends fun confirmed => ?_
          split <;> trivial
      · trivial
    · split <;> trivial
  | carry ctx clock snapshot j horizon =>
    refine CallsThen.mends_bind (.bind hrecord fun found => ?_) fun _ => trivial
    split
    · trivial
    · refine .bind hstate fun state => ?_
      obtain ⟨official | _, snapshot⟩ := state
      · simp only [pure_eq, bind_eq, ret_bind]
        split
        · trivial
        · refine CallsThen.mends_bind confirmMembership_mends fun confirmed => ?_
          split <;> trivial
      · refine .bind hrecord fun found => ?_
        split <;> trivial

def LeavesMember (j : JobId) (p : PlanId) (d : ExpiresAt) (w w' : World) : Prop :=
  (Member j p d w → Member j p d w') ∧ (w.records.Recorded j → w'.records.Recorded j)

instance : Std.Refl (LeavesMember j p d) := ⟨fun _ => ⟨fun h => h, fun h => h⟩⟩

instance : IsTrans World (LeavesMember j p d) :=
  ⟨fun _ _ _ h h' => ⟨fun hm => h'.1 (h.1 hm), fun hr => h'.2 (h.2 hr)⟩⟩

abbrev JoinSat (j : JobId) (p : PlanId) (d : ExpiresAt) (q : Op α)
    (Q : Except Fault α → World → Prop) (w : World) : Prop :=
  q.Sat machine.clean (LeavesMember j p d) (fun _ _ => True) Q w

theorem confirmMembership_sat :
    JoinSat j ctx.planId d (ctx.confirmMembership clock j d)
      (fun r w => r = .ok true → Member j ctx.planId d w) w := by
  have hlook : ∀ {w : World}, Member j ctx.planId d w →
      JoinSat j ctx.planId d (targetSurvives j) (fun _ w => Member j ctx.planId d w) w := by
    intro w hw
    refine Sat.invariant (P := fun c => ∀ w, (machine c w).2 = w) (fun _ _ h hR => hR.1 h)
      (fun c w hc hw => ⟨trivial, fun r w' hout => ?_⟩) ?_ hw
    · obtain ⟨-, rfl⟩ := hout
      rwa [hc]
    · exact targetSurvives_calls (fun _ => rfl) (fun _ => rfl) fun _ _ => rfl
  intro v hv
  refine ⟨trivial, ?_⟩
  rintro r v' ⟨rfl, rfl⟩
  have hmember : Member j ctx.planId d
      (machine (.plans (.writeJobPlanMarker j ctx.planId d clock)) v).2 := by
    simp [Member, machine, PlanCall.step]
  refine (hlook hmember).bind (fun survives u hu => ?_) fun e u _ u' _ he => by cases he
  cases survives with
  | true => exact fun u' hR _ => hR.1 hu
  | false =>
    refine Sat.bind (Sat.of_calls (.attempt (.store fun _ => trivial))) (fun _ _ _ _ _ hr => ?_)
      fun e _ _ _ _ he => by cases he
    cases hr

theorem JoinRequest.place_sat (r : JoinRequest) :
    JoinSat r.jobId r.planId r.horizon r.place (fun a w => ∀ target, a = .ok (some target) →
      Member r.jobId r.planId r.horizon w ∨ w.records.Recorded r.jobId) w := by
  have hstate : ∀ {w : World} {snapshot : Option (List Lease)}, JoinSat r.jobId r.planId r.horizon
      (officialState snapshot r.jobId) (fun _ _ => True) w :=
    Sat.of_calls (officialState_calls (fun _ => trivial) fun _ => trivial)
  have hrecord : ∀ {w : World}, JoinSat r.jobId r.planId r.horizon (hasRecord r.jobId)
      (fun a w => True ∧ (a = .ok true → w.records.Recorded r.jobId)) w :=
    hasRecordFrom_sat (fun _ _ _ _ => trivial) (fun _ _ h hR => hR.2 h) (fun _ _ => trivial)
      (fun _ h => h) trivial
  cases r with
  | tryJoin ctx clock snapshot record planExpiry =>
    have habsent : ∀ snapshot target snapshot', (ctx.classifyAbsent record, snapshot) ≠
        (JoinAttempt.joined target, (snapshot' : Option (List Lease))) := by
      intro snapshot target snapshot' he
      simp only [MergeContext.classifyAbsent] at he
      split at he <;> cases he
    refine Sat.bind (Q := fun a w => ∀ target snapshot, a = .ok (.joined target, snapshot) →
      Member record.jobId ctx.planId planExpiry w) (hstate.bind (fun state v _ => ?_) ?_)
      (fun attempt v hv => ?_) fun e _ _ _ _ _ he => by cases he
    · obtain ⟨official | _, snapshot⟩ := state
      · simp only [pure_eq, bind_eq, ret_bind]
        split
        · exact fun _ _ target s he => absurd (Except.ok.inj he) (habsent _ target s)
        · refine confirmMembership_sat.bind (fun confirmed u hu => ?_)
            fun e _ _ _ _ _ _ he => by cases he
          cases confirmed with
          | true => exact fun u' hR _ _ _ => hR.1 (hu rfl)
          | false => exact fun _ _ _ _ he => by cases he
      · exact fun _ _ target s he => absurd (Except.ok.inj he) (habsent _ target s)
    · exact fun e _ _ _ _ _ _ he => by cases he
    · obtain ⟨attempt, snapshot⟩ := attempt
      cases attempt with
      | joined target => exact fun u hR _ _ => .inl (hR.1 (hv target snapshot rfl))
      | declined => exact fun _ _ _ he => by cases he
      | stale => exact fun _ _ _ he => by cases he
  | carry ctx clock snapshot j horizon =>
    refine Sat.bind (Q := fun a w => ∀ target snapshot, a = .ok (some target, snapshot) →
      Member j ctx.planId horizon w ∨ w.records.Recorded j) (hrecord.bind (fun found v hv => ?_) ?_)
      (fun placed v hv => ?_) fun e _ _ _ _ _ he => by cases he
    · cases found with
      | true => exact fun u hR _ _ _ => .inr (hR.2 (hv.2 rfl))
      | false =>
        refine hstate.bind (fun state v _ => ?_) fun e _ _ _ _ _ _ he => by cases he
        obtain ⟨official | _, snapshot⟩ := state
        · simp only [pure_eq, bind_eq, ret_bind]
          split
          · exact fun _ _ _ _ he => by cases he
          · refine confirmMembership_sat.bind (fun confirmed u hu => ?_)
              fun e _ _ _ _ _ _ he => by cases he
            cases confirmed with
            | true => exact fun u' hR _ _ _ => .inl (hR.1 (hu rfl))
            | false => exact fun _ _ _ _ he => by cases he
        · refine hrecord.bind (fun found u hu => ?_) fun e _ _ _ _ _ _ he => by cases he
          cases found with
          | true => exact fun u' hR _ _ _ => .inr (hR.2 (hu.2 rfl))
          | false => exact fun _ _ _ _ he => by cases he
    · exact fun e _ _ _ _ _ _ he => by cases he
    · obtain ⟨target, snapshot⟩ := placed
      rintro u hR target' he
      cases he
      exact (hv target' snapshot rfl).imp hR.1 hR.2

end Join

inductive Party (ι : Type)
  | teardown
  | join
  | other (i : ι)
deriving DecidableEq

namespace Party

variable {ι : Type}

abbrev Result : Party ι → Type
  | teardown => Teardown
  | join => Option JoinTarget
  | other _ => Unit

variable (td : PlanTeardown) (req : JoinRequest) (actors : ι → QueueActor)

def program : (i : Party ι) → Op i.Result
  | teardown => td.program
  | join => req.place
  | other i => (actors i).program

def Rely : Party ι → World → World → Prop
  | join => LeavesMember td.jobId req.planId req.horizon
  | teardown | other _ => Heeds td.jobId

def Guard : Party ι → StoreCall → World → Prop
  | teardown, c, _ => td.MayCall c ∧ StagesRecordable td.jobId c
  | join, c, _ => JoinCall c ∧ True
  | other i, c, w => (actors i).MayCall c ∧ (RemovesEntry td.jobId c → w.records.Recorded td.jobId)

def Post : (i : Party ι) → Except Fault i.Result → World → Prop
  | join, r, w => ∀ target, r = .ok (some target) →
    Member td.jobId req.planId req.horizon w ∨ w.records.Recorded td.jobId
  | teardown, _, _ | other _, _, _ => True

/-- The parties that can leave a member without its job for a while. -/
def Mender : Party ι → Prop
  | other _ => False
  | teardown | join => True

def outcomes : Party ι → Outcomes Stores World
  | teardown => teardownOutcomes td.jobId (availByJob td.avail td.jobId).isSome td.held
  | join | other _ => machine.clean

def Frame : Party ι → StoreCall → World → World → Prop
  | teardown => TeardownRely td.jobId
  | join | other _ => fun _ _ _ => True

instance (i : Party ι) : Std.Refl (i.Rely td req) := by
  cases i
  · exact inferInstanceAs (Std.Refl (Heeds _))
  · exact inferInstanceAs (Std.Refl (LeavesMember _ _ _))
  · exact inferInstanceAs (Std.Refl (Heeds _))

instance (i : Party ι) : IsTrans World (i.Rely td req) := by
  cases i
  · exact inferInstanceAs (IsTrans World (Heeds _))
  · exact inferInstanceAs (IsTrans World (LeavesMember _ _ _))
  · exact inferInstanceAs (IsTrans World (Heeds _))

instance (i : Party ι) (c : StoreCall) : IsTrans World (i.Frame td c) := by
  cases i
  · exact inferInstanceAs (IsTrans World (TeardownRely _ c))
  · exact ⟨fun _ _ _ _ _ => trivial⟩
  · exact ⟨fun _ _ _ _ _ => trivial⟩

variable {td req actors} {i : Party ι} {c : StoreCall} {w : World}

theorem Guard.heeds (h : i.Guard td actors c w) : Heeds td.jobId w (machine c w).2 := by
  cases i with
  | other i => exact h.1.queueActor.heeds
  | join =>
    cases c with
    | queue c => cases c <;> first | exact h.1.elim | exact refl_of (Heeds _) _
    | records c => cases c <;> first | exact h.1.elim | exact refl_of (Heeds _) _
    | plans c => exact ⟨fun h => h, fun h => h⟩
    | _ => exact h.1.elim
  | teardown =>
    obtain ⟨hmay, hstage⟩ := h
    cases c with
    | queue c =>
      refine ⟨fun h => h, fun hf => ?_⟩
      cases c with
      | writeTmp j b =>
        rintro q b' hq hb'
        simp only [machine, QueueCall.step, FileTree.lookup_write] at hb'
        split at hb'
        · cases hb'
          exact hstage
        · exact hf q b' hq hb'
      | rename src dst =>
        obtain ⟨rfl, hdst⟩ := hmay
        intro q b hq hb
        simp only [machine, QueueState.step_rename] at hb
        cases hmove : w.queue.files.rename (.tmp td.jobId) dst with
        | none =>
          rw [hmove] at hb
          exact hf q b hq hb
        | some files =>
          rw [hmove] at hb
          simp only [FileTree.lookup_rename hmove] at hb
          split at hb
          · exact hf _ b (.inr rfl) hb
          · split at hb
            · cases hb
            · exact hf q b hq hb
      | remove q' =>
        intro q b hq hb
        simp only [machine, QueueCall.step, FileTree.lookup_remove] at hb
        split at hb
        · cases hb
        · exact hf q b hq hb
      | _ => exact hf
    | index c => exact ⟨fun h => h, fun h => h⟩
    | plans c => exact ⟨fun h => h, fun h => h⟩
    | _ => exact hmay.elim

theorem Guard.leavesMember (h : i.Guard td actors c w) (hi : i ≠ .join)
    (hplan : req.planId ≠ td.planId) :
    LeavesMember td.jobId req.planId req.horizon w (machine c w).2 := by
  refine ⟨fun hm => ?_, h.heeds.1⟩
  cases i with
  | join => exact absurd rfl hi
  | other i => rwa [Member, h.1.queueActor.plans]
  | teardown =>
    cases c with
    | plans c =>
      cases c with
      | deleteJobPlanMarker j p d =>
        have hp : p = td.planId := h.1
        have hne : (td.jobId, req.planId, req.horizon) ≠ (j, p, d) := by simp [hp, hplan]
        simpa [Member, machine, PlanCall.step, FileTree.lookup_remove, hne] using hm
      | listJobPlanMarkers => exact hm
      | _ => exact h.1.elim
    | _ => exact hm

theorem Guard.tmp (h : i.Guard td actors c w) (hi : i ≠ .teardown) :
    (machine c w).2.queue.files.lookup (.tmp td.jobId) =
      w.queue.files.lookup (.tmp td.jobId) := by
  cases c with
  | queue c =>
    cases i with
    | teardown => exact absurd rfl hi
    | other i => exact h.1.queueActor.onEntries.tmp
    | join => cases c <;> first | exact h.1.elim | rfl
  | _ => rfl

end Party

def Touches (j : JobId) (w : World) : StoreCall → Prop
  | .queue (.rename q _) | .queue (.remove q) => q.IsOf j ∧ (w.queue.files.lookup q).isSome
  | _ => False

theorem QueueActorCall.still {j : JobId} {w : World} {c : StoreCall} (h : QueueActorCall c)
    (hc : ¬ Touches j w c) : Still j w (machine c w).2 := by
  intro q hq
  cases c with
  | queue c =>
    cases c with
    | rename src dst =>
      obtain ⟨k, k', hsrc, hdst, hjob⟩ := h.onEntries
      cases hmove : w.queue.files.rename src dst with
      | none => simp [machine, QueueState.step_rename, hmove]
      | some files =>
        have hthere : (w.queue.files.lookup src).isSome := by
          obtain ⟨b, hb, -⟩ := FileTree.rename_eq_some hmove
          simp [hb]
        have hother : ¬ src.IsOf j := fun hof => hc ⟨hof, hthere⟩
        obtain ⟨k₀, hk₀, hj⟩ := hq
        have hqs : q ≠ src := by
          rintro rfl
          exact hother ⟨k₀, hk₀, hj⟩
        have hqd : q ≠ dst := by
          rintro rfl
          cases hdst.symm.trans hk₀
          exact hother ⟨k, hsrc, hjob.symm.trans hj⟩
        simp [machine, QueueState.step_rename, hmove, FileTree.lookup_rename hmove, hqs, hqd]
    | remove q' =>
      simp only [machine, QueueCall.step, FileTree.lookup_remove]
      split
      · next he =>
        subst he
        have hnone : ¬ (w.queue.files.lookup q).isSome := fun hthere => hc ⟨hq, hthere⟩
        simpa using (Option.not_isSome_iff_eq_none.mp hnone).symm
      · rfl
    | writeTmp => exact h.onEntries.elim
    | _ => rfl
  | _ => rfl

section Runs

open Prog.Pool

variable {ι : Type} {w : World} {td : PlanTeardown} {req : JoinRequest} {actors : ι → QueueActor}

def joinPool (w : World) (td : PlanTeardown) (req : JoinRequest) (actors : ι → QueueActor) :
    Pool Stores World (Party ι) Party.Result :=
  ⟨w, Party.program td req actors⟩

def Untouched (td : PlanTeardown) (t : Pool Stores World (Party ι) Party.Result) :
    Party ι → StoreCall → Prop
  | .other _, c => ∀ c', (t.procs .teardown).Heads c' → RetireCall td.jobId c' →
    ¬ Touches td.jobId t.world c
  | .teardown, _ | .join, _ => True

def Undisturbed (td : PlanTeardown) (t : Pool Stores World (Party ι) Party.Result) (i : Party ι)
    (c : StoreCall) : Prop :=
  Untouched td t i c ∧ (i = .teardown → ∀ q, c = .queue (.read q) →
    (t.world.queue.files.lookup q).isSome ∨ td.NothingLeft t.world)

structure Joining (td : PlanTeardown) (req : JoinRequest) (actors : ι → QueueActor)
    (t : Pool Stores World (Party ι) Party.Result) : Prop where
  sat : ∀ i, (t.procs i).Sat machine.clean (i.Rely td req) (i.Guard td actors) (i.Post td req) t.world
  upheld : Upheld (Party.outcomes td) (Party.Frame td)
    (MemberKept td.jobId req.planId req.horizon) Party.Mender t

variable [DecidableEq ι]

theorem Joining.step {t u : Pool Stores World (Party ι) Party.Result} {i : Party ι} {c : StoreCall}
    (hplan : req.planId ≠ td.planId) (h : Joining td req actors t) (hcond : Undisturbed td t i c)
    (hs : Step machine.clean t i c u) : Joining td req actors u := by
  have hworld : u.world = (machine c t.world).2 := by
    cases hs with
    | mk hcall hout => exact hout.2
  have hstep := hs.sat h.sat fun i' hi' hG => ?_
  · obtain ⟨hG, hsat⟩ := hstep
    refine ⟨hsat, h.upheld.step (fun hi r w' hout => ?_) (fun hi => ?_) (fun i' hi' hm c' hc' => ?_)
      (fun hi hkept => ?_) hs⟩
    · cases i with
      | teardown => exact ⟨hout, hcond.2 rfl⟩
      | join => exact hout
      | other i => exact hout
    · cases i with
      | teardown => exact ⟨rfl, fun _ _ _ => rfl⟩
      | join => trivial
      | other i => trivial
    · cases i' with
      | join => trivial
      | other i' => trivial
      | teardown =>
        rw [hworld]
        refine ⟨hG.tmp (Ne.symm hi'), fun hretire => ?_⟩
        cases i with
        | teardown => exact absurd rfl hi'
        | join =>
          intro q _
          cases c with
          | queue c => cases c <;> first | exact hG.1.elim | rfl
          | _ => rfl
        | other i => exact hG.1.queueActor.still (hcond.1 c' hc' hretire)
    · cases i with
      | teardown => exact absurd trivial hi
      | join => exact absurd trivial hi
      | other i =>
        intro hm
        rw [hworld] at hm ⊢
        refine hG.1.queueActor.alive hG.2 (hkept ?_)
        rwa [Member, hG.1.queueActor.plans] at hm
  · rw [hworld]
    cases i' with
    | join => exact hG.leavesMember (Ne.symm hi') hplan
    | teardown => exact hG.heeds
    | other i' => exact hG.heeds

/-- A plan joins or carries a job while another plan's teardown ends it, among any number of requests
and settling passes: if nobody touches the job between the teardown's read of the body and its last
delete, the read misses no job that a delete finds, and no call fails, then a plan that was given
the job finds it in `avail/` or `leased/`, or with its record, once both have ended. -/
theorem confirmed_join_kept {t : Pool Stores World (Party ι) Party.Result} {target : JoinTarget}
    (hfiles : w.queue.RecordableFiles td.jobId) (hinformed : ∀ i, (actors i).Informed td.jobId)
    (hjob : req.jobId = td.jobId) (hplan : req.planId ≠ td.planId)
    (hkept : MemberKept td.jobId req.planId req.horizon w)
    (h : Reach machine.clean (Undisturbed td) (joinPool w td req actors) t)
    (htorn : (t.procs .teardown).outcome.isSome) (hjoined : t.procs .join = .ret (some target)) :
    (∃ k ∈ t.world.queue.availKeys, k.jobId = td.jobId) ∨
      (∃ l ∈ t.world.queue.leases, l.jobId = td.jobId) ∨ t.world.records.Recorded td.jobId := by
  have hrun : Joining td req actors t := by
    refine h.invariant (Joining td req actors) ⟨fun i => ?_, fun i hi => ?_, .inl hkept⟩
      fun t i c u ht hcond hs => ht.step hplan hcond hs
    · cases i with
      | teardown => exact (td.program_sat hfiles).and_calls td.program_calls
      | join =>
        have hsat := hjob ▸ req.place_sat (w := w)
        exact hsat.and_calls req.place_joining
      | other i => exact (QueueActor.mindful (hinformed i) hfiles).and_calls (actors i).program_calls
    · cases i with
      | teardown => exact td.program_upholds hplan
      | join =>
        have hmends := hjob ▸ req.place_mends
        exact .of_mends hmends
      | other i => exact hi.elim
  have hjoin := hrun.sat .join
  rw [hjoined] at hjoin
  have hmember := hjoin t.world (refl_of (LeavesMember _ _ _) _) target rfl
  have halive : Alive td.jobId t.world := by
    obtain hmember | hrec := hmember
    · refine hrun.upheld.holds (fun i hi => ?_) hmember
      cases i with
      | teardown => exact htorn
      | join =>
        rw [hjoined]
        rfl
      | other i => exact hi.elim
    · exact .inr hrec
  obtain ⟨q, ⟨k, hk, hj⟩, hthere⟩ | hrec := halive
  · cases q with
    | avail k' =>
      cases hk
      exact .inl ⟨k, QueueState.mem_availKeys.mpr hthere, hj⟩
    | leased l =>
      cases hk
      exact .inr (.inl ⟨l, QueueState.mem_leases.mpr hthere, hj⟩)
    | tmp => cases hk
  · exact .inr (.inr hrec)

end Runs

def joinableWorld (j : JobId) (p : PlanId) (client : ClientId) : World :=
  { World.empty with
    queue := ⟨(∅ : FileTree _ _).insert (.avail ⟨j, .never⟩)
      (.obj [("job_id", .str j.raw), ("spec", .obj [("benchmark", .str "bench")])])⟩
    index := { World.empty.index with eligible := (∅ : FileTree _ _).insert ⟨client, j, .never⟩ () }
    plans := { World.empty.plans with jobPlans := (∅ : FileTree _ _).insert (j, p, .never) 0 } }

def oneClaim (client : ClientId) : Unit → QueueActor :=
  fun _ => .claim ⟨60, 3⟩ 5 ⟨client, .approved, {}, ∅⟩ fun _ => 0

def changesFile : StoreCall → Bool
  | .queue (.rename _ _) | .queue (.remove _) => true
  | _ => false

def retires : StoreCall → Bool
  | .queue (.listAvailOf _) | .queue (.remove _) => true
  | _ => false

def readMisses (w : World) : StoreCall → Bool
  | .queue (.read q) => (w.queue.files.lookup q).isNone
  | _ => false

theorem Untouched.of_still {ι : Type} {td : PlanTeardown}
    {t : Prog.Pool Stores World (Party ι) Party.Result}
    (h : ((t.next .teardown).all fun c => !retires c) ∨
      ∀ i, (t.next (.other i)).all fun c => !changesFile c) :
    ∀ i, ∀ c ∈ t.next i, Untouched td t i c := by
  intro i c hc
  cases i with
  | teardown => trivial
  | join => trivial
  | other i =>
    rintro c' ⟨k, hk⟩ hretire htouch
    obtain hcalm | hstill := h
    · rw [Prog.Pool.next, hk] at hcalm
      cases c' with
      | queue c' => cases c' <;> first | exact hretire.elim | cases hcalm
      | _ => exact hretire.elim
    · have hno := hstill i
      rw [hc] at hno
      cases c with
      | queue c => cases c <;> first | exact htouch.elim | cases hno
      | _ => exact htouch.elim

theorem Undisturbed.of_still {ι : Type} {td : PlanTeardown}
    {t : Prog.Pool Stores World (Party ι) Party.Result}
    (h : ((t.next .teardown).all fun c => !retires c) ∨
      ∀ i, (t.next (.other i)).all fun c => !changesFile c)
    (hread : (t.next .teardown).all fun c => !readMisses t.world c) :
    ∀ i, ∀ c ∈ t.next i, Undisturbed td t i c := by
  refine fun i c hc => ⟨Untouched.of_still h i c hc, ?_⟩
  rintro rfl q rfl
  rw [hc] at hread
  have hthere : (t.world.queue.files.lookup q).isNone = false := by simpa [readMisses] using hread
  exact .inl (by simpa [Option.isSome_iff_ne_none] using hthere)

/-- A plan joins between the read of the body and the deletes; the job is put back, and then
claimed. -/
theorem confirmed_join_kept_claimed :
    let j : JobId := ⟨"job"⟩
    let client : ClientId := ⟨"client"⟩
    let w := joinableWorld j ⟨"old"⟩ client
    let td : PlanTeardown := ⟨⟨"old"⟩, j, [⟨j, ⟨"old"⟩, .never, 0⟩], [⟨j, .never⟩], [], ⟨∅, ∅, ∅, 0⟩⟩
    let req : JoinRequest := .tryJoin ⟨⟨"new"⟩, 5, 60⟩ 5 none ⟨j, ⟨"old"⟩, 0, 0⟩ .never
    let t := (joinPool w td req (oneClaim client)).play machine (List.replicate 4 .teardown ++
      List.replicate 9 .join ++ List.replicate 9 .teardown ++ List.replicate 20 (.other ()))
    t.world.queue.files.keys = [.leased ⟨j, .never, client, ⟨60⟩⟩] ∧
      ((∃ k ∈ t.world.queue.availKeys, k.jobId = j) ∨ (∃ l ∈ t.world.queue.leases, l.jobId = j) ∨
        t.world.records.Recorded j) := by
  intro j client w td req t
  have hfiles : w.queue.RecordableFiles j := by
    intro p b _ hb
    simp only [w, joinableWorld, FileTree.lookup_write] at hb
    split at hb
    · cases hb
      exact recordable_of_spec rfl rfl (by decide +kernel)
    · cases hb
  have hkept : MemberKept td.jobId req.planId req.horizon w := fun hm =>
    absurd hm (by unfold Member; decide +kernel)
  have hrun : Prog.Pool.Reach machine.clean (Undisturbed td) (joinPool w td req (oneClaim client))
      t := by
    refine .play_next fun u hu => Undisturbed.of_still ?_ ?_
    · revert u
      decide +kernel
    · revert u
      decide +kernel
  have hjoined : (t.procs .join).outcome = some (.ok (some ⟨j, .never, .acrossPlans, false⟩)) := by
    decide +kernel
  have hinformed : ∀ i, (oneClaim client i).Informed td.jobId := fun _ => trivial
  exact ⟨by decide +kernel, confirmed_join_kept hfiles hinformed rfl (by decide) hkept hrun
    (by decide +kernel) (outcome_eq_ok.mp hjoined)⟩

/-- The job is claimed between the run's listings of `avail/` and `leased/`: the teardown reads the
body where it no longer is, deletes the lease, and has nothing to put back for the plan that has
joined. -/
theorem confirmed_join_lost :
    let j : JobId := ⟨"job"⟩
    let client : ClientId := ⟨"client"⟩
    let w := joinableWorld j ⟨"old"⟩ client
    let td : PlanTeardown := ⟨⟨"old"⟩, j, [⟨j, ⟨"old"⟩, .never, 0⟩], [⟨j, .never⟩],
      [⟨j, .never, client, ⟨60⟩⟩], ⟨∅, ∅, ∅, 0⟩⟩
    let req : JoinRequest := .tryJoin ⟨⟨"new"⟩, 5, 60⟩ 5 none ⟨j, ⟨"old"⟩, 0, 0⟩ .never
    let s := joinPool w td req (oneClaim client)
    let claimed := s.play machine (List.replicate 20 (.other ()))
    let t := claimed.play machine (List.replicate 4 .teardown ++ List.replicate 9 .join ++
      List.replicate 9 .teardown)
    (w.queue.availKeys = td.avail ∧ claimed.world.queue.leases = td.leases) ∧
      Prog.Pool.Reach machine.clean (Untouched td) s t ∧ (t.procs .teardown).outcome.isSome ∧
      t.procs .join = .ret (some ⟨j, .never, .acrossPlans, false⟩) ∧
      t.world.queue.files.keys = [] ∧ ¬ t.world.records.Recorded j := by
  intro j client w td req s claimed t
  have hclaim : Prog.Pool.Reach machine.clean (Untouched td) s claimed :=
    .play_next fun u hu => Untouched.of_still (by revert u; decide +kernel)
  have hrun : Prog.Pool.Reach machine.clean (Untouched td) claimed t :=
    .play_next fun u hu => Untouched.of_still (by revert u; decide +kernel)
  have hjoined : (t.procs .join).outcome = some (.ok (some ⟨j, .never, .acrossPlans, false⟩)) := by
    decide +kernel
  exact ⟨by decide +kernel, hclaim.trans hrun, by decide +kernel, outcome_eq_ok.mp hjoined,
    by decide +kernel, by decide +kernel⟩

end Pipette
