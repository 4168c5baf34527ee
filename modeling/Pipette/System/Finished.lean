import Pipette.System.OneEntry

/-! A job with a record is not handed out again: who writes the record also takes the job's entry
out of `avail/`, as long as no one puts it back behind that. -/
namespace Pipette

open Prog (Calls CallsThen)

def QueueState.Available (s : QueueState) (j : JobId) : Prop := ∃ k ∈ s.availKeys, k.jobId = j

instance (s : QueueState) (j : JobId) : Decidable (s.Available j) :=
  inferInstanceAs (Decidable (∃ k ∈ s.availKeys, k.jobId = j))

def Shrinks (j : JobId) (w w' : World) : Prop :=
  w.records.Recorded j → w'.records.Recorded j ∧
    ∀ k ∈ w'.queue.availKeys, k.jobId = j → k ∈ w.queue.availKeys

instance (j : JobId) : Std.Refl (Shrinks j) := ⟨fun _ h => ⟨h, fun _ hk _ => hk⟩⟩

instance (j : JobId) : IsTrans World (Shrinks j) where
  trans _ _ _ h h' hrec :=
    ⟨(h' (h hrec).1).1, fun k hk hj => (h hrec).2 k ((h' (h hrec).1).2 k hk hj) hj⟩

def Single (j : JobId) (w : World) : Prop :=
  w.records.Recorded j ∧
    ∀ k ∈ w.queue.availKeys, ∀ k' ∈ w.queue.availKeys, k.jobId = j → k'.jobId = j → k = k'

def Retired (j : JobId) (w : World) : Prop := w.records.Recorded j ∧ ¬ w.queue.Available j

variable {j : JobId} {w w' : World}

theorem Single.shrinks (h : Single j w) (hw : Shrinks j w w') : Single j w' := by
  obtain ⟨hrec, hsub⟩ := hw h.1
  exact ⟨hrec, fun k hk k' hk' hj hj' => h.2 k (hsub k hk hj) k' (hsub k' hk' hj') hj hj'⟩

theorem Retired.shrinks (h : Retired j w) (hw : Shrinks j w w') : Retired j w' := by
  obtain ⟨hrec, hsub⟩ := hw h.1
  refine ⟨hrec, ?_⟩
  rintro ⟨k, hk, hj⟩
  exact h.2 ⟨k, hsub k hk hj, hj⟩

theorem OneEntry.single (hone : w.queue.OneEntry) (hrec : w.records.Recorded j) : Single j w := by
  refine ⟨hrec, fun k hk k' hk' hj hj' => ?_⟩
  obtain ⟨b, hb⟩ := Option.isSome_iff_exists.mp (QueueState.mem_availKeys.mp hk)
  obtain ⟨b', hb'⟩ := Option.isSome_iff_exists.mp (QueueState.mem_availKeys.mp hk')
  have hpath := hone (.avail k) (.avail k') k k' b b' ⟨rfl, hb⟩ ⟨rfl, hb'⟩ (hj.trans hj'.symm)
  exact QueuePath.avail.inj hpath

def Removal : StoreCall → Prop
  | .queue (.rename _ _) | .queue (.writeTmp _ _) => False
  | .queue _ => True
  | _ => False

theorem mem_availKeys_remove {s : QueueState} {p : QueuePath} {k : AvailKey} :
    k ∈ ((QueueCall.remove p).step s).2.availKeys ↔ .avail k ≠ p ∧ k ∈ s.availKeys := by
  rw [QueueState.mem_availKeys, QueueState.mem_availKeys]
  by_cases hp : QueuePath.avail k = p <;> simp [QueueCall.step, FileTree.lookup_remove, hp]

theorem Removal.shrinks {c : StoreCall} (h : Removal c) : Shrinks j w (machine c w).2 := by
  cases c with
  | queue c =>
    cases c with
    | rename => exact h.elim
    | writeTmp => exact h.elim
    | remove p => exact fun hrec => ⟨hrec, fun k hk _ => (mem_availKeys_remove.mp hk).2⟩
    | _ => exact fun hrec => ⟨hrec, fun k hk _ => hk⟩
  | _ => exact h.elim

theorem removeAll_removal (deadlines : List ExpiresAt) :
    (deadlines.forM fun d => do
      if ← Op.queue (.remove (.avail ⟨j, d⟩)) then pure () else Op.fail .missing : Op Unit).Calls
        Removal := by
  refine .forM fun d _ => .bind (.store trivial) fun removed => ?_
  split
  · exact .ret _
  · exact .fail _

def Retires (j : JobId) {α : Type} (p : Op α) (w : World) : Prop :=
  p.Sat machine.clean (Shrinks j) (fun c w => Shrinks j w (machine c w).2)
    (fun _ w => Retired j w) w

theorem retires_of_retired {α : Type} {p : Op α} (hp : p.Calls Removal) (h : Retired j w) :
    Retires j p w := by
  refine .invariant (fun v v' hv hw => hv.shrinks hw) (fun c v hc hv => ?_) hp h
  refine ⟨hc.shrinks, fun r v' hout => ?_⟩
  obtain ⟨-, rfl⟩ := hout
  exact hv.shrinks hc.shrinks

theorem deleteAvailByJob_retires (h : Single j w) : Retires j (deleteAvailByJob j) w := by
  intro v hv
  have hsingle := h.shrinks hv
  refine ⟨Removal.shrinks trivial, fun r v' hout => ?_⟩
  obtain ⟨rfl, rfl⟩ := hout
  change Retires j (List.forM ((v.queue.availKeys.filter (·.jobId = j)).map (·.expiresAt)) _) v
  cases hkeys : v.queue.availKeys.filter (·.jobId = j) with
  | nil =>
    refine retires_of_retired (.ret _) ⟨hsingle.1, ?_⟩
    rintro ⟨k, hk, hj⟩
    have hmem : k ∈ v.queue.availKeys.filter (·.jobId = j) := by simp [hk, hj]
    rw [hkeys] at hmem
    cases hmem
  | cons k rest =>
    intro u hu
    refine ⟨Removal.shrinks trivial, fun r u' hout => ?_⟩
    obtain ⟨rfl, rfl⟩ := hout
    have hk : k ∈ v.queue.availKeys.filter (·.jobId = j) := hkeys ▸ List.mem_cons_self
    simp only [List.mem_filter, decide_eq_true_eq] at hk
    have hkey : (⟨j, k.expiresAt⟩ : AvailKey) = k := by rw [← hk.2]
    have hgone : Retired j (machine (.queue (.remove (.avail ⟨j, k.expiresAt⟩))) u).2 := by
      refine ⟨(hu hsingle.1).1, ?_⟩
      rintro ⟨k', hk', hj⟩
      obtain ⟨hne, hmem⟩ := mem_availKeys_remove.mp hk'
      have hmem' := (hu hsingle.1).2 k' hmem hj
      rw [hkey] at hne
      exact hne (congrArg _ (hsingle.2 k' hmem' k hk.1 hj hk.2))
    have hcalls := removeAll_removal (j := j) (k.expiresAt :: rest.map (·.expiresAt))
    exact retires_of_retired
      (hcalls.2 (.ok (machine (.queue (.remove (.avail ⟨j, k.expiresAt⟩))) u).1)) hgone

theorem dropLease_ends {c : ClientId} :
    (dropLease c j).Sat machine.clean (Shrinks j) (fun c w => Shrinks j w (machine c w).2)
      (fun r _ => ∃ a, r = .ok a) w := by
  have hremoval : ∀ c, Removal c → ∀ v, Shrinks j v (machine c v).2 := fun c hc v => hc.shrinks
  have hown : (ownLease c j).Calls Removal := .bind (.store trivial) fun _ => .ret _
  refine (Prog.Sat.attempt_ok (hown.mono hremoval)).bind (fun r v _ => ?_) ?_
  · match r with
    | .ok none => exact fun _ _ => ⟨(), rfl⟩
    | .error _ => exact fun _ _ => ⟨(), rfl⟩
    | .ok (some l) =>
      have hdelete : (deleteLease l).Calls Removal := .void (.store trivial)
      refine (Prog.Sat.attempt_ok (hdelete.mono hremoval)).bind (fun _ _ _ _ _ => ⟨(), rfl⟩) ?_
      rintro e v ⟨a, ha⟩
      cases ha
  · rintro e v ⟨a, ha⟩
    cases ha

theorem teardownCompletedJob_retires {c : ClientId} (sched : List Bool) (h : Single j w) :
    Retires j (teardownCompletedJob sched c j) w := by
  have havail : Retires j (dropAvail j) w := by
    have hdelete : Retires j (deleteAvailByJob j).attempt w :=
      Prog.Sat.attempt (deleteAvailByJob_retires h)
    refine hdelete.bind (fun _ v hv => ?_) ?_
    · exact retires_of_retired (.ret _) hv
    · exact fun _ v hv v' hw => hv.shrinks hw
  have hpair : Retires j (Prog.par sched (dropLease c j) (dropAvail j)) w := by
    refine .par sched (.same ?_) (fun _ _ _ _ hv => hv) ?_ (fun _ _ hv => hv) dropLease_ends havail
    · rintro c v r v' hc ⟨-, rfl⟩
      exact hc
    · rintro e v ⟨a, ha⟩
      cases ha
  refine hpair.bind (fun _ v hv => retires_of_retired (.ret _) hv) ?_
  exact fun _ v hv v' hw => hv.shrinks hw

def QueueActor.OnLease : QueueActor → Prop
  | .heartbeat .. => True
  | .submit _ _ _ _ _ held claimed => held = false ∧ claimed = true
  | .maintain _ _ (.leases _) => True
  | _ => False

/-- What they call: the lease pass never re-dates, so its calls are allowed at every clock. -/
def LeaseCall (c : StoreCall) : Prop := SubmissionCall c ∨ ∀ clock, SettlingCall clock c

def TearsDown : (c : StoreCall) → (Except Fault c.Answer → Op Unit) → Prop
  | .records (.write .incoming j _), k => ∀ w, Single j w → Retires j (k (.ok ())) w
  | _, _ => True

theorem DeviceCall.tearsDown {c : StoreCall} (h : DeviceCall c)
    (k : Except Fault c.Answer → Op Unit) : TearsDown c k := by
  cases c with
  | records c => cases c <;> first | exact h.elim | trivial
  | _ => trivial

theorem SettlingCall.tearsDown {c : StoreCall} {now : Instant} (h : SettlingCall now c)
    (k : Except Fault c.Answer → Op Unit) : TearsDown c k := by
  cases c with
  | records c => cases c <;> first | exact h.elim | trivial
  | _ => trivial

theorem submitBenchmark_tearsDown {cfg : Config} {now : Instant} {sched : List Bool} {c : ClientId}
    {s : Submission} : (submitBenchmark cfg now sched c s false true).CallsThen TearsDown := by
  refine .bind (p := bindClaim cfg now c s) (bindClaim_device.mono fun _ h => h.tearsDown)
    fun _ => ?_
  simp only [Bool.not_false, Bool.and_self, Bool.true_and]
  split
  · exact .of_calls (handleRetriableFailure_device.mono fun _ h => h.tearsDown)
  · refine ⟨fun v hv => teardownCompletedJob_retires sched hv, fun r => ?_⟩
    cases r with
    | ok _ => exact .of_calls (teardownCompletedJob_device.mono fun _ h => h.tearsDown)
    | error e => trivial

namespace QueueActor

variable {a : QueueActor}

theorem OnLease.calls (h : a.OnLease) : a.program.Calls LeaseCall := by
  cases a with
  | heartbeat => exact .void (heartbeat_device.mono fun _ h => .inl h.submission)
  | submit => exact submitBenchmark_calls.mono fun _ h => .inl h
  | maintain catalog now pass =>
    cases pass with
    | leases limit =>
      have hall : (settleExpiredLeases catalog limit now).Calls fun c =>
          ∀ clock, SettlingCall clock c := .all fun clock => settleExpiredLeases_settling
      exact .void (hall.mono fun _ h => .inr h)
    | _ => exact h.elim
  | _ => exact h.elim

theorem OnLease.tearsDown (h : a.OnLease) : a.program.CallsThen TearsDown := by
  cases a with
  | heartbeat => exact .of_calls (.void (heartbeat_device.mono fun _ h => h.tearsDown))
  | submit =>
    obtain ⟨rfl, rfl⟩ := h
    exact submitBenchmark_tearsDown
  | maintain catalog now pass =>
    cases pass with
    | leases limit =>
      exact .of_calls (.void (settleExpiredLeases_settling.mono fun _ (h : SettlingCall now _) =>
        h.tearsDown))
    | _ => exact h.elim
  | _ => exact h.elim

end QueueActor

theorem ExpiresAt.exists_not_isExpired (d : ExpiresAt) : ∃ clock, d.isExpired clock = false := by
  cases d with
  | atStamp s => exact ⟨s.instant, by simp [isExpired]⟩
  | never => exact ⟨0, rfl⟩

theorem LeaseCall.recycle {src : QueuePath} {k : AvailKey}
    (h : LeaseCall (.queue (.rename src (.avail k)))) : ∃ l, src = .leased l ∧ l.availKey = k := by
  cases src with
  | leased l =>
    obtain h | h := h
    · exact ⟨l, rfl, Eq.symm h⟩
    · exact ⟨l, rfl, Eq.symm (h 0)⟩
  | avail k₀ =>
    obtain h | h := h
    · exact h.elim
    · obtain ⟨clock, hclock⟩ := k₀.expiresAt.exists_not_isExpired
      exact absurd (h clock).2 (by simp [hclock])
  | tmp j =>
    obtain h | h := h
    · exact h.elim
    · exact (h 0).elim

theorem LeaseCall.availKeys {c : QueueCall} {s : QueueState} {k : AvailKey}
    (h : LeaseCall (.queue c)) (hk : k ∈ (c.step s).2.availKeys) :
    k ∈ s.availKeys ∨ ∃ l, c = .rename (.leased l) (.avail k) ∧ l.jobId = k.jobId ∧
      (s.files.lookup (.leased l)).isSome := by
  cases c with
  | rename src dst =>
    rw [QueueState.step_rename] at hk
    cases hmove : s.files.rename src dst with
    | none => exact .inl (by simpa [hmove] using hk)
    | some files =>
      rw [hmove, QueueState.mem_availKeys, FileTree.lookup_rename hmove] at hk
      split at hk
      · next hdst =>
        subst hdst
        obtain ⟨l, rfl, hl⟩ := h.recycle
        exact .inr ⟨l, rfl, congrArg AvailKey.jobId hl, hk⟩
      · split at hk
        · cases hk
        · exact .inl (QueueState.mem_availKeys.mpr hk)
  | remove p => exact .inl (mem_availKeys_remove.mp hk).2
  | writeTmp j body =>
    rw [QueueState.mem_availKeys] at hk ⊢
    exact .inl (by simpa [QueueCall.step, FileTree.lookup_write] using hk)
  | _ => exact .inl hk

theorem recorded_insert {s : RecordState} {p : Place} {j' : JobId} {body : Json} :
    ({ s with places := s.places.insert (p, j') body } : RecordState).Recorded j ↔
      j = j' ∨ s.Recorded j := by
  simp only [RecordState.Recorded, FileTree.lookup_write, Prod.mk.injEq]
  constructor
  · rintro ⟨q, hq⟩
    split at hq
    · next h => exact .inl h.2
    · exact .inr ⟨q, hq⟩
  · rintro (rfl | ⟨q, hq⟩)
    · exact ⟨p, by simp⟩
    · refine ⟨q, ?_⟩
      split
      · rfl
      · exact hq

theorem LeaseCall.recorded {c : StoreCall} (h : LeaseCall c) :
    (machine c w).2.records.Recorded j ↔ w.records.Recorded j ∨
      (∃ body, c = .records (.write .incoming j body)) ∨
      ∃ body, c = .records (.create .incoming j body) := by
  cases c with
  | records c =>
    cases c with
    | write p j' body =>
      have hp : p = .incoming := by
        cases p <;> first | rfl | exact h.elim (fun h => h.elim) fun h => (h 0).elim
      subst hp
      rw [show (machine (.records (.write .incoming j' body)) w).2.records.Recorded j ↔ _ from
        recorded_insert]
      simp [or_comm, eq_comm]
    | create p j' body =>
      have hp : p = .incoming := by
        cases p <;> first | rfl | exact h.elim (fun h => h.elim) fun h => (h 0).elim
      subst hp
      by_cases hthere : (w.records.places.lookup (.incoming, j')).isSome
      · have hsame : (machine (.records (.create .incoming j' body)) w).2.records = w.records := by
          simp [machine, RecordCall.step, hthere]
        rw [hsame]
        constructor
        · exact .inl
        · rintro (hrec | ⟨b, hb⟩ | ⟨b, hb⟩)
          · exact hrec
          · cases hb
          · cases hb
            exact ⟨.incoming, hthere⟩
      · have hnew : (machine (.records (.create .incoming j' body)) w).2.records =
            { w.records with places := w.records.places.insert (.incoming, j') body } := by
          simp [machine, RecordCall.step, hthere]
        rw [hnew, recorded_insert]
        simp [or_comm, eq_comm]
    | tryExists p j' => simp [machine, RecordCall.step]
    | writeUnverified c j' body => simp [machine, RecordCall.step, RecordState.Recorded]
    | _ => exact h.elim (fun h => h.elim) fun h => (h 0).elim
  | _ => simp [machine]

section Runs

open Prog Prog.Pool

variable {ι : Type} {actors : ι → QueueActor} {t u : Pool Stores World ι fun _ => Unit}

/-- No lease of a recorded job is recycled, and no retirement makes the first record of a job that
is in `avail/`. -/
def KeepsFinished (t : Pool Stores World ι fun _ => Unit) (_ : ι) : StoreCall → Prop
  | .queue (.rename (.leased l) (.avail _)) =>
    t.world.records.Recorded l.jobId → (t.world.queue.files.lookup (.leased l)).isNone
  | .records (.create _ j _) => t.world.queue.Available j → t.world.records.Recorded j
  | _ => True

/-- What holds of one job along a run: once it has a record it is out of `avail/`, or a process is
still taking it out. -/
def Retiring (j : JobId) (t : Pool Stores World ι fun _ => Unit) : Prop :=
  t.world.records.Recorded j → Retired j t.world ∨ ∃ i, Retires j (t.procs i) t.world

theorem KeepsFinished.shrinks {i : ι} {c : StoreCall} (hcond : KeepsFinished t i c)
    (hcall : LeaseCall c) : Shrinks j t.world (machine c t.world).2 := by
  intro hrec
  refine ⟨hcall.recorded.mpr (.inl hrec), fun k hk hj => ?_⟩
  cases c with
  | queue c =>
    obtain hk | ⟨l, rfl, hl, hthere⟩ := hcall.availKeys hk
    · exact hk
    · have hgone := hcond (by rwa [hl, hj])
      rw [Option.isNone_iff_eq_none.mp hgone] at hthere
      cases hthere
  | _ => exact hk

theorem Retiring.step [DecidableEq ι] {i : ι} {c : StoreCall} (hone : u.world.queue.OneEntry)
    (hcall : LeaseCall c) (hthen : ∀ i, (t.procs i).CallsThen TearsDown)
    (hcond : KeepsFinished t i c) (hs : Step machine.clean t i c u) (h : Retiring j t) :
    Retiring j u := by
  intro hrec
  have hshrinks : Shrinks j t.world (machine c t.world).2 := hcond.shrinks hcall
  cases hs with
  | @mk k r w' hproc hout =>
    obtain ⟨rfl, rfl⟩ := hout
    by_cases hrec₀ : t.world.records.Recorded j
    · -- whoever was taking the job out goes on, whoever moves
      obtain hretired | ⟨i', hretires⟩ := h hrec₀
      · exact .inl (hretired.shrinks hshrinks)
      · refine .inr ⟨i', ?_⟩
        by_cases hi : i' = i
        · subst hi
          rw [hproc] at hretires
          have hnext := (hretires t.world (refl_of (Shrinks j) _)).2 _ _ ⟨rfl, rfl⟩
          simpa [Retires] using hnext
        · simpa [Retires, Function.update_of_ne hi] using Sat.stable hretires hshrinks
    · obtain hold | ⟨body, rfl⟩ | ⟨body, rfl⟩ := hcall.recorded.mp hrec
      · exact absurd hold hrec₀
      · -- a submission writes the record and goes on to its teardown
        have hi := hthen i
        rw [hproc] at hi
        have hnext := hi.1 _ (OneEntry.single hone hrec)
        exact .inr ⟨i, by simpa using hnext⟩
      · -- a retirement writes the record of a job that is not in `avail/`
        exact .inl ⟨hrec, fun havail => hrec₀ (hcond havail)⟩

/-- From a queue with one entry per job and no recorded job in `avail/`: heartbeats, submissions on
a lease and lease passes in any order, every call answered. If no recycle moves the lease of a
recorded job, and no retirement makes the first record of a job in `avail/`, then no recorded job
is in `avail/` once all have finished. -/
theorem finished_not_available [DecidableEq ι] {w : World} (hone : w.queue.OneEntry)
    (hstart : ∀ j, w.records.Recorded j → ¬ w.queue.Available j) (hact : ∀ i, (actors i).OnLease)
    (h : Reach machine.clean KeepsFinished (queuePool w actors) t) (hdone : t.Finished) (j : JobId)
    (hrec : t.world.records.Recorded j) : ¬ t.world.queue.Available j := by
  let Inv (u : Pool Stores World ι fun _ => Unit) : Prop :=
    Reach machine.faulty (fun _ _ _ => True) (queuePool w actors) u ∧
      (∀ i, (u.procs i).Calls LeaseCall) ∧ (∀ i, (u.procs i).CallsThen TearsDown) ∧ Retiring j u
  have hinv : Inv t := by
    refine h.invariant Inv ?_ ?_
    · exact ⟨.refl, fun i => (hact i).calls, fun i => (hact i).tearsDown,
        fun hrec => .inl ⟨hrec, hstart j hrec⟩⟩
    · rintro u i c v ⟨hreach, hcalls, hthen, hret⟩ hcond hs
      have hreach' := hreach.tail trivial (hs.mono fun _ _ _ _ hout => .inl hout)
      have hone' := (queuePool_invariant hone hreach').1.1
      obtain ⟨hcall, hcalls'⟩ := hs.calls hcalls
      exact ⟨hreach', hcalls', hs.callsThen hthen, hret.step hone' hcall hthen hcond hs⟩
  obtain hretired | ⟨i, hretires⟩ := hinv.2.2.2 hrec
  · exact hretired.2
  · obtain ⟨a, ha⟩ | ⟨e, he⟩ := hdone i
    · rw [ha] at hretires
      exact (hretires t.world (refl_of (Shrinks j) _)).2
    · rw [he] at hretires
      exact (hretires t.world (refl_of (Shrinks j) _)).2

end Runs

def leasedWorld (j : JobId) (client : ClientId) : World :=
  { World.empty with
    queue := ⟨(∅ : FileTree _ _).insert (.leased ⟨j, .never, client, ⟨0⟩⟩) (.obj [])⟩ }

theorem leasedWorld_start {j : JobId} {client : ClientId} :
    (leasedWorld j client).queue.OneEntry ∧ ∀ j', (leasedWorld j client).records.Recorded j' →
      ¬ (leasedWorld j client).queue.Available j' := by
  constructor
  · exact QueueState.oneEntry_of_pairwise (List.pairwise_singleton _ _)
  · rintro j' ⟨p, hp⟩
    cases hp

instance {ι : Type} (t : Prog.Pool Stores World ι fun _ => Unit) (i : ι) (c : StoreCall) :
    Decidable (KeepsFinished t i c) := by
  unfold KeepsFinished
  split <;> infer_instance

/-- A success renews the lapsed lease before the lease pass can recycle it. -/
theorem finished_not_available_renewed :
    let j : JobId := ⟨"job"⟩
    let actors : Bool → QueueActor
      | true => .submit ⟨60, 3⟩ 1 [] ⟨"client"⟩ ⟨j, .success, .obj []⟩ false true
      | false => .maintain (fun _ => true) 1 (.leases 3)
    let t := (queuePool (leasedWorld j ⟨"client"⟩) actors).play machine
      (List.replicate 3 false ++ List.replicate 12 true ++ List.replicate 12 false)
    t.world.records.Recorded j ∧ ¬ t.world.queue.Available j := by
  intro j actors t
  have hrec : t.world.records.Recorded j := by decide +kernel
  have hdone : t.Finished := Prog.Pool.finished_iff.mpr (by decide +kernel)
  have hrun : Prog.Pool.Reach machine.clean KeepsFinished
      (queuePool (leasedWorld j ⟨"client"⟩) actors) t := .play_next (by decide +kernel)
  have hact : ∀ i, (actors i).OnLease := by
    intro i
    cases i
    · trivial
    · exact ⟨rfl, rfl⟩
  exact ⟨hrec, finished_not_available leasedWorld_start.1 leasedWorld_start.2 hact hrun hdone j
    hrec⟩

/-- A success and a retriable failure of one lease holder: the failure renews the lease behind the
success's look at it and recycles it behind the success's look at `avail/`. -/
theorem finished_available_again :
    ∃ (w : World) (actors : Bool → QueueActor) (t : Prog.Pool Stores World Bool fun _ => Unit)
      (j : JobId), w.queue.OneEntry ∧ (∀ j, w.records.Recorded j → ¬ w.queue.Available j) ∧
      (∀ i, (actors i).OnLease) ∧
      Prog.Pool.Reach machine.clean (fun _ _ _ => True) (queuePool w actors) t ∧ t.Finished ∧
      t.world.records.Recorded j ∧ t.world.queue.Available j := by
  let j : JobId := ⟨"job"⟩
  let actors : Bool → QueueActor
    | true => .submit ⟨60, 3⟩ 1 [] ⟨"client"⟩ ⟨j, .success, .obj []⟩ false true
    | false => .submit ⟨60, 3⟩ nanosPerSec [] ⟨"client"⟩ ⟨j, .failure true, .obj []⟩ false true
  let sched : List Bool :=
    List.replicate 8 true ++ List.replicate 5 false ++ List.replicate 2 true ++
      List.replicate 4 false
  refine ⟨leasedWorld j ⟨"client"⟩, actors,
    (queuePool (leasedWorld j ⟨"client"⟩) actors).play machine sched, j, leasedWorld_start.1,
    leasedWorld_start.2, ?_, .play fun _ _ => trivial, Prog.Pool.finished_iff.mpr ?_, ?_, ?_⟩
  · intro i
    cases i <;> exact ⟨rfl, rfl⟩
  · decide +kernel
  · decide +kernel
  · decide +kernel

end Pipette
