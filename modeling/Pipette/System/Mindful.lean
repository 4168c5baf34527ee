import Pipette.System.Finished
import Pipette.System.Restore

/-! No request and no settling pass removes an entry of a job before the job has a record. -/
namespace Pipette

open Prog

def Recordable (j : JobId) (body : Json) : Prop :=
  ∀ source, ∃ record, systemFailureFromJobBody body source = .ok (j, record)

theorem recordable_of_spec {j : JobId} {body : Json} {benchmark : String}
    (hjob : (body.get "job_id").bind Json.asStr = some j.raw)
    (hbenchmark : specBenchmark body = some benchmark)
    (hids : (isBenchmarkId benchmark && isJobId j.raw) = true) : Recordable j body := by
  intro source
  simp only [systemFailureFromJobBody, hjob, hbenchmark, hids, if_true]
  exact ⟨_, rfl⟩

def QueueState.RecordableFiles (s : QueueState) (j : JobId) : Prop :=
  ∀ p b, p.IsOf j ∨ p = .tmp j → s.files.lookup p = some b → Recordable j b

def RemovesEntry (j : JobId) : StoreCall → Prop
  | .queue (.remove p) => p.IsOf j
  | _ => False

def QueueCall.OnEntries : QueueCall → Prop
  | .rename src dst => (QueueCall.rename src dst).KeepsJobs
  | .writeTmp _ _ | .remove (.tmp _) => False
  | _ => True

/-- What the processes around a queue do to a job: a record stays, and a failure can be recorded
from every file. -/
def Heeds (j : JobId) (w w' : World) : Prop :=
  (w.records.Recorded j → w'.records.Recorded j) ∧
    (w.queue.RecordableFiles j → w'.queue.RecordableFiles j)

instance {j : JobId} : Std.Refl (Heeds j) := ⟨fun _ => ⟨fun h => h, fun h => h⟩⟩

instance {j : JobId} : IsTrans World (Heeds j) :=
  ⟨fun _ _ _ h h' => ⟨fun hr => h'.1 (h.1 hr), fun hf => h'.2 (h.2 hf)⟩⟩

def QueueActorCall (c : StoreCall) : Prop := SubmissionCall c ∨ ∃ now, SettlingCall now c

section Calls

variable {j : JobId} {w : World} {c : StoreCall}

theorem DeviceCall.queueActor (h : DeviceCall c) : QueueActorCall c := .inl h.submission

theorem QueueActor.MayCall.queueActor {a : QueueActor} (h : a.MayCall c) : QueueActorCall c := by
  cases a with
  | maintain catalog now pass => exact .inr ⟨now, h⟩
  | submit => exact .inl h
  | _ => exact DeviceCall.queueActor h

theorem QueueActorCall.onEntries {c : QueueCall} (h : QueueActorCall (.queue c)) : c.OnEntries := by
  obtain h | ⟨now, h⟩ := h
  · cases c with
    | rename => exact QueueCall.ByDevice.keepsJobs h
    | remove p => cases p <;> first | exact h.elim | trivial
    | writeTmp => exact h.elim
    | _ => trivial
  · cases c with
    | rename => exact QueueCall.BySettling.keepsJobs h
    | remove p => cases p <;> first | exact h.elim | trivial
    | writeTmp => exact h.elim
    | _ => trivial

theorem QueueCall.OnEntries.keepsJobs {c : QueueCall} (h : c.OnEntries) : c.KeepsJobs := by
  cases c with
  | rename => exact h
  | _ => trivial

theorem QueueCall.OnEntries.tmp {c : QueueCall} {s : QueueState} (h : c.OnEntries) :
    (c.step s).2.files.lookup (.tmp j) = s.files.lookup (.tmp j) := by
  cases c with
  | rename src dst =>
    obtain ⟨k, k', hsrc, hdst, -⟩ := h
    rw [QueueState.step_rename]
    cases hmove : s.files.rename src dst with
    | none => rfl
    | some files =>
      have hne : ∀ {p : QueuePath} {k : AvailKey}, p.queued = some k → .tmp j ≠ p := by
        rintro p k hp rfl
        cases hp
      simp only [FileTree.lookup_rename hmove]
      rw [if_neg (hne hdst), if_neg (hne hsrc)]
  | remove p =>
    cases p with
    | tmp => exact h.elim
    | _ => simp [QueueCall.step]
  | writeTmp => exact h.elim
  | _ => rfl

theorem QueueCall.OnEntries.recordableFiles {c : QueueCall} {s : QueueState} (hc : c.OnEntries)
    (h : s.RecordableFiles j) : (c.step s).2.RecordableFiles j := by
  rintro p b (⟨k, hk, hj⟩ | rfl) hb
  · obtain ⟨q, k', hq, hk', -⟩ := hc.keepsJobs.origin ⟨hk, hb⟩
    exact h q b (.inl ⟨k', hq.1, hk'.trans hj⟩) hq.2
  · exact h _ b (.inr rfl) (hc.tmp ▸ hb)

theorem QueueActorCall.recorded (h : QueueActorCall c) (hw : w.records.Recorded j) :
    (machine c w).2.records.Recorded j := by
  cases c with
  | records c =>
    cases c with
    | write p j' body => exact recorded_insert.mpr (.inr hw)
    | create p j' body =>
      simp only [machine, RecordCall.step]
      split
      · exact hw
      · exact recorded_insert.mpr (.inr hw)
    | remove => obtain h | ⟨now, h⟩ := h <;> exact h.elim
    | _ => exact hw
  | _ => exact hw

theorem QueueActorCall.heeds (h : QueueActorCall c) : Heeds j w (machine c w).2 := by
  refine ⟨h.recorded, fun hf => ?_⟩
  cases c with
  | queue c => exact h.onEntries.recordableFiles hf
  | _ => exact hf

end Calls

/-- The program removes an entry of the job only once the job has a record, and ends with `Q`. -/
abbrev Minds (j : JobId) {α : Type} (p : Op α) (Q : Except Fault α → World → Prop) (w : World) :
    Prop :=
  p.Sat machine.clean (Heeds j) (fun c w => RemovesEntry j c → w.records.Recorded j) Q w

abbrev Mindful (j : JobId) {α : Type} (p : Op α) (w : World) : Prop :=
  Minds j p (fun _ w => w.queue.RecordableFiles j) w

section Programs

variable {j : JobId} {w : World} {α β : Type}

theorem mindful_of_calls {p : Op α} (h : p.Calls fun c => QueueActorCall c ∧ ¬ RemovesEntry j c)
    (hw : w.queue.RecordableFiles j) : Mindful j p w := by
  refine Sat.invariant (fun _ _ h hR => hR.2 h) (fun c w hc hw => ?_) h hw
  refine ⟨fun hremove => absurd hremove hc.2, fun r w' hout => ?_⟩
  obtain ⟨-, rfl⟩ := hout
  exact hc.1.heeds.2 hw

theorem mindful_of_recorded {p : Op α} (h : p.Calls QueueActorCall)
    (hw : w.queue.RecordableFiles j) (hrec : w.records.Recorded j) : Mindful j p w := by
  have hsat : Minds j p (fun _ w => w.records.Recorded j ∧ w.queue.RecordableFiles j) w := by
    refine Sat.invariant (fun _ _ h hR => ⟨hR.1 h.1, hR.2 h.2⟩) (fun c w hc hw => ?_) h ⟨hrec, hw⟩
    refine ⟨fun _ => hw.1, fun r w' hout => ?_⟩
    obtain ⟨-, rfl⟩ := hout
    exact ⟨hc.heeds.1 hw.1, hc.heeds.2 hw.2⟩
  exact hsat.mono (fun _ _ h => h) fun _ _ h => h.2

theorem Mindful.bind {p : Op α} {f : α → Op β} (hp : Mindful j p w)
    (hf : ∀ a w, w.queue.RecordableFiles j → Mindful j (f a) w) : Mindful j (p.bind f) w :=
  Sat.bind hp (fun a w hw => hf a w hw) fun _ _ hw _ hR => hR.2 hw

theorem hasRecordFrom_sat {R : World → World → Prop} {G : StoreCall → World → Prop}
    {J A : World → Prop} {j' : JobId} {places : List Place} (hJ : ∀ w w', J w → R w w' → J w')
    (hA : ∀ w w', A w → R w w' → A w') (hG : ∀ p w, G (.records (.tryExists p j')) w)
    (hfound : ∀ w, w.records.Recorded j' → A w) (hw : J w) :
    (hasRecordFrom places j').Sat machine.clean R G (fun r w => J w ∧ (r = .ok true → A w)) w := by
  induction places generalizing w with
  | nil => exact fun w' hR => ⟨hJ w w' hw hR, by rintro ⟨⟩⟩
  | cons p rest ih =>
    intro v hv
    refine ⟨hG p v, fun r v' hout => ?_⟩
    obtain ⟨rfl, rfl⟩ := hout
    change ((ret ((v.records.places.lookup (p, j')).isSome) : Op Bool).bind fun found =>
      if found then pure true else hasRecordFrom rest j').Sat _ _ _ _ v
    have hJv : J v := hJ w v hw hv
    cases hthere : (v.records.places.lookup (p, j')).isSome with
    | false => exact ih hJv
    | true => exact fun u hu => ⟨hJ v u hJv hu, fun _ => hA v u (hfound v ⟨p, hthere⟩) hu⟩

theorem hasRecord_minds {j' : JobId} (hw : w.queue.RecordableFiles j) :
    Minds j (hasRecord j') (fun r w => w.queue.RecordableFiles j ∧
      (r = .ok true → j' = j → w.records.Recorded j)) w :=
  hasRecordFrom_sat (fun _ _ h hR => hR.2 h) (fun _ _ h hR hj => hR.1 (h hj)) (fun _ _ h => h.elim)
    (fun _ hrec hj => hj ▸ hrec) hw

theorem hasRecord_bind_mindful {j' : JobId} {f : Bool → Op α} (hw : w.queue.RecordableFiles j)
    (hfound : (f true).Calls fun c => QueueActorCall c ∧ (j' ≠ j → ¬ RemovesEntry j c))
    (hfree : ∀ w, w.queue.RecordableFiles j → Mindful j (f false) w) :
    Mindful j ((hasRecord j').bind f) w := by
  refine (hasRecord_minds hw).bind (fun found v hv => ?_) fun _ _ hv _ hR => hR.2 hv.1
  cases found with
  | false => exact hfree v hv.1
  | true =>
    by_cases hj : j' = j
    · exact mindful_of_recorded (hfound.mono fun _ h => h.1) hv.1 (hv.2 rfl hj)
    · exact mindful_of_calls (hfound.mono fun _ h => ⟨h.1, h.2 hj⟩) hv.1

theorem removesEntry_leased {l : Lease} (h : l.jobId ≠ j) :
    ¬ RemovesEntry j (.queue (.remove (.leased l))) := by
  rintro ⟨k, hk, hj⟩
  cases hk
  exact h hj

theorem removesEntry_avail {k : AvailKey} (h : k.jobId ≠ j) :
    ¬ RemovesEntry j (.queue (.remove (.avail k))) := by
  rintro ⟨k', hk, hj⟩
  cases hk
  exact h hj

theorem resolveOrRecycleLease_mindful {l : Lease} (hw : w.queue.RecordableFiles j) :
    Mindful j (resolveOrRecycleLease l) w := by
  refine hasRecord_bind_mindful hw ?_ fun v hv => ?_
  · refine .bind (.void (.store ⟨.inl trivial, removesEntry_leased⟩)) fun _ => .ret _
  · refine mindful_of_calls (.bind (.store ⟨.inl rfl, fun h => h⟩) fun moved => ?_) hv
    split <;> exact .ret _

theorem mindful_requesting :
    Requesting fun {_} p => ∀ w, w.queue.RecordableFiles j → Mindful j p w where
  ret := fun _ _ hw => mindful_of_calls (.ret _) hw
  fail := fun e _ hw => mindful_of_calls (.fail (I := Stores) e) hw
  bind := fun hp hf w hw => (hp w hw).bind hf
  attempt := fun hp w hw => Sat.attempt (hp w hw)
  store := fun c h hno w hw => by
    refine mindful_of_calls (.store ⟨h.device.queueActor, fun hr => hno ?_⟩) hw
    cases c with
    | queue c => cases c <;> first | exact hr.elim | trivial
    | _ => exact hr.elim
  resolve := fun _ _ hw => resolveOrRecycleLease_mindful hw
  grant := fun c h hno w hw => by
    refine mindful_of_calls (.store ⟨h.queueActor, fun hr => hno ?_⟩) hw
    cases c with
    | queue c => cases c <;> first | exact hr.elim | trivial
    | _ => exact hr.elim

theorem handleRetriableFailure_calls {sched : List Bool} {c : ClientId} {j' : JobId} :
    (handleRetriableFailure sched c j').Calls fun c => QueueActorCall c ∧ ¬ RemovesEntry j c := by
  have hlease : (ownLease c j').Calls fun c => QueueActorCall c ∧ ¬ RemovesEntry j c :=
    .bind (.store ⟨.inl trivial, fun h => h⟩) fun _ => .ret _
  refine .bind (.par sched (.attempt (.store ⟨.inl trivial, fun h => h⟩)) (.attempt hlease))
    fun r => ?_
  match r with
  | (.error _, _) => exact .fail _
  | (.ok _, .error _) => exact .fail _
  | (.ok _, .ok none) => exact .ret _
  | (.ok _, .ok (some l)) =>
    exact .bind (.store ⟨.inl trivial, fun h => h⟩) fun _ =>
      .bind (.store ⟨.inl rfl, fun h => h⟩) fun _ => .ret _

theorem submitBenchmark_mindful {cfg : Config} {now : Instant} {sched : List Bool} {c : ClientId}
    {s : Submission} {held claimed : Bool} (hw : w.queue.RecordableFiles j) :
    Mindful j (submitBenchmark cfg now sched c s held claimed) w := by
  unfold submitBenchmark
  extract_lets bound answer
  have hanswer : ∀ u w, w.queue.RecordableFiles j → Mindful j (answer u) w := by
    intro u v hv
    simp only [answer]
    split
    · exact mindful_of_calls handleRetriableFailure_calls hv
    by_cases hbound : bound = true
    · have hheld : held = false := by simpa using (Bool.and_eq_true_iff.mp hbound).1
      simp only [hbound, hheld, if_true, recordSubmission]
      intro v' hv'
      refine ⟨fun h => h.elim, fun r v'' hout => ?_⟩
      obtain ⟨rfl, rfl⟩ := hout
      by_cases hj : s.jobId = j
      · refine mindful_of_recorded (teardownCompletedJob_device.mono fun _ h => h.queueActor)
          (hv'.2 hv) (recorded_insert.mpr (.inl hj.symm))
      · refine mindful_of_calls (teardownCompletedJob_calls ⟨.inl trivial, fun h => h⟩
          (fun l hl => ⟨.inl trivial, removesEntry_leased (hl ▸ hj)⟩) ⟨.inl trivial, fun h => h⟩
          fun d => ⟨.inl trivial, removesEntry_avail hj⟩) (hv'.2 hv)
    · have hrecord : (recordSubmission c s held).Calls fun c =>
          QueueActorCall c ∧ ¬ RemovesEntry j c := by
        cases held <;> exact .store ⟨.inl trivial, fun h => h⟩
      refine mindful_of_calls (.bind hrecord fun _ => ?_) hv
      rw [if_neg hbound]
      exact .ret _
  split
  · exact (bindClaim_keeps mindful_requesting w hw).bind hanswer
  · exact hanswer () w hw

def RecordableBodies (j : JobId) (bodies : Bodies) : Prop :=
  ∀ k b, k.jobId = j → bodies.lookup k = some b → Recordable j b

theorem recordSystemFailure_sat {catalog : Catalog} {body : Json} {source : FailureSource}
    (hbody : Recordable j body) (hw : w.queue.RecordableFiles j) :
    Minds j (recordSystemFailure catalog body source) (fun r w => w.queue.RecordableFiles j ∧
        (r = .error .unknownBenchmark ∨ w.records.Recorded j)) w := by
  obtain ⟨record, hrecord⟩ := hbody source
  unfold recordSystemFailure
  split
  · next hnone => simp [systemFailureFromJobBody, hnone] at hrecord
  · next benchmark hb =>
    split
    · next hid =>
      simp only [systemFailureFromJobBody, hb] at hrecord
      split at hrecord
      · next hjob hbench =>
        cases hbench
        simp [show isBenchmarkId benchmark = false by simpa using hid] at hrecord
      · cases hrecord
    split
    · exact fun w' hR => ⟨hR.2 hw, .inl rfl⟩
    · rw [hrecord]
      refine Sat.store_clean fun w' hR => ⟨fun h => h.elim, fun v hv => ⟨hv.2 (hR.2 hw), .inr ?_⟩⟩
      refine hv.1 ?_
      simp only [machine, RecordCall.step]
      split
      · next hthere => exact ⟨_, hthere⟩
      · exact recorded_insert.mpr (.inl rfl)

theorem resolveJobTerminal_mindful {catalog : Catalog} {entry : QueueEntry} {body : Json}
    {source : FailureSource} (hbody : entry.jobId = j → Recordable j body)
    (hw : w.queue.RecordableFiles j) :
    Mindful j (resolveJobTerminal catalog entry body source) w := by
  have hdelete : entry.delete.Calls fun c =>
      QueueActorCall c ∧ (entry.jobId ≠ j → ¬ RemovesEntry j c) := by
    cases entry with
    | avail k => exact .void (.store ⟨.inl trivial, removesEntry_avail⟩)
    | lease l => exact .void (.store ⟨.inl trivial, removesEntry_leased⟩)
  by_cases hj : entry.jobId = j
  · refine hasRecord_bind_mindful hw (.bind hdelete fun _ => .ret _) fun v hv => ?_
    refine (recordSystemFailure_sat (hbody hj) hv).attempt_bind fun r v hv => ?_
    have hend : ∀ b : Bool, v.records.Recorded j →
        Mindful j (entry.delete.bind fun _ => .ret b) v := fun b hrec =>
      mindful_of_recorded (.bind (hdelete.mono fun _ h => h.1) fun _ => .ret _) hv.1 hrec
    match r with
    | .ok created =>
      obtain ⟨hf, h | hrec⟩ := hv
      · cases h
      · exact hend created hrec
    | .error .unrecordable =>
      obtain ⟨hf, h | hrec⟩ := hv
      · cases h
      · exact hend false hrec
    | .error .store | .error .missing | .error .unknownBenchmark | .error .unscorable
    | .error (.unreachable _) | .error (.badRequest _) | .error .forbidden | .error .notFound
    | .error .conflict | .error (.internal _) | .error (.failedItems _) => exact mindful_of_calls (.fail _) hv.1
  · refine mindful_of_calls (resolveJobTerminal_calls ⟨?_, ?_⟩ ?_) hw
    · exact fun _ _ => ⟨.inl trivial, fun h => h⟩
    · exact fun _ _ => ⟨.inr ⟨0, trivial⟩, fun h => h⟩
    · exact hdelete.mono fun _ h => ⟨h.1, h.2 hj⟩

theorem settleExpiredLease_mindful {catalog : Catalog} {l : Lease} {limit : Nat}
    (hw : w.queue.RecordableFiles j) : Mindful j (settleExpiredLease catalog l limit) w := by
  have hrecycle : ∀ w : World, w.queue.RecordableFiles j →
      Mindful j (settleExpiredLease.recycle l) w := fun w hw =>
    (resolveOrRecycleLease_mindful hw).bind fun _ _ hv => mindful_of_calls (.ret _) hv
  unfold settleExpiredLease
  split
  · refine Mindful.bind ((hasRecord_minds hw).mono (fun _ _ h => h) fun _ _ h => h.1)
      fun found v hv => ?_
    split
    · exact hrecycle v hv
    refine Mindful.bind (mindful_of_calls (.store ⟨.inl trivial, fun h => h⟩) hv) fun _ v hv => ?_
    refine Mindful.bind (mindful_of_calls (.store ⟨.inl trivial, fun h => h⟩) hv)
      fun losses v hv => ?_
    split
    · intro u hu
      refine ⟨fun h => h.elim, fun r u' hout => ?_⟩
      obtain ⟨rfl, rfl⟩ := hout
      have hfiles : u.queue.RecordableFiles j := hu.2 hv
      change Mindful j ((ret (u.queue.files.lookup (.leased l)) : Op (Option Json)).bind _) u
      cases hbody : u.queue.files.lookup (.leased l) with
      | none => exact mindful_of_calls (.ret _) hfiles
      | some body =>
        have hend : Mindful j (resolveJobTerminal catalog (.lease l) body .leaseLost) u :=
          resolveJobTerminal_mindful (fun hj => hfiles _ body (.inl ⟨_, rfl, hj⟩) hbody) hfiles
        exact hend.bind fun _ _ hv => mindful_of_calls (.ret _) hv
    · exact hrecycle v hv
  · exact hrecycle w hw

theorem cachedBody_sat {k : AvailKey} {bodies : Bodies} (hb : RecordableBodies j bodies)
    (hw : w.queue.RecordableFiles j) :
    Minds j (cachedBody k bodies) (fun r w => w.queue.RecordableFiles j ∧
      ∀ body bodies', r = .ok (body, bodies') →
        RecordableBodies j bodies' ∧ ∀ b ∈ body, k.jobId = j → Recordable j b) w := by
  unfold cachedBody
  split
  · next body hbody =>
    refine fun w' hR => ⟨hR.2 hw, ?_⟩
    rintro _ _ ⟨⟩
    refine ⟨hb, ?_⟩
    rintro b ⟨⟩ hj
    exact hb k body hj hbody
  · intro u hu
    refine ⟨fun h => h.elim, fun r u' hout => ?_⟩
    obtain ⟨rfl, rfl⟩ := hout
    have hfiles : u.queue.RecordableFiles j := hu.2 hw
    change Sat _ _ _ ((ret (u.queue.files.lookup (.avail k)) : Op (Option Json)).bind _) _ u
    cases hbody : u.queue.files.lookup (.avail k) with
    | none =>
      refine fun w' hR => ⟨hR.2 hfiles, ?_⟩
      rintro _ _ ⟨⟩
      exact ⟨hb, by rintro b ⟨⟩⟩
    | some body =>
      have hgood : k.jobId = j → Recordable j body := fun hj =>
        hfiles _ body (.inl ⟨_, rfl, hj⟩) hbody
      refine fun w' hR => ⟨hR.2 hfiles, ?_⟩
      rintro _ _ ⟨⟩
      refine ⟨fun k' b hj hb' => ?_, by rintro b ⟨⟩; exact hgood⟩
      rw [FileTree.lookup_write] at hb'
      split at hb'
      · next hk =>
        cases hb'
        exact hgood (hk ▸ hj)
      · exact hb k' b hj hb'

theorem removeOneIf_sat {cause : Json → Option FailureSource} {catalog : Catalog} {k : AvailKey}
    {bodies : Bodies} (hb : RecordableBodies j bodies) (hw : w.queue.RecordableFiles j) :
    Minds j (removeOneIf cause catalog k bodies) (fun r w => w.queue.RecordableFiles j ∧
      ∀ a, r = .ok a → RecordableBodies j a.2) w := by
  refine (cachedBody_sat hb hw).attempt_bind fun r v hv => ?_
  obtain ⟨hfiles, hgood⟩ := hv
  have hret : ∀ (a : Except Fault Bool × Bodies) (v : World), v.queue.RecordableFiles j →
      RecordableBodies j a.2 → Minds j (ret a : Op (Except Fault Bool × Bodies)) (fun r w =>
        w.queue.RecordableFiles j ∧ ∀ a, r = .ok a → RecordableBodies j a.2) v := by
    intro a v hv ha w' hR
    refine ⟨hR.2 hv, ?_⟩
    rintro _ ⟨⟩
    exact ha
  match r with
  | .error e => exact hret _ v hfiles hb
  | .ok (none, bodies') => exact hret _ v hfiles (hgood _ _ rfl).1
  | .ok (some body, bodies') =>
    obtain ⟨hb', hbody⟩ := hgood _ _ rfl
    simp only
    split
    · exact hret _ v hfiles hb'
    · next source _ =>
      have hend : Mindful j (resolveJobTerminal catalog (.avail k) body source) v :=
        resolveJobTerminal_mindful (hbody body rfl) hfiles
      exact hend.attempt_bind fun r u hu => hret _ u hu hb'

theorem pruneEach_sat {remove : AvailKey → Bodies → Op (Except Fault Bool × Bodies)}
    {keys : List AvailKey} {bodies : Bodies} (hb : RecordableBodies j bodies)
    (hw : w.queue.RecordableFiles j)
    (h : ∀ k bodies w, RecordableBodies j bodies → w.queue.RecordableFiles j →
      Minds j (remove k bodies) (fun r w => w.queue.RecordableFiles j ∧
        ∀ a, r = .ok a → RecordableBodies j a.2) w) :
    Minds j (pruneEach remove keys bodies) (fun _ _ => True) w := by
  have hloop : Minds j (pruneEach remove keys bodies) (fun r w => ∀ acc, r = .ok acc →
      RecordableBodies j acc.2 ∧ w.queue.RecordableFiles j) w := by
    refine Sat.foldlM (fun acc v v' hv hR => ⟨hv.1, hR.2 hv.2⟩) (fun acc k _ v hv => ?_) ⟨hb, hw⟩
    refine (h k acc.2 v hv.1 hv.2).bind (fun a u hu => ?_) fun e u _ u' _ b' hb' => ?_
    · intro u' hR b' hb'
      cases hb'
      exact ⟨hu.2 a rfl, hR.2 hu.1⟩
    · cases hb'
  exact hloop.mono (fun _ _ h => h) fun _ _ _ => trivial

theorem settleOverdueJob_mindful {catalog : Catalog} {k : AvailKey} {now : Instant}
    (hlapsed : k.expiresAt.isExpired now) (hw : w.queue.RecordableFiles j) :
    Mindful j (settleOverdueJob catalog k now) w := by
  refine Mindful.bind (mindful_of_calls (.store ⟨.inr ⟨now, trivial⟩, fun h => h⟩) hw)
    fun markers v hv => ?_
  split
  · have hexpire : Mindful j (expireOneJob catalog k) v := by
      intro u hu
      refine ⟨fun h => h.elim, fun r u' hout => ?_⟩
      obtain ⟨rfl, rfl⟩ := hout
      have hfiles : u.queue.RecordableFiles j := hu.2 hv
      change Mindful j ((ret (u.queue.files.lookup (.avail k)) : Op (Option Json)).bind _) u
      cases hbody : u.queue.files.lookup (.avail k) with
      | none => exact mindful_of_calls (.ret _) hfiles
      | some body =>
        have hend : Mindful j (resolveJobTerminal catalog (.avail k) body .expired) u :=
          resolveJobTerminal_mindful (fun hj => hfiles _ body (.inl ⟨_, rfl, hj⟩) hbody) hfiles
        exact hend.bind fun _ _ hv => mindful_of_calls (.ret _) hv
    refine hexpire.bind fun retired u hu => ?_
    split <;> exact mindful_of_calls (.ret _) hu
  · next horizon hhorizon =>
    refine mindful_of_calls (.bind (.store ⟨.inr ⟨now, rfl, hlapsed,
      latestHorizon_unexpired hhorizon⟩, fun h => h⟩) fun moved => ?_) hv
    split
    · exact .bind (.store ⟨.inr ⟨now, trivial⟩, fun h => h⟩) fun _ => .ret _
    · exact .ret _

theorem each_sat {γ δ : Type} {f : γ → δ → Op γ} {xs : List δ} {b : γ}
    (hw : w.queue.RecordableFiles j)
    (h : ∀ b a w, w.queue.RecordableFiles j → Mindful j (f b a) w) :
    Minds j (xs.foldlM f b) (fun _ _ => True) w := by
  have hloop : Minds j (xs.foldlM f b) (fun r w => ∀ b', r = .ok b' → w.queue.RecordableFiles j) w :=
    Sat.foldlM (fun _ _ _ hv hR => hR.2 hv) (fun b a _ v hv =>
      (h b a v hv).mono (fun _ _ h => h) fun _ _ hu _ _ => hu) hw
  exact hloop.mono (fun _ _ h => h) fun _ _ _ => trivial

end Programs

def QueueActor.Informed (j : JobId) : QueueActor → Prop
  | .maintain _ _ (.unmatchable _ bodies) | .maintain _ _ (.allDenied _ bodies) =>
    RecordableBodies j bodies
  | _ => True

/-- No request and no settling pass removes an entry of a job without a record. -/
theorem QueueActor.mindful {a : QueueActor} {j : JobId} {w : World} (ha : a.Informed j)
    (hw : w.queue.RecordableFiles j) :
    Minds j a.program (fun _ _ => True) w := by
  have hvoid : ∀ {α : Type} {p : Op α}, Minds j p (fun _ _ => True) w →
      Minds j p.void (fun _ _ => True) w := fun hp =>
    hp.bind (fun _ _ _ _ _ => trivial) fun _ _ _ _ _ => trivial
  have hdrop : ∀ {α : Type} {p : Op α}, Mindful j p w → Minds j p (fun _ _ => True) w := fun hp =>
    hp.mono (fun _ _ h => h) fun _ _ _ => trivial
  cases a with
  | claim => exact hvoid (hdrop (claim_keeps mindful_requesting w hw))
  | heartbeat => exact hvoid (hdrop (heartbeat_keeps mindful_requesting w hw))
  | reclaim => exact hvoid (hdrop (reclaim_keeps mindful_requesting w hw))
  | submit => exact hdrop (submitBenchmark_mindful hw)
  | maintain catalog now pass =>
    cases pass with
    | leases limit =>
      refine hvoid (Sat.bind (mindful_of_calls (.store ⟨.inl trivial, fun h => h⟩) hw)
        (fun leases v hv => each_sat hv fun acc l u hu => ?_) fun _ _ _ _ _ => trivial)
      simp only
      split
      · exact mindful_of_calls (.ret _) hu
      · refine Sat.attempt_bind (settleExpiredLease_mindful hu) fun r u hu => ?_
        split <;> exact mindful_of_calls (.ret _) hu
    | overdue keys =>
      refine hvoid (each_sat hw fun acc k u hu => ?_)
      split
      · exact mindful_of_calls (.ret _) hu
      · next hlapsed =>
        refine Sat.attempt_bind (settleOverdueJob_mindful (by simpa using hlapsed) hu)
          fun r u hu => mindful_of_calls (.ret _) hu
    | unmatchable keys bodies =>
      exact hvoid (pruneEach_sat ha hw fun _ _ _ => removeOneIf_sat)
    | allDenied keys bodies =>
      refine hvoid (Sat.bind (mindful_of_calls (.store ⟨.inr ⟨now, trivial⟩, fun h => h⟩) hw)
        (fun denied v hv => pruneEach_sat ha hv fun k bodies u hb hu => ?_) fun _ _ _ _ _ => trivial)
      split
      · refine fun u' hR => ⟨hR.2 hu, ?_⟩
        rintro _ ⟨⟩
        exact hb
      · exact removeOneIf_sat hb hu

end Pipette
