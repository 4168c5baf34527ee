import Pipette.Pipeline.RecordCheck
import Pipette.System.OneEntry

/-! Retirements among submissions and scoring passes: a retirement looks for a record in the five
places and then creates its failure in `incoming/`, which is the last place it looks at. -/
namespace Pipette

open Prog RecordState

def NamedAnswer : (c : StoreCall) → Except Fault c.Answer → Prop
  | .queue (.read p), .ok (some b) => ∀ k ∈ p.queued, bodyJobId b = some k.jobId
  | _, _ => True

/-- The job's failure is created only behind a look through all places. `Q` holds of the result. -/
inductive Checked (j : JobId) {α : Type} (Q : Except Fault α → Prop) : Op α → Prop
  | ret {a : α} (h : Q (.ok a)) : Checked j Q (.ret a)
  | fail {e : Fault} (h : Q (.error e)) : Checked j Q (.fail e)
  | call {c : StoreCall} {k : Except Fault c.Answer → Op α}
      (hc : ∀ record, c ≠ .records (.create .incoming j record))
      (hk : ∀ r, NamedAnswer c r → Checked j Q (k r)) : Checked j Q (.call c k)
  | guard {p : Op α} {f : Except Fault Bool → Op α} {record : Json} {k : Except Fault Bool → Op α}
      (hp : p = (hasRecord j).attempt.bind f)
      (hcreate : f (.ok false) = .call (.records (.create .incoming j record)) k)
      (hk : ∀ r, Checked j Q (k r)) (hfound : Checked j Q (f (.ok true)))
      (herr : ∀ e, Checked j Q (f (.error e))) : Checked j Q p

/-- The program stands before its look at `places`, and goes on to create the job's failure when
it finds nothing there. -/
def Looks (j : JobId) (places : List Place) {α : Type} (p : Op α) : Prop :=
  ∃ (f : Except Fault Bool → Op α) (record : Json) (k : Except Fault Bool → Op α),
    p = (hasRecordFrom places j).attempt.bind f ∧
      f (.ok false) = .call (.records (.create .incoming j record)) k

namespace Checked

variable {j : JobId} {α β : Type} {Q : Except Fault α → Prop} {S : Except Fault β → Prop}

theorem bind {p : Op α} {f : α → Op β} (hp : Checked j Q p)
    (hok : ∀ a, Q (.ok a) → Checked j S (f a)) (herr : ∀ e, Q (.error e) → S (.error e)) :
    Checked j S (p.bind f) := by
  induction hp with
  | ret h => exact hok _ h
  | fail h => exact .fail (herr _ h)
  | call hc _ ih => exact .call hc ih
  | guard hp hcreate _ _ _ ihk ihfound iherr =>
    subst hp
    rw [bind_assoc]
    exact .guard rfl (congrArg (Prog.bind · f) hcreate) ihk ihfound iherr

theorem attempt {p : Op α} (hp : Checked j Q p) :
    Checked j (fun r => ∃ r', r = .ok r' ∧ Q r') p.attempt := by
  induction hp with
  | ret h => exact .ret ⟨_, rfl, h⟩
  | fail h => exact .ret ⟨_, rfl, h⟩
  | call hc _ ih => exact .call hc ih
  | guard hp hcreate _ _ _ ihk ihfound iherr =>
    subst hp
    rw [attempt_attempt_bind]
    exact .guard rfl (congrArg Prog.attempt hcreate) ihk ihfound iherr

theorem mono {Q' : Except Fault α → Prop} (h : ∀ r, Q r → Q' r) {p : Op α} (hp : Checked j Q p) :
    Checked j Q' p := by
  induction hp with
  | ret hQ => exact .ret (h _ hQ)
  | fail hQ => exact .fail (h _ hQ)
  | call hc _ ih => exact .call hc ih
  | guard hp hcreate _ _ _ ihk ihfound iherr => exact .guard hp hcreate ihk ihfound iherr

def Other (j : JobId) : StoreCall → Prop
  | .records (.create .incoming j' _) => j' ≠ j
  | _ => True

theorem Other.ne {c : StoreCall} (h : Other j c) (record : Json) :
    c ≠ .records (.create .incoming j record) := by
  rintro rfl
  exact h rfl

theorem of_calls {p : Op α} (h : p.Calls (Other j)) : Checked j (fun _ => True) p := by
  induction p with
  | ret a => exact .ret trivial
  | fail e => exact .fail trivial
  | call c k ih => exact .call h.1.ne fun r _ => ih r (h.2 r)

theorem store_bind {c : StoreCall} {f : c.Answer → Op β} (hc : Other j c)
    (hok : ∀ a, NamedAnswer c (.ok a) → Checked j S (f a)) (herr : ∀ e, S (.error e)) :
    Checked j S ((Prog.store (I := Stores) c).bind f) := by
  refine .call hc.ne fun r hr => ?_
  cases r with
  | ok a => exact hok a hr
  | error e => exact .fail (herr e)

theorem foldlM {f : β → α → Op β} {xs : List α} {J : β → Prop}
    (h : ∀ b, ∀ a ∈ xs, J b → Checked j (fun r => ∀ b', r = .ok b' → J b') (f b a)) {b : β}
    (hb : J b) : Checked j (fun r => ∀ b', r = .ok b' → J b') (xs.foldlM f b) := by
  induction xs generalizing b with
  | nil => exact .ret fun b' h => by cases h; exact hb
  | cons a rest ih =>
    refine (h b a List.mem_cons_self hb).bind (fun b' hb' => ?_) fun e _ b' h => by cases h
    exact ih (fun b a ha => h b a (List.mem_cons_of_mem _ ha)) (hb' b' rfl)

end Checked

section Passes

variable {j : JobId} {catalog : Catalog} {k : AvailKey} {l : Lease} {bodies : Bodies}

theorem recordSystemFailure_cases {body : Json} {source : FailureSource} :
    (∃ e, recordSystemFailure catalog body source = Op.fail e) ∨ ∃ job record,
      bodyJobId body = some job ∧
        recordSystemFailure catalog body source = Op.records (.create .incoming job record) := by
  unfold recordSystemFailure
  split
  · exact .inl ⟨_, rfl⟩
  split
  · exact .inl ⟨_, rfl⟩
  split
  · exact .inl ⟨_, rfl⟩
  split
  · exact .inl ⟨_, rfl⟩
  · next job record hok =>
    refine .inr ⟨job, record, ?_, rfl⟩
    unfold systemFailureFromJobBody at hok
    split at hok
    · next name benchmark hname hbench =>
      split at hok
      · cases hok
        obtain ⟨v, hv, hs⟩ := Option.bind_eq_some_iff.mp hname
        simp [bodyJobId, hv, hs]
      · cases hok
    · cases hok

theorem delete_other {entry : QueueEntry} : entry.delete.Calls (Checked.Other j) := by
  cases entry <;> exact .void (.store trivial)

theorem hasRecord_other {j' : JobId} : (hasRecord j').Calls (Checked.Other j) :=
  hasRecord_calls fun _ => trivial

theorem resolveJobTerminal_checked {entry : QueueEntry} {body : Json} {source : FailureSource}
    (hname : bodyJobId body = some entry.jobId) :
    Checked j (fun _ => True) (resolveJobTerminal catalog entry body source) := by
  have hdelete : ∀ b : Bool, Checked j (fun _ => True) (entry.delete.bind fun _ => Prog.ret b) :=
    fun b => .of_calls (.bind delete_other fun _ => .ret b)
  have hcases : (∃ e, recordSystemFailure catalog body source = Op.fail e) ∨ ∃ job record,
      bodyJobId body = some job ∧
        recordSystemFailure catalog body source = Op.records (.create .incoming job record) :=
    recordSystemFailure_cases
  unfold resolveJobTerminal
  obtain ⟨e, hfail⟩ | ⟨job, record, hjob, hcreate⟩ := hcases
  · rw [hfail]
    refine (Checked.of_calls hasRecord_other).bind (fun found _ => ?_) fun _ _ => trivial
    cases found
    · cases e with
      | unrecordable => exact hdelete false
      | _ => exact .fail trivial
    · exact hdelete false
  · have hsame : job = entry.jobId := Option.some.inj (hjob.symm.trans hname)
    rw [hcreate, hsame]
    by_cases hj : entry.jobId = j
    · subst hj
      rw [bind_eq, bind_eq_attempt_bind]
      refine .guard rfl rfl (fun r => ?_) (hdelete false) fun e => .fail trivial
      cases r with
      | ok created => exact hdelete created
      | error e =>
        cases e with
        | unrecordable => exact hdelete false
        | _ => exact .fail trivial
    · refine (Checked.of_calls hasRecord_other).bind (fun found _ => ?_) fun _ _ => trivial
      cases found
      · refine .call (fun record' h => hj ?_) fun r _ => ?_
        · cases h
          rfl
        · cases r with
          | ok created => exact hdelete created
          | error e =>
            cases e with
            | unrecordable => exact hdelete false
            | _ => exact .fail trivial
      · exact hdelete false

theorem settleExpiredLease_checked {limit : Nat} :
    Checked j (fun _ => True) (settleExpiredLease catalog l limit) := by
  have hrecycle : Checked j (fun _ => True) (settleExpiredLease.recycle l) :=
    .of_calls (.bind (resolveOrRecycleLease_calls (fun _ => trivial) trivial trivial) fun _ => .ret _)
  unfold settleExpiredLease
  split
  · refine (Checked.of_calls hasRecord_other).bind (fun found _ => ?_) fun _ _ => trivial
    split
    · exact hrecycle
    refine .store_bind trivial (fun _ _ => .store_bind trivial (fun losses _ => ?_) fun _ => trivial)
      fun _ => trivial
    split
    · refine .store_bind trivial (fun body hbody => ?_) fun _ => trivial
      cases body with
      | none => exact .ret trivial
      | some body =>
        have hname : bodyJobId body = some (QueueEntry.lease l).jobId := hbody l.availKey rfl
        exact (resolveJobTerminal_checked hname).bind (fun _ _ => .ret trivial) fun _ _ => trivial
    · exact hrecycle
  · exact hrecycle

theorem settleExpiredLeases_checked {limit : Nat} {now : Instant} :
    Checked j (fun _ => True) (settleExpiredLeases catalog limit now) := by
  refine .store_bind trivial (fun leases _ => ?_) fun _ => trivial
  refine (Checked.foldlM (J := fun _ => True) (fun acc l _ _ => ?_) trivial).mono fun _ _ => trivial
  simp only
  split
  · exact .ret fun _ _ => trivial
  · refine settleExpiredLease_checked.attempt.bind (fun r _ => ?_) fun _ _ _ _ => trivial
    split <;> exact .ret fun _ _ => trivial

theorem settleOverdueJob_checked {now : Instant} :
    Checked j (fun _ => True) (settleOverdueJob catalog k now) := by
  refine .store_bind trivial (fun markers _ => ?_) fun _ => trivial
  split
  · refine Checked.bind (Q := fun _ => True) ?_ (fun retired _ => ?_) fun _ _ => trivial
    · refine .store_bind trivial (fun body hbody => ?_) fun _ => trivial
      cases body with
      | none => exact .ret trivial
      | some body =>
        have hname : bodyJobId body = some (QueueEntry.avail k).jobId := hbody k rfl
        exact (resolveJobTerminal_checked hname).bind (fun _ _ => .ret trivial) fun _ _ => trivial
    · split <;> exact .ret trivial
  · refine .store_bind trivial (fun moved _ => ?_) fun _ => trivial
    split
    · exact .store_bind trivial (fun _ _ => .ret trivial) fun _ => trivial
    · exact .ret trivial

theorem expireOverdueJobs_checked {keys : List AvailKey} {now : Instant} :
    Checked j (fun _ => True) (expireOverdueJobs catalog keys now) := by
  refine (Checked.foldlM (J := fun _ => True) (fun acc k _ _ => ?_) trivial).mono fun _ _ => trivial
  split
  · exact .ret fun _ _ => trivial
  · exact settleOverdueJob_checked.attempt.bind (fun r _ => .ret fun _ _ => trivial)
      fun _ _ _ _ => trivial

def Bodies.Named (bodies : Bodies) : Prop :=
  ∀ k b, bodies.lookup k = some b → bodyJobId b = some k.jobId

theorem Bodies.Named.insert {b : Json} (h : bodies.Named) (hb : bodyJobId b = some k.jobId) :
    Bodies.Named (bodies.insert k b) := by
  intro k' b' hlookup
  rw [FileTree.lookup_write] at hlookup
  split at hlookup
  · next he =>
    cases hlookup
    rw [he, hb]
  · exact h k' b' hlookup

theorem cachedBody_checked (h : bodies.Named) :
    Checked j (fun r => ∀ body bodies', r = .ok (body, bodies') → bodies'.Named ∧
      ∀ b, body = some b → bodyJobId b = some k.jobId) (cachedBody k bodies) := by
  unfold cachedBody
  split
  · next b hb =>
    refine .ret fun body bodies' hr => ?_
    cases hr
    exact ⟨h, fun b' hb' => by cases hb'; exact h k b hb⟩
  · refine .store_bind trivial (fun body hbody => ?_) fun e _ _ h => by cases h
    cases body with
    | none =>
      refine .ret fun body bodies' hr => ?_
      cases hr
      exact ⟨h, nofun⟩
    | some b =>
      have hname : bodyJobId b = some k.jobId := hbody k rfl
      refine .ret fun body bodies' hr => ?_
      cases hr
      exact ⟨h.insert hname, fun b' hb' => by cases hb'; exact hname⟩

theorem removeOneIf_checked {cause : Json → Option FailureSource} (h : bodies.Named) :
    Checked j (fun r => ∀ x, r = .ok x → x.2.Named) (removeOneIf cause catalog k bodies) := by
  refine (cachedBody_checked h).attempt.bind (fun r hr => ?_) fun e hr x hx => by cases hx
  obtain ⟨_, hr, hread⟩ := hr
  cases hr
  split
  · exact .ret fun x hx => by cases hx; exact h
  · next bodies' => exact .ret fun x hx => by cases hx; exact (hread _ _ rfl).1
  · next body bodies' =>
    obtain ⟨hbodies, hname⟩ := hread _ _ rfl
    split
    · exact .ret fun x hx => by cases hx; exact hbodies
    · refine (resolveJobTerminal_checked (hname body rfl)).attempt.bind (fun r _ => ?_)
        fun e _ x hx => by cases hx
      exact .ret fun x hx => by cases hx; exact hbodies

theorem pruneEach_checked {remove : AvailKey → Bodies → Op (Except Fault Bool × Bodies)}
    {keys : List AvailKey} (hremove : ∀ k bodies, bodies.Named →
      Checked j (fun r => ∀ x, r = .ok x → x.2.Named) (remove k bodies)) (h : bodies.Named) :
    Checked j (fun _ => True) (pruneEach remove keys bodies) := by
  refine (Checked.foldlM (J := fun acc => acc.2.Named) (fun acc k _ hacc => ?_) h).mono
    fun _ _ => trivial
  refine (hremove k acc.2 hacc).bind (fun x hx => ?_) fun e _ x hx => by cases hx
  exact .ret fun x' hx' => by cases hx'; exact hx x rfl

theorem retireUnmatchableJobs_checked {keys : List AvailKey} (h : bodies.Named) :
    Checked j (fun _ => True) (retireUnmatchableJobs catalog keys bodies) :=
  pruneEach_checked (fun _ _ => removeOneIf_checked) h

theorem escalateAllDeniedJobs_checked {keys : List AvailKey} (h : bodies.Named) :
    Checked j (fun _ => True) (escalateAllDeniedJobs catalog keys bodies) := by
  refine .store_bind trivial (fun denied _ => pruneEach_checked (fun k bodies hb => ?_) h)
    fun _ => trivial
  split
  · exact .ret fun x hx => by cases hx; exact hb
  · exact removeOneIf_checked hb

end Passes

inductive RecordActor
  | queue (a : QueueActor)
  | scoring (pass : ScoringPass)

namespace RecordActor

def program : RecordActor → Op Unit
  | queue a => a.program
  | scoring pass => pass.run

def Ready : RecordActor → Prop
  | queue (.maintain _ _ (.unmatchable _ bodies)) => bodies.Named
  | queue (.maintain _ _ (.allDenied _ bodies)) => bodies.Named
  | _ => True

def MayCall : RecordActor → StoreCall → Prop
  | queue a => a.MayCall
  | scoring _ => ScoringCall

end RecordActor

section Actors

variable {a : RecordActor} {j : JobId} {c : StoreCall}

theorem SubmissionCall.other (h : SubmissionCall c) : Checked.Other j c := by
  cases c with
  | records c => cases c <;> first | exact h.elim | trivial
  | _ => trivial

theorem ScoringCall.other (h : ScoringCall c) : Checked.Other j c := by
  cases c with
  | records c => cases c <;> first | exact h.elim | trivial
  | _ => trivial

theorem ScoringPass.run_calls (pass : ScoringPass) : pass.run.Calls ScoringCall := by
  cases pass with
  | processSubmissions => exact processSubmissions_scoring
  | scoreEval => exact runScoreEval_scoring

namespace RecordActor

theorem program_calls (a : RecordActor) : a.program.Calls a.MayCall := by
  cases a with
  | queue a => exact a.program_calls
  | scoring pass => exact pass.run_calls

theorem program_checked (h : a.Ready) : Checked j (fun _ => True) a.program := by
  have hvoid : ∀ {α : Type} {p : Op α}, Checked j (fun _ => True) p →
      Checked j (fun _ => True) p.void :=
    fun hp => hp.bind (fun _ _ => .ret trivial) fun _ _ => trivial
  cases a with
  | scoring pass => exact .of_calls (pass.run_calls.mono fun _ h => h.other)
  | queue a =>
    cases a with
    | maintain catalog now pass =>
      cases pass with
      | leases limit => exact hvoid settleExpiredLeases_checked
      | overdue keys => exact hvoid expireOverdueJobs_checked
      | unmatchable keys bodies => exact hvoid (retireUnmatchableJobs_checked h)
      | allDenied keys bodies => exact hvoid (escalateAllDeniedJobs_checked h)
    | submit => exact .of_calls (submitBenchmark_calls.mono fun _ h => h.other)
    | claim => exact hvoid (.of_calls (claim_device.mono fun _ h => h.submission.other))
    | heartbeat => exact hvoid (.of_calls (heartbeat_device.mono fun _ h => h.submission.other))
    | reclaim => exact hvoid (.of_calls (reclaim_device.mono fun _ h => h.submission.other))

theorem program_careful (a : RecordActor) (w : World) : Careful a.program (fun _ _ => True) w := by
  cases a with
  | scoring pass => exact pass.careful w
  | queue a =>
    refine careful_of_calls (a.program_calls.mono fun c hc w => ?_)
    cases c with
    | records c =>
      cases a with
      | maintain => cases c <;> first | exact hc.elim | trivial
      | _ => cases c <;> first | exact hc.elim | trivial
    | _ => trivial

theorem MayCall.keepsJobs {c : QueueCall} (h : a.MayCall (.queue c)) : c.KeepsJobs := by
  cases a with
  | queue a => exact QueueActor.MayCall.keepsJobs h
  | scoring pass => exact h.elim

end RecordActor

end Actors

/-- The program is checked, or stands in the middle of a look with `S` true of what is left of
it. -/
def Guarding (j : JobId) (S : List Place → World → Prop) {α : Type} (p : Op α) (w : World) : Prop :=
  Checked j (fun _ => True) p ∨ ∃ (places : List Place) (f : Except Fault Bool → Op α)
    (record : Json) (k : Except Fault Bool → Op α), p = (hasRecordFrom places j).attempt.bind f ∧
      f (.ok false) = .call (.records (.create .incoming j record)) k ∧
      (∀ r, Checked j (fun _ => True) (k r)) ∧ Checked j (fun _ => True) (f (.ok true)) ∧
      (∀ e, Checked j (fun _ => True) (f (.error e))) ∧ S places w

section Guarding

variable {j : JobId} {S S' : List Place → World → Prop} {α : Type} {p : Op α} {w w' : World}
  {c : StoreCall} {k : Except Fault c.Answer → Op α}

theorem Guarding.mono (h : Guarding j S p w)
    (hS : ∀ places, Looks j places p → S places w → S' places w') : Guarding j S' p w' := by
  obtain h | ⟨places, f, record, k, hp, hcreate, hk, hfound, herr, hsee⟩ := h
  · exact .inl h
  · exact .inr ⟨places, f, record, k, hp, hcreate, hk, hfound, herr,
      hS places ⟨f, record, k, hp, hcreate⟩ hsee⟩

theorem Guarding.step {r : Except Fault c.Answer} (h : Guarding j S (.call c k) w)
    (hnamed : NamedAnswer c r) (hout : machine.faulty c w r w') (hstart : S recordPlaces w)
    (hmiss : ∀ place rest, S (place :: rest) w → ¬ w.records.Holds j place → S rest w) :
    Guarding j S (k r) w' := by
  have hlook : ∀ (places : List Place) (f : Except Fault Bool → Op α) (record : Json)
      (k' : Except Fault Bool → Op α), .call c k = (hasRecordFrom places j).attempt.bind f →
      f (.ok false) = .call (.records (.create .incoming j record)) k' →
      (∀ r, Checked j (fun _ => True) (k' r)) → Checked j (fun _ => True) (f (.ok true)) →
      (∀ e, Checked j (fun _ => True) (f (.error e))) → S places w → Guarding j S (k r) w' := by
    intro places f record k' hp hcreate hk hfound herr hsee
    cases places with
    | nil =>
      have hp' : Prog.call c k = f (.ok false) := hp
      rw [hcreate] at hp'
      cases hp'
      exact .inl (hk r)
    | cons place rest =>
      cases hp
      obtain ⟨rfl, rfl⟩ | ⟨e, rfl, -⟩ := hout
      · by_cases hs : w.records.Holds j place
        · refine .inl ?_
          simp only [machine, RecordCall.step]
          rw [hs]
          exact hfound
        · refine .inr ⟨rest, f, record, k', ?_, hcreate, hk, hfound, herr, hmiss place rest hsee hs⟩
          simp only [machine, RecordCall.step]
          rw [Bool.eq_false_of_not_eq_true hs]
          rfl
      · exact .inl (herr e)
  obtain h | ⟨places, f, record, k', hp, hcreate, hk, hfound, herr, hsee⟩ := h
  · cases h with
    | call _ hk => exact .inl (hk r hnamed)
    | guard hp hcreate hk hfound herr => exact hlook _ _ _ _ hp hcreate hk hfound herr hstart
  · exact hlook places f record k' hp hcreate hk hfound herr hsee

theorem Guarding.create {record : Json} {k : Except Fault Bool → Op α}
    (h : Guarding j S (.call (.records (.create .incoming j record)) k) w) : S [] w := by
  obtain h | ⟨places, f, record', k', hp, -, -, -, -, hsee⟩ := h
  · cases h with
    | call hc _ => exact absurd rfl (hc record)
    | guard hp _ _ _ _ => cases hp
  · cases places with
    | nil => exact hsee
    | cons place rest => cases hp

end Guarding

def Sees (j : JobId) (places : List Place) (w : World) : Prop :=
  ∃ q ∈ .incoming :: places, w.records.Holds j q

theorem Sees.miss {j : JobId} {place : Place} {rest : List Place} {w : World}
    (h : Sees j (place :: rest) w) (hmiss : ¬ w.records.Holds j place) : Sees j rest w := by
  obtain ⟨q, hq, hs⟩ := h
  have hne : q ≠ place := fun he => hmiss (he ▸ hs)
  refine ⟨q, ?_, hs⟩
  simp only [List.mem_cons] at hq ⊢
  obtain rfl | rfl | hq := hq
  · exact .inl rfl
  · exact absurd rfl hne
  · exact .inr hq

theorem RecordState.Recorded.sees {j : JobId} {w : World} (h : w.records.Recorded j) :
    Sees j recordPlaces w := by
  obtain ⟨q, hs⟩ := h
  refine ⟨q, ?_, hs⟩
  cases q <;> decide

theorem namedAnswer {c : StoreCall} {w w' : World} {r : Except Fault c.Answer}
    (hnamed : w.queue.Named) (hout : machine.faulty c w r w') : NamedAnswer c r := by
  obtain ⟨rfl, -⟩ | ⟨e, rfl, -⟩ := hout
  · cases c with
    | queue c =>
      cases c with
      | read p =>
        simp only [machine, QueueCall.step]
        cases hb : w.queue.files.lookup p with
        | none => trivial
        | some b => exact fun k hk => hnamed p k b ⟨hk, hb⟩
      | _ => trivial
    | _ => trivial
  · cases c with
    | queue c => cases c <;> trivial
    | _ => trivial

section Runs

open Prog.Pool

variable {ι : Type} {actors : ι → RecordActor} {j : JobId} {S : List Place → World → Prop}
  {t u : Pool Stores World ι fun _ => Unit}

def recordPool (w : World) (actors : ι → RecordActor) : Pool Stores World ι fun _ => Unit :=
  ⟨w, fun i => (actors i).program⟩

/-- While a retirement of the job stands between its first look and its creation, no call takes a
record of the job from where it has yet to look, unless another one stands there. -/
def KeepsSight (j : JobId) (t : Pool Stores World ι fun _ => Unit) (_ : ι) : StoreCall → Prop
  | .records (.remove p j') => j' = j → ∀ i places, Looks j places (t.procs i) →
    p ∈ .incoming :: places → ∃ q ∈ .incoming :: places, q ≠ p ∧ t.world.records.Holds j q
  | _ => True

structure Orderly (j : JobId) (S : List Place → World → Prop) (actors : ι → RecordActor)
    (t : Pool Stores World ι fun _ => Unit) : Prop where
  named : t.world.queue.Named
  calls : ∀ i, (t.procs i).Calls (actors i).MayCall
  careful : ∀ i, Careful (t.procs i) (fun _ _ => True) t.world
  guarding : ∀ i, Guarding j S (t.procs i) t.world

theorem KeepsSight.sees {i i' : ι} {c : StoreCall} {r : Except Fault c.Answer} {w' : World}
    {places : List Place} (hcond : KeepsSight j t i c) (hout : machine.faulty c t.world r w')
    (hlooks : Looks j places (t.procs i')) (h : Sees j places t.world) : Sees j places w' := by
  have hstep : Sees j places (machine c t.world).2 := by
    obtain ⟨q, hq, hs⟩ := h
    by_cases hc : c = .records (.remove q j)
    · subst hc
      obtain ⟨q', hq', hne, hs'⟩ := hcond rfl i' places hlooks hq
      exact ⟨q', hq', holds_step hs' fun he => hne (by cases he; rfl)⟩
    · exact ⟨q, hq, holds_step hs hc⟩
  obtain ⟨-, rfl⟩ | ⟨-, -, rfl | rfl⟩ := hout
  · exact hstep
  · exact h
  · exact hstep

variable [DecidableEq ι]

theorem Orderly.step {i : ι} {c : StoreCall} (h : Orderly j S actors t)
    (hstart : S recordPlaces t.world)
    (hmiss : ∀ place rest, S (place :: rest) t.world → ¬ t.world.records.Holds j place →
      S rest t.world)
    (hbear : ∀ i places, Looks j places (t.procs i) → S places t.world → S places u.world)
    (hs : Step machine.faulty t i c u) :
    RecordState.Kept t.world.records u.world.records ∧ Orderly j S actors u := by
  obtain ⟨hmay, hcalls⟩ := hs.calls h.calls
  have hkept : Covering c t.world → RecordState.Kept t.world.records u.world.records := by
    cases hs with
    | mk _ hout => exact fun hcov => hcov.kept hout
  obtain ⟨hcov, hcareful⟩ := hs.sat h.careful fun _ _ => hkept
  refine ⟨hkept hcov, ?_, hcalls, hcareful, fun i' => ?_⟩
  · cases hs with
    | mk _ hout =>
      obtain hq | ⟨c', rfl, hq⟩ := faulty_queue hout
      · simpa only [hq] using h.named
      · simpa only [hq] using (RecordActor.MayCall.keepsJobs hmay).named h.named
  · cases hs with
    | @mk k r w' hcall hout =>
      by_cases hi : i' = i
      · subst hi
        have hown := h.guarding i'
        rw [hcall] at hown
        simpa using hown.step (namedAnswer h.named hout) hout hstart hmiss
      · simpa [Function.update_of_ne hi] using (h.guarding i').mono (hbear i')

theorem recordPool_orderly {w : World} (hnamed : w.queue.Named) (hready : ∀ i, (actors i).Ready)
    (h : Reach machine.faulty (fun _ _ _ => True) (recordPool w actors) t) :
    Orderly j (fun _ _ => True) actors t := by
  refine h.invariant (Orderly j (fun _ _ => True) actors) ?_ ?_
  · exact ⟨hnamed, fun i => (actors i).program_calls, fun i => (actors i).program_careful w,
      fun i => .inl (RecordActor.program_checked (hready i))⟩
  · intro t i c u ht _ hs
    exact (ht.step trivial (fun _ _ _ _ => trivial) (fun _ _ _ _ => trivial) hs).2

/-- Any number of requests, settling passes and scoring passes, any call failing: once a submission
has written the job's record, no later call creates a failure for the job, if no call takes the
record from the last place a retirement has yet to look at. -/
theorem retirement_spares_result {w : World} (hnamed : w.queue.Named)
    (hready : ∀ i, (actors i).Ready) {s s' t u : Pool Stores World ι fun _ => Unit} {i i' : ι}
    {body record : Json}
    (hbefore : Reach machine.faulty (fun _ _ _ => True) (recordPool w actors) s)
    (hwrite : Step machine.faulty s i (.records (.write .incoming j body)) s')
    (hwritten : s'.world.records.Holds j .incoming)
    (hafter : Reach machine.faulty (KeepsSight j) s' t)
    (hcreate : Step machine.faulty t i' (.records (.create .incoming j record)) u) :
    u.world.records = t.world.records := by
  have hs' : Orderly j (fun _ _ => True) actors s' :=
    recordPool_orderly hnamed hready (hbefore.tail trivial hwrite)
  have hsight : Orderly j (Sees j) actors s' :=
    ⟨hs'.named, hs'.calls, hs'.careful, fun i => (hs'.guarding i).mono fun places _ _ =>
      ⟨.incoming, List.mem_cons_self, hwritten⟩⟩
  have ht : t.world.records.Recorded j ∧ Orderly j (Sees j) actors t := by
    refine hafter.invariant (fun v => v.world.records.Recorded j ∧ Orderly j (Sees j) actors v)
      ⟨⟨.incoming, hwritten⟩, hsight⟩ ?_
    rintro v i c v' ⟨hrec, hv⟩ hcond hstep
    have hbear : ∀ i places, Looks j places (v.procs i) → Sees j places v.world →
        Sees j places v'.world := by
      cases hstep with
      | mk _ hout => exact fun i places hlooks => hcond.sees hout hlooks
    obtain ⟨hkept, hv'⟩ := hv.step hrec.sees (fun _ _ => Sees.miss) hbear hstep
    obtain ⟨p, hp⟩ := hrec
    obtain ⟨q, -, hq⟩ := hkept.past j 0 (by omega) ⟨p, Nat.zero_le _, hp⟩
    exact ⟨⟨q, hq⟩, hv'⟩
  cases hcreate with
  | mk hcall hout =>
    have hlast := ht.2.guarding i'
    rw [hcall] at hlast
    obtain ⟨q, hq, hs⟩ := hlast.create
    rw [List.mem_singleton.mp hq] at hs
    have hsame : (machine (.records (.create .incoming j record)) t.world).2.records =
        t.world.records := by
      have hthere : (t.world.records.places.lookup (.incoming, j)).isSome := hs
      simp [machine, RecordCall.step, hthere]
    obtain ⟨-, rfl⟩ | ⟨-, -, rfl | rfl⟩ := hout
    · exact hsame
    · rfl
    · exact hsame

end Runs

def recordableBody (name : String) : Json :=
  .obj [("job_id", .str name), ("spec", .obj [("benchmark", .str "bench")])]

def lapsedLeaseWorld (name : String) (client : ClientId) : World :=
  { World.empty with
    queue := ⟨(∅ : FileTree _ _).insert (.leased ⟨⟨name⟩, .never, client, ⟨0⟩⟩) (recordableBody name)⟩ }

theorem lapsedLeaseWorld_named {name : String} {client : ClientId} :
    (lapsedLeaseWorld name client).queue.Named := by
  rintro p k b ⟨hk, hb⟩
  simp only [lapsedLeaseWorld, FileTree.lookup_write] at hb
  split at hb
  · next hp =>
    cases hb
    rw [hp] at hk
    cases hk
    rfl
  · cases hb

def writesRecord (j : JobId) : StoreCall → Bool
  | .records (.write .incoming j' _) => j' = j
  | _ => false

def createsRecord (j : JobId) : StoreCall → Bool
  | .records (.create .incoming j' _) => j' = j
  | _ => false

section Next

variable {ι : Type} [DecidableEq ι] {j : JobId} {s : Prog.Pool Stores World ι fun _ => Unit} {i : ι}

theorem step_writesRecord (h : (s.next i).any (writesRecord j) = true) :
    ∃ body, Prog.Pool.Step machine.clean s i (.records (.write .incoming j body))
      (s.advance machine i) := by
  obtain ⟨c, hnext, hc⟩ := (Option.any_eq_true _ _).mp h
  unfold writesRecord at hc
  split at hc
  · rw [← of_decide_eq_true hc]
    exact ⟨_, .advance hnext⟩
  · cases hc

theorem step_createsRecord (h : (s.next i).any (createsRecord j) = true) :
    ∃ record, Prog.Pool.Step machine.clean s i (.records (.create .incoming j record))
      (s.advance machine i) := by
  obtain ⟨c, hnext, hc⟩ := (Option.any_eq_true _ _).mp h
  unfold createsRecord at hc
  split at hc
  · rw [← of_decide_eq_true hc]
    exact ⟨_, .advance hnext⟩
  · cases hc

end Next

def retiringActors (j : JobId) (client : ClientId) : Bool → RecordActor
  | true => .queue (.maintain (fun _ => true) 1 (.leases 1))
  | false => .queue (.submit ⟨60, 1⟩ 1 [] client ⟨j, .success, .obj []⟩ false true)

def archivingScorer : Scorer :=
  ⟨fun _ => false, fun _ => .error .unscorable, fun _ _ => true, fun _ => some 1⟩

def racingActors (j : JobId) : Option Bool → RecordActor
  | some i => retiringActors j ⟨"client"⟩ i
  | none => .scoring (.processSubmissions archivingScorer [[j]] [])

theorem racingActors_ready {j : JobId} (i : Option Bool) : (racingActors j i).Ready := by
  match i with
  | some true => trivial
  | some false => trivial
  | none => trivial

def removesRecord : StoreCall → Bool
  | .records (.remove _ _) => true
  | _ => false

theorem keepsSight_of_not_removes {ι : Type} {j : JobId} {t : Prog.Pool Stores World ι fun _ => Unit}
    {i : ι} {c : StoreCall} (h : removesRecord c = false) : KeepsSight j t i c := by
  cases c with
  | records c => cases c <;> trivial
  | _ => trivial

/-- The success lands between the retirement's look and its creation, and scoring archives it, all
but the drop from `incoming/`. -/
theorem retirement_spares_result_landed :
    let j : JobId := ⟨"job"⟩
    let pool := recordPool (lapsedLeaseWorld "job" ⟨"client"⟩) (racingActors j)
    let s := pool.play machine (List.replicate 14 (some true) ++ List.replicate 6 (some false))
    let s' := s.advance machine (some false)
    let t := s'.play machine (List.replicate 3 none)
    let u := t.advance machine (some true)
    t.world.records.Holds j .incoming ∧ t.world.records.Holds j .processed ∧
      (t.next (some true)).any (createsRecord j) = true ∧ u.world.records = t.world.records := by
  intro j pool s s' t u
  have hclean : ∀ (c : StoreCall) (w : World) (r : Except Fault c.Answer) (w' : World),
      machine.clean c w r w' → machine.faulty c w r w' := fun _ _ _ _ h => .inl h
  have hplay : Prog.Pool.Reach machine.clean (fun _ _ _ => True) pool s := .play fun _ _ => trivial
  have hbefore : Prog.Pool.Reach machine.faulty (fun _ _ _ => True) pool s :=
    hplay.mono hclean fun _ _ _ h => h
  obtain ⟨body, hwrite⟩ : ∃ body, Prog.Pool.Step machine.clean s (some false)
      (.records (.write .incoming j body)) s' := step_writesRecord (by decide +kernel)
  have hremoves : (s'.moves machine (List.replicate 3 none)).all (fun x =>
      (x.1.next x.2).all fun c => !removesRecord c) = true := by decide +kernel
  have hafter : Prog.Pool.Reach machine.clean (KeepsSight j) s' t := by
    refine .play_moves fun x hx c hc => keepsSight_of_not_removes ?_
    have hall := List.all_eq_true.mp hremoves x hx
    rw [hc] at hall
    simpa using hall
  have hlast : (t.next (some true)).any (createsRecord j) = true := by decide +kernel
  obtain ⟨record, hcreate⟩ := step_createsRecord hlast
  refine ⟨by decide +kernel, by decide +kernel, hlast, ?_⟩
  exact retirement_spares_result lapsedLeaseWorld_named racingActors_ready hbefore
    (hwrite.mono hclean) (by decide +kernel) (hafter.mono hclean fun _ _ _ h => h)
    (hcreate.mono hclean)

/-- The success lands behind the retirement's look, scoring archives it at once, and the retirement
creates its failure in the empty `incoming/`. -/
theorem retirement_overrides_result :
    ∃ (w : World) (actors : Option Bool → RecordActor) (j : JobId)
      (s s' t u : Prog.Pool Stores World (Option Bool) fun _ => Unit) (body record : Json),
      w.queue.Named ∧ (∀ i, (actors i).Ready) ∧
      Prog.Pool.Reach machine.clean (fun _ _ _ => True) (recordPool w actors) s ∧
      Prog.Pool.Step machine.clean s (some false) (.records (.write .incoming j body)) s' ∧
      Prog.Pool.Reach machine.clean (fun _ _ _ => True) s' t ∧
      Prog.Pool.Step machine.clean t (some true) (.records (.create .incoming j record)) u ∧
      t.world.records.Holds j .processed ∧ ¬ t.world.records.Holds j .incoming ∧
      u.world.records.Holds j .incoming := by
  let j : JobId := ⟨"job"⟩
  let s := (recordPool (lapsedLeaseWorld "job" ⟨"client"⟩) (racingActors j)).play machine
    (List.replicate 14 (some true) ++ List.replicate 6 (some false))
  let s' := s.advance machine (some false)
  let t := s'.play machine (List.replicate 4 none)
  have hwrite : (s.next (some false)).any (writesRecord j) = true := by decide +kernel
  have hcreate : (t.next (some true)).any (createsRecord j) = true := by decide +kernel
  obtain ⟨body, hwrite⟩ := step_writesRecord hwrite
  obtain ⟨record, hcreate⟩ := step_createsRecord hcreate
  refine ⟨lapsedLeaseWorld "job" ⟨"client"⟩, racingActors j, j, s, s', t,
    t.advance machine (some true), body, record, lapsedLeaseWorld_named, racingActors_ready,
    .play fun _ _ => trivial, hwrite, .play fun _ _ => trivial, hcreate, ?_, ?_, ?_⟩
  · decide +kernel
  · decide +kernel
  · decide +kernel

end Pipette
