import Pipette.Api.Footprint

/-! A job has at most one entry across `avail/` and `leased/`, whatever order the requests of
devices and the passes of maintenance interleave in. -/
namespace Pipette

def QueueState.Stands (s : QueueState) (p : QueuePath) (k : AvailKey) (body : Json) : Prop :=
  p.queued = some k ∧ s.files.lookup p = some body

def QueueState.OneEntry (s : QueueState) : Prop :=
  ∀ p q k k' b b', s.Stands p k b → s.Stands q k' b' → k.jobId = k'.jobId → p = q

def QueueState.Named (s : QueueState) : Prop :=
  ∀ p k b, s.Stands p k b → bodyJobId b = some k.jobId

namespace QueueCall

variable {c : QueueCall} {s : QueueState} {p : QueuePath} {k : AvailKey} {body : Json}

def KeepsJobs : QueueCall → Prop
  | rename src dst => ∃ k k', src.queued = some k ∧ dst.queued = some k' ∧ k'.jobId = k.jobId
  | _ => True

def moved : QueueCall → QueuePath → QueuePath
  | rename src dst, p => if p = src then dst else p
  | _, p => p

theorem ByDevice.keepsJobs (h : c.ByDevice) : c.KeepsJobs := by
  cases c with
  | rename src dst =>
    cases src <;> cases dst <;> simp only [ByDevice] at h
    · exact ⟨_, _, rfl, rfl, congrArg AvailKey.jobId h⟩
    · exact ⟨_, _, rfl, rfl, congrArg AvailKey.jobId h⟩
    · exact ⟨_, _, rfl, rfl, congrArg AvailKey.jobId h.1⟩
  | _ => trivial

theorem ByDevice.queued {q : QueuePath} (h : (rename p q).ByDevice) : q.queued = p.queued := by
  cases p <;> cases q <;> simp_all [ByDevice, QueuePath.queued]

theorem BySettling.keepsJobs {now : Instant} (h : c.BySettling now) : c.KeepsJobs := by
  cases c with
  | rename src dst =>
    cases src <;> cases dst <;> simp only [BySettling] at h
    · exact ⟨_, _, rfl, rfl, h.1⟩
    · exact ⟨_, _, rfl, rfl, congrArg AvailKey.jobId h⟩
  | _ => trivial

theorem KeepsJobs.origin (hc : c.KeepsJobs) (h : (c.step s).2.Stands p k body) :
    ∃ q k', s.Stands q k' body ∧ k'.jobId = k.jobId ∧ c.moved q = p ∧
      (k' = k ∨ c = rename q p) := by
  have hsame : s.Stands p k body → c.moved p = p → ∃ q k', s.Stands q k' body ∧
      k'.jobId = k.jobId ∧ c.moved q = p ∧ (k' = k ∨ c = rename q p) :=
    fun hp hm => ⟨p, k, hp, rfl, hm, .inl rfl⟩
  cases c with
  | rename src dst =>
    obtain ⟨hqueued, hlookup⟩ := h
    rw [QueueState.step_rename] at hlookup
    cases hmove : s.files.rename src dst with
    | none =>
      rw [hmove] at hlookup
      refine hsame ⟨hqueued, hlookup⟩ (if_neg fun hp => ?_)
      rw [hp, FileTree.rename_eq_none.mp hmove] at hlookup
      cases hlookup
    | some files =>
      rw [hmove] at hlookup
      simp only [FileTree.lookup_rename hmove] at hlookup
      split at hlookup
      · next hp =>
        subst hp
        obtain ⟨k₀, k₁, hsrc, hdst, hjob⟩ := hc
        have hk : k₁ = k := Option.some.inj (hdst.symm.trans hqueued)
        exact ⟨src, k₀, ⟨hsrc, hlookup⟩, by rw [← hk, hjob], if_pos rfl, .inr rfl⟩
      · split at hlookup
        · cases hlookup
        · next hp => exact hsame ⟨hqueued, hlookup⟩ (if_neg hp)
  | remove q =>
    obtain ⟨hqueued, hlookup⟩ := h
    simp only [step, FileTree.lookup_remove] at hlookup
    split at hlookup
    · cases hlookup
    · exact hsame ⟨hqueued, hlookup⟩ rfl
  | writeTmp j b =>
    obtain ⟨hqueued, hlookup⟩ := h
    simp only [step, FileTree.lookup_write] at hlookup
    split at hlookup
    · next hp => rw [hp] at hqueued; cases hqueued
    · exact hsame ⟨hqueued, hlookup⟩ rfl
  | _ => exact hsame h rfl

theorem KeepsJobs.oneEntry (hc : c.KeepsJobs) (h : s.OneEntry) : (c.step s).2.OneEntry := by
  intro p q k k' b b' hp hq hjob
  obtain ⟨p₀, k₀, hp₀, hk₀, hpm, -⟩ := hc.origin hp
  obtain ⟨q₀, k₁, hq₀, hk₁, hqm, -⟩ := hc.origin hq
  have hsame : p₀ = q₀ := h p₀ q₀ k₀ k₁ b b' hp₀ hq₀ (by rw [hk₀, hk₁, hjob])
  rw [← hpm, ← hqm, hsame]

theorem KeepsJobs.named (hc : c.KeepsJobs) (h : s.Named) : (c.step s).2.Named := by
  intro p k b hp
  obtain ⟨q, k', hq, hjob, -⟩ := hc.origin hp
  rw [← hjob]
  exact h q k' b hq

end QueueCall

/-- A pass of maintenance that settles leases or entries. The entries, and the bodies read so far,
are those an earlier pass left: any are allowed. -/
inductive SettlingPass
  | leases (lostLeaseLimit : Nat)
  | overdue (keys : List AvailKey)
  | unmatchable (keys : List AvailKey) (bodies : Bodies)
  | allDenied (keys : List AvailKey) (bodies : Bodies)

def SettlingPass.program (catalog : Catalog) (now : Instant) : SettlingPass → Op Unit
  | leases limit => (settleExpiredLeases catalog limit now).void
  | overdue keys => (expireOverdueJobs catalog keys now).void
  | unmatchable keys bodies => (retireUnmatchableJobs catalog keys bodies).void
  | allDenied keys bodies => (escalateAllDeniedJobs catalog keys bodies).void

inductive QueueActor
  | claim (cfg : Config) (now : Instant) (client : Client) (tiebreak : EligibleMarker → Nat)
  | heartbeat (cfg : Config) (now : Instant) (c : ClientId) (j : JobId)
  | reclaim (cfg : Config) (now : Instant) (c : ClientId) (j : JobId)
  | submit (cfg : Config) (now : Instant) (sched : List Bool) (c : ClientId) (s : Submission)
      (held claimed : Bool)
  | maintain (catalog : Catalog) (now : Instant) (pass : SettlingPass)

namespace QueueActor

def program : QueueActor → Op Unit
  | claim cfg now client tiebreak => (Pipette.claim cfg now client tiebreak).void
  | heartbeat cfg now c j => (Pipette.heartbeat cfg now c j).void
  | reclaim cfg now c j => (Pipette.reclaim cfg now c j).void
  | submit cfg now sched c s held claimed => submitBenchmark cfg now sched c s held claimed
  | maintain catalog now pass => pass.program catalog now

def MayCall : QueueActor → StoreCall → Prop
  | maintain _ now _ => SettlingCall now
  | submit .. => SubmissionCall
  | claim .. | heartbeat .. | reclaim .. => DeviceCall

theorem program_calls (a : QueueActor) : a.program.Calls a.MayCall := by
  cases a with
  | claim => exact .void claim_device
  | heartbeat => exact .void heartbeat_device
  | reclaim => exact .void reclaim_device
  | submit => exact submitBenchmark_calls
  | maintain catalog now pass =>
    cases pass with
    | leases => exact .void settleExpiredLeases_settling
    | overdue => exact .void expireOverdueJobs_settling
    | unmatchable => exact .void retireUnmatchableJobs_settling
    | allDenied => exact .void escalateAllDeniedJobs_settling

theorem MayCall.keepsJobs {a : QueueActor} {c : QueueCall} (h : a.MayCall (.queue c)) :
    c.KeepsJobs := by
  cases a with
  | maintain catalog now pass => exact QueueCall.BySettling.keepsJobs h
  | _ => exact QueueCall.ByDevice.keepsJobs h

theorem MayCall.rename {a : QueueActor} {p q : QueuePath} {k k' : AvailKey}
    (h : a.MayCall (.queue (.rename p q))) (hp : p.queued = some k) (hq : q.queued = some k') :
    k = k' ∨ (p = .avail k ∧ q = .avail k' ∧
      ∃ catalog now pass, a = .maintain catalog now pass ∧ k.expiresAt.isExpired now) := by
  have hdevice : (QueueCall.rename p q).ByDevice → k = k' := by
    intro h
    rw [h.queued, hp] at hq
    exact Option.some.inj hq
  cases a with
  | maintain catalog now pass =>
    cases p <;> cases q <;>
      simp_all [MayCall, SettlingCall, QueueCall.BySettling, QueuePath.queued]
  | _ => exact .inl (hdevice h)

end QueueActor

theorem faulty_queue {c : StoreCall} {w w' : World} {r : Except Fault c.Answer}
    (h : machine.faulty c w r w') :
    w'.queue = w.queue ∨ ∃ c', c = .queue c' ∧ w'.queue = (c'.step w.queue).2 := by
  have heffect : (machine c w).2.queue = w.queue ∨
      ∃ c', c = .queue c' ∧ (machine c w).2.queue = (c'.step w.queue).2 := by
    cases c with
    | queue c => exact .inr ⟨c, rfl, rfl⟩
    | _ => exact .inl rfl
  obtain ⟨-, rfl⟩ | ⟨e, -, rfl | rfl⟩ := h
  · exact heffect
  · exact .inl rfl
  · exact heffect

def QueueState.BodiesFrom (s₀ s : QueueState) : Prop :=
  ∀ p k body, s.Stands p k body → ∃ p₀ k₀, s₀.Stands p₀ k₀ body ∧ k₀.jobId = k.jobId

theorem QueueCall.KeepsJobs.bodiesFrom {c : QueueCall} {s₀ s : QueueState} (hc : c.KeepsJobs)
    (h : s₀.BodiesFrom s) : s₀.BodiesFrom (c.step s).2 := by
  intro p k body hp
  obtain ⟨q, k', hq, hk', -⟩ := hc.origin hp
  obtain ⟨p₀, k₀, hp₀, hk₀⟩ := h q k' body hq
  exact ⟨p₀, k₀, hp₀, hk₀.trans hk'⟩

section Runs

open Prog Prog.Pool

variable {ι : Type} [DecidableEq ι] {actors : ι → QueueActor} {w : World}
  {t u : Pool Stores World ι fun _ => Unit}

def queuePool (w : World) (actors : ι → QueueActor) : Pool Stores World ι fun _ => Unit :=
  ⟨w, fun i => (actors i).program⟩

/-- One run invariant: the queue has one entry per job with its first body, and each process keeps
to its calls. -/
theorem queuePool_invariant (hone : w.queue.OneEntry)
    (h : Reach machine.faulty (fun _ _ _ => True) (queuePool w actors) t) :
    (t.world.queue.OneEntry ∧ w.queue.BodiesFrom t.world.queue) ∧
      ∀ i, (t.procs i).Calls (actors i).MayCall := by
  refine h.world_invariant (fun v => v.queue.OneEntry ∧ w.queue.BodiesFrom v.queue)
    ⟨hone, fun p k body hp => ⟨p, k, hp, rfl⟩⟩ (fun i => (actors i).program_calls) ?_
  intro i c v r v' hcall hout hv
  obtain hq | ⟨c', rfl, hq⟩ := faulty_queue hout
  · rwa [hq]
  · rw [hq]
    exact ⟨hcall.keepsJobs.oneEntry hv.1, hcall.keepsJobs.bodiesFrom hv.2⟩

theorem step_deadline {i : ι} {c : StoreCall} (hone : t.world.queue.OneEntry)
    (hcalls : ∀ i, (t.procs i).Calls (actors i).MayCall) (hs : Step machine.faulty t i c u)
    {p q : QueuePath} {k k' : AvailKey} {b b' : Json} (hp : t.world.queue.Stands p k b)
    (hq : u.world.queue.Stands q k' b') (hjob : k'.jobId = k.jobId) (hne : k ≠ k') :
    c = .queue (.rename (.avail k) (.avail k')) ∧
      ∃ catalog now pass, actors i = .maintain catalog now pass ∧ k.expiresAt.isExpired now := by
  have hmay := (hs.calls hcalls).1
  -- the entry before the step is the only one of its job
  have hkey : ∀ q₀ k₀, t.world.queue.Stands q₀ k₀ b' → k₀.jobId = k'.jobId → q₀ = p ∧ k₀ = k := by
    intro q₀ k₀ hq₀ hk₀
    have hpath : q₀ = p := hone q₀ p k₀ k b' b hq₀ hp (hk₀.trans hjob)
    subst hpath
    exact ⟨rfl, Option.some.inj (hq₀.1.symm.trans hp.1)⟩
  cases hs with
  | mk hcall hout =>
    obtain hsame | ⟨c', rfl, hstep⟩ := faulty_queue hout
    · simp only at hq
      rw [hsame] at hq
      exact absurd (hkey q k' hq rfl).2.symm hne
    · simp only at hq
      rw [hstep] at hq
      obtain ⟨q₀, k₀, hq₀, hk₀, -, hor⟩ := hmay.keepsJobs.origin hq
      obtain ⟨rfl, rfl⟩ := hkey q₀ k₀ hq₀ hk₀
      obtain hk | rfl := hor
      · exact absurd hk hne
      obtain hk | ⟨hpa, hqa, hlapsed⟩ := hmay.rename hq₀.1 hq.1
      · exact absurd hk hne
      · rw [hpa, hqa]
        exact ⟨rfl, hlapsed⟩

/-- Claims, reclaims, heartbeats and submissions of any number of devices, with the settling
passes of maintenance, in any order and with any call failing: from a queue with one entry per
job, every state reached has one entry per job, with the body it had, and a step that changes the
deadline of a job is a pass that re-dates a deadline lapsed at its clock. -/
theorem queue_one_entry (hone : w.queue.OneEntry)
    (h : Reach machine.faulty (fun _ _ _ => True) (queuePool w actors) t) :
    t.world.queue.OneEntry ∧ w.queue.BodiesFrom t.world.queue ∧
      ∀ i c u, Step machine.faulty t i c u → ∀ p q k k' b b', t.world.queue.Stands p k b →
        u.world.queue.Stands q k' b' → k'.jobId = k.jobId → k'.expiresAt ≠ k.expiresAt →
        c = .queue (.rename (.avail k) (.avail k')) ∧
          ∃ catalog now pass, actors i = .maintain catalog now pass ∧
            k.expiresAt.isExpired now := by
  obtain ⟨⟨hone', hbodies⟩, hcalls⟩ := queuePool_invariant hone h
  refine ⟨hone', hbodies, fun i c u hs p q k k' b b' hp hq hjob hne => ?_⟩
  exact step_deadline hone' hcalls hs hp hq hjob fun hk => hne (congrArg _ hk.symm)

end Runs

theorem QueueState.oneEntry_of_pairwise {s : QueueState}
    (h : s.files.keys.Pairwise fun p q =>
      ∀ k ∈ p.queued, ∀ k' ∈ q.queued, k.jobId ≠ k'.jobId) : s.OneEntry := by
  intro p q k k' b b' hp hq hjob
  by_contra hne
  have hmem : ∀ {p b}, s.files.lookup p = some b → p ∈ s.files.keys := fun h =>
    FileTree.mem_keys_iff.mpr (h ▸ rfl)
  have hsymm : Std.Symm fun p q : QueuePath =>
      ∀ k ∈ p.queued, ∀ k' ∈ q.queued, k.jobId ≠ k'.jobId :=
    ⟨fun p q h k hk k' hk' => (h k' hk' k hk).symm⟩
  exact h.forall (hmem hp.2) (hmem hq.2) hne k hp.1 k' hq.1 hjob

def lapsedWorld (lapsed held : JobId) (plan : PlanId) (client : ClientId) : World :=
  { World.empty with
    queue := ⟨((∅ : FileTree _ _).insert (.avail ⟨lapsed, .atStamp ⟨0⟩⟩) (.str "lapsed")).insert
      (.leased ⟨held, .never, client, ⟨9⟩⟩) (.str "held")⟩
    plans := { World.empty.plans with jobPlans := (∅ : FileTree _ _).insert (lapsed, plan, .never) 0 } }

/-- A pass re-dates the lapsed job while a heartbeat renews the lease of the other. -/
theorem queue_one_entry_redated :
    let lapsed : JobId := ⟨"lapsed"⟩
    let held : JobId := ⟨"held"⟩
    let w := lapsedWorld lapsed held ⟨"plan"⟩ ⟨"client"⟩
    let actors : Bool → QueueActor
      | true => .maintain (fun _ => true) 5 (.overdue [⟨lapsed, .atStamp ⟨0⟩⟩])
      | false => .heartbeat ⟨60, 3⟩ 5 ⟨"client"⟩ held
    let t := (queuePool w actors).play machine
      [false, true, false, false, false, false, true, false, false]
    t.world.queue.files.keys =
        [.leased ⟨held, .never, ⟨"client"⟩, ⟨60⟩⟩, .avail ⟨lapsed, .never⟩] ∧
      t.world.queue.OneEntry := by
  intro lapsed held w actors t
  have hone : w.queue.OneEntry := QueueState.oneEntry_of_pairwise (by decide +kernel)
  have hplay : Prog.Pool.Reach machine.clean (fun _ _ _ => True) (queuePool w actors) t :=
    .play fun _ _ => trivial
  have hrun : Prog.Pool.Reach machine.faulty (fun _ _ _ => True) (queuePool w actors) t :=
    hplay.mono (fun _ _ _ _ h => .inl h) fun _ _ _ h => h
  exact ⟨by decide +kernel, (queue_one_entry hone hrun).1⟩

end Pipette
