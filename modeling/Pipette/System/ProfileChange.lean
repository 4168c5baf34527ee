import Pipette.Api.Clients
import Pipette.Pipeline.Stages
import Pipette.System.Rechecks

/-! A profile change voids the client's leases. The update raises a flag and then lists the leases;
a claim renames and then looks for the flag. -/
namespace Pipette

open Prog

def Flagged (c : ClientId) (w : World) : Prop := w.index.flags.keys.any (·.clientId = c) = true

def DropsFlag (c : ClientId) : StoreCall → Prop
  | .index (.deletePendingReindex f) => f.clientId = c
  | _ => False

section Flag

variable {c : ClientId} {w : World} {q : StoreCall}

theorem flagged_iff : Flagged c w ↔ ∃ f, f.clientId = c ∧ (w.index.flags.lookup f).isSome := by
  simp only [Flagged, List.any_eq_true, FileTree.mem_keys_iff, decide_eq_true_eq]
  exact exists_congr fun _ => and_comm

theorem flagged_write : Flagged c (machine (.index (.writePendingReindex c)) w).2 :=
  flagged_iff.mpr ⟨⟨c, w.index.nextNonce⟩, rfl, by simp [machine, IndexCall.step]⟩

theorem Flagged.step (h : Flagged c w) (hq : ¬ DropsFlag c q) : Flagged c (machine q w).2 := by
  obtain ⟨f, hf, hthere⟩ := flagged_iff.mp h
  refine flagged_iff.mpr ⟨f, hf, ?_⟩
  cases q with
  | index q =>
    cases q with
    | writePendingReindex c' =>
      simp only [machine, IndexCall.step, FileTree.lookup_write]
      split
      · rfl
      · exact hthere
    | deletePendingReindex f' =>
      have hne : f ≠ f' := fun he => hq (he ▸ hf)
      simpa only [machine, IndexCall.step, FileTree.lookup_remove, if_neg hne] using hthere
    | _ => exact hthere
  | _ => exact hthere

theorem Flagged.faulty {r : Except Fault q.Answer} {w' : World} (h : Flagged c w)
    (hq : ¬ DropsFlag c q) (hout : machine.faulty q w r w') : Flagged c w' := by
  obtain ⟨-, rfl⟩ | ⟨e, -, rfl | rfl⟩ := hout
  · exact h.step hq
  · exact h
  · exact h.step hq

theorem DeviceCall.keepsFlag (h : DeviceCall q) : ¬ DropsFlag c q := by
  cases q with
  | index q => cases q <;> first | exact h.elim | exact fun h => h
  | _ => exact fun h => h

end Flag

def QueueActor.RequestOf (c : ClientId) : QueueActor → Prop
  | claim _ _ client _ => client.clientId = c
  | heartbeat _ _ c' _ | reclaim _ _ c' _ => c' = c
  | submit .. | maintain .. => False

theorem QueueActor.RequestOf.device {c : ClientId} {a : QueueActor} (h : a.RequestOf c) :
    a.program.Calls DeviceCall := by
  cases a with
  | claim => exact .void claim_device
  | heartbeat => exact .void heartbeat_device
  | reclaim => exact .void reclaim_device
  | submit => exact h.elim
  | maintain => exact h.elim

def flaggedOutcomes (c : ClientId) : Outcomes Stores World :=
  fun q w r w' => machine.clean q w r w' ∧ Flagged c w

section Refused

variable {c : ClientId} {w : World} {α β : Type} {cfg : Config} {now : Instant}

variable (c) in
abbrev Refused (p : Op α) (Q : Except Fault α → World → Prop) (w : World) : Prop :=
  p.Sat (flaggedOutcomes c) (fun _ _ => True) (fun q _ => NoGrant q) Q w

theorem Refused.bind {p : Op α} {f : α → Op β} {Q : Except Fault α → World → Prop}
    (hp : Refused c p Q w) (hf : ∀ a w, Q (.ok a) w → Refused c (f a) (fun _ _ => True) w) :
    Refused c (p.bind f) (fun _ _ => True) w := by
  have : Std.Refl fun _ _ : World => True := ⟨fun _ => trivial⟩
  exact Sat.bind hp hf fun _ _ _ _ _ => trivial

theorem Refused.store {q : StoreCall} (hq : NoGrant q) :
    Refused c (Prog.store (I := Stores) q) (fun _ _ => True) w :=
  .store_any fun _ _ => ⟨hq, fun _ _ _ _ _ => trivial⟩

theorem hasPendingReindex_refused :
    Refused c (Op.index (.hasPendingReindex c)) (fun r _ => r = .ok true) w := by
  refine .store_any fun w _ => ⟨trivial, ?_⟩
  rintro r v ⟨⟨rfl, -⟩, hflag⟩ - -
  exact congrArg Except.ok hflag

theorem claim_refused {client : Client} {tiebreak : EligibleMarker → Nat} :
    Refused client.clientId (claim cfg now client tiebreak) (fun _ _ => True) w := by
  refine Refused.bind (.store trivial) fun suspended w _ => ?_
  split
  · exact fun _ _ => trivial
  refine Refused.bind hasPendingReindex_refused fun flagged w hflag => ?_
  cases hflag
  exact fun _ _ => trivial

theorem refuseRenewal_refused {j : JobId} :
    Refused c (refuseRenewal c j) (fun r _ => r = .ok none → False) w := by
  have : Std.Refl fun _ _ : World => True := ⟨fun _ => trivial⟩
  refine Sat.bind (Refused.store trivial) (fun suspended w _ => ?_) fun e w _ w' _ h => by cases h
  split
  · intro w' _ h
    cases h
  refine Sat.bind hasPendingReindex_refused (fun flagged w hflag => ?_) fun e w _ w' _ h => by cases h
  cases hflag
  intro w' _ h
  cases h

theorem QueueActor.RequestOf.refused {a : QueueActor} (h : a.RequestOf c) :
    Refused c a.program (fun _ _ => True) w := by
  cases a with
  | claim cfg now client tiebreak =>
    cases h
    exact claim_refused.bind fun _ _ _ _ _ => trivial
  | heartbeat cfg now c' j =>
    cases h
    refine Refused.bind (refuseRenewal_refused.bind fun response w hr => ?_) fun _ _ _ _ _ => trivial
    cases response with
    | none => exact (hr rfl).elim
    | some response => exact fun _ _ => trivial
  | reclaim cfg now c' j =>
    cases h
    refine Refused.bind (refuseRenewal_refused.bind fun response w hr => ?_) fun _ _ _ _ _ => trivial
    cases response with
    | none => exact (hr rfl).elim
    | some response => exact fun _ _ => trivial
  | submit => exact h.elim
  | maintain => exact h.elim

end Refused

def RenewsLease : StoreCall → World → Prop
  | .queue (.rename (.leased l) (.leased _)), w => (w.queue.files.lookup (.leased l)).isSome
  | _, _ => False

def relinquishedOutcomes (c : ClientId) : Outcomes Stores World :=
  fun q w r w' => flaggedOutcomes c q w r w' ∧ ¬ RenewsLease q w

def NotHeld (l : Lease) (w : World) : Prop := w.queue.files.lookup (.leased l) = none

section Guarded

variable {c : ClientId} {l g : Lease} {src : QueuePath}

theorem NoGrant.notHeld {q : StoreCall} {w : World} (hq : NoGrant q) (hw : NotHeld l w) :
    NotHeld l (machine q w).2 := by
  cases q with
  | queue q => exact lookup_leased_step hq hw
  | _ => exact hw

theorem MaintenanceCall.notHeld {q : StoreCall} {w : World} (hq : MaintenanceCall q)
    (hw : NotHeld l w) : NotHeld l (machine q w).2 := by
  cases q with
  | queue q =>
    refine lookup_leased_step ?_ hw
    cases q with
    | rename src dst => cases dst <;> exact hq
    | _ => trivial
  | _ => exact hw

theorem NotHeld.faulty {q : StoreCall} {w w' : World} {r : Except Fault q.Answer}
    (hkeep : NotHeld l w → NotHeld l (machine q w).2) (hw : NotHeld l w)
    (hout : machine.faulty q w r w') : NotHeld l w' := by
  obtain ⟨-, rfl⟩ | ⟨e, -, rfl | rfl⟩ := hout
  · exact hkeep hw
  · exact hw
  · exact hkeep hw

theorem grant_of_held {q : StoreCall} {w : World} (hw : NotHeld l w)
    (hheld : ¬ NotHeld l (machine q w).2) :
    ∃ src, q = .queue (.rename src (.leased l)) ∧ (w.queue.files.lookup src).isSome := by
  cases q with
  | queue q =>
    cases q with
    | rename src dst =>
      cases dst with
      | leased g =>
        by_cases hg : g = l
        · subst hg
          refine ⟨src, rfl, ?_⟩
          by_contra hnone
          simp only [NotHeld, machine, QueueState.step_rename,
            FileTree.rename_eq_none.mpr (Option.not_isSome_iff_eq_none.mp hnone)] at hheld
          exact hheld hw
        · exact absurd (lookup_leased_rename hw hg) hheld
      | avail k => exact (hheld (NoGrant.notHeld trivial hw)).elim
      | tmp j => exact (hheld (NoGrant.notHeld trivial hw)).elim
    | _ => exact (hheld (NoGrant.notHeld trivial hw)).elim
  | _ => exact absurd hw hheld

theorem notHeld_breaks
    (h : Breaks (relinquishedOutcomes c) (NotHeld l) (.queue (.rename src (.leased g)))) : g = l := by
  obtain ⟨w, r, w', ⟨⟨⟨-, rfl⟩, -⟩, -⟩, hw, hbroken⟩ := h
  by_contra hne
  exact hbroken (lookup_leased_rename hw hne)

theorem notHeld_guarded (hl : l.clientId = c) :
    Guarded c (fun _ => True) (relinquishedOutcomes c) (NotHeld l) := by
  have hbreak : GrantsBreak (relinquishedOutcomes c) (NotHeld l) :=
    { answered := fun h => h.1.1
      keeps := fun hq => by
        rintro ⟨w, r, w', ⟨⟨⟨-, rfl⟩, -⟩, -⟩, hw, hbroken⟩
        exact hbroken (hq.notHeld hw) }
  refine ⟨hbreak, fun h v hv => ?_, fun h now _ v => ?_, fun h now _ v => ?_⟩
  · exact notHeld_breaks h ▸ hv
  · rw [notHeld_breaks h]
    refine Catches.store_bind hbreak fun w w' hout _ => ?_
    have hflag : (machine (.index (.hasPendingReindex l.clientId)) w).1 = true := hl ▸ hout.1.2
    rw [hflag]
    exact (resolveOrRecycleLease_catches hbreak fun v hv => hv).bind fun _ => trivial
  · -- a renewal without its lease moves nothing
    obtain ⟨w, r, w', ⟨⟨⟨-, rfl⟩, -⟩, hnone⟩, hw, hbroken⟩ := h
    refine absurd hw fun hw => hbroken ?_
    simp only [NotHeld, machine, QueueState.step_rename]
    rw [FileTree.rename_eq_none.mpr (Option.not_isSome_iff_eq_none.mp hnone)]
    exact hw

theorem QueueActor.RequestOf.rechecks {a : QueueActor} (h : a.RequestOf c) (hl : l.clientId = c) :
    Rechecks (relinquishedOutcomes c) (NotHeld l) a.program := by
  have hguard := notHeld_guarded hl
  cases a with
  | claim cfg now client tiebreak =>
    cases h
    exact (claim_rechecks hguard trivial).mends_bind fun _ => trivial
  | heartbeat cfg now c' j =>
    cases h
    exact (heartbeat_rechecks hguard trivial).mends_bind fun _ => trivial
  | reclaim cfg now c' j =>
    cases h
    exact (reclaim_rechecks hguard trivial).mends_bind fun _ => trivial
  | submit => exact h.elim
  | maintain => exact h.elim

end Guarded

def RelinquishCall : StoreCall → Prop
  | .queue _ | .records _ => True
  | _ => False

def PersistCall : StoreCall → Prop
  | .fleet _ => True
  | .index (.writePendingReindex _) | .index (.hasPendingReindex _) => True
  | _ => False

def HoldsNone (c : ClientId) (w : World) : Prop := ∀ l : Lease, l.clientId = c → NotHeld l w

section Update

variable {c : ClientId} {α : Type} {read client : Client}

theorem relinquishLease_calls {l : Lease} : (relinquishLease l).Calls RelinquishCall := by
  refine .bind (resolveOrRecycleLease_calls (fun _ => trivial) trivial trivial) fun r => ?_
  cases r with
  | recycled =>
    refine .bind (.bind (findBody_calls fun _ _ => trivial) fun found => ?_) fun _ => .ret _
    cases found with
    | none => exact .ret _
    | some _ => exact .bind (deleteAvailByJob_calls trivial fun _ => trivial) fun _ => .ret _
  | resolvedStale => exact .ret _
  | gone => exact .ret _

theorem relinquishPasses_until {f : Unit → Op α} (hf : (f ()).Calls PersistCall) (n : Nat) :
    ((relinquishPasses c n).bind f).Until machine.clean RelinquishCall
      fun p w => p.Calls PersistCall ∧ HoldsNone c w := by
  have hclean : ∀ w : World, (w.queue.leases.filter (·.clientId = c)).isEmpty →
      HoldsNone c w := by
    intro w hempty l hl
    by_contra hheld
    have hmem := QueueState.mem_leases.mpr (Option.isSome_iff_ne_none.mpr hheld)
    simp only [List.isEmpty_iff, List.filter_eq_nil_iff, decide_eq_true_eq] at hempty
    exact hempty l hmem hl
  have hlist : ∀ more : List Lease → Op Unit,
      (∀ leases, ((more leases).bind f).Until machine.clean RelinquishCall
        fun p w => p.Calls PersistCall ∧ HoldsNone c w) →
      (((Op.queue (.listLeasedOf c)).bind fun leases =>
        if leases.isEmpty then pure () else more leases).bind f).Until machine.clean RelinquishCall
          fun p w => p.Calls PersistCall ∧ HoldsNone c w := by
    intro more hmore
    refine ⟨trivial, ?_⟩
    rintro w r w' ⟨rfl, rfl⟩
    cases hempty : (w.queue.leases.filter (·.clientId = c)).isEmpty with
    | true =>
      refine .inl ⟨?_, hclean w hempty⟩
      simp only [machine, QueueCall.step, ret_bind, hempty, if_true]
      exact hf
    | false =>
      refine .inr ?_
      simp only [machine, QueueCall.step, ret_bind, hempty]
      exact hmore _
  induction n with
  | zero => exact hlist _ fun _ => trivial
  | succ n ih =>
    refine hlist _ fun leases => ?_
    rw [bind_eq, Prog.bind_assoc]
    exact .bind (.forM fun _ _ => relinquishLease_calls) fun _ => ih

theorem persistUpdate_calls {changed : Bool} :
    (persistUpdate read client changed).Calls PersistCall := by
  have hanswer : ((Op.fleet (.clientTags client.clientId)).bind fun tags =>
      (Op.index (.hasPendingReindex client.clientId)).bind fun reindexPending =>
        (pure { client, tags, reindexPending } : Op ClientProfile)).Calls PersistCall :=
    .bind (.store trivial) fun _ => .bind (.store trivial) fun _ => .ret _
  refine .bind (.store trivial) fun replaced => ?_
  cases replaced with
  | false => exact .fail _
  | true =>
    cases changed with
    | true => exact .bind (.store trivial) fun _ => hanswer
    | false => exact hanswer

end Update

inductive ProfileParty (ι ν κ : Type)
  | update
  | before (i : ι)
  | after (i : ν)
  | run (k : κ)
deriving DecidableEq

abbrev ProfilePool (ι ν κ : Type) : Type :=
  Pool Stores World (ProfileParty ι ν κ) fun _ => Unit

abbrev ProfileLog (ι ν κ : Type) : Type :=
  List (ProfilePool ι ν κ × ProfileParty ι ν κ × StoreCall)

/-- An update that changes what the client's jobs are matched against, with the client's claims,
heartbeats and reclaims that begin before it answers, those that begin after, and maintenance
runs. -/
structure ProfileChange (ι ν κ : Type) where
  read : Client
  body : UpdateClient
  client : Client
  merged : body.mergeInto read = .ok client
  changed : matchingInputChanged read client = true
  before : ι → QueueActor
  before_own : ∀ i, (before i).RequestOf read.clientId
  after : ν → QueueActor
  after_own : ∀ i, (after i).RequestOf read.clientId
  runs : κ → RunContext

namespace ProfileChange

open Prog.Pool

variable {ι ν κ : Type} (s : ProfileChange ι ν κ)

def program : ProfileParty ι ν κ → Op Unit
  | .update => (updateOwnClient s.read s.body).void
  | .before i => (s.before i).program
  | .after i => (s.after i).program
  | .run k => Pipette.run (s.runs k)

def pool (w : World) : ProfilePool ι ν κ := ⟨w, s.program⟩

def outcomes : ProfileParty ι ν κ → Outcomes Stores World
  | .run _ => machine.faulty
  | .update | .before _ | .after _ => machine.clean

def Settled (t : ProfilePool ι ν κ) : Prop :=
  (t.procs .update).outcome.isSome ∧ ∀ i, (t.procs (.before i)).outcome.isSome

def Relinquished (t : ProfilePool ι ν κ) : Prop :=
  (t.procs .update).Calls fun (q : StoreCall) => q ≠ .queue (.listLeasedOf s.read.clientId)

/-- From the update's first flag until all that began before its answer has ended, no run deletes a
flag of the client; and once the update has found no lease, none of those requests renews one. -/
def FlagStands (t : ProfilePool ι ν κ) :
    ProfileParty ι ν κ → StoreCall → Prop
  | .run _, q => DropsFlag s.read.clientId q → t.procs .update = s.program .update ∨ Settled t
  | .before _, q => s.Relinquished t → ¬ RenewsLease q t.world
  | .update, _ | .after _, _ => True

def InTurn (t : ProfilePool ι ν κ) : ProfileParty ι ν κ → Prop
  | .after _ => t.procs .update = .ret ()
  | .update | .before _ | .run _ => True

def GrantedAfter (log : ProfileLog ι ν κ) (k : AvailKey) : Prop :=
  ∃ u i l, (u, .after i, .queue (.rename (.avail k) (.leased l))) ∈ log ∧
    l.clientId = s.read.clientId ∧ (u.world.queue.files.lookup (.avail k)).isSome

def MayCall : ProfileParty ι ν κ → StoreCall → Prop
  | .update, _ => True
  | .before _, q | .after _, q => DeviceCall q
  | .run _, q => MaintenanceCall q

theorem program_calls (i : ProfileParty ι ν κ) : (s.program i).Calls (MayCall i) := by
  cases i with
  | update => exact .of_all (fun _ => trivial) _
  | before i => exact (s.before_own i).device
  | after i => exact (s.after_own i).device
  | run k => exact run_maintenance

def Cleared (p : Op Unit) (w : World) : Prop := p.Calls PersistCall ∧ HoldsNone s.read.clientId w

theorem update_program :
    ∃ k k', s.program .update = .call (.index (.writePendingReindex s.read.clientId)) k ∧
      k (.ok ()) = .call (.queue (.listLeasedOf s.read.clientId)) k' ∧
      (k (.ok ())).Until machine.clean RelinquishCall s.Cleared := by
  have hclient : s.client.clientId = s.read.clientId := mergeInto_clientId s.merged
  have hprogram : ∀ c, s.client.clientId = c → s.program .update =
      (Op.index (.writePendingReindex c)).bind fun _ => (relinquishClientLeases c).bind fun _ =>
        (persistUpdate s.read s.client true).void := by
    rintro c rfl
    unfold program updateOwnClient
    rw [s.merged]
    simp only [s.changed, if_true, Prog.void, bind_eq, Prog.bind_assoc]
  rw [hprogram _ hclient]
  exact ⟨_, _, rfl, rfl, relinquishPasses_until (.void persistUpdate_calls) 2⟩

variable {log : ProfileLog ι ν κ} {t u : ProfilePool ι ν κ} {i : ProfileParty ι ν κ}
  {q : StoreCall}

structure Waiting (t : ProfilePool ι ν κ) : Prop where
  before : ∀ i l, l.clientId = s.read.clientId →
    Rechecks (relinquishedOutcomes s.read.clientId) (NotHeld l) (t.procs (.before i))
  after : ∀ i, t.procs (.after i) = s.program (.after i)

/-- How far the update has come, and what holds of the leases then. -/
inductive Phase (log : ProfileLog ι ν κ) (t : ProfilePool ι ν κ) : Prop
  | failed (e : Fault) (hupdate : t.procs .update = .fail e)
  | fresh (hupdate : t.procs .update = s.program .update) (hrest : s.Waiting t)
  | relinquishing (hupdate : (t.procs .update).Until machine.clean RelinquishCall s.Cleared)
      (hflag : Flagged s.read.clientId t.world) (hrest : s.Waiting t)
  | relinquished (hupdate : (t.procs .update).Calls PersistCall)
      (hflag : Flagged s.read.clientId t.world)
      (hafter : ∀ i, Refused s.read.clientId (t.procs (.after i)) (fun _ _ => True) t.world)
      (hbefore : ∀ l, l.clientId = s.read.clientId →
        Upheld (fun _ => relinquishedOutcomes s.read.clientId) (fun _ _ _ _ => True) (NotHeld l)
          (fun i => ∃ n, i = .before n) t)
  | settled (hdone : Settled t) (hheld : ∀ l, l.clientId = s.read.clientId →
      ¬ NotHeld l t.world → s.GrantedAfter log l.availKey)

theorem outcomes_faulty {w w' : World} {r : Except Fault q.Answer} (h : outcomes i q w r w') :
    machine.faulty q w r w' := by
  cases i with
  | run k => exact h
  | _ => exact .inl h

theorem not_begun (h : (t.procs .update).Calls PersistCall) :
    t.procs .update ≠ s.program .update := by
  intro he
  obtain ⟨k, k', hprogram, hlist, -⟩ := s.update_program
  rw [he, hprogram] at h
  have hnext := h.2 (.ok ())
  rw [hlist] at hnext
  exact hnext.1

theorem GrantedAfter.cons {s : ProfileChange ι ν κ} {k : AvailKey} (h : s.GrantedAfter log k) :
    s.GrantedAfter ((t, i, q) :: log) k := by
  obtain ⟨u, n, l, hmem, hrest⟩ := h
  exact ⟨u, n, l, List.mem_cons_of_mem _ hmem, hrest⟩

theorem Waiting.cleared {s : ProfileChange ι ν κ} (h : s.Waiting t)
    (hflag : Flagged s.read.clientId t.world) (hclear : s.Cleared (t.procs .update) t.world) :
    s.Phase log t := by
  refine .relinquished hclear.1 hflag (fun n => ?_) fun l hl => ⟨?_, .inl (hclear.2 l hl)⟩
  · rw [h.after n]
    exact (s.after_own n).refused
  · rintro _ ⟨n, rfl⟩
    exact .of_mends (h.before n l hl)

theorem Phase.held {s : ProfileChange ι ν κ} (h : s.Phase log t) (hok : t.procs .update = .ret ())
    (hdone : ∀ i, (t.procs (.before i)).outcome.isSome) {l : Lease}
    (hl : l.clientId = s.read.clientId) (hheld : ¬ NotHeld l t.world) :
    s.GrantedAfter log l.availKey := by
  cases h with
  | failed e hupdate => cases hok.symm.trans hupdate
  | fresh hupdate hrest =>
    obtain ⟨k, k', hprogram, -⟩ := s.update_program
    cases hok.symm.trans (hupdate.trans hprogram)
  | relinquishing hupdate hflag hrest =>
    rw [hok] at hupdate
    exact hupdate.elim
  | relinquished hupdate hflag hafter hbefore =>
    refine absurd ((hbefore l hl).holds ?_) hheld
    rintro _ ⟨n, rfl⟩
    exact hdone n
  | settled _ hgranted => exact hgranted l hl hheld

variable [DecidableEq ι] [DecidableEq ν] [DecidableEq κ]

theorem Waiting.step {s : ProfileChange ι ν κ} (h : s.Waiting t) (hi : ∀ n, i ≠ .after n)
    (hs : Step (outcomes i) t i q u) : s.Waiting u := by
  refine ⟨fun n l hl => ?_, fun n => ?_⟩
  · by_cases hn : .before n = i
    · subst hn
      obtain ⟨k, r, hcall, -, hnext⟩ := hs.inv
      have hbefore := h.before n l hl
      rw [hcall] at hbefore
      rw [hnext]
      exact hbefore.2 r
    · rw [hs.frame hn]
      exact h.before n l hl
  · rw [hs.frame (hi n).symm]
    exact h.after n

/-- Until all has settled, the flag stands. -/
theorem keepsFlag (hcalls : ∀ i, (t.procs i).Calls (MayCall i)) (hcond : s.FlagStands t i q)
    (hbegun : t.procs .update ≠ s.program .update) (hopen : ¬ Settled t)
    (hupdate : i = .update → ¬ DropsFlag s.read.clientId q) (hs : Step (outcomes i) t i q u)
    (hflag : Flagged s.read.clientId t.world) : Flagged s.read.clientId u.world := by
  have hmay : MayCall i q := (hs.calls hcalls).1
  have hkeep : ¬ DropsFlag s.read.clientId q := by
    cases i with
    | update => exact hupdate rfl
    | before n => exact DeviceCall.keepsFlag hmay
    | after n => exact DeviceCall.keepsFlag hmay
    | run k => exact fun hdrop => (hcond hdrop).elim hbegun hopen
  obtain ⟨k, r, -, hout, -⟩ := hs.inv
  exact hflag.faulty hkeep (outcomes_faulty hout)

theorem Phase.step_settled {s : ProfileChange ι ν κ} (hdone : Settled t)
    (hheld : ∀ l, l.clientId = s.read.clientId → ¬ NotHeld l t.world →
      s.GrantedAfter log l.availKey)
    (hcalls : ∀ i, (t.procs i).Calls (MayCall i)) (hs : Step (outcomes i) t i q u) :
    s.Phase ((t, i, q) :: log) u := by
  have hmay : MayCall i q := (hs.calls hcalls).1
  obtain ⟨k, r, hcall, hout, -⟩ := hs.inv
  have hupdate : ProfileParty.update ≠ i := by
    rintro rfl
    have hended := hdone.1
    rw [hcall] at hended
    cases hended
  have hbefore : ∀ n, ProfileParty.before n ≠ i := by
    rintro n rfl
    have hended := hdone.2 n
    rw [hcall] at hended
    cases hended
  have hdone' : Settled u := by
    refine ⟨?_, fun n => ?_⟩
    · rw [hs.frame hupdate]
      exact hdone.1
    · rw [hs.frame (hbefore n)]
      exact hdone.2 n
  refine .settled hdone' fun l hl hnew => ?_
  by_cases hold : NotHeld l t.world
  · cases i with
    | update => exact absurd rfl hupdate
    | before n => exact absurd rfl (hbefore n)
    | run n => exact absurd (NotHeld.faulty (MaintenanceCall.notHeld hmay) hold hout) hnew
    | after n =>
      obtain ⟨-, hworld⟩ : machine.clean q t.world r u.world := hout
      rw [hworld] at hnew
      obtain ⟨src, rfl, hthere⟩ := grant_of_held hold hnew
      cases src with
      | avail key =>
        cases (show l.availKey = key from hmay)
        exact ⟨t, n, l, List.mem_cons_self, hl, hthere⟩
      | leased l' =>
        -- a renewal: the lease it starts from was granted after
        obtain ⟨hkey, hclient⟩ : l.availKey = l'.availKey ∧ l.clientId = l'.clientId := hmay
        rw [hkey]
        exact (hheld l' (hclient ▸ hl) (Option.isSome_iff_ne_none.mp hthere)).cons
      | tmp j => exact hmay.elim
  · exact (hheld l hl hold).cons

theorem Phase.step_relinquished {s : ProfileChange ι ν κ}
    (hupdate : (t.procs .update).Calls PersistCall) (hflag : Flagged s.read.clientId t.world)
    (hafter : ∀ i, Refused s.read.clientId (t.procs (.after i)) (fun _ _ => True) t.world)
    (hbefore : ∀ l, l.clientId = s.read.clientId →
      Upheld (fun _ => relinquishedOutcomes s.read.clientId) (fun _ _ _ _ => True) (NotHeld l)
        (fun i => ∃ n, i = .before n) t)
    (hcalls : ∀ i, (t.procs i).Calls (MayCall i)) (hcond : s.FlagStands t i q)
    (hs : Step (outcomes i) t i q u) : s.Phase ((t, i, q) :: log) u := by
  by_cases hdone : Settled t
  · refine .step_settled hdone (fun l hl hheld => absurd ((hbefore l hl).holds ?_) hheld) hcalls hs
    rintro _ ⟨n, rfl⟩
    exact hdone.2 n
  have hmay : MayCall i q := (hs.calls hcalls).1
  obtain ⟨k, r, hcall, hout, hnext⟩ := hs.inv
  have hpersist : i = .update → PersistCall q := by
    rintro rfl
    rw [hcall] at hupdate
    exact hupdate.1
  have hflag' : Flagged s.read.clientId u.world := by
    refine s.keepsFlag hcalls hcond (s.not_begun hupdate) hdone (fun hi hdrop => ?_) hs hflag
    have hq := hpersist hi
    cases q with
    | index q => cases q <;> first | exact hq.elim | exact hdrop.elim
    | _ => exact hdrop.elim
  have hrefused : ∀ n, i = .after n → NoGrant q := by
    rintro n rfl
    have hrest := hafter n
    rw [hcall] at hrest
    exact (hrest t.world trivial).1
  have htrans : ∀ (_ : ProfileParty ι ν κ) (_ : StoreCall), IsTrans World fun _ _ => True :=
    fun _ _ => ⟨fun _ _ _ _ _ => trivial⟩
  refine .relinquished ?_ hflag' (fun n => ?_) fun l hl => ?_
  · by_cases hi : .update = i
    · subst hi
      rw [hcall] at hupdate
      rw [hnext]
      exact hupdate.2 r
    · rw [hs.frame hi]
      exact hupdate
  · by_cases hi : .after n = i
    · subst hi
      have hrest := hafter n
      rw [hcall] at hrest
      rw [hnext]
      exact (hrest t.world trivial).2 r u.world ⟨hout, hflag⟩
    · rw [hs.frame hi]
      have := htrans i q
      exact (hafter n).stable trivial
  · refine (hbefore l hl).step ?_ (fun _ => trivial) (fun _ _ _ _ _ => trivial) ?_ hs
    · rintro ⟨n, rfl⟩ r w' hout
      refine ⟨⟨hout, hflag⟩, hcond (hupdate.mono fun q hq he => ?_)⟩
      subst he
      exact hq
    · intro hi hw
      cases i with
      | update =>
        refine hw.faulty (fun hw => ?_) (outcomes_faulty hout)
        have hq := hpersist rfl
        cases q with
        | queue q => exact hq.elim
        | _ => exact hw
      | before n => exact absurd ⟨n, rfl⟩ hi
      | after n => exact hw.faulty (hrefused n rfl).notHeld (outcomes_faulty hout)
      | run n => exact hw.faulty (MaintenanceCall.notHeld hmay) (outcomes_faulty hout)

theorem Phase.step_relinquishing {s : ProfileChange ι ν κ}
    (hupdate : (t.procs .update).Until machine.clean RelinquishCall s.Cleared)
    (hflag : Flagged s.read.clientId t.world) (hrest : s.Waiting t)
    (hcalls : ∀ i, (t.procs i).Calls (MayCall i)) (hturn : InTurn t i) (hcond : s.FlagStands t i q)
    (hs : Step (outcomes i) t i q u) : s.Phase ((t, i, q) :: log) u := by
  obtain ⟨k, r, hcall, hout, hnext⟩ := hs.inv
  cases hproc : t.procs .update with
  | ret a =>
    rw [hproc] at hupdate
    exact hupdate.elim
  | fail e =>
    have hi : .update ≠ i := by
      rintro rfl
      cases hproc.symm.trans hcall
    exact .failed e ((hs.frame hi).trans hproc)
  | call q' k' =>
    rw [hproc] at hupdate
    have hi : ∀ n, i ≠ .after n := by
      rintro n rfl
      cases hproc.symm.trans hturn
    have hopen : ¬ Settled t := by
      rintro ⟨hended, -⟩
      rw [hproc] at hended
      cases hended
    have hbegun : t.procs .update ≠ s.program .update := by
      intro he
      obtain ⟨_, _, hprogram, -⟩ := s.update_program
      cases hproc.symm.trans (he.trans hprogram)
      exact hupdate.1
    have hflag' : Flagged s.read.clientId u.world := by
      refine s.keepsFlag hcalls hcond hbegun hopen ?_ hs hflag
      rintro rfl hdrop
      cases hproc.symm.trans hcall
      cases q with
      | index q => exact hupdate.1
      | _ => exact hdrop
    have hrest' := hrest.step hi hs
    by_cases hi' : .update = i
    · subst hi'
      cases hproc.symm.trans hcall
      obtain hclear | huntil := hupdate.2 t.world r u.world hout
      · exact hrest'.cleared hflag' (hnext.symm ▸ hclear)
      · exact .relinquishing (hnext.symm ▸ huntil) hflag' hrest'
    · refine .relinquishing ?_ hflag' hrest'
      rw [hs.frame hi', hproc]
      exact hupdate

theorem Phase.step_fresh {s : ProfileChange ι ν κ} (hupdate : t.procs .update = s.program .update)
    (hrest : s.Waiting t) (hturn : InTurn t i) (hs : Step (outcomes i) t i q u) :
    s.Phase ((t, i, q) :: log) u := by
  obtain ⟨k, k', hprogram, -, huntil⟩ := s.update_program
  obtain ⟨kq, r, hcall, hout, hnext⟩ := hs.inv
  have hi : ∀ n, i ≠ .after n := by
    rintro n rfl
    cases hprogram.symm.trans (hupdate.symm.trans hturn)
  have hrest' := hrest.step hi hs
  by_cases hi' : .update = i
  · subst hi'
    cases hprogram.symm.trans (hupdate.symm.trans hcall)
    obtain ⟨hr, hworld⟩ : machine.clean _ t.world r u.world := hout
    refine .relinquishing ?_ (hworld ▸ flagged_write) hrest'
    rw [hnext, hr]
    exact huntil
  · exact .fresh ((hs.frame hi').trans hupdate) hrest'

theorem Phase.step {s : ProfileChange ι ν κ} (h : s.Phase log t)
    (hcalls : ∀ i, (t.procs i).Calls (MayCall i)) (hturn : InTurn t i) (hcond : s.FlagStands t i q)
    (hs : Step (outcomes i) t i q u) : s.Phase ((t, i, q) :: log) u := by
  cases h with
  | failed e hupdate =>
    have hi : .update ≠ i := by
      rintro rfl
      obtain ⟨k, r, hcall, -⟩ := hs.inv
      cases hupdate.symm.trans hcall
    exact .failed e ((hs.frame hi).trans hupdate)
  | fresh hupdate hrest => exact .step_fresh hupdate hrest hturn hs
  | relinquishing hupdate hflag hrest =>
    exact .step_relinquishing hupdate hflag hrest hcalls hturn hcond hs
  | relinquished hupdate hflag hafter hbefore =>
    exact .step_relinquished hupdate hflag hafter hbefore hcalls hcond hs
  | settled hdone hheld => exact .step_settled hdone hheld hcalls hs

end ProfileChange

/-- In every run whose steps all leave the flag standing: once the update has answered and the
requests that began before its answer have ended, each lease of the client is one that a request
begun after the answer was granted. -/
theorem profile_change_voids_leases {ι ν κ : Type} [DecidableEq ι] [DecidableEq ν] [DecidableEq κ]
    (s : ProfileChange ι ν κ) {w : World}
    {log : ProfileLog ι ν κ} {t : ProfilePool ι ν κ}
    (h : Prog.Pool.Run ProfileChange.outcomes
      (fun t i q => ProfileChange.InTurn t i ∧ s.FlagStands t i q) (s.pool w) log t)
    (hok : t.procs .update = .ret ()) (hdone : ∀ i, (t.procs (.before i)).outcome.isSome) :
    ∀ l ∈ t.world.queue.leases, l.clientId = s.read.clientId →
      s.GrantedAfter log l.availKey := by
  have hinv := h.invariant
    (fun log t => (∀ i, (t.procs i).Calls (ProfileChange.MayCall i)) ∧ s.Phase log t) ?_ ?_
  · intro l hmem hl
    exact hinv.2.held hok hdone hl (Option.isSome_iff_ne_none.mp (QueueState.mem_leases.mp hmem))
  · exact ⟨s.program_calls, .fresh rfl ⟨fun i l hl => (s.before_own i).rechecks hl, fun _ => rfl⟩⟩
  · rintro log t i q u ⟨hcalls, hphase⟩ ⟨hturn, hcond⟩ hs
    exact ⟨(hs.calls hcalls).2, hphase.step hcalls hturn hcond hs⟩

def workerWorld (j : JobId) (client : Client) : World :=
  { World.empty with
    queue := ⟨(∅ : FileTree _ _).insert (.avail ⟨j, .never⟩)
      (.obj [("job_id", .str j.raw), ("clients", .arr [.str client.clientId.raw])])⟩
    index := { World.empty.index with
      eligible := (∅ : FileTree _ _).insert ⟨client.clientId, j, .never⟩ ()
      indexed := {⟨j, .never⟩}
      workers := [client.clientId] }
    fleet := { World.empty.fleet.put client with
      permissions := (∅ : FileTree _ _).insert client.clientId {.performWork} } }

def nameChange (ν : Type) : ProfileChange Unit ν Unit where
  read := ⟨⟨"device"⟩, .approved, {}, ∅⟩
  body := { device := { deviceName := some "renamed" } }
  client := ⟨⟨"device"⟩, .approved, { deviceName := some "renamed" }, ∅⟩
  merged := rfl
  changed := by decide
  before _ := .claim ⟨60, 3⟩ 5 ⟨⟨"device"⟩, .approved, {}, ∅⟩ fun _ => 0
  before_own _ := rfl
  after _ := .claim ⟨60, 3⟩ 9 ⟨⟨"device"⟩, .approved, { deviceName := some "renamed" }, ∅⟩ fun _ => 0
  after_own _ := rfl
  runs _ := ⟨fun _ => true, ⟨0, 3⟩, 7⟩

def dropsAnyFlag : StoreCall → Bool
  | .index (.deletePendingReindex _) => true
  | _ => false

def renewsAny : StoreCall → Bool
  | .queue (.rename (.leased _) (.leased _)) => true
  | _ => false

def ProfileChange.calm {ν : Type} (t : ProfilePool Unit ν Unit) : ProfileParty Unit ν Unit → Bool
  | .after _ => (t.procs .update).outcome == some (.ok ())
  | .run k => (t.next (.run k)).all (fun q => !dropsAnyFlag q) ||
      ((t.procs .update).outcome.isSome && (t.procs (.before ())).outcome.isSome)
  | .before i => (t.next (.before i)).all fun q => !renewsAny q
  | .update => true

theorem ProfileChange.flagStands_of_calm {ν : Type} {s : ProfileChange Unit ν Unit}
    {t : ProfilePool Unit ν Unit} {i : ProfileParty Unit ν Unit} (h : ProfileChange.calm t i = true) :
    ∀ q ∈ t.next i, InTurn t i ∧ s.FlagStands t i q := by
  intro q hq
  cases i with
  | update => exact ⟨trivial, trivial⟩
  | after n => exact ⟨outcome_eq_ok.mp (beq_iff_eq.mp h), trivial⟩
  | run k =>
    refine ⟨trivial, fun hdrop => .inr ?_⟩
    rw [calm, hq, Bool.or_eq_true, Bool.and_eq_true] at h
    refine h.elim (fun hkept => ?_) fun hended => ⟨hended.1, fun _ => hended.2⟩
    cases q with
    | index q => cases q <;> first | exact hdrop.elim | cases hkept
    | _ => exact hdrop.elim
  | before n =>
    refine ⟨trivial, fun _ hrenew => ?_⟩
    rw [calm, hq] at h
    cases q with
    | queue q =>
      cases q with
      | rename src dst => cases src <;> cases dst <;> first | exact hrenew.elim | cases h
      | _ => exact hrenew.elim
    | _ => exact hrenew.elim

/-- The claim before the answer is granted the job and puts it back over the flag; a run consumes
the flags, and the claim after the answer is granted the job. -/
theorem profile_change_voids_leases_reclaimed :
    let s := nameChange Unit
    let lease : Lease := ⟨⟨"job"⟩, .never, ⟨"device"⟩, ⟨60⟩⟩
    let t := (s.pool (workerWorld ⟨"job"⟩ s.read)).play machine (List.replicate 6 (.before ()) ++
      List.replicate 2 .update ++ List.replicate 20 (.before ()) ++ List.replicate 4 .update ++
      List.replicate 60 (.run ()) ++ List.replicate 20 (.after ()))
    t.world.queue.leases = [lease] ∧ ∃ log, Prog.Pool.Run ProfileChange.outcomes
      (fun t i q => ProfileChange.InTurn t i ∧ s.FlagStands t i q)
      (s.pool (workerWorld ⟨"job"⟩ s.read)) log t ∧ s.GrantedAfter log lease.availKey := by
  intro s lease t
  have hreach : Prog.Pool.Reach machine.clean
      (fun t i q => ProfileChange.InTurn t i ∧ s.FlagStands t i q)
      (s.pool (workerWorld ⟨"job"⟩ s.read)) t := by
    refine .play_moves fun x hx => ProfileChange.flagStands_of_calm ?_
    revert x
    decide +kernel
  obtain ⟨log, hrun⟩ := hreach.run (O := ProfileChange.outcomes) fun i q w r w' hout => by
    cases i with
    | run k => exact .inl hout
    | _ => exact hout
  have hok : t.procs .update = .ret () := outcome_eq_ok.mp (by decide +kernel)
  have hdone : ∀ i, (t.procs (.before i)).outcome.isSome := by decide +kernel
  have hlease : t.world.queue.leases = [lease] := by decide +kernel
  exact ⟨hlease, log, hrun,
    profile_change_voids_leases s hrun hok hdone lease (by simp [hlease]) rfl⟩

/-- A run consumes the first flag after the update has listed the leases: the claim sees no flag
and keeps its grant, although it began before the answer. -/
theorem profile_change_lease_kept :
    let s := nameChange Empty
    let lease : Lease := ⟨⟨"job"⟩, .never, ⟨"device"⟩, ⟨60⟩⟩
    ∃ (log : ProfileLog Unit Empty Unit) (t : ProfilePool Unit Empty Unit),
      Prog.Pool.Run ProfileChange.outcomes (fun t i _ => ProfileChange.InTurn t i)
        (s.pool (workerWorld ⟨"job"⟩ s.read)) log t ∧
      t.procs .update = .ret () ∧ (∀ i, (t.procs (.before i)).outcome.isSome) ∧
      lease ∈ t.world.queue.leases ∧ lease.clientId = s.read.clientId ∧
      ¬ s.GrantedAfter log lease.availKey := by
  intro s lease
  let t := (s.pool (workerWorld ⟨"job"⟩ s.read)).play machine (List.replicate 2 .update ++
    List.replicate 60 (.run ()) ++ List.replicate 20 (.before ()) ++ List.replicate 4 .update)
  have hreach : Prog.Pool.Reach machine.clean (fun t i _ => ProfileChange.InTurn t i)
      (s.pool (workerWorld ⟨"job"⟩ s.read)) t := by
    refine .play_next fun u _ i _ _ => ?_
    cases i with
    | after n => exact n.elim
    | _ => trivial
  obtain ⟨log, hrun⟩ := hreach.run (O := ProfileChange.outcomes) fun i q w r w' hout => by
    cases i with
    | run k => exact .inl hout
    | _ => exact hout
  refine ⟨log, t, hrun, outcome_eq_ok.mp (by decide +kernel), by decide +kernel, by decide +kernel,
    rfl, ?_⟩
  rintro ⟨_, n, -⟩
  exact n.elim

end Pipette
