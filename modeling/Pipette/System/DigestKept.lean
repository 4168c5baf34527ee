import Pipette.Api.Footprint
import Pipette.Lib.Walk
import Pipette.Pipeline.Placing
import Pipette.System.QueueSights

/-! A placement takes a digest over only from a job that was seen gone: one that was not queued at
some moment of the placement, or whose deadline had passed. -/
namespace Pipette

open Prog

/-- The state a placement runs in, with the moments it has been through. -/
structure History where
  world : World
  time : Instant
  /-- The digest of a swap that has passed its check and not written yet. -/
  swapping : Option String
  past : Sights

namespace History

def sights (h : History) : Sights := ⟨h.world.queue, h.time⟩ :: h.past

def contentKey (h : History) (digest : String) : Option ContentKeyRecord :=
  h.world.plans.contentKeys.lookup digest

def putContentKey (h : History) (digest : String) (record : ContentKeyRecord) : History :=
  { h with world := { h.world with plans := { h.world.plans with
      contentKeys := h.world.plans.contentKeys.insert digest record } } }

def serve : Machine PlaceCalls History
  | .store c, h => ((machine c h.world).1, { h with world := (machine c h.world).2 })
  | .clock, h => (h.time, h)
  | .getContentKey digest, h => (h.contentKey digest, h)
  | .linkContentKey digest record, h =>
    match h.contentKey digest with
    | some _ => (false, h)
    | none => (true, h.putContentKey digest record)
  | .checkContentKey digest read, h =>
    if h.contentKey digest = some read then (true, { h with swapping := some digest })
    else (false, h)
  | .renameContentKey digest _ record, h =>
    ((), { h.putContentKey digest record with swapping := none })

/-- What the others do between two calls: devices, maintenance and any number of ingests. -/
structure Others (h h' : History) : Prop where
  past : h'.past = h.sights
  next : Sight.Next ⟨h.world.queue, h.time⟩ ⟨h'.world.queue, h'.time⟩
  single : h'.world.queue.Single
  swapping : h'.swapping = h.swapping

def Undisturbed (h h' : History) : Prop :=
  ∀ digest, h.swapping = some digest → h'.contentKey digest = h.contentKey digest

def Meanwhile (h h' : History) : Prop := Others h h' ∧ Undisturbed h h'

def Rely : History → History → Prop := Relation.ReflTransGen Meanwhile

instance : Std.Refl Rely := ⟨fun _ => .refl⟩

instance : IsTrans History Rely := ⟨fun _ _ _ => .trans⟩

def Held (P : Sights → Prop) (h : History) : Prop := h.sights.Legal ∧ P h.sights

theorem Held.others {P : Sights → Prop} {h h' : History} (hP : Sights.Lasting P) (hh : Held P h)
    (hothers : Others h h') : Held P h' := by
  have hsights : h'.sights = ⟨h'.world.queue, h'.time⟩ :: h.sights := by
    rw [sights, hothers.past]
  have hlegal : h'.sights.Legal := by
    rw [hsights]
    refine ⟨List.isChain_cons_cons.mpr ⟨hothers.next, hh.1.chain⟩, fun s hs => ?_⟩
    obtain rfl | hs := List.mem_cons.mp hs
    · exact hothers.single
    · exact hh.1.single s hs
  refine ⟨hlegal, ?_⟩
  rw [hsights] at hlegal ⊢
  exact hP _ _ _ hlegal hh.2

theorem Held.rely {P : Sights → Prop} {h h' : History} (hP : Sights.Lasting P) (hh : Held P h)
    (hrely : Rely h h') : Held P h' := by
  induction hrely with
  | refl => exact hh
  | tail _ hnext ih => exact ih.others hP hnext.1

section Actors

variable {h : History}

/-- Any call of a device or of a settling pass, answered or failed, is a move of the others. -/
theorem Meanwhile.of_call {a : QueueActor} {c : StoreCall} {r : Except Fault c.Answer} {w' : World}
    (hone : h.world.queue.OneEntry)
    (hclock : ∀ catalog now pass, a = .maintain catalog now pass → now ≤ h.time)
    (hcall : a.MayCall c) (hout : machine.faulty c h.world r w') :
    Meanwhile h { h with world := w', past := h.sights } ∧ w'.queue.OneEntry := by
  have hqueue : w'.queue.OneEntry ∧
      ∀ j, JobMove h.time (h.world.queue.standing j) (w'.queue.standing j) := by
    obtain hsame | ⟨c', rfl, hstep⟩ := faulty_queue hout
    · rw [hsame]
      exact ⟨hone, fun j => .stay _⟩
    · rw [hstep]
      exact ⟨hcall.keepsJobs.oneEntry hone, hcall.jobMove hone hclock⟩
  have hplans : (machine c h.world).2.plans = h.world.plans := by
    cases c with
    | plans c =>
      cases a with
      | maintain catalog now pass => cases c <;> first | rfl | exact hcall.elim
      | _ => exact hcall.elim
    | _ => rfl
  have hkeys : w'.plans = h.world.plans := by
    obtain ⟨-, rfl⟩ | ⟨e, -, rfl | rfl⟩ := hout
    · exact hplans
    · rfl
    · exact hplans
  refine ⟨⟨⟨rfl, ⟨le_rfl, hqueue.2⟩, hqueue.1.single, rfl⟩, fun digest _ => ?_⟩, hqueue.1⟩
  change w'.plans.contentKeys.lookup digest = h.world.plans.contentKeys.lookup digest
  rw [hkeys]

/-- Devices and settling passes that run between two calls of a placement, interleaved in any way
and stopped anywhere. -/
theorem rely_of_run {ι : Type} [DecidableEq ι] {actors : ι → QueueActor}
    {t : Pool Stores World ι fun _ => Unit} (hone : h.world.queue.OneEntry)
    (hclock : ∀ i catalog now pass, actors i = .maintain catalog now pass → now ≤ h.time)
    (hrun : Pool.Reach machine.faulty (fun _ _ _ => True) (queuePool h.world actors) t) :
    ∃ past, Rely h { h with world := t.world, past } := by
  induction hrun with
  | refl => exact ⟨h.past, .refl⟩
  | @tail t u i c hrun _ hstep ih =>
    obtain ⟨past, hrely⟩ := ih
    obtain ⟨⟨hone', -⟩, hcalls⟩ := queuePool_invariant hone hrun
    obtain ⟨k, r, hcall, hout, -⟩ := hstep.inv
    have hmay := hcalls i
    rw [hcall] at hmay
    have hnext := Meanwhile.of_call (h := { h with world := t.world, past }) hone' (hclock i)
      hmay.1 hout
    exact ⟨_, hrely.tail hnext.1⟩

end Actors

end History

namespace Sights

variable {j : JobId} {d : ExpiresAt}

def Seen (leases : List Lease) (sights : Sights) : Prop :=
  ∀ j d, leasedExpiry leases j = some d → Carried sights j d

theorem Seen.lasting {leases : List Lease} : Lasting (Seen leases) :=
  .all fun _ => .all fun _ => .imp Carried.lasting

variable (snapshot : Option (List Lease))

def Known (taken : Option (List Lease)) (sights : Sights) : Prop :=
  taken = snapshot ∨ ∃ leases, taken = some leases ∧ Seen leases sights

def Shown (j : JobId) (d : ExpiresAt) : Prop :=
  ∃ leases, snapshot = some leases ∧ leasedExpiry leases j = some d

def Live (j : JobId) (d : ExpiresAt) (sights : Sights) : Prop :=
  Carried sights j d ∨ Shown snapshot j d

def Passed (j : JobId) (sights : Sights) : Prop :=
  ∃ d, Shown snapshot j d ∧ ∃ s ∈ sights.head?, d.isExpired s.time = true

def Doomed (j : JobId) (sights : Sights) : Prop := Dead j sights ∨ Passed snapshot j sights

variable {snapshot}

theorem Known.lasting {taken : Option (List Lease)} : Lasting (Known snapshot taken) := by
  rintro s' s rest hlegal (h | ⟨leases, h, hseen⟩)
  · exact .inl h
  · exact .inr ⟨leases, h, Seen.lasting _ _ _ hlegal hseen⟩

theorem Live.lasting : Lasting (Live snapshot j d) := Carried.lasting.or .const

theorem Passed.lasting : Lasting (Passed snapshot j) := by
  rintro s' s rest hlegal ⟨d, hshown, r, hr, hexpired⟩
  cases hr
  exact ⟨d, hshown, s', rfl, d.isExpired_mono hlegal.next.later hexpired⟩

theorem Doomed.lasting : Lasting (Doomed snapshot j) := Dead.lasting.or Passed.lasting

theorem Known.live {leases : List Lease} {s : Sights}
    (hknown : Known snapshot (some leases) s) (hd : leasedExpiry leases j = some d) :
    Live snapshot j d s := by
  obtain hfirst | ⟨listed, hlisted, hseen⟩ := hknown
  · exact .inr ⟨leases, hfirst.symm, hd⟩
  · cases hlisted
    exact .inl (hseen j d hd)

end Sights

namespace Op

variable {α β : Type}

theorem placing_bind (p : Op α) (f : α → Op β) :
    placing (p.bind f) = (placing p).bind fun a => placing (f a) := by
  induction p with
  | ret a => rfl
  | fail e => rfl
  | call c k ih => simp only [call_bind, placing, ih]

theorem placing_store (c : StoreCall) :
    placing (Prog.store (I := Stores) c) = Prog.store (I := PlaceCalls) (.store c) := by
  simp only [Prog.store, placing]
  congr 1
  funext r
  cases r <;> rfl

end Op

namespace History

open Sights

/-- A record is replaced only while it is the one that was read, and its job doomed. -/
def KeepsDigest (snapshot : Option (List Lease)) : PlaceCall → History → Prop
  | .renameContentKey digest read _, h =>
    h.contentKey digest = some read ∧ Held (Doomed snapshot read.jobId) h
  | _, _ => True

variable (snapshot : Option (List Lease))

def Yields {α : Type} (P : α → Sights → Prop) (p : PlaceOp α) (h : History) : Prop :=
  p.Sat serve.faulty Rely (KeepsDigest snapshot) (fun r h => ∀ a, r = .ok a → Held (P a) h) h

variable {snapshot} {α β : Type} {P : α → Sights → Prop} {P' : β → Sights → Prop} {h : History}

theorem Yields.ret {a : α} (hP : Lasting (P a)) (hh : Held (P a) h) :
    Yields snapshot P (.ret a) h := by
  intro h' hrely b hb
  cases hb
  exact hh.rely hP hrely

theorem Yields.fail {e : Fault} : Yields snapshot P (.fail e) h := by
  intro h' _ a ha
  cases ha

theorem Yields.bind {p : PlaceOp α} {f : α → PlaceOp β} (hp : Yields snapshot P p h)
    (hf : ∀ a h, Held (P a) h → Yields snapshot P' (f a) h) :
    Yields snapshot P' (p.bind f) h :=
  Sat.bind hp (fun a h' hh => hf a h' (hh a rfl)) fun e _ _ _ _ a ha => by cases ha

theorem Yields.mono {P' : α → Sights → Prop} {p : PlaceOp α} (hp : Yields snapshot P p h)
    (hPP : ∀ a s, P a s → P' a s) : Yields snapshot P' p h :=
  Sat.mono (fun _ _ h => h) (fun _ _ hh a ha => ⟨(hh a ha).1, hPP a _ (hh a ha).2⟩) hp

theorem Yields.call {c : PlaceCall} {P : Sights → Prop} {P' : c.Answer → Sights → Prop}
    (hP : Lasting P) (hP' : ∀ a, Lasting (P' a)) (hG : ∀ h, KeepsDigest snapshot c h)
    (hkeep : ∀ h, (serve c h).2.sights = h.sights)
    (hread : ∀ h : History, Held P h → P' (serve c h).1 h.sights) (hh : Held P h) :
    Yields snapshot P' (Prog.store (I := PlaceCalls) c) h := by
  refine Sat.store_faulty (fun h₁ hrely => ⟨hG h₁, fun h₂ hrely₂ a ha => ?_⟩) fun e _ a ha => ?_
  · cases ha
    have hheld := hh.rely hP hrely
    refine Held.rely (hP' _) ⟨?_, ?_⟩ hrely₂
    · rw [hkeep]
      exact hheld.1
    · rw [hkeep]
      exact hread h₁ hheld
  · cases ha

section Reads

variable {j : JobId} {P P' : Sights → Prop}

def Answers (j : JobId) (P P' : Sights → Prop) (r : Option ExpiresAt) (sights : Sights) : Prop :=
  P sights ∧ (∀ d, r = some d → Carried sights j d) ∧ (r = none → P' sights)

theorem Answers.lasting (hP : Lasting P) (hP' : Lasting P') (r : Option ExpiresAt) :
    Lasting (Answers j P P' r) :=
  hP.and ((Lasting.all fun _ => .imp Carried.lasting).and hP'.imp)

theorem availState_yields (hP : Lasting P) (hP' : Lasting P')
    (hmiss : ∀ s rest, P (s :: rest) → (s.queue.availKeys.filter (·.jobId = j)).head? = none →
      P' (s :: rest)) (hh : Held P h) :
    Yields snapshot (Answers j P P') (Op.placing (availState j)) h := by
  have hlist : Yields snapshot (fun ds => Answers j P P' ds.head?)
      (Prog.store (I := PlaceCalls) (.store (.queue (.listAvailOf j)))) h := by
    refine .call hP (fun ds => .lasting hP hP' _) (fun _ => trivial) (fun _ => rfl) ?_ hh
    intro h₁ hh₁
    have hanswer : (serve (.store (.queue (.listAvailOf j))) h₁).1.head? =
        (h₁.world.queue.availKeys.filter (·.jobId = j)).head?.map (·.expiresAt) := List.head?_map ..
    rw [hanswer]
    refine ⟨hh₁.2, fun d hd => ?_, fun hnone => ?_⟩
    · obtain ⟨k, hk, rfl⟩ := Option.map_eq_some_iff.mp hd
      exact ⟨_, List.mem_cons_self, carries_of_head hk⟩
    · exact hmiss _ _ hh₁.2 (Option.map_eq_none_iff.mp hnone)
  have hprogram : Op.placing (availState j) =
      (Prog.store (I := PlaceCalls) (.store (.queue (.listAvailOf j)))).bind
        fun ds => .ret ds.head? := by
    simp only [availState, availKeyForJob, Op.queue, bind_eq, pure_eq, bind_assoc, ret_bind,
      Op.placing_bind, Op.placing, Option.map_map, Function.comp_def, Option.map_id']
    exact congrArg (Prog.bind · _) (Op.placing_store _)
  rw [hprogram]
  exact hlist.bind fun ds h₁ hh₁ => .ret (.lasting hP hP' _) hh₁

theorem listLeased_yields (hP : Lasting P) (hmissed : ∀ s, P s → MissedOnce j s) (hh : Held P h) :
    Yields snapshot (fun leases sights => P sights ∧ Seen leases sights ∧
      (leasedExpiry leases j = none → MissedTwice j sights))
      (Op.placing (Op.queue .listLeased)) h := by
  rw [Op.queue, Op.placing_store]
  refine .call hP (fun leases => hP.and (Seen.lasting.and MissedTwice.lasting.imp))
    (fun _ => trivial) (fun _ => rfl) (fun h₁ hh₁ => ⟨hh₁.2, fun i d hd => ?_, fun hnone => ?_⟩) hh
  · exact ⟨_, List.mem_cons_self, carries_of_leased (hh₁.1.single _ List.mem_cons_self) hd⟩
  · exact (hmissed _ hh₁.2).twice hnone

theorem any_yields {α : Type} {p : Op α} (hP : Lasting P)
    (hkeep : p.Calls fun c => ∀ w, (machine c w).2.queue = w.queue) (hh : Held P h) :
    Yields snapshot (fun _ => P) (Op.placing p) h := by
  induction p generalizing h with
  | ret a => exact .ret hP hh
  | fail e => exact .fail
  | call c k ih =>
    intro h₁ hrely
    have hh₁ := hh.rely hP hrely
    refine ⟨trivial, fun r h₂ hout => ?_⟩
    have hsights : h₂.sights = h₁.sights := by
      obtain ⟨rfl, rfl⟩ | ⟨e, rfl, rfl | rfl⟩ := hout
      · simp only [sights, serve, hkeep.1]
      · rfl
      · simp only [sights, serve, hkeep.1]
    refine ih r (hkeep.2 r) ?_
    rw [Held, hsights]
    exact hh₁

theorem missedOnce_of_avail : ∀ s rest, P (s :: rest) →
    (s.queue.availKeys.filter (·.jobId = j)).head? = none → MissedOnce j (s :: rest) :=
  fun _ _ _ => missedOnce_of_head

end Reads

section Placement

variable {j : JobId}

def Judged (snapshot : Option (List Lease)) (j : JobId) :
    TargetState × Option (List Lease) → Sights → Prop
  | (.live d, taken), s => Known snapshot taken s ∧ Live snapshot j d s
  | (.absent, taken), s => Known snapshot taken s ∧ Dead j s

theorem Judged.lasting (r : TargetState × Option (List Lease)) : Lasting (Judged snapshot j r) := by
  obtain ⟨_ | _, taken⟩ := r
  · exact Known.lasting.and Live.lasting
  · exact Known.lasting.and Dead.lasting

theorem leasedSnapshot_yields {taken : Option (List Lease)}
    (hh : Held (fun s => Known snapshot taken s ∧ MissedOnce j s) h) :
    Yields snapshot (fun leases s => MissedOnce j s ∧ Known snapshot (some leases) s)
      (Op.placing (leasedSnapshot taken)) h := by
  have hlasting : Lasting fun s => Known snapshot taken s ∧ MissedOnce j s :=
    Known.lasting.and MissedOnce.lasting
  cases taken with
  | some leases =>
    exact .ret (MissedOnce.lasting.and Known.lasting) ⟨hh.1, hh.2.2, hh.2.1⟩
  | none =>
    refine (listLeased_yields (j := j) hlasting (fun _ hs => hs.2) hh).mono fun leases s hs => ?_
    exact ⟨hs.1.2, .inr ⟨leases, rfl, hs.2.1⟩⟩

theorem officialState_yields {taken : Option (List Lease)} (hh : Held (Known snapshot taken) h) :
    Yields snapshot (Judged snapshot j) (Op.placing (officialState taken j)) h := by
  rw [officialState, bind_eq, Op.placing_bind]
  refine (availState_yields Known.lasting MissedOnce.lasting missedOnce_of_avail hh).bind ?_
  intro r₁ h₁ hh₁
  cases r₁ with
  | some d =>
    exact .ret (.lasting _) ⟨hh₁.1, hh₁.2.1, .inl (hh₁.2.2.1 d rfl)⟩
  | none =>
    simp only [bind_eq, Op.placing_bind]
    refine (leasedSnapshot_yields ⟨hh₁.1, hh₁.2.1, hh₁.2.2.2 rfl⟩).bind fun leases h₂ hh₂ => ?_
    cases hd : leasedExpiry leases j with
    | some d => exact .ret (.lasting _) ⟨hh₂.1, hh₂.2.2, hh₂.2.2.live hd⟩
    | none =>
      simp only [Op.placing_bind]
      refine (listLeased_yields (j := j) (MissedOnce.lasting.and Known.lasting)
        (fun _ hs => hs.1) hh₂).bind fun fresh h₃ hh₃ => ?_
      obtain ⟨hlegal₃, ⟨-, hknown₃⟩, hseen₃, hmissed₃⟩ := hh₃
      cases hd' : leasedExpiry fresh j with
      | some d => exact .ret (.lasting _) ⟨hlegal₃, hknown₃, .inl (hseen₃ j d hd')⟩
      | none =>
        simp only [Op.placing_bind]
        refine (availState_yields (P := fun s => Known snapshot (some leases) s ∧ MissedTwice j s)
          (Known.lasting.and MissedTwice.lasting) Dead.lasting
          (fun _ _ hs hmiss => hs.2.dead hmiss) ⟨hlegal₃, hknown₃, hmissed₃ hd'⟩).bind ?_
        intro r₄ h₄ hh₄
        cases r₄ with
        | some d => exact .ret (.lasting _) ⟨hh₄.1, hh₄.2.1.1, .inl (hh₄.2.2.1 d rfl)⟩
        | none => exact .ret (.lasting _) ⟨hh₄.1, hh₄.2.1.1, hh₄.2.2.2 rfl⟩

theorem hasRecord_yields {P : Sights → Prop} (hP : Lasting P) (hh : Held P h) :
    Yields snapshot (fun _ => P) (Op.placing (hasRecord j)) h :=
  any_yields hP (hasRecord_calls fun _ _ => rfl) hh

theorem targetSurvives_yields {P : Sights → Prop} (hP : Lasting P) (hh : Held P h) :
    Yields snapshot (fun r s => P s ∧ (r = false → Dead j s)) (Op.placing (targetSurvives j)) h := by
  have hlasting : ∀ r : Bool, Lasting fun s => P s ∧ (r = false → Dead j s) := fun r =>
    hP.and Dead.lasting.imp
  have hfound : ∀ h, Held P h →
      Yields snapshot (fun r s => P s ∧ (r = false → Dead j s)) (.ret true) h := fun h hh =>
    .ret (hlasting true) ⟨hh.1, hh.2, nofun⟩
  rw [targetSurvives, bind_eq, Op.placing_bind]
  refine (availState_yields hP MissedOnce.lasting missedOnce_of_avail hh).bind ?_
  intro r₁ h₁ hh₁
  cases r₁ with
  | some d => exact hfound h₁ ⟨hh₁.1, hh₁.2.1⟩
  | none =>
    simp only [Option.isSome_none, Bool.false_eq_true, if_false, bind_eq, Op.placing_bind]
    refine (listLeased_yields (j := j) (hP.and MissedOnce.lasting) (fun _ hs => hs.2)
      ⟨hh₁.1, hh₁.2.1, hh₁.2.2.2 rfl⟩).bind fun leases h₂ hh₂ => ?_
    cases hd : leasedExpiry leases j with
    | some d => exact hfound h₂ ⟨hh₂.1, hh₂.2.1.1⟩
    | none =>
      simp only [Option.isSome_none, Bool.false_eq_true, if_false, Op.placing_bind]
      refine (availState_yields (hP.and MissedTwice.lasting) Dead.lasting
        (fun _ _ hs hmiss => hs.2.dead hmiss) ⟨hh₂.1, hh₂.2.1.1, hh₂.2.2.2 hd⟩).bind ?_
      intro r₃ h₃ hh₃
      cases r₃ with
      | some d => exact hfound h₃ ⟨hh₃.1, hh₃.2.1.1⟩
      | none =>
        simp only [Option.isSome_none, Bool.false_eq_true, if_false]
        refine (hasRecord_yields (hP.and Dead.lasting)
          ⟨hh₃.1, hh₃.2.1.1, hh₃.2.2.2 rfl⟩).mono fun r s hs => ?_
        exact ⟨hs.1, fun _ => hs.2⟩

theorem confirmMembership_yields {ctx : MergeContext} {clock : Instant} {horizon : ExpiresAt}
    {P : Sights → Prop} (hP : Lasting P) (hh : Held P h) :
    Yields snapshot (fun r s => P s ∧ (r = false → Dead j s))
      (Op.placing (ctx.confirmMembership clock j horizon)) h := by
  have hwrite : Yields snapshot (fun _ => P)
      (Op.placing (Op.plans (.writeJobPlanMarker j ctx.planId horizon clock))) h :=
    any_yields hP ⟨fun _ => rfl, fun r => by cases r <;> trivial⟩ hh
  rw [MergeContext.confirmMembership, bind_eq, Op.placing_bind]
  refine hwrite.bind fun _ h₁ hh₁ => ?_
  rw [bind_eq, Op.placing_bind]
  refine (targetSurvives_yields (j := j) hP hh₁).bind fun survives h₂ hh₂ => ?_
  cases survives with
  | true => exact .ret (hP.and Dead.lasting.imp) ⟨hh₂.1, hh₂.2.1, nofun⟩
  | false =>
    have hdelete : Yields snapshot (fun _ s => P s ∧ Dead j s)
        (Op.placing (Op.plans (.deleteJobPlanMarker j ctx.planId horizon)).attempt) h₂ :=
      any_yields (hP.and Dead.lasting) ⟨fun _ => rfl, fun r => by cases r <;> trivial⟩
        ⟨hh₂.1, hh₂.2.1, hh₂.2.2 rfl⟩
    simp only [Bool.false_eq_true, if_false, bind_eq, Op.placing_bind]
    refine hdelete.bind fun _ h₃ hh₃ => ?_
    exact .ret (hP.and Dead.lasting.imp) ⟨hh₃.1, hh₃.2.1, fun _ => hh₃.2.2⟩

def ReadAt (t : Instant) (sights : Sights) : Prop := ∃ s ∈ sights.head?, t ≤ s.time

theorem ReadAt.lasting {t : Instant} : Lasting (ReadAt t) := by
  rintro s' s rest hlegal ⟨r, hr, ht⟩
  cases hr
  exact ⟨s', rfl, ht.trans hlegal.next.later⟩

theorem clock_yields {P : Sights → Prop} (hP : Lasting P) (hh : Held P h) :
    Yields snapshot (fun t s => P s ∧ ReadAt t s) PlaceOp.clock h :=
  .call hP (fun _ => hP.and ReadAt.lasting) (fun _ => trivial) (fun _ => rfl)
    (fun _ hh₁ => ⟨hh₁.2, _, rfl, le_refl _⟩) hh

theorem doomed_of_isExpired {d : ExpiresAt} {t : Instant} {s : Sights} (hlegal : s.Legal)
    (hread : ReadAt t s) (hlive : Live snapshot j d s) (hexpired : d.isExpired t = true) :
    Doomed snapshot j s := by
  obtain ⟨r, hr, ht⟩ := hread
  cases s with
  | nil => cases hr
  | cons _ rest =>
    cases hr
    have hexpired' := d.isExpired_mono ht hexpired
    obtain hcarried | hshown := hlive
    · exact .inl (.inl (hcarried.gone_of_isExpired hlegal hexpired'))
    · exact .inr ⟨d, hshown, r, rfl, hexpired'⟩

def Tried (snapshot : Option (List Lease)) (j : JobId) (r : JoinAttempt × Option (List Lease))
    (s : Sights) : Prop :=
  Known snapshot r.2 s ∧ (r.1 = .stale → Doomed snapshot j s)

theorem Tried.lasting (r : JoinAttempt × Option (List Lease)) : Lasting (Tried snapshot j r) :=
  Known.lasting.and Doomed.lasting.imp

theorem tryJoinNow_yields {ctx : MergeContext} {taken : Option (List Lease)}
    {record : ContentKeyRecord} {planExpiry : ExpiresAt} (hh : Held (Known snapshot taken) h) :
    Yields snapshot (Tried snapshot record.jobId) (ctx.tryJoinNow taken record planExpiry) h := by
  rw [MergeContext.tryJoinNow, MergeContext.tryJoin, bind_eq]
  refine (officialState_yields (j := record.jobId) hh).bind fun r h₁ hh₁ => ?_
  obtain ⟨official | _, taken₁⟩ := r
  · have hlasting : Lasting fun s => Known snapshot taken₁ s ∧ Live snapshot record.jobId official s :=
      Known.lasting.and Live.lasting
    simp only [bind_eq]
    refine (clock_yields hlasting hh₁).bind fun t h₂ hh₂ => ?_
    obtain ⟨hlegal₂, ⟨hknown₂, hlive₂⟩, hread₂⟩ := hh₂
    by_cases hexpired : official.isExpired t = true
    · rw [if_pos hexpired]
      exact .ret (.lasting _)
        ⟨hlegal₂, hknown₂, fun _ => doomed_of_isExpired hlegal₂ hread₂ hlive₂ hexpired⟩
    · rw [if_neg hexpired]
      refine (confirmMembership_yields (j := record.jobId) Known.lasting
        ⟨hlegal₂, hknown₂⟩).bind fun joined h₃ hh₃ => ?_
      cases joined with
      | true => exact .ret (.lasting _) ⟨hh₃.1, hh₃.2.1, nofun⟩
      | false => exact .ret (.lasting _) ⟨hh₃.1, hh₃.2.1, fun _ => .inl (hh₃.2.2 rfl)⟩
  · exact .ret (.lasting _) ⟨hh₁.1, hh₁.2.1, fun _ => .inl hh₁.2.2⟩

theorem carryNow_yields {ctx : MergeContext} {taken : Option (List Lease)} {horizon : ExpiresAt}
    (hh : Held (Known snapshot taken) h) :
    Yields snapshot (fun r => Known snapshot r.2) (ctx.carryNow taken j horizon) h := by
  rw [MergeContext.carryNow, MergeContext.carry, bind_eq]
  refine (hasRecord_yields Known.lasting hh).bind fun recorded h₁ hh₁ => ?_
  cases recorded with
  | true => exact .ret Known.lasting hh₁
  | false =>
    simp only [Bool.false_eq_true, if_false, bind_eq]
    refine (officialState_yields (j := j) hh₁).bind fun r h₂ hh₂ => ?_
    obtain ⟨official | _, taken₂⟩ := r
    · have hknown₂ : Held (Known snapshot taken₂) h₂ := ⟨hh₂.1, hh₂.2.1⟩
      refine (clock_yields Known.lasting hknown₂).bind fun t h₃ hh₃ => ?_
      by_cases hexpired : official.isExpired t = true
      · rw [if_pos hexpired]
        exact .ret Known.lasting ⟨hh₃.1, hh₃.2.1⟩
      · rw [if_neg hexpired]
        refine (confirmMembership_yields (j := j) Known.lasting ⟨hh₃.1, hh₃.2.1⟩).bind ?_
        intro joined h₄ hh₄
        cases joined <;> exact .ret Known.lasting ⟨hh₄.1, hh₄.2.1⟩
    · refine (hasRecord_yields Known.lasting ⟨hh₂.1, hh₂.2.1⟩).bind fun recorded h₃ hh₃ => ?_
      cases recorded <;> exact .ret Known.lasting hh₃

theorem getContentKey_yields {digest : String} {P : Sights → Prop} (hP : Lasting P)
    (hh : Held P h) : Yields snapshot (fun _ => P) (PlaceOp.getContentKey digest) h :=
  .call hP (fun _ => hP) (fun _ => trivial) (fun _ => rfl) (fun _ hh₁ => hh₁.2) hh

theorem createContentKey_yields {digest : String} {record : ContentKeyRecord} {P : Sights → Prop}
    (hP : Lasting P) (hh : Held P h) :
    Yields snapshot (fun _ => P) (createContentKey digest record) h := by
  unfold createContentKey
  induction 2 generalizing h with
  | zero => exact .fail
  | succ tries ih =>
    have hkeep : ∀ h, (serve (.linkContentKey digest record) h).2.sights = h.sights := fun h => by
      simp only [serve]
      split <;> rfl
    have hlink : Yields snapshot (fun _ => P) (PlaceOp.linkContentKey digest record) h :=
      .call hP (fun _ => hP) (fun _ => trivial) hkeep (fun _ hh₁ => hh₁.2) hh
    rw [createContentKeyWithin, bind_eq]
    refine hlink.bind fun linked h₁ hh₁ => ?_
    cases linked with
    | true => exact .ret hP hh₁
    | false =>
      simp only [Bool.false_eq_true, if_false, bind_eq]
      refine (getContentKey_yields hP hh₁).bind fun incumbent h₂ hh₂ => ?_
      cases incumbent with
      | some record => exact .ret hP hh₂
      | none => exact ih hh₂

theorem Rely.contentKey {h' : History} {digest : String} (hrely : Rely h h')
    (hswap : h.swapping = some digest) :
    h'.swapping = some digest ∧ h'.contentKey digest = h.contentKey digest := by
  induction hrely with
  | refl => exact ⟨hswap, rfl⟩
  | tail _ hnext ih =>
    exact ⟨hnext.1.swapping.trans ih.1, (hnext.2 digest ih.1).trans ih.2⟩

theorem replaceContentKey_yields {digest : String} {read record : ContentKeyRecord}
    {P : Sights → Prop} (hP : Lasting P)
    (hh : Held (fun s => P s ∧ Doomed snapshot read.jobId s) h) :
    Yields snapshot (fun _ => P) (replaceContentKey digest read record) h := by
  have hlasting : Lasting fun s => P s ∧ Doomed snapshot read.jobId s := hP.and Doomed.lasting
  intro h₁ hrely₁
  have hh₁ := hh.rely hlasting hrely₁
  refine ⟨trivial, fun r h₂ hout => ?_⟩
  obtain ⟨rfl, rfl⟩ | ⟨e, rfl, -⟩ := hout
  · by_cases hkey : h₁.contentKey digest = some read
    · simp only [serve, if_pos hkey]
      intro h₃ hrely₃
      have hh₃ : Held (fun s => P s ∧ Doomed snapshot read.jobId s) h₃ :=
        Held.rely hlasting (h := { h₁ with swapping := some digest }) hh₁ hrely₃
      refine ⟨⟨(Rely.contentKey hrely₃ rfl).2.trans hkey, hh₃.1, hh₃.2.2⟩, fun r h₄ hout => ?_⟩
      obtain ⟨rfl, rfl⟩ | ⟨e, rfl, -⟩ := hout
      · exact Yields.ret (P := fun _ => P) hP ⟨hh₃.1, hh₃.2.1⟩
      · exact Yields.fail (P := fun _ => P)
    · simp only [serve, if_neg hkey]
      exact Yields.ret (P := fun _ => P) hP ⟨hh₁.1, hh₁.2.1⟩
  · exact Yields.fail (P := fun _ => P)

variable {ctx : MergeContext} {version : Nat} {unit : CellUnit} {taken : Option (List Lease)}

abbrev Settled (snapshot : Option (List Lease)) (r : Placed × Option (List Lease)) :
    Sights → Prop := Known snapshot r.2

theorem replaceStale_yields {read : ContentKeyRecord}
    (hh : Held (fun s => Known snapshot taken s ∧ Doomed snapshot read.jobId s) h) :
    Yields snapshot (Settled snapshot) (ctx.replaceStale version taken unit read) h := by
  rw [MergeContext.replaceStale, bind_eq]
  refine (replaceContentKey_yields Known.lasting hh).bind fun cas h₁ hh₁ => ?_
  cases cas with
  | applied => exact .ret Known.lasting hh₁
  | lost =>
    simp only [bind_eq]
    refine (getContentKey_yields Known.lasting hh₁).bind fun found h₂ hh₂ => ?_
    cases found with
    | none => exact .ret Known.lasting hh₂
    | some record =>
      refine (tryJoinNow_yields hh₂).bind fun r h₃ hh₃ => ?_
      obtain ⟨_ | _ | _, taken₃⟩ := r <;> exact .ret Known.lasting ⟨hh₃.1, hh₃.2.1⟩

theorem resolve_yields {record : ContentKeyRecord} (hh : Held (Known snapshot taken) h) :
    Yields snapshot (Settled snapshot) (ctx.resolve version taken unit record) h := by
  rw [MergeContext.resolve, bind_eq]
  refine (tryJoinNow_yields hh).bind fun r h₁ hh₁ => ?_
  obtain ⟨target | _ | _, taken₁⟩ := r
  · exact .ret Known.lasting ⟨hh₁.1, hh₁.2.1⟩
  · exact .ret Known.lasting ⟨hh₁.1, hh₁.2.1⟩
  · exact replaceStale_yields ⟨hh₁.1, hh₁.2.1, hh₁.2.2 rfl⟩

theorem claim_yields (hh : Held (Known snapshot taken) h) :
    Yields snapshot (Settled snapshot) (ctx.claim version taken unit) h := by
  rw [MergeContext.claim, bind_eq]
  refine (createContentKey_yields Known.lasting hh).bind fun outcome h₁ hh₁ => ?_
  cases outcome with
  | created => exact .ret Known.lasting hh₁
  | alreadyExists record => exact resolve_yields hh₁

theorem claimUnmerged_yields (hh : Held (Known snapshot taken) h) :
    Yields snapshot (Settled snapshot) (ctx.claimUnmerged version taken unit) h :=
  (createContentKey_yields Known.lasting hh).bind fun _ _ hh₁ => .ret Known.lasting hh₁

theorem placeByKey_yields {body : Json} (hh : Held (Known snapshot taken) h) :
    Yields snapshot (Settled snapshot) (ctx.placeByKey version taken unit body) h := by
  rw [MergeContext.placeByKey, bind_eq]
  split
  · refine (getContentKey_yields Known.lasting hh).bind fun found h₁ hh₁ => ?_
    cases found with
    | none => exact claim_yields hh₁
    | some record => exact resolve_yields hh₁
  · exact claimUnmerged_yields hh

theorem place_yields {body : Json} {inherited : Inherited} (hh : Held (Known snapshot taken) h) :
    Yields snapshot (Settled snapshot) (ctx.place version taken unit body inherited) h := by
  cases inherited with
  | nothing => exact placeByKey_yields hh
  | job j =>
    refine (carryNow_yields hh).bind fun r h₁ hh₁ => ?_
    obtain ⟨_ | target, taken₁⟩ := r
    · exact placeByKey_yields hh₁
    · exact .ret Known.lasting hh₁
  | rerun j => exact claimUnmerged_yields hh
  | recalculate j => exact .ret Known.lasting hh
  | answered j => exact .ret Known.lasting hh
  | satisfied j => exact .ret Known.lasting hh

end Placement

/-- A placement replaces a record only while it is the one it read. The record's job, if it made at
most one claim or recycle move meanwhile, was at some moment of the placement not queued or past its
deadline. The `leased/` snapshot, where an earlier unit took it, must not show the job under a
deadline that has passed and that the job did not carry during the placement. -/
theorem digest_taken_only_from_gone_job {ctx : MergeContext} {version : Nat}
    {snapshot : Option (List Lease)} {unit : CellUnit} {body : Json} {inherited : Inherited}
    {h₀ h : History} {digest : String} {read record : ContentKeyRecord}
    {k : Except Fault Unit → PlaceOp (Placed × Option (List Lease))}
    (hstart : h₀.past = []) (hsingle : h₀.world.queue.Single)
    (hrun : Walk serve.faulty Rely (ctx.place version snapshot unit body inherited) h₀
      (.call (.renameContentKey digest read record) k) h)
    (hsnapshot : ∀ leases d, snapshot = some leases → leasedExpiry leases read.jobId = some d →
      Carried h.sights read.jobId d ∨ d.isExpired h.time = false) :
    h.contentKey digest = some read ∧
      (crossings read.jobId h.sights ≤ 1 → Gone h.sights read.jobId) := by
  have hlegal : h₀.sights.Legal := by
    rw [sights, hstart]
    exact ⟨.singleton _, fun s hs => List.mem_singleton.mp hs ▸ hsingle⟩
  have hplace : Yields snapshot (Settled snapshot)
      (ctx.place version snapshot unit body inherited) h₀ := place_yields ⟨hlegal, .inl rfl⟩
  obtain ⟨hkey, hlegal, hdoomed⟩ := hrun.guard hplace
  refine ⟨hkey, fun hmoves => ?_⟩
  obtain (hgone | hcrossed) | ⟨d, ⟨leases, htaken, hd⟩, s, hs, hexpired⟩ := hdoomed
  · exact hgone
  · omega
  · cases hs
    obtain hcarried | hfuture := hsnapshot leases d htaken hd
    · exact hcarried.gone_of_isExpired hlegal hexpired
    · simp [hfuture] at hexpired

theorem carryNow_doomed {ctx : MergeContext} {snapshot : Option (List Lease)} {j : JobId}
    {horizon : ExpiresAt} {h : History} (hh : Held (Known snapshot snapshot) h) :
    Yields snapshot (fun r s => r.1 = none → Doomed snapshot j s)
      (ctx.carryNow snapshot j horizon) h := by
  have hlasting : ∀ r : Option JoinTarget × Option (List Lease),
      Lasting fun s => r.1 = none → Doomed snapshot j s := fun _ => .imp Doomed.lasting
  rw [MergeContext.carryNow, MergeContext.carry, bind_eq]
  refine (hasRecord_yields Known.lasting hh).bind fun recorded h₁ hh₁ => ?_
  cases recorded with
  | true => exact .ret (hlasting _) ⟨hh₁.1, nofun⟩
  | false =>
    simp only [Bool.false_eq_true, if_false, bind_eq]
    refine (officialState_yields (j := j) hh₁).bind fun r h₂ hh₂ => ?_
    obtain ⟨official | _, taken⟩ := r
    · refine (clock_yields Live.lasting ⟨hh₂.1, hh₂.2.2⟩).bind fun t h₃ hh₃ => ?_
      by_cases hexpired : official.isExpired t = true
      · rw [if_pos hexpired]
        exact .ret (hlasting _) ⟨hh₃.1, fun _ => doomed_of_isExpired hh₃.1 hh₃.2.2 hh₃.2.1 hexpired⟩
      · rw [if_neg hexpired]
        refine (confirmMembership_yields (j := j) Live.lasting ⟨hh₃.1, hh₃.2.1⟩).bind ?_
        intro joined h₄ hh₄
        cases joined with
        | true => exact .ret (hlasting _) ⟨hh₄.1, nofun⟩
        | false => exact .ret (hlasting _) ⟨hh₄.1, fun _ => .inl (hh₄.2.2 rfl)⟩
    · refine (hasRecord_yields Dead.lasting ⟨hh₂.1, hh₂.2.2⟩).bind fun recorded h₃ hh₃ => ?_
      cases recorded with
      | true => exact .ret (hlasting _) ⟨hh₃.1, nofun⟩
      | false => exact .ret (hlasting _) ⟨hh₃.1, fun _ => .inl hh₃.2⟩

/-- A revision gives up a job of the plan it supersedes only if the job was, at some moment of the
carry, not queued or past its deadline; or else it was moved twice meanwhile. -/
theorem carry_gives_up_only_gone_job {ctx : MergeContext} {snapshot taken : Option (List Lease)}
    {j : JobId} {horizon : ExpiresAt} {h₀ h : History} (hstart : h₀.past = [])
    (hsingle : h₀.world.queue.Single)
    (hrun : Walk serve.faulty Rely (ctx.carryNow snapshot j horizon) h₀ (.ret (none, taken)) h)
    (hsnapshot : ∀ leases d, snapshot = some leases → leasedExpiry leases j = some d →
      Carried h.sights j d ∨ d.isExpired h.time = false) :
    crossings j h.sights ≤ 1 → Gone h.sights j := by
  intro hmoves
  have hlegal : h₀.sights.Legal := by
    rw [sights, hstart]
    exact ⟨.singleton _, fun s hs => List.mem_singleton.mp hs ▸ hsingle⟩
  have hend := hrun.sat (carryNow_doomed ⟨hlegal, .inl rfl⟩) h .refl _ rfl
  obtain (hgone | hcrossed) | ⟨d, ⟨leases, htaken, hd⟩, s, hs, hexpired⟩ := hend.2 rfl
  · exact hgone
  · omega
  · cases hs
    obtain hcarried | hfuture := hsnapshot leases d htaken hd
    · exact hcarried.gone_of_isExpired hend.1 hexpired
    · simp [hfuture] at hexpired

def agedPlacement (snapshot : Option (List Lease)) : PlaceOp (Placed × Option (List Lease)) :=
  MergeContext.place ⟨⟨"plan"⟩, 2, 10⟩ 1 snapshot ⟨0, .never, ⟨"fresh"⟩, "cell"⟩ (.obj []) .nothing

def agedRecord : ContentKeyRecord := ⟨⟨"job"⟩, ⟨"old"⟩, -100, 0⟩

def agedStart (queue : QueueState) : History where
  world := { World.empty with
    queue
    plans := { World.empty.plans with
      contentKeys := (∅ : FileTree _ _).insert "cell" agedRecord } }
  time := 2
  swapping := none
  past := []

def onlyJob (j : JobId) : QueueStanding → QueueState
  | .avail d => ⟨(∅ : FileTree _ _).insert (.avail ⟨j, d⟩) .null⟩
  | .leased d => ⟨(∅ : FileTree _ _).insert (.leased ⟨j, d, ⟨"device"⟩, ⟨9⟩⟩) .null⟩

theorem standing_onlyJob {i j : JobId} {st : QueueStanding} :
    (onlyJob j st).standing i = if j = i then some st else none := by
  cases st with
  | avail d =>
    have havail : (onlyJob j (.avail d)).availKeys = [⟨j, d⟩] := rfl
    have hleases : (onlyJob j (.avail d)).leases = [] := rfl
    obtain rfl | hj := eq_or_ne j i <;> simp [QueueState.standing, leasedExpiry, *]
  | leased d =>
    have havail : (onlyJob j (.leased d)).availKeys = [] := rfl
    have hleases : (onlyJob j (.leased d)).leases = [⟨j, d, ⟨"device"⟩, ⟨9⟩⟩] := rfl
    obtain rfl | hj := eq_or_ne j i <;> simp [QueueState.standing, leasedExpiry, *]

theorem onlyJob_single {j : JobId} {st : QueueStanding} : (onlyJob j st).Single := by
  intro i d hd
  rw [standing_onlyJob] at hd
  split at hd
  · cases hd
    rfl
  · cases hd

theorem onlyJob_next {j : JobId} {st st' : QueueStanding} {t t' : Instant} (ht : t ≤ t')
    (hmove : JobMove t (some st) (some st')) :
    Sight.Next ⟨onlyJob j st, t⟩ ⟨onlyJob j st', t'⟩ := by
  refine ⟨ht, fun i => ?_⟩
  rw [standing_onlyJob, standing_onlyJob]
  split
  · exact hmove
  · exact .stay none

/-- How the job got a new deadline before the placement: leased when an earlier unit of the ingest
took the snapshot, then recycled, overdue, re-dated and claimed again. -/
def redatedSights : Sights :=
  let past : ExpiresAt := .atStamp ⟨0⟩
  let future : ExpiresAt := .atStamp ⟨1⟩
  [⟨onlyJob ⟨"job"⟩ (.avail future), 1⟩, ⟨onlyJob ⟨"job"⟩ (.avail past), 1⟩,
    ⟨onlyJob ⟨"job"⟩ (.avail past), -1⟩, ⟨onlyJob ⟨"job"⟩ (.leased past), -2⟩]

/-- The snapshot can also understate liveness: the deadline it shows has passed, the one the job has
been re-dated to has not. -/
theorem stale_snapshot_takes_live_digest :
    let h₀ := agedStart (onlyJob ⟨"job"⟩ (.leased (.atStamp ⟨1⟩)))
    let snapshot := (onlyJob ⟨"job"⟩ (.leased (.atStamp ⟨0⟩))).leases
    let rest := (agedPlacement (some snapshot)).after serve 4 h₀
    Legal (h₀.sights ++ redatedSights) ∧
      redatedSights.getLast?.map (·.queue.leases) = some snapshot ∧
      Walk serve.faulty Rely (agedPlacement (some snapshot)) h₀ rest.1 rest.2 ∧
      (∃ record k, rest.1 = .call (.renameContentKey "cell" agedRecord record) k) ∧
      crossings agedRecord.jobId rest.2.sights = 0 ∧ ¬ Gone rest.2.sights agedRecord.jobId := by
  intro h₀ snapshot rest
  refine ⟨⟨?_, ?_⟩, rfl, ?_, ⟨_, _, rfl⟩, rfl, ?_⟩
  · refine .cons_cons (onlyJob_next (by decide) (.claim _)) (.cons_cons (onlyJob_next le_rfl ?_)
      (.cons_cons (onlyJob_next (by decide) (.stay _))
        (.cons_cons (onlyJob_next (by decide) (.recycle _)) (.singleton _))))
    exact .redate _ (by decide)
  · intro s hs
    have hsights : h₀.sights ++ redatedSights =
        ⟨onlyJob ⟨"job"⟩ (.leased (.atStamp ⟨1⟩)), 2⟩ :: redatedSights := rfl
    rw [hsights, redatedSights] at hs
    simp only [List.mem_cons, List.not_mem_nil, or_false] at hs
    obtain rfl | rfl | rfl | rfl | rfl := hs <;> simp only [onlyJob_single]
  · exact Walk.start.after fun _ _ _ _ hc => .inl hc
  · rintro ⟨s, hs, hmissing⟩
    obtain rfl := List.mem_singleton.mp hs
    have hstanding : (onlyJob ⟨"job"⟩ (.leased (.atStamp ⟨1⟩))).standing ⟨"job"⟩ =
        some (.leased (.atStamp ⟨1⟩)) := standing_onlyJob.trans (if_pos rfl)
    exact absurd (hmissing _ hstanding) (by decide)

/-- The job as the others leave it: its lease recycled, its deadline passed. -/
def recycled (h : History) : History :=
  { h with
    world := { h.world with queue := onlyJob ⟨"job"⟩ (.avail (.atStamp ⟨0⟩)) }
    time := 2
    past := h.sights }

theorem meanwhile_recycled {h : History}
    (hqueue : h.world.queue = onlyJob ⟨"job"⟩ (.leased (.atStamp ⟨0⟩))) (htime : h.time = 0) :
    Meanwhile h (recycled h) := by
  refine ⟨⟨rfl, ?_, onlyJob_single, rfl⟩, fun _ _ => rfl⟩
  have htimes : h.time ≤ 2 := by
    rw [htime]
    decide
  rw [hqueue]
  exact onlyJob_next htimes (.recycle _)

def leasedStart : History := { agedStart (onlyJob ⟨"job"⟩ (.leased (.atStamp ⟨0⟩))) with time := 0 }

theorem leasedStart_single : leasedStart.world.queue.Single :=
  @onlyJob_single ⟨"job"⟩ (.leased (.atStamp ⟨0⟩))

/-- The snapshot shows the job leased, as it is when the placement begins. -/
theorem digest_taken_only_from_gone_job_recycled :
    let place := agedPlacement (some leasedStart.world.queue.leases)
    let looked := place.after serve 2 leasedStart
    let rest := looked.1.after serve 2 (recycled looked.2)
    Walk serve.faulty Rely place leasedStart rest.1 rest.2 ∧
      rest.2.contentKey "cell" = some agedRecord ∧ crossings ⟨"job"⟩ rest.2.sights = 1 ∧
      Gone rest.2.sights ⟨"job"⟩ := by
  intro place looked rest
  have hrun : Walk serve.faulty Rely place leasedStart rest.1 rest.2 := by
    have hlooked : Walk serve.faulty Rely place leasedStart looked.1 looked.2 :=
      Walk.start.after fun _ _ _ _ hc => .inl hc
    exact (hlooked.others (.single (meanwhile_recycled rfl rfl))).after fun _ _ _ _ hc => .inl hc
  have hcrossed : crossings ⟨"job"⟩ rest.2.sights = 1 := rfl
  have htaken := digest_taken_only_from_gone_job rfl leasedStart_single hrun fun leases d hleases hd => by
    cases hleases
    cases hd
    exact .inl ⟨_, List.mem_cons_of_mem _ List.mem_cons_self, _, rfl, rfl⟩
  exact ⟨hrun, htaken.1, hcrossed, htaken.2 hcrossed.le⟩

/-- The same job, given up by a revision. -/
theorem carry_gives_up_only_gone_job_recycled :
    let carry := MergeContext.carryNow ⟨⟨"plan"⟩, 2, 10⟩ (some leasedStart.world.queue.leases)
      ⟨"job"⟩ .never
    let looked := carry.after serve 6 leasedStart
    let rest := looked.1.after serve 1 (recycled looked.2)
    (∃ taken, Walk serve.faulty Rely carry leasedStart (.ret (none, taken)) rest.2) ∧
      crossings ⟨"job"⟩ rest.2.sights = 1 ∧ Gone rest.2.sights ⟨"job"⟩ := by
  intro carry looked rest
  have hrun : Walk serve.faulty Rely carry leasedStart rest.1 rest.2 := by
    have hlooked : Walk serve.faulty Rely carry leasedStart looked.1 looked.2 :=
      Walk.start.after fun _ _ _ _ hc => .inl hc
    exact (hlooked.others (.single (meanwhile_recycled rfl rfl))).after fun _ _ _ _ hc => .inl hc
  have hcrossed : crossings ⟨"job"⟩ rest.2.sights = 1 := rfl
  have hgone := carry_gives_up_only_gone_job rfl leasedStart_single hrun (fun leases d hleases hd => by
    cases hleases
    cases hd
    exact .inl ⟨_, List.mem_cons_of_mem _ List.mem_cons_self, _, rfl, rfl⟩) hcrossed.le
  exact ⟨⟨_, hrun⟩, hcrossed, hgone⟩

end History

end Pipette
