import Pipette.System.RunJudgement

/-! A run latches a plan `complete` only when the plan's jobs have left the queue, as long as no
device moves a job past the run's listings. -/
namespace Pipette

section Passes

variable {ctx : RunContext} {plans₀ : PlanState} {j : JobId} {w : World} {front : Front}
  {avail : List AvailKey} {leases : List Lease}

structure FrontOf (plans₀ : PlanState) (front : Front) : Prop where
  manifests : front.manifests = plans₀.manifests.entries.map (·.2)
  cancelMarkers : front.cancelMarkers = plans₀.cancelMarkers.keys

structure Listed (ctx : RunContext) (j : JobId) (avail : List AvailKey) (w : World) : Prop where
  present : Present j w
  same : ∀ k ∈ avail, ∀ k' ∈ avail, k.jobId = j → k'.jobId = j → k = k'
  pinned : ∀ k ∈ avail, k.jobId = j → Pinned ctx j k w

theorem Listed.steady : Steady ctx plans₀ j (Listed ctx j avail) := by
  have hpresent : Steady ctx plans₀ j (Present j) := Present.steady
  have hpinned : ∀ k, Steady ctx plans₀ j (Pinned ctx j k) := fun _ => Pinned.steady
  constructor
  · exact fun w w' h hw => ⟨hpresent.bears _ _ h.present hw, h.same,
      fun k hk hj => (hpinned k).bears _ _ (h.pinned k hk hj) hw⟩
  · exact fun w w' hw h => ⟨hpresent.anchored _ _ hw h.present, h.same,
      fun k hk hj => (hpinned k).anchored _ _ hw (h.pinned k hk hj)⟩

theorem queuePasses_judged (hfront : FrontOf plans₀ front) (hw : Listed ctx j avail w)
    (hseen : Keeps j avail ∨ ∃ l ∈ leases, l.jobId = j) :
    Judged ctx plans₀ j (queuePasses ctx front avail leases)
      (fun r _ => ∀ view, r = .ok view → j ∈ view.live) w := by
  have hF : Steady ctx plans₀ j (Listed ctx j avail) := Listed.steady
  have herror : ∀ (e : Fault) (view : QueueView), Except.error e = .ok view → j ∈ view.live :=
    fun e view h => by cases h
  have hmembers : (Op.plans .listAllJobPlanMarkers).Calls (Spares j) := .store trivial
  have howes : ∀ m ∈ front.manifests, j ∈ m.jobIds →
      (teardownCause m front.cancelMarkers ctx.now ctx.settings.planCreatingMax).isSome →
      OwesTeardown ctx plans₀ j := by
    intro m hm hj hcause
    rw [hfront.manifests] at hm
    rw [hfront.cancelMarkers] at hcause
    exact ⟨m, hm, hj, hcause⟩
  refine (hF.judged hmembers hw).bind (fun membership v hv => ?_) fun e _ _ _ _ => herror e
  refine (tearDownPlans_judged hF (fun _ h => h.present) howes hv).bind (fun teardown v hv => ?_)
    fun e _ _ _ _ => herror e
  obtain ⟨hlisted, hkept, havail, hleased⟩ := hv teardown rfl
  refine (recordMemberLapses_judged hF hlisted).bind (fun lapses v hv => ?_) fun e _ _ _ _ => herror e
  have hlisted := hv lapses rfl
  have hsub : ∀ k ∈ teardown.avail, k ∈ avail := fun k hk => by
    rw [havail] at hk
    exact (List.mem_filter.mp hk).1
  refine (expireOverdueJobs_judged (fun k hk k' hk' => hlisted.same k (hsub k hk) k' (hsub k' hk'))
    (fun k hk => hlisted.pinned k (hsub k hk)) hlisted.present).bind (fun expired v hv => ?_)
    fun e _ _ _ _ => herror e
  obtain ⟨hpresent, hexpired⟩ := hv expired rfl
  refine (retireUnmatchableJobs_judged ⟨hpresent, fun k b h => by cases h⟩).bind
    (fun retired v hv => ?_) fun e _ _ _ _ => herror e
  obtain ⟨hcached, hretired⟩ := hv retired rfl
  refine (escalateAllDeniedJobs_judged hcached).bind (fun escalated v hv => ?_)
    fun e _ _ _ _ => herror e
  obtain ⟨-, hescalated⟩ := hv escalated rfl
  intro u _ view hview
  cases hview
  obtain ⟨k, hk, hj⟩ | ⟨l, hl, hj⟩ := hseen
  · -- the key comes through every pass
    have hfirst : Keeps j teardown.avail := by
      refine ⟨k, ?_, hj⟩
      rw [havail]
      exact List.mem_filter.mpr ⟨hk, by simpa [hj] using hkept⟩
    obtain ⟨k', hk', hj'⟩ := hescalated (hretired (hexpired hfirst))
    have hmem : j ∈ (escalated.1.survivors.map (·.jobId)).toFinset := by
      simp only [List.mem_toFinset, List.mem_map]
      exact ⟨k', hk', hj'⟩
    exact Finset.mem_union_left _ (Finset.mem_union_left _ hmem)
  · have hmem : j ∈ (teardown.leased.map (·.jobId)).toFinset := by
      simp only [List.mem_toFinset, List.mem_map, hleased, List.mem_filter]
      exact ⟨l, ⟨hl, by simpa [hj] using hkept⟩, hj⟩
    exact Finset.mem_union_left _ (Finset.mem_union_right _ hmem)

theorem afterQueuePasses_judged {view : QueueView} (hlive : j ∈ view.live) :
    Judged ctx plans₀ j (afterQueuePasses ctx front view) (fun _ _ => True) w := by
  have hlatch : ∀ c, Spares j c → ∀ w, Latching j c w := fun c hc w => hc.latching
  have hindex : ∀ c, IndexingCall c → ∀ w, Latching j c w := by
    rintro c hc w m rfl
    exact hc.elim
  have hsweep : ∀ c, SweepingCall c → ∀ w, Latching j c w := by
    rintro c hc w m rfl
    exact hc.elim
  have hgc : ∀ v : PlanView, (gcPlanIndex v view.manifests front.prior).Calls
      fun c => ∀ w, Latching j c w := fun v =>
    gcPlanIndex_calls (hlatch _ trivial) (fun _ _ => hlatch _ trivial) fun _ _ _ => hlatch _ trivial
  refine .of_calls ?_
  refine .bind (.store (hlatch _ trivial)) fun clients => ?_
  refine .bind (.store (hlatch _ trivial)) fun tags => ?_
  refine .bind (.store (hlatch _ trivial)) fun rights => ?_
  refine .bind (indexPasses_indexing.mono hindex) fun bodies => ?_
  refine .bind (sweepPasses_sweeping.mono hsweep) fun next => ?_
  refine .bind ?_ fun reconciled => .bind (hgc _) fun collected =>
    .bind (.store (hlatch _ trivial)) fun _ => .ret _
  refine reconcilePlans_calls (fun _ => hlatch _ trivial) (fun _ _ => hlatch _ trivial)
    (fun _ => hlatch _ trivial) (fun _ => hlatch _ trivial) ?_
  intro m hm m' _ hjobs hexpired hcomplete w m'' hm'' hstatus hj
  cases hm''
  obtain ⟨hending, hnone⟩ := hcomplete hstatus
  left
  by_contra hunlapsed
  rw [hjobs] at hj
  rw [hexpired] at hunlapsed
  have hmem : j ∈ ([] : List JobId) := by
    rw [← hnone]
    refine List.mem_filter.mpr ⟨hj, ?_⟩
    simpa [hending, hlive] using hunlapsed
  cases hmem

theorem beforeListings_judged (hw : Present j w ∧ w.plans = plans₀) :
    Judged ctx plans₀ j (beforeListings ctx)
      (fun r w => ∀ front, r = .ok front → FrontOf plans₀ front ∧ Present j w) w := by
  have hbears : ∀ v v', Present j v ∧ v.plans = plans₀ → Bears ctx plans₀ j v v' →
      Present j v' ∧ v'.plans = plans₀ := fun v v' h hb =>
    ⟨Present.steady.bears _ _ h.1 hb, hb.1.trans h.2⟩
  -- a call on other jobs that leaves the plans alone
  have hask : ∀ (c : StoreCall) v, Spares j c → (∀ w, (machine c w).2.plans = w.plans) →
      Present j v ∧ v.plans = plans₀ →
      Judged ctx plans₀ j (Prog.store c) (fun r w => (Present j w ∧ w.plans = plans₀) ∧
        ∀ a, r = .ok a → ∃ v, (Present j v ∧ v.plans = plans₀) ∧ a = (machine c v).1 ∧
          Bears ctx plans₀ j (machine c v).2 w) v := by
    intro c v hc hplans hv
    refine answered hbears (fun u r u' hu hout => ?_) (fun _ => hc.latching) hv
    obtain ⟨⟨p, b, hp⟩, hu⟩ := hu
    refine ⟨⟨p, b, hc.at hout hp⟩, ?_⟩
    obtain ⟨-, rfl⟩ | ⟨e, -, rfl | rfl⟩ := hout
    · exact (hplans u).trans hu
    · exact hu
    · exact (hplans u).trans hu
  have herror : ∀ (e : Fault) (w : World) (front : Front), Except.error e = .ok front →
      FrontOf plans₀ front ∧ Present j w := fun e w front h => by cases h
  refine (hask (.notes .readGcCandidates) w trivial (fun _ => rfl) hw).bind
    (fun prior v hv => ?_) fun e _ _ w' _ => herror e w'
  refine (hask (.notes (.writeGcCandidates ∅)) v trivial (fun _ => rfl) hv.1).bind
    (fun _ v hv => ?_) fun e _ _ w' _ => herror e w'
  refine (hask (.plans .listCancelMarkers) v trivial (fun _ => rfl) hv.1).bind
    (fun cancelMarkers v hv => ?_) fun e _ _ w' _ => herror e w'
  obtain ⟨hv, hmarkers⟩ := hv
  obtain ⟨u, hu, rfl, -⟩ := hmarkers cancelMarkers rfl
  refine (hask (.plans .drainPlans) v trivial (fun _ => rfl) hv).bind
    (fun manifests v hv => ?_) fun e _ _ w' _ => herror e w'
  obtain ⟨hv, hplans⟩ := hv
  obtain ⟨u', hu', rfl, -⟩ := hplans manifests rfl
  have hsettle : (settleExpiredLeases ctx.catalog ctx.settings.lostLeaseLimit ctx.now).Calls
      (SettlingCall ctx.now) := settleExpiredLeases_settling
  refine (settling_judged hsettle hv.1).bind (fun recycled v hv => ?_)
    fun e _ _ w' _ => herror e w'
  intro v' hb front hfront
  cases hfront
  refine ⟨⟨?_, ?_⟩, Present.steady.bears _ _ hv hb⟩
  · rw [← hu'.2]
    rfl
  · rw [← hu.2]
    rfl

def fromListing (ctx : RunContext) (front : Front) : Op Unit :=
  (Op.queue .listAvail).bind fun avail => (afterAvailListing ctx front avail).bind reportFailed

theorem run_eq : run ctx = (beforeListings ctx).bind (fromListing ctx) := by
  simp only [run, runPasses, Prog.bind_eq, Prog.bind_assoc]
  rfl

variable (ctx plans₀ j) in
/-- Where the run is, with what it knows of the job there. Between the two listings only the
state shows the job, so what is left of the run is not judged on its own. -/
inductive Stage : Op Unit → World → Prop
  | before {q : Op Front} {w : World}
      (h : Judged ctx plans₀ j q
        (fun r w => ∀ front, r = .ok front → FrontOf plans₀ front ∧ Present j w) w) :
      Stage (q.bind (fromListing ctx)) w
  | listed {front : Front} {avail : List AvailKey} {w : World} (hfront : FrontOf plans₀ front)
      (hw : Listed ctx j avail w) (hseen : Keeps j avail ∨ ∃ l b, At j w (.leased l) b) :
      Stage ((afterAvailListing ctx front avail).bind reportFailed) w
  | after {q : Op Unit} {w : World} (h : Judged ctx plans₀ j q (fun _ _ => True) w) : Stage q w

theorem Present.listed (h : Present j w) : Listed ctx j w.queue.availKeys w := by
  have hkey : ∀ k ∈ w.queue.availKeys, k.jobId = j → ∃ b, At j w (.avail k) b := by
    intro k hk hj
    obtain ⟨b, hb⟩ := Option.isSome_iff_exists.mp (QueueState.mem_availKeys.mp hk)
    exact ⟨b, h.at_avail hj hb⟩
  refine ⟨h, fun k hk k' hk' hj hj' => ?_, fun k hk hj _ => hkey k hk hj⟩
  obtain ⟨b, hat⟩ := hkey k hk hj
  obtain ⟨b', hat'⟩ := hkey k' hk' hj'
  exact (QueuePath.avail.inj (hat.unique hat').1).symm

theorem Present.seen (h : Present j w) :
    Keeps j w.queue.availKeys ∨ ∃ l b, At j w (.leased l) b := by
  obtain ⟨p, b, hat⟩ := h
  cases p with
  | avail k =>
    refine .inl ⟨k, QueueState.mem_availKeys.mpr ?_, Option.some.inj hat.job⟩
    simp [hat.here]
  | leased l => exact .inr ⟨l, b, hat⟩
  | tmp j' => cases hat.job

theorem afterListings_judged (hfront : FrontOf plans₀ front) (hw : Listed ctx j avail w)
    (hseen : Keeps j avail ∨ ∃ l ∈ leases, l.jobId = j) :
    Judged ctx plans₀ j (((queuePasses ctx front avail leases).bind
      (afterQueuePasses ctx front)).bind reportFailed) (fun _ _ => True) w := by
  have hpasses : Judged ctx plans₀ j ((queuePasses ctx front avail leases).bind
      (afterQueuePasses ctx front)) (fun _ _ => True) w :=
    (queuePasses_judged hfront hw hseen).bind
      (fun view v hv => afterQueuePasses_judged (hv view rfl)) fun _ _ _ _ _ => trivial
  refine hpasses.bind (fun failed v _ => .of_calls ?_) fun _ _ _ _ _ => trivial
  unfold reportFailed
  split
  · exact .fail _
  · exact .ret _

theorem Stage.step {q : Op Unit} {c : StoreCall} {k : Except Fault c.Answer → Op Unit}
    (h : Stage ctx plans₀ j q w) (hq : q = .call c k) :
    Latching j c w ∧ ∀ r w', Watched j c w r w' → Stage ctx plans₀ j (k r) w' := by
  have hstay : Bears ctx plans₀ j w w := Std.Refl.refl w
  cases h with
  | @before q _ h =>
    cases q with
    | ret front =>
      obtain ⟨hfront, hw⟩ := h w hstay front rfl
      cases hq
      refine ⟨Spares.latching trivial, fun r w' hout => ?_⟩
      obtain ⟨rfl, rfl⟩ | ⟨e, rfl, -⟩ := hout.1
      · exact .listed hfront hw.listed hw.seen
      · exact .after fun _ _ => trivial
    | fail e => cases hq
    | call c' k' =>
      cases hq
      exact ⟨(h w hstay).1, fun r w' hout => .before ((h w hstay).2 r w' hout)⟩
  | @listed front avail _ hfront hw hseen =>
    cases hq
    refine ⟨Spares.latching trivial, fun r w' hout => .after ?_⟩
    obtain ⟨rfl, rfl⟩ | ⟨e, rfl, -⟩ := hout.1
    · refine afterListings_judged hfront hw (hseen.imp_right ?_)
      rintro ⟨l, b, hat⟩
      refine ⟨l, QueueState.mem_leases.mpr ?_, Option.some.inj hat.job⟩
      simp [hat.here]
    · exact fun _ _ => trivial
  | after h =>
    subst hq
    exact ⟨(h w hstay).1, fun r w' hout => .after ((h w hstay).2 r w' hout)⟩

end Passes

section Runs

open Prog Prog.Pool

variable {κ : Type} {ctx : RunContext} {plans₀ : PlanState} {j : JobId}
  {s t : Pool Stores World (Option κ) fun _ => Unit}

def BetweenListings (ctx : RunContext) (p : Op Unit) : Prop :=
  ∃ front avail, p = (afterAvailListing ctx front avail).bind reportFailed

/-- The moves of devices that keep the job in the run's sight: none while a plan that owes
teardown lists the job, no claim of an entry the run can end, and no recycle between the
listings. -/
def Quiet (ctx : RunContext) (plans₀ : PlanState) (j : JobId)
    (t : Pool Stores World (Option κ) fun _ => Unit) : Option κ → StoreCall → Prop
  | some _, .queue (.rename src dst) => ∀ b, src.queued.map (·.jobId) = some j →
    t.world.queue.files.lookup src = some b →
      ¬ OwesTeardown ctx plans₀ j ∧ (∀ k, src = .avail k → ¬ Removable ctx k b) ∧
        (∀ k, dst = .avail k → ¬ BetweenListings ctx (t.procs none))
  | _, _ => True

theorem device_at {c : StoreCall} {w w' : World} {r : Except Fault c.Answer} {p : QueuePath}
    {b : Json} (hc : SubmissionCall c) (hout : machine.faulty c w r w')
    (hqueued : w'.queue.Queued j) (hat : At j w p b) :
    ∃ p', At j w' p' b ∧
      (p' = p ∨ c = .queue (.rename p p') ∧ (QueueCall.rename p p').ByDevice) := by
  obtain hsame | ⟨c', rfl, hstep⟩ := faulty_queue hout
  · exact ⟨p, hat.frame hsame, .inl rfl⟩
  · have hdevice : c'.ByDevice := hc
    obtain ⟨p', hp', hmoved⟩ := hdevice.keepsJobs.atMoved hstep hqueued hat
    refine ⟨p', hp', ?_⟩
    cases c' with
    | rename src dst =>
      simp only [QueueCall.moved] at hmoved
      split at hmoved
      · next hsrc =>
        subst hsrc hmoved
        exact .inr ⟨rfl, hdevice⟩
      · exact .inl hmoved
    | _ => exact .inl hmoved

theorem device_bears {i : κ} {c : StoreCall} {w' : World} {r : Except Fault c.Answer}
    (hc : SubmissionCall c) (hquiet : Quiet ctx plans₀ j t (some i) c)
    (hout : Watched j c t.world r w') : Bears ctx plans₀ j t.world w' := by
  refine ⟨?_, fun p b hat => ?_⟩
  · have heffect : (machine c t.world).2.plans = t.world.plans := by
      cases c with
      | plans c => exact hc.elim
      | _ => rfl
    obtain ⟨-, rfl⟩ | ⟨e, -, rfl | rfl⟩ := hout.1
    · exact heffect
    · rfl
    · exact heffect
  · obtain ⟨p', hp', hmove⟩ := device_at hc hout.1 hout.2 hat
    refine ⟨p', hp', ?_⟩
    obtain rfl | ⟨rfl, hdevice⟩ := hmove
    · exact ⟨rfl, fun hne => absurd rfl hne⟩
    · obtain ⟨howes, hremovable, -⟩ := hquiet b hat.job hat.here
      exact ⟨hdevice.queued, fun _ => ⟨howes, hremovable⟩⟩

theorem device_leased {i : κ} {c : StoreCall} {w' : World} {r : Except Fault c.Answer}
    (hc : SubmissionCall c) (hquiet : Quiet ctx plans₀ j t (some i) c)
    (hout : Watched j c t.world r w') (hbetween : BetweenListings ctx (t.procs none)) {l : Lease}
    {b : Json} (hat : At j t.world (.leased l) b) : ∃ l', At j w' (.leased l') b := by
  obtain ⟨p', hp', hmove⟩ := device_at hc hout.1 hout.2 hat
  obtain rfl | ⟨rfl, hdevice⟩ := hmove
  · exact ⟨l, hp'⟩
  · cases p' with
    | leased l' => exact ⟨l', hp'⟩
    | avail k =>
      obtain ⟨-, -, hlisting⟩ := hquiet b hat.job hat.here
      exact absurd hbetween (hlisting k rfl)
    | tmp j' => cases hp'.job

theorem Stage.bears {q : Op Unit} {w w' : World} (h : Stage ctx plans₀ j q w)
    (hb : Bears ctx plans₀ j w w')
    (hleased : BetweenListings ctx q → ∀ l b, At j w (.leased l) b → ∃ l', At j w' (.leased l') b) :
    Stage ctx plans₀ j q w' := by
  cases h with
  | before h => exact .before (h.stable hb)
  | @listed front avail _ hfront hw hseen =>
    refine .listed hfront (Listed.steady.bears _ _ hw hb) (hseen.imp_right ?_)
    rintro ⟨l, b, hat⟩
    obtain ⟨l', hat'⟩ := hleased ⟨front, avail, rfl⟩ l b hat
    exact ⟨l', b, hat'⟩
  | after h => exact .after (h.stable hb)

/-- A maintenance run before its first call, among devices that are each anywhere in a request. -/
structure RunStart (ctx : RunContext) (s : Pool Stores World (Option κ) fun _ => Unit) : Prop where
  run : s.procs none = run ctx
  devices : ∀ i, (s.procs (some i)).Calls SubmissionCall
  one : s.world.queue.OneEntry

theorem QueueState.OneEntry.present {w : World} (hone : w.queue.OneEntry)
    (h : w.queue.Queued j) : Present j w := by
  obtain ⟨p, hp, hjob⟩ := h
  obtain ⟨b, hb⟩ := Option.isSome_iff_exists.mp (FileTree.mem_keys_iff.mp hp)
  refine ⟨p, b, hjob, hb, fun q hq hsome => ?_⟩
  obtain ⟨b', hb'⟩ := Option.isSome_iff_exists.mp hsome
  obtain ⟨k, hk, hkj⟩ := Option.map_eq_some_iff.mp hjob
  obtain ⟨k', hk', hkj'⟩ := Option.map_eq_some_iff.mp hq
  exact hone q p k' k b' b ⟨hk', hb'⟩ ⟨hk, hb⟩ (hkj'.trans hkj.symm)

variable [DecidableEq κ]

/-- While the job stays queued, the run is at a stage that has the job in sight. -/
theorem RunStart.stage (hs : RunStart ctx s) (hqueued : s.world.queue.Queued j)
    (h : Reach (Watched j) (fun u i c => Quiet ctx s.world.plans j u i c ∧ u.world.queue.Queued j)
      s t) :
    Stage ctx s.world.plans j (t.procs none) t.world ∧
      ∀ i, (t.procs (some i)).Calls SubmissionCall := by
  refine h.invariant (fun t => Stage ctx s.world.plans j (t.procs none) t.world ∧
    ∀ i, (t.procs (some i)).Calls SubmissionCall) ⟨?_, hs.devices⟩ ?_
  · rw [hs.run, run_eq]
    exact .before (beforeListings_judged ⟨hs.one.present hqueued, rfl⟩)
  · rintro t i c u ⟨hstage, hcalls⟩ ⟨hquiet, -⟩ hstep
    cases hstep with
    | @mk k r w hcall hout =>
      cases i with
      | none =>
        refine ⟨?_, fun i => by simpa using hcalls i⟩
        simpa using (hstage.step hcall).2 r w hout
      | some i =>
        have hi := hcalls i
        rw [hcall] at hi
        refine ⟨?_, fun i' => ?_⟩
        · simpa using hstage.bears (device_bears hi.1 hquiet hout)
            fun hbetween l b => device_leased hi.1 hquiet hout hbetween
        · by_cases hi' : i' = i
          · subst hi'
            simpa using hi.2 r
          · simpa [hi'] using hcalls i'

theorem faulty_putPlan {c : StoreCall} {w w' : World} {r : Except Fault c.Answer} {p : PlanId}
    {m : PlanManifest} (h : machine.faulty c w r w')
    (hafter : w'.plans.manifests.lookup p = some m) (hbefore : w.plans.manifests.lookup p ≠ some m) :
    c = .plans (.putPlan m) := by
  have heffect : (machine c w).2.plans.manifests.lookup p = some m := by
    obtain ⟨-, rfl⟩ | ⟨e, -, rfl | rfl⟩ := h
    · exact hafter
    · exact absurd hafter hbefore
    · exact hafter
  cases c with
  | plans c =>
    cases c with
    | putPlan m' =>
      have hlookup : (w.plans.manifests.insert m'.planId m').lookup p = some m := heffect
      rw [FileTree.lookup_write] at hlookup
      split at hlookup
      · rw [Option.some.inj hlookup]
      · exact absurd hlookup hbefore
    | deleteContentKey digest version =>
      simp only [machine, PlanCall.step] at heffect
      split at heffect
      · split at heffect <;> exact absurd heffect hbefore
      · exact absurd heffect hbefore
    | _ => exact absurd heffect hbefore
  | _ => exact absurd heffect hbefore

/-- One maintenance run among any devices, with any call failing: a step after which a plan has
become complete comes after a moment at which each of its jobs without a lapse was in neither
`avail/` nor `leased/`, provided that no device has moved the job out of the run's sight. -/
theorem plan_complete_job_gone {i : Option κ} {c : StoreCall}
    {u : Pool Stores World (Option κ) fun _ => Unit} {p : PlanId} {m : PlanManifest}
    (hs : RunStart ctx s) (h : Reach machine.faulty (Quiet ctx s.world.plans j) s t)
    (hstep : Step machine.faulty t i c u)
    (hbefore : ∀ m₀, t.world.plans.manifests.lookup p = some m₀ → m₀.status ≠ .complete)
    (hafter : u.world.plans.manifests.lookup p = some m) (hcomplete : m.status = .complete)
    (hj : j ∈ m.jobIds) (hlapse : m.expiredJobs.lookup j = none) :
    ∃ v, Reach machine.faulty (Quiet ctx s.world.plans j) s v ∧
      Reach machine.faulty (Quiet ctx s.world.plans j) v t ∧ ¬ v.world.queue.Queued j := by
  by_cases hqueued : s.world.queue.Queued j
  · obtain ⟨-, hin⟩ | hgone := h.within_or (A := fun w => w.queue.Queued j) hqueued
    · obtain ⟨hstage, hcalls⟩ := hs.stage hqueued hin
      cases hstep with
      | @mk k r w hcall hout =>
        obtain rfl := faulty_putPlan hout hafter fun he => hbefore m he hcomplete
        cases i with
        | some i =>
          have hi := hcalls i
          rw [hcall] at hi
          exact hi.1.elim
        | none =>
          have hid : m.planId = p := w.plans.filed p m hafter
          obtain hlapsed | ⟨m₀, hm₀, hstatus⟩ :=
            (hstage.step hcall).1 m rfl hcomplete hj
          · rw [hlapse] at hlapsed
            cases hlapsed
          · exact absurd hstatus (hbefore m₀ (hid ▸ hm₀))
    · exact hgone
  · exact ⟨s, .refl, h, hqueued⟩

def renews : StoreCall → Bool
  | .queue (.rename (.leased _) (.leased _)) => true
  | .queue (.rename _ _) => false
  | _ => true

omit [DecidableEq κ] in
theorem quiet_of_renews {i : Option κ} {c : StoreCall} (howes : ¬ OwesTeardown ctx plans₀ j)
    (h : i ≠ none → renews c = true) : Quiet ctx plans₀ j t i c := by
  cases i with
  | none => trivial
  | some i =>
    unfold Quiet
    split
    · next hc =>
      cases hc
      intro b _ _
      have hmove := h (by simp)
      refine ⟨howes, ?_, ?_⟩
      · rintro k rfl
        simp [renews] at hmove
      · rintro k rfl
        simp [renews] at hmove
    · trivial

def runPool (w : World) (ctx : RunContext) (devices : κ → QueueActor) :
    Pool Stores World (Option κ) fun _ => Unit :=
  ⟨w, fun
    | none => run ctx
    | some i => (devices i).program⟩

end Runs

def QueueActor.IsDevice : QueueActor → Prop
  | maintain .. => False
  | _ => True

theorem QueueActor.IsDevice.calls {a : QueueActor} (h : a.IsDevice) :
    a.program.Calls SubmissionCall := by
  have hcalls := program_calls a
  cases a with
  | maintain => exact h.elim
  | submit => exact hcalls
  | _ => exact hcalls.mono fun _ => DeviceCall.submission

theorem RunStart.runPool {κ : Type} {w : World} {ctx : RunContext} {devices : κ → QueueActor}
    (hdevices : ∀ i, (devices i).IsDevice) (hone : w.queue.OneEntry) :
    RunStart ctx (runPool w ctx devices) :=
  ⟨rfl, fun i => (hdevices i).calls, hone⟩

def waitingWorld (path : QueuePath) (job : JobId) (plan : PlanId) (client : ClientId) : World :=
  { World.empty with
    queue := ⟨(∅ : FileTree _ _).insert path (.obj [])⟩
    index := { World.empty.index with
      eligible := (∅ : FileTree _ _).insert ⟨client, job, .never⟩ () }
    plans := PlanState.put
      { World.empty.plans with jobPlans := (∅ : FileTree _ _).insert (job, plan, .never) 0 }
      ⟨plan, .active, 0, [job], ∅, ∅, none, none⟩ }

/-- The client submits its result while the run is under way, and the plan is complete. -/
theorem plan_complete_job_gone_submitted :
    let job : JobId := ⟨"job"⟩
    let plan : PlanId := ⟨"plan"⟩
    let client : ClientId := ⟨"client"⟩
    let ctx : RunContext := ⟨fun _ => true, ⟨0, 3⟩, 5⟩
    let w := waitingWorld (.leased ⟨job, .never, client, ⟨100⟩⟩) job plan client
    let s := runPool w ctx fun _ : Unit =>
      .submit ⟨60, 3⟩ 1 [] client ⟨job, .success, .obj []⟩ false true
    let t := s.play machine
      (List.replicate 3 none ++ List.replicate 10 (some ()) ++ List.replicate 24 none)
    ((t.advance machine none).world.plans.manifests.lookup plan).map (·.status) = some .complete ∧
      ∃ v, Prog.Pool.Reach machine.faulty (Quiet ctx s.world.plans job) s v ∧
        Prog.Pool.Reach machine.faulty (Quiet ctx s.world.plans job) v t ∧
        ¬ v.world.queue.Queued job := by
  intro job plan client ctx w s t
  have hone : w.queue.OneEntry := QueueState.oneEntry_of_pairwise (by decide +kernel)
  have howes : ¬ OwesTeardown ctx s.world.plans job := by
    unfold OwesTeardown
    decide +kernel
  have hrenews : (s.trace machine (List.replicate 3 none ++ List.replicate 10 (some ()) ++
      List.replicate 24 none)).all (fun u => (u.next (some ())).all renews) = true := by
    decide +kernel
  have hplay : Prog.Pool.Reach machine.clean (Quiet ctx s.world.plans job) s t := by
    refine .play_next fun u hu i c hc => quiet_of_renews howes fun hi => ?_
    obtain ⟨i, rfl⟩ := Option.ne_none_iff_exists'.mp hi
    have hall := List.all_eq_true.mp hrenews u hu
    rw [hc] at hall
    exact hall
  have hrun : Prog.Pool.Reach machine.faulty (Quiet ctx s.world.plans job) s t :=
    hplay.mono (fun _ _ _ _ h => .inl h) fun _ _ _ h => h
  obtain ⟨c, hc⟩ : ∃ c, t.next none = some c :=
    Option.isSome_iff_exists.mp (by decide +kernel)
  have hstep : Prog.Pool.Step machine.faulty t none c (t.advance machine none) :=
    (Prog.Pool.Step.advance hc).mono fun _ _ _ _ h => .inl h
  have hbefore : (t.world.plans.manifests.lookup plan).map (·.status) = some .active := by
    decide +kernel
  have hafter : ((t.advance machine none).world.plans.manifests.lookup plan).map
      (fun m => (m.status, m.jobIds, (m.expiredJobs.lookup job).isSome)) =
        some (.complete, [job], false) := by
    decide +kernel
  obtain ⟨m, hm, hfields⟩ := Option.map_eq_some_iff.mp hafter
  obtain ⟨hstatus, hjobs, hlapse⟩ : m.status = .complete ∧ m.jobIds = [job] ∧
      m.expiredJobs.lookup job = none := by simpa using hfields
  refine ⟨by rw [hm, Option.map_some, hstatus], ?_⟩
  refine plan_complete_job_gone (.runPool (fun _ => trivial) hone) hrun hstep (fun m₀ hm₀ => ?_) hm
    hstatus (by simp [hjobs]) hlapse
  rw [hm₀, Option.map_some] at hbefore
  rw [Option.some.inj hbefore]
  decide

/-- A client claims the job between the first listing of `leased/` and that of `avail/`, and gives
it back before `leased/` is listed again: the plan is latched complete and the job has been queued
all along. -/
theorem plan_complete_job_recycled :
    let job : JobId := ⟨"job"⟩
    let plan : PlanId := ⟨"plan"⟩
    let client : ClientId := ⟨"client"⟩
    let ctx : RunContext := ⟨fun _ => true, ⟨0, 3⟩, 5⟩
    let w := waitingWorld (.avail ⟨job, .never⟩) job plan client
    let devices : Bool → QueueActor
      | true => .reclaim ⟨60, 3⟩ 1 client job
      | false => .submit ⟨60, 3⟩ 1 [] client ⟨job, .failure true, .obj []⟩ false true
    let s := runPool w ctx devices
    let sched := List.replicate 5 none ++ List.replicate 20 (some true) ++ [none] ++
      List.replicate 20 (some false) ++ List.replicate 60 none
    RunStart ctx s ∧
      (w.plans.manifests.lookup plan).map (·.status) = some .active ∧
      ((s.play machine sched).world.plans.manifests.lookup plan).map
        (fun m => (m.status, m.jobIds, m.expiredJobs.keys)) = some (.complete, [job], []) ∧
      ∀ u ∈ s.trace machine sched, u.world.queue.Queued job := by
  intro job plan client ctx w devices s sched
  have hone : w.queue.OneEntry := QueueState.oneEntry_of_pairwise (by decide +kernel)
  refine ⟨.runPool (fun i => ?_) hone, by decide +kernel, by decide +kernel, by decide +kernel⟩
  cases i <;> trivial

end Pipette
