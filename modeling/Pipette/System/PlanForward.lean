import Pipette.Lib.Walk
import Pipette.System.PlanWalk

/-! The record of a plan only moves forward: runs of maintenance one after the other, each of which
may be stopped at any of its calls. -/
namespace Pipette

open Prog

def survey (ctx : RunContext) : Op (Front × QueueView) :=
  (beforeListings ctx).bind fun front =>
    (Op.queue .listAvail).bind fun avail =>
      (Op.queue .listLeased).bind fun leases =>
        (queuePasses ctx front avail leases).bind fun view => .ret (front, view)

def finish (ctx : RunContext) (found : Front × QueueView) : Op Unit :=
  (afterQueuePasses ctx found.1 found.2).bind reportFailed

theorem run_eq_survey {ctx : RunContext} : run ctx = (survey ctx).bind (finish ctx) := by
  simp only [run, runPasses, afterAvailListing, survey, finish, bind_eq, bind_assoc, ret_bind]

/-- The run found none of the plan's jobs outstanding, and retired none of them. -/
structure FoundNoneLeft (ctx : RunContext) (p : PlanId) (front : Front) (view : QueueView) : Prop where
  outstanding : ∃ m ∈ view.manifests, m.planId = p ∧
    ∀ workers tags, (view.plans ctx front workers tags).outstanding m = []
  retired : p ∉ view.endings.perturbed

structure Forward (m m' : PlanManifest) : Prop where
  jobIds : m'.jobIds = m.jobIds
  status : m.status.isTerminal = true → m'.status = m.status
  terminalAt : m.status.isTerminal = true → m'.terminalAt = m.terminalAt
  settled : ∀ j o, m.settledJobs.lookup j = some o → m'.settledJobs.lookup j = some o

def SnapshotAddsUp (m : PlanManifest) : Prop :=
  ∀ s, m.progressSnapshot = some s →
    s.counts.finished + s.counts.running + s.counts.available + s.counts.failed +
      s.counts.cancelled = m.jobIds.length

def SameManifest (p : PlanId) (w w' : World) : Prop :=
  w'.plans.manifests.lookup p = w.plans.manifests.lookup p

instance {p : PlanId} : Std.Refl (SameManifest p) := ⟨fun _ => rfl⟩

instance {p : PlanId} : IsTrans World (SameManifest p) := ⟨fun _ _ _ h h' => h'.trans h⟩

/-- What a run may write for the plan. `cause` is what it needs for a cancellation. -/
def Advances (p : PlanId) (cause : Prop) : StoreCall → World → Prop
  | .plans (.putPlan m'), w => m'.planId = p → ∃ m, w.plans.manifests.lookup p = some m ∧
      Forward m m' ∧ (SnapshotAddsUp m → SnapshotAddsUp m') ∧
      (m'.status = .cancelled → m.status = .cancelled ∨ cause)
  | _, _ => True

section Writes

variable {p : PlanId} {cause : Prop} {c : StoreCall} {w w' : World} {r : Except Fault c.Answer}
  {m m' m'' : PlanManifest}

theorem Forward.refl : Forward m m := ⟨rfl, fun _ => rfl, fun _ => rfl, fun _ _ ho => ho⟩

theorem Forward.trans (h : Forward m m') (h' : Forward m' m'') : Forward m m'' := by
  refine ⟨h'.jobIds.trans h.jobIds, fun ht => ?_, fun ht => ?_, fun j o ho => ?_⟩
  · have hs := h.status ht
    exact (h'.status (by rwa [hs])).trans hs
  · exact (h'.terminalAt (by rwa [h.status ht])).trans (h.terminalAt ht)
  · exact h'.settled j o (h.settled j o ho)

theorem LeavesPlan.advances (h : LeavesPlan p c) : Advances p cause c w := by
  cases c with
  | plans c =>
    cases c with
    | putPlan m => exact fun hid => (h hid).elim
    | _ => trivial
  | _ => trivial

theorem advances_rule : PlanRule p (SameManifest p) (Advances p cause) where
  leaves _ _ h := h.advances
  bears _ _ h := h.manifest

theorem free_deleteCancelMarker {q : PlanId} :
    FreeCall (SameManifest p) (Advances p cause) (.plans (.deleteCancelMarker q)) := by
  refine fun w => ⟨trivial, fun r w' hout => ?_⟩
  obtain ⟨-, rfl⟩ | ⟨e, -, rfl | rfl⟩ := hout <;> exact rfl

theorem Advances.mono {cause' : Prop} (hcause : cause → cause') (h : Advances p cause c w) :
    Advances p cause' c w := by
  cases c with
  | plans c =>
    cases c with
    | putPlan m =>
      intro hid
      obtain ⟨m₀, hm₀, hforward, hsnapshot, hcancelled⟩ := h hid
      exact ⟨m₀, hm₀, hforward, hsnapshot, fun hs => (hcancelled hs).imp_right hcause⟩
    | _ => trivial
  | _ => trivial

theorem Advances.effect (h : Advances p cause c w) (hout : machine.faulty c w r w') :
    SameManifest p w w' ∨ ∃ m m', w.plans.manifests.lookup p = some m ∧
      w'.plans.manifests.lookup p = some m' ∧ Forward m m' ∧
      (SnapshotAddsUp m → SnapshotAddsUp m') ∧
      (m'.status = .cancelled → m.status = .cancelled ∨ cause) := by
  have hstep : w' = w ∨ w' = (machine c w).2 := by
    obtain ⟨-, rfl⟩ | ⟨e, -, rfl | rfl⟩ := hout
    · exact .inr rfl
    · exact .inl rfl
    · exact .inr rfl
  obtain rfl | rfl := hstep
  · exact .inl rfl
  by_cases hc : LeavesPlan p c
  · exact .inl hc.step.manifest
  cases c with
  | plans c =>
    cases c with
    | putPlan m' =>
      have hid : m'.planId = p := by simpa [LeavesPlan] using hc
      obtain ⟨m, hm, hrest⟩ := h hid
      refine .inr ⟨m, m', hm, ?_, hrest⟩
      simp [machine, PlanCall.step, PlanState.put, hid]
    | writeCancelMarker q => exact .inl rfl
    | deleteCancelMarker q => exact .inl rfl
    | _ => exact (hc trivial).elim
  | _ => exact (hc trivial).elim

end Writes

def UpToLapses (m m' : PlanManifest) : Prop := m' = { m with expiredJobs := m'.expiredJobs }

/-- The manifest the run works with is the one in the store, except for its lapses: one whose
markers could not be deleted is in the store only. -/
def Copied (p : PlanId) : Option PlanManifest → World → Prop
  | none, w => w.plans.manifests.lookup p = none
  | some m, w => m.planId = p ∧ ∃ m₀, w.plans.manifests.lookup p = some m₀ ∧ UpToLapses m₀ m

section Surveys

variable {p : PlanId} {cause : Prop} {w w' : World} {m m' : PlanManifest} {ctx : RunContext}

theorem UpToLapses.status (h : UpToLapses m m') : m'.status = m.status := by
  rw [h]

theorem UpToLapses.forward (h : UpToLapses m m') : Forward m m' := by
  rw [h]
  exact ⟨rfl, fun _ => rfl, fun _ => rfl, fun _ _ ho => ho⟩

theorem Copied.bears {o : Option PlanManifest} (h : Copied p o w) (hR : SameManifest p w w') :
    Copied p o w' := by
  cases o with
  | none => exact hR.trans h
  | some m =>
    obtain ⟨hid, m₀, hm₀, hcopy⟩ := h
    exact ⟨hid, m₀, hR.trans hm₀, hcopy⟩

theorem lookup_put (hid : m.planId = p) :
    (machine (.plans (.putPlan m)) w).2.plans.manifests.lookup p = some m := by
  simp [machine, PlanCall.step, PlanState.put, hid]

theorem copied_lapse {markers : List JobPlanMarker} {j : JobId} {ms : List PlanManifest}
    {deadline : Stamp} {now : Instant} (hfind : ms.find? (·.planId = p) = some m)
    (hw : Carries p (Copied p) ms w) :
    (recordOneLapse markers p j deadline now).Sat machine.faulty (SameManifest p) (Advances p cause)
      (AfterLapse p (Copied p) ms p) w := by
  obtain ⟨o, ho, hw⟩ := hw
  obtain rfl := eq_some_of_find hfind ho
  refine advances_rule.ownLapse (fun _ _ _ hw hR => hw.bears hR) (fun _ _ hR => hR)
    (fun m₀ w hm₀ hw => ⟨w.plans.filed p m₀ hm₀, m₀, hm₀, rfl⟩)
    (fun m₀ w expiredJobs hm₀ hw => ?_) ho hw
  obtain ⟨hid, m₁, hm₁, hcopy⟩ := hw
  obtain rfl : m₁ = m₀ := Option.some.inj (hm₁.symm.trans hm₀)
  have hid₁ : m₁.planId = p := w.plans.filed p m₁ hm₁
  have hput := lookup_put (w := w) (m := { m₁ with expiredJobs }) hid₁
  refine ⟨fun _ => ⟨m₁, hm₁, UpToLapses.forward rfl, fun h => h, .inl⟩, ⟨hid, _, hput, ?_⟩,
    ⟨hid₁, _, hput, rfl⟩⟩
  rw [UpToLapses, hcopy]

theorem survey_sat : (survey ctx).Sat machine.faulty (SameManifest p) (Advances p False)
    (fun r w => ∀ found, r = .ok found → Carries p (Copied p) found.2.manifests w) w := by
  have herror : ∀ (e : Fault) (w : World) (found : Front × QueueView), Except.error e = .ok found →
      Carries p (Copied p) found.2.manifests w := fun e w found he => by cases he
  have hrule : PlanRule p (SameManifest p) (Advances p False) := advances_rule
  have hfirst : ∀ {α : Type} (q : Op α) w, q.Calls (LeavesPlan p) →
      q.Sat machine.faulty (SameManifest p) (Advances p False) (fun _ _ => True) w :=
    fun q w hq => hrule.keeps (F := fun _ => True) (fun _ _ _ _ => trivial) hq trivial
  have hkept : ∀ ms w w', Carries p (Copied p) ms w → SameManifest p w w' → Carries p (Copied p) ms w' :=
    fun ms w w' hw hR => hw.bears (fun _ _ _ hw hR => hw.bears hR) hR
  unfold survey beforeListings
  simp only [bind_eq, bind_assoc, pure_eq, ret_bind]
  refine (hfirst (Op.notes _) w (.store trivial)).bind (fun prior w _ => ?_)
    fun e _ _ v _ => herror e v
  refine (hfirst (Op.notes _) w (.store trivial)).bind (fun _ w _ => ?_) fun e _ _ v _ => herror e v
  refine (hfirst (Op.plans .listCancelMarkers) w (.store trivial)).bind (fun cancelMarkers w _ => ?_)
    fun e _ _ v _ => herror e v
  refine .store_bind fun w₁ _ => ⟨trivial, fun manifests w₂ hout => ?_, fun e w₂ _ v _ => herror e v⟩
  obtain ⟨hdrained, rfl⟩ | ⟨e, he, -⟩ := hout
  swap
  · cases he
  cases hdrained
  -- from here on the run works with the manifest it has read
  have hw : Carries p (Copied p) (w₁.plans.manifests.entries.map (·.2)) w₁ := by
    refine ⟨_, ownManifests_drained p w₁, ?_⟩
    cases hm : w₁.plans.manifests.lookup p with
    | none => exact hm
    | some m => exact ⟨w₁.plans.filed p m hm, m, hm, rfl⟩
  have hcreated : ∀ m ∈ w₁.plans.manifests.entries.map (·.2), m.planId = p →
      m.createdAt = (w₁.plans.manifests.lookup p).elim 0 (·.createdAt) := by
    intro m hm hid
    rw [lookup_of_drained hm hid]
    rfl
  have hsettle : (settleExpiredLeases ctx.catalog ctx.settings.lostLeaseLimit ctx.now).Calls
      (LeavesPlan p) := settleExpiredLeases_settling.mono fun _ => @SettlingCall.leavesPlan _ _ ctx.now
  refine (hrule.keeps (hkept _) hsettle hw).bind (fun recycled w hw => ?_) fun e _ _ v _ => herror e v
  have hlist : ∀ c : QueueCall, (Op.queue c).Calls (LeavesPlan p) := fun c => .store trivial
  refine (hrule.keeps (hkept _) (hlist _) hw).bind (fun avail w hw => ?_) fun e _ _ v _ => herror e v
  refine (hrule.keeps (hkept _) (hlist _) hw).bind (fun leases w hw => ?_) fun e _ _ v _ => herror e v
  refine (hrule.queue (F := Copied p) (fun _ _ _ hw hR => hw.bears hR)
    (fun _ _ _ _ _ _ _ hfind _ _ hw => copied_lapse hfind hw) hcreated hw).bind
      (fun view w hw => ?_) fun e _ _ v _ => herror e v
  rintro w' hR found ⟨⟩
  exact hkept _ _ _ (hw view rfl).carries hR

theorem finish_sat {front : Front} {view : QueueView} (hw : Carries p (Copied p) view.manifests w) :
    (finish ctx (front, view)).Sat machine.faulty (SameManifest p)
      (Advances p (FoundNoneLeft ctx p front view)) (fun _ _ => True) w := by
  have hrule : PlanRule p (SameManifest p) (Advances p (FoundNoneLeft ctx p front view)) :=
    advances_rule
  have hcollect : ∀ (v : PlanView) (m : PlanManifest) w, (collectCancelMarker v m).Sat machine.faulty
      (SameManifest p) (Advances p (FoundNoneLeft ctx p front view)) (fun r _ => r = .ok () → True) w := by
    intro v m w
    have hfree := collectCancelMarker_calls (v := v) (m := m) (P := FreeCall (SameManifest p)
      (Advances p (FoundNoneLeft ctx p front view))) free_deleteCancelMarker
    refine (sat_of_free (F := fun _ => True) (fun _ _ _ _ => trivial) hfree trivial).mono
      (fun _ _ hG => hG) ?_
    exact fun _ _ _ _ => trivial
  let F : Option PlanManifest → World → Prop := fun o w =>
    Copied p o w ∧ ∀ m, o = some m → m ∈ view.manifests
  have hF : ∀ o w w', F o w → SameManifest p w w' → F o w' := fun _ _ _ hw hR => ⟨hw.1.bears hR, hw.2⟩
  have hcarries : Carries p F view.manifests w := by
    obtain ⟨o, ho, hw⟩ := hw
    refine ⟨o, ho, hw, fun m hm => ?_⟩
    have hmem : m ∈ ownManifests p view.manifests := by
      rw [ho, hm]
      exact List.mem_singleton_self m
    exact (List.mem_filter.mp hmem).1
  refine (hrule.afterQueue hF (D := fun _ => True) (fun _ _ _ _ => trivial)
    (fun _ _ => ⟨trivial, fun _ => free_deleteCancelMarker⟩) (fun workers tags m acc w hid hw => ?_)
    hcarries).bind (fun failed w _ => ?_) fun _ _ _ _ _ => trivial
  · refine hrule.onePlan (hF _) (fun _ _ _ _ => trivial) (fun _ w _ => hcollect _ m w)
      (fun _ _ _ _ => trivial) (fun m' hm' w hw _ => ?_) (fun m' _ w _ => hcollect _ m _) hw
    obtain ⟨⟨-, m₀, hm₀, hcopy⟩, hmem⟩ := hw
    have hlive : m₀.status.isTerminal = false := by
      rw [← hcopy.status]
      exact hm'.live
    refine ⟨m₀, hm₀, ⟨hm'.jobIds.trans hcopy.forward.jobIds, ?_, ?_, fun j o ho => ?_⟩,
      fun _ s hs => ?_, fun hs => ?_⟩
    · exact fun hterminal => by simp [hlive] at hterminal
    · exact fun hterminal => by simp [hlive] at hterminal
    · exact hm'.settled j o (hcopy.forward.settled j o ho)
    · rw [hm'.jobIds]
      exact hm'.snapshot s hs
    · obtain ⟨hempty, hretired⟩ := hm'.cancelled hs
      exact .inr ⟨⟨m, hmem m rfl, hid, fun _ _ => hempty⟩, hid ▸ hretired⟩
  · unfold reportFailed
    split <;> exact fun _ _ => trivial

theorem run_sat : (run ctx).Sat machine.faulty (SameManifest p) (Advances p True) (fun _ _ => True) w := by
  rw [run_eq_survey]
  have hfirst : (survey ctx).Sat machine.faulty (SameManifest p) (Advances p True)
      (fun r w => ∀ found, r = .ok found → Carries p (Copied p) found.2.manifests w) w :=
    survey_sat.mono (fun _ _ hG => hG.mono False.elim) fun _ _ h => h
  refine hfirst.bind (fun found w hw => ?_) fun _ _ _ _ _ => trivial
  exact (finish_sat (hw found rfl)).mono (fun _ _ hG => hG.mono fun _ => trivial) fun _ _ h => h

end Surveys

/-- Runs of maintenance one after the other. A run has ended, or was stopped on its way, when the
next one begins; nobody but a run writes the plan's manifest. -/
inductive Maintained (p : PlanId) (w : World) : World → Prop
  | start : Maintained p w w
  | others {u v : World} (h : Maintained p w u) (hsame : SameManifest p u v) : Maintained p w v
  | run {u v : World} {ctx : RunContext} {q : Op Unit} (h : Maintained p w u)
      (hwalk : Walk machine.faulty (SameManifest p) (run ctx) u q v) : Maintained p w v

section Sequence

variable {p : PlanId} {w u : World}

theorem Maintained.invariant {J : World → Prop} (hsame : ∀ u v, J u → SameManifest p u v → J v)
    (hwrite : ∀ u v m m', u.plans.manifests.lookup p = some m →
      v.plans.manifests.lookup p = some m' → Forward m m' → (SnapshotAddsUp m → SnapshotAddsUp m') →
      J u → J v)
    (hw : J w) (h : Maintained p w u) : J u := by
  induction h with
  | start => exact hw
  | others _ h ih => exact hsame _ _ ih h
  | run _ hwalk ih =>
    refine hwalk.invariant hsame (fun c u r v hG hout hu => ?_) run_sat ih
    obtain h | ⟨m, m', hm, hm', hforward, hsnapshot, -⟩ := hG.effect hout
    · exact hsame u v hu h
    · exact hwrite u v m m' hm hm' hforward hsnapshot hu

theorem Maintained.forward {m : PlanManifest} (h : Maintained p w u)
    (hm : w.plans.manifests.lookup p = some m) :
    ∃ m', u.plans.manifests.lookup p = some m' ∧ Forward m m' := by
  refine h.invariant (J := fun u => ∃ m', u.plans.manifests.lookup p = some m' ∧ Forward m m') ?_ ?_
    ⟨m, hm, .refl⟩
  · rintro u v ⟨m', hm', hforward⟩ hsame
    exact ⟨m', hsame.trans hm', hforward⟩
  · rintro u v m₁ m₂ hm₁ hm₂ hnext - ⟨m', hm', hforward⟩
    obtain rfl : m' = m₁ := Option.some.inj (hm'.symm.trans hm₁)
    exact ⟨m₂, hm₂, hforward.trans hnext⟩

def SnapshotsAddUp (p : PlanId) (w : World) : Prop :=
  ∀ m, w.plans.manifests.lookup p = some m → SnapshotAddsUp m

theorem Maintained.snapshots (h : Maintained p w u) (hw : SnapshotsAddUp p w) : SnapshotsAddUp p u := by
  refine h.invariant ?_ ?_ hw
  · intro u v hu hsame m hm
    exact hu m (hsame.symm.trans hm)
  · intro u v m₁ m₂ hm₁ hm₂ _ hsnapshot hu m hm
    obtain rfl : m₂ = m := Option.some.inj (hm₂.symm.trans hm)
    exact hsnapshot (hu m₁ hm₁)

/-- The call of a run that makes a plan cancelled comes in its second part, after a survey that
found none of the plan's jobs outstanding and retired none. -/
theorem cancelled_of_found {ctx : RunContext} {c : StoreCall} {k : Except Fault c.Answer → Op Unit}
    {r : Except Fault c.Answer} {v v' : World}
    (hwalk : Walk machine.faulty (SameManifest p) (run ctx) u (.call c k) v)
    (hout : machine.faulty c v r v') (hbefore : planStatus p v ≠ some .cancelled)
    (hafter : planStatus p v' = some .cancelled) :
    ∃ front view u₁, Walk machine.faulty (SameManifest p) (survey ctx) u (.ret (front, view)) u₁ ∧
      Walk machine.faulty (SameManifest p) (finish ctx (front, view)) u₁ (.call c k) v ∧
      FoundNoneLeft ctx p front view := by
  -- a call that may only write a cancellation for a cause has that cause
  have hcause : ∀ {cause : Prop}, Advances p cause c v → cause := by
    intro cause hG
    obtain hsame | ⟨m, m', hm, hm', -, -, hcancelled⟩ := hG.effect hout
    · rw [planStatus, hsame] at hafter
      exact (hbefore hafter).elim
    · rw [planStatus, hm', Option.map_some, Option.some.injEq] at hafter
      obtain hs | hcause := hcancelled hafter
      · rw [planStatus, hm, Option.map_some, hs] at hbefore
        exact (hbefore rfl).elim
      · exact hcause
  -- the second part, from the point where the survey has ended
  have hsecond : ∀ (found : Front × QueueView) u₁,
      Walk machine.faulty (SameManifest p) (survey ctx) u (.ret found) u₁ →
      Walk machine.faulty (SameManifest p) (finish ctx found) u₁ (.call c k) v →
      FoundNoneLeft ctx p found.1 found.2 := by
    intro found u₁ hsurvey hfinish
    have hcarries := hsurvey.sat survey_sat u₁ (refl_of _ u₁) found rfl
    exact hcause (hfinish.guard (finish_sat hcarries))
  rw [run_eq_survey] at hwalk
  obtain ⟨q, hsurvey, hq⟩ | ⟨found, u₁, hsurvey, hfinish⟩ := hwalk.bind_cases
  · cases q with
    | ret found =>
      have hfinish : Walk machine.faulty (SameManifest p) (finish ctx found) v (.call c k) v :=
        hq ▸ .start
      exact ⟨found.1, found.2, v, hsurvey, hfinish, hsecond found v hsurvey hfinish⟩
    | fail e => cases hq
    | call c' k' =>
      cases hq
      exact (hcause (hsurvey.guard survey_sat)).elim
  · exact ⟨found.1, found.2, u₁, hsurvey, hfinish, hsecond found u₁ hsurvey hfinish⟩

end Sequence

/-- Over any sequence of runs the record of a plan moves forward: a terminal status and its moment
stay, outcomes stay, snapshots add up, and a run that makes the plan cancelled found none of its jobs
outstanding and retired none. -/
theorem plan_moves_forward {p : PlanId} {w u : World} (h : Maintained p w u) :
    (∀ m, w.plans.manifests.lookup p = some m →
      ∃ m', u.plans.manifests.lookup p = some m' ∧ Forward m m') ∧
    (SnapshotsAddUp p w → SnapshotsAddUp p u) ∧
    ∀ ctx c k r v v', Walk machine.faulty (SameManifest p) (run ctx) u (.call c k) v →
      machine.faulty c v r v' → planStatus p v ≠ some .cancelled → planStatus p v' = some .cancelled →
      ∃ front view u₁, Walk machine.faulty (SameManifest p) (survey ctx) u (.ret (front, view)) u₁ ∧
        Walk machine.faulty (SameManifest p) (finish ctx (front, view)) u₁ (.call c k) v ∧
        FoundNoneLeft ctx p front view :=
  ⟨fun _ => h.forward, h.snapshots, fun _ _ _ _ _ _ => cancelled_of_found⟩

def endingManifest (p : PlanId) : PlanManifest where
  planId := p
  status := .cancelling
  createdAt := 0
  jobIds := [⟨"done"⟩, ⟨"left"⟩]
  expiredJobs := ∅
  settledJobs := ∅
  progressSnapshot := none
  terminalAt := none

/-- A cancelled plan with a job that is done and one that nobody took. -/
def endingPlan (p : PlanId) : World :=
  let filed := (machine (.plans (.putPlan (endingManifest p))) World.empty).2
  { filed with
    queue := ⟨(∅ : FileTree _ _).insert (.avail ⟨⟨"left"⟩, .never⟩) (.obj [("job_id", .str "left")])⟩
    records := { filed.records with
      places := (∅ : FileTree _ _).insert (.processed, ⟨"done"⟩) (.obj [("job_id", .str "done")]) }
    plans := { filed.plans with
      jobPlans := ((∅ : FileTree _ _).insert (⟨"left"⟩, p, .never) 0).insert (⟨"done"⟩, p, .never) 0 } }

def endingContext (now : Instant) : RunContext := ⟨fun _ => true, ⟨10, 3⟩, now⟩

def ranAt (now : Instant) (w : World) : World := ((run (endingContext now)).exec machine w).2

theorem Maintained.ranAt {p : PlanId} {w u : World} (h : Maintained p w u) (now : Instant) :
    Maintained p w (ranAt now u) := by
  obtain ⟨q, hwalk, -⟩ := Walk.exec (R := SameManifest p) (O := machine.faulty) (m := machine)
    (fun _ _ _ _ hout => .inl hout) (Pipette.run (endingContext now)) u
  exact h.run hwalk

/-- Three runs after each other: the first one retires the job that is left, the second one cancels
the plan, and the third one leaves it so. -/
theorem plan_moves_forward_ending :
    let plan : PlanId := ⟨"plan"⟩
    let retired := ranAt 20 (endingPlan plan)
    let ended := ranAt 30 retired
    planStatus plan retired = some .cancelling ∧ planStatus plan ended = some .cancelled ∧
      SnapshotsAddUp plan ended ∧
      (∀ m, retired.plans.manifests.lookup plan = some m →
        ∃ m', (ranAt 40 ended).plans.manifests.lookup plan = some m' ∧ Forward m m') ∧
      ∃ front view, FoundNoneLeft (endingContext 30) plan front view := by
  intro plan retired ended
  have hfiled : SnapshotsAddUp plan (endingPlan plan) := by
    intro m hm s hs
    obtain rfl : endingManifest plan = m := Option.some.inj ((lookup_put rfl).symm.trans hm)
    cases hs
  have hretired : Maintained plan (endingPlan plan) retired := Maintained.start.ranAt 20
  have hended : planStatus plan ended = some .cancelled := by decide +kernel
  have hlater : Maintained plan retired (ranAt 40 ended) := (Maintained.start.ranAt 30).ranAt 40
  obtain ⟨c, k, v, hwalk, hopen, hcancels⟩ := Walk.exec_breaks (R := SameManifest plan)
    (O := machine.faulty) (m := machine) (J := fun w => planStatus plan w ≠ some .cancelled)
    (p := run (endingContext 30)) (w := retired) (fun _ _ _ _ hout => .inl hout)
    (by decide +kernel) (not_not.mpr hended)
  obtain ⟨front, view, -, -, -, hfound⟩ := (plan_moves_forward hretired).2.2 (endingContext 30) c k
    (.ok (machine c v).1) v _ hwalk (.inl ⟨rfl, rfl⟩) hopen (not_not.mp hcancels)
  exact ⟨by decide +kernel, hended, (plan_moves_forward (hretired.ranAt 30)).2.1 hfiled,
    (plan_moves_forward hlater).1, front, view, hfound⟩

end Pipette
