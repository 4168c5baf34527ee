import Pipette.Pipeline.Ingest
import Pipette.System.PlanWalk

/-! A cancel request beside the plan's own ingestion and the maintenance runs. All of them write
from copies they read earlier; the request's marker is what outlives the overwrites. -/
namespace Pipette

open Prog

def PlanStatus.isEnding : PlanStatus → Bool
  | cancelling | cancelled => true
  | creating | active | pendingClients | complete => false

def PlanStatus.isDecided : PlanStatus → Bool
  | cancelling | cancelled | complete => true
  | creating | active | pendingClients => false

theorem PlanStatus.isDecided_of_isEnding {s : PlanStatus} (h : s.isEnding = true) :
    s.isDecided = true := by
  cases s <;> first | rfl | cases h

theorem PlanStatus.isEnding_of_isDecided {s : PlanStatus} (h : s.isDecided = true)
    (hs : s ≠ .complete) : s.isEnding = true := by
  cases s <;> first | rfl | exact (hs rfl).elim | cases h

def Stands (p : PlanId) (createdAt : Instant) (s : PlanStatus) (w : World) : Prop :=
  ∃ m, w.plans.manifests.lookup p = some m ∧ m.status = s ∧ m.createdAt = createdAt

def EndingIn (p : PlanId) (w : World) : Prop :=
  ∃ m, w.plans.manifests.lookup p = some m ∧ m.status.isEnding = true

/-- What the others do to the plan during a run: a request stays, and once the ingestion is over
none of them writes the manifest. -/
def Bystands (p : PlanId) (ended : Prop) (w w' : World) : Prop :=
  (Requested p w → Requested p w') ∧
    (ended → w'.plans.manifests.lookup p = w.plans.manifests.lookup p)

instance {p : PlanId} {ended : Prop} : Std.Refl (Bystands p ended) := ⟨fun _ => ⟨id, fun _ => rfl⟩⟩

instance {p : PlanId} {ended : Prop} : IsTrans World (Bystands p ended) :=
  ⟨fun _ _ _ h h' => ⟨h'.1 ∘ h.1, fun ho => (h'.2 ho).trans (h.2 ho)⟩⟩

/-- What a run does to the plan. While the ingestion can overwrite a status, the run only ends the
plan, and only with the request on file. `late` is a run that has to heed the request. -/
def Honours (p : PlanId) (createdAt : Instant) (ended late : Prop) : StoreCall → World → Prop
  | .plans (.putPlan m), w => m.planId = p → m.createdAt = createdAt ∧
      (m.status.isEnding = true ∧ Requested p w ∨
        ended ∧ ∃ m₀, w.plans.manifests.lookup p = some m₀ ∧
          (m.status = m₀.status ∨ m.status.isEnding = true ∨
            m₀.status.isDecided = false ∧ (late → m.status ≠ .complete)))
  | .plans (.writeCancelMarker q), _ => q ≠ p
  | .plans (.deleteCancelMarker q), w => q = p →
      ended ∧ ∃ m₀, w.plans.manifests.lookup p = some m₀ ∧ m₀.status.isDecided = true
  | _, _ => True

section Run

variable {p : PlanId} {createdAt : Instant} {ended late : Prop} {w w' : World} {c : StoreCall}
  {s : PlanStatus}

theorem LeavesPlan.honours (h : LeavesPlan p c) : Honours p createdAt ended late c w := by
  cases c with
  | plans c =>
    cases c with
    | putPlan m => exact fun he => (h he).elim
    | writeCancelMarker q => exact h
    | deleteCancelMarker q => exact fun he => (h he).elim
    | _ => trivial
  | _ => trivial

theorem SamePlan.bystands (h : SamePlan p w w') : Bystands p ended w w' :=
  ⟨fun hr => by rwa [Requested, h.marker], fun _ => h.manifest⟩

theorem honours_rule : PlanRule p (Bystands p ended) (Honours p createdAt ended late) where
  leaves _ _ h := h.honours
  bears _ _ h := h.bystands

theorem Stands.bears (h : Stands p createdAt s w) (hR : Bystands p True w w') :
    Stands p createdAt s w' := by
  obtain ⟨m, hm, hs⟩ := h
  exact ⟨m, (hR.2 trivial).trans hm, hs⟩

theorem stands_put {m : PlanManifest} (hid : m.planId = p) (hcreated : m.createdAt = createdAt) :
    Stands p createdAt m.status (machine (.plans (.putPlan m)) w).2 := by
  refine ⟨m, ?_, rfl, hcreated⟩
  simp [machine, PlanCall.step, PlanState.put, hid]

/-! A run that read the plans before the ingestion was over. -/

def YoungManifest (p : PlanId) (createdAt : Instant) (cancelMarkers : List PlanId) :
    Option PlanManifest → World → Prop
  | none, _ => p ∉ cancelMarkers
  | some m, w => m.planId = p ∧ m.createdAt = createdAt ∧
      (m.status = .creating ∧ (p ∈ cancelMarkers → Requested p w) ∨
        m.status.isEnding = true ∧ Requested p w)

theorem collectCancelMarker_eq {v : PlanView} {m : PlanManifest}
    (h : ingestMayOverwrite m v.now v.creatingMaxAge = true) : collectCancelMarker v m = ret () := by
  simp [collectCancelMarker, h]

theorem isEnding_iff {v : PlanView} {m : PlanManifest} : v.isEnding m = true ↔
    m.planId ∈ v.cancelMarkers ∨ m.planId ∈ v.endings.stranded ∨ m.status = .cancelling := by
  simp [PlanView.isEnding, PlanView.requested, or_assoc]

theorem Refreshed.isEnding {v : PlanView} {m m' : PlanManifest} (h : Refreshed v m m')
    (hending : v.isEnding m = true) : m'.status.isEnding = true := by
  obtain hs | hs := h.ending hending <;> simp [hs, PlanStatus.isEnding]

theorem youngPasses {ctx : RunContext} {cancelMarkers : List PlanId}
    (hyoung : pastGate createdAt ctx.now ctx.settings.planCreatingMax = false) :
    PlanPasses p createdAt ctx cancelMarkers (Bystands p False) (Honours p createdAt False late)
      (YoungManifest p createdAt cancelMarkers) (fun _ => True) := by
  have hkept : ∀ o w w', YoungManifest p createdAt cancelMarkers o w → Bystands p False w w' →
      YoungManifest p createdAt cancelMarkers o w' := by
    intro o w w' hw hR
    cases o with
    | none => exact hw
    | some m => exact ⟨hw.1, hw.2.1, hw.2.2.imp (And.imp_right (hR.1 ∘ ·)) (And.imp_right hR.1)⟩
  -- while the ingestion may overwrite the status, the marker stays
  have hoverwrite : ∀ m w, YoungManifest p createdAt cancelMarkers (some m) w →
      ingestMayOverwrite m ctx.now ctx.settings.planCreatingMax = true := by
    rintro m w ⟨-, hcreated, ⟨hstatus, -⟩ | ⟨hstatus, -⟩⟩
    · simp [ingestMayOverwrite, hstatus, hcreated, hyoung]
    · cases hs : m.status <;> simp_all [ingestMayOverwrite, PlanStatus.isEnding]
  refine { honours_rule with kept := hkept, done := fun _ _ _ _ => trivial, none := fun _ h => ⟨trivial, fun hmem => (h hmem).elim⟩, lapse := ?_, reconcile := ?_ }
  · rintro markers stranded j ms m deadline w hfind hexempt hold ⟨o, ho, hw⟩
    obtain rfl := eq_some_of_find hfind ho
    rw [hoverwrite m w hw] at hold
    cases hold
  · rintro v m acc w rfl hnow hage hstranded hid hw
    have hcollect : ∀ w u, YoungManifest p createdAt v.cancelMarkers (some m) w →
        (collectCancelMarker v m).Sat machine.faulty (Bystands p False) (Honours p createdAt False late)
          (fun r _ => r = .ok () → True) u := by
      intro w u hw
      rw [collectCancelMarker_eq (by rw [hnow, hage]; exact hoverwrite m w hw)]
      exact fun _ _ _ => trivial
    refine honours_rule.onePlan (hkept (some m)) (fun _ _ _ _ => trivial)
      (fun _ w hw => hcollect w w hw) (fun _ _ _ _ => trivial) (fun m' hm' w hw _ => ?_)
      (fun m' _ w hw => hcollect w _ hw) hw
    obtain ⟨hid, hcreated, hstatus⟩ := hw
    refine ⟨hm'.createdAt.trans hcreated, .inl ?_⟩
    obtain ⟨hcreating, hrequested⟩ | ⟨hending, hrequested⟩ := hstatus
    · have hending := hm'.creating hcreating
      refine ⟨hm'.isEnding hending, ?_⟩
      obtain hmarker | hmem | hcancelling := isEnding_iff.mp hending
      · exact hrequested (hid ▸ hmarker)
      · rw [hstranded (hid ▸ hmem)] at hyoung
        cases hyoung
      · rw [hcreating] at hcancelling
        cases hcancelling
    · refine ⟨hm'.isEnding (isEnding_iff.mpr (.inr (.inr ?_))), hrequested⟩
      have hlive := hm'.live
      cases hs : m.status <;> simp_all [PlanStatus.isEnding, PlanStatus.isTerminal]

/-! A run that read the plans when the ingestion was over. -/

def SettledManifest (p : PlanId) (createdAt : Instant) (late : Prop) (cancelMarkers : List PlanId) :
    Option PlanManifest → World → Prop
  | none, _ => ¬ late ∧ p ∉ cancelMarkers
  | some m, w => m.planId = p ∧ m.createdAt = createdAt ∧
      (late → m.status ≠ .complete ∧ (p ∈ cancelMarkers ∨ m.status.isEnding = true)) ∧
      Stands p createdAt m.status w

theorem collect_sat {v : PlanView} {m : PlanManifest}
    (hdecided : v.requested m = true → s.isDecided = true) (hw : Stands p createdAt s w) :
    (collectCancelMarker v m).Sat machine.faulty (Bystands p True) (Honours p createdAt True late)
      (fun _ w => Stands p createdAt s w) w := by
  unfold collectCancelMarker
  split
  · next hrequested =>
    simp only [Bool.and_eq_true] at hrequested
    refine .store_any fun w₁ hR => ?_
    have hw₁ := hw.bears hR
    refine ⟨fun _ => ⟨trivial, ?_⟩, fun r w₂ hout w₃ hR' => ?_⟩
    · obtain ⟨m₀, hm₀, hs, -⟩ := hw₁
      exact ⟨m₀, hm₀, hs ▸ hdecided hrequested.1⟩
    · have hw₂ : Stands p createdAt s w₂ := by
        obtain ⟨-, rfl⟩ | ⟨e, -, rfl | rfl⟩ := hout <;> exact hw₁
      exact hw₂.bears hR'
  · exact fun w₁ hR => hw.bears hR

theorem Stands.ending (h : Stands p createdAt s w) (hs : s.isEnding = true) : EndingIn p w := by
  obtain ⟨m, hm, rfl, -⟩ := h
  exact ⟨m, hm, hs⟩

theorem settledPasses {ctx : RunContext} {cancelMarkers : List PlanId} :
    PlanPasses p createdAt ctx cancelMarkers (Bystands p True) (Honours p createdAt True late)
      (SettledManifest p createdAt late cancelMarkers) (fun w => late → EndingIn p w) := by
  have hkept : ∀ o w w', SettledManifest p createdAt late cancelMarkers o w → Bystands p True w w' →
      SettledManifest p createdAt late cancelMarkers o w' := by
    intro o w w' hw hR
    cases o with
    | none => exact hw
    | some m => exact ⟨hw.1, hw.2.1, hw.2.2.1, hw.2.2.2.bears hR⟩
  have hdone : ∀ w w', (late → EndingIn p w) → Bystands p True w w' → late → EndingIn p w' := by
    intro w w' hw hR hlate
    obtain ⟨m, hm, hs⟩ := hw hlate
    exact ⟨m, (hR.2 trivial).trans hm, hs⟩
  refine { honours_rule with
    kept := hkept, done := hdone, none := fun _ h => ⟨fun hlate => (h.1 hlate).elim, fun hmem => (h.2 hmem).elim⟩,
    lapse := ?_, reconcile := ?_ }
  · rintro markers stranded j ms m deadline w hfind - - ⟨o, ho, hw⟩
    obtain rfl := eq_some_of_find hfind ho
    refine honours_rule.ownLapse hkept (fun _ _ hR => hR.2 trivial) (fun m₀ w hm₀ hw => ?_)
      (fun m₀ w expiredJobs hm₀ hw => ?_) ho hw
    all_goals
      obtain ⟨hid, hcreated, hlate, m₁, hm₁, hs, hcreated₁⟩ := hw
      obtain rfl : m₁ = m₀ := Option.some.inj (hm₁.symm.trans hm₀)
      have hid₁ : m₁.planId = p := w.plans.filed p m₁ hm₁
    · exact ⟨hid₁, hcreated₁, hs ▸ hlate, m₁, hm₁, rfl, hcreated₁⟩
    · have hput := stands_put (p := p) (w := w) (m := { m₁ with expiredJobs }) hid₁ hcreated₁
      refine ⟨fun _ => ⟨hcreated₁, .inr ⟨trivial, m₁, hm₁, .inl rfl⟩⟩,
        ⟨hid, hcreated, hlate, ?_⟩, ⟨hid₁, hcreated₁, hs ▸ hlate, hput⟩⟩
      exact hs ▸ hput
  rintro v m acc w rfl - - - hid hw
  -- a late run ends the plan, unless it finds it ended
  have hlate : ∀ w, SettledManifest p createdAt late v.cancelMarkers (some m) w → late →
      v.isEnding m = true ∨ m.status = .cancelled := by
    rintro w ⟨-, -, hstatus, -⟩ hl
    obtain ⟨-, hmarker | hending⟩ := hstatus hl
    · exact .inl (isEnding_iff.mpr (.inl (hid ▸ hmarker)))
    · cases hs : m.status <;> simp_all [PlanStatus.isEnding, isEnding_iff]
  refine honours_rule.onePlan (hkept (some m)) hdone (fun hterminal w hw => ?_)
    (fun hcreating hgoing w hw hl => ?_) (fun m' hm' w hw _ => ?_) (fun m' hm' w hw => ?_) hw
  · have hrest := hw.2.2.1
    refine (collect_sat (fun _ => ?_) hw.2.2.2).mono (fun _ _ hG => hG) fun r w hw _ hl => ?_
    · cases hs : m.status <;> simp_all [PlanStatus.isTerminal, PlanStatus.isDecided]
    · refine hw.ending ?_
      have hopen := (hrest hl).1
      cases hs : m.status <;> simp_all [PlanStatus.isTerminal, PlanStatus.isEnding]
  · obtain hending | hcancelled := hlate w hw hl
    · rw [hgoing] at hending
      cases hending
    · rw [hcreating] at hcancelled
      cases hcancelled
  · obtain ⟨m₀, hm₀, hs, -⟩ := hw.2.2.2
    refine ⟨hm'.createdAt.trans hw.2.1, .inr ⟨trivial, m₀, hm₀, ?_⟩⟩
    by_cases hending : v.isEnding m = true
    · exact .inr (.inl (hm'.isEnding hending))
    · have hlive := hm'.live
      have hopen : m.status ≠ .cancelling := fun he => hending (isEnding_iff.mpr (.inr (.inr he)))
      refine .inr (.inr ⟨?_, fun hl => ?_⟩)
      · rw [hs]
        cases hs : m.status <;> simp_all [PlanStatus.isTerminal, PlanStatus.isDecided]
      · obtain he | hcancelled := hlate w hw hl
        · exact (hending he).elim
        · rw [hcancelled] at hlive
          cases hlive
  · have hput : Stands p createdAt m'.status (machine (.plans (.putPlan m')) w).2 :=
      stands_put (hm'.planId.trans hid) (hm'.createdAt.trans hw.2.1)
    refine (collect_sat (fun hrequested => ?_) hput).mono (fun _ _ hG => hG)
      fun r w' hw' _ hl => ?_
    · refine PlanStatus.isDecided_of_isEnding (hm'.isEnding ?_)
      simp [PlanView.isEnding, hrequested]
    · obtain hending | hcancelled := hlate w hw hl
      · exact hw'.ending (hm'.isEnding hending)
      · have hlive := hm'.live
        rw [hcancelled] at hlive
        cases hlive

end Run

def fromManifests (ctx : RunContext) (prior : Finset GcKey) (cancelMarkers : List PlanId)
    (manifests : List PlanManifest) : Op Unit :=
  (settleExpiredLeases ctx.catalog ctx.settings.lostLeaseLimit ctx.now).bind fun recycled =>
    fromListing ctx { prior, cancelMarkers, manifests, recycled }

def fromMarkers (ctx : RunContext) (prior : Finset GcKey) : Op Unit :=
  (Op.plans .listCancelMarkers).bind fun cancelMarkers =>
    (Op.plans .drainPlans).bind (fromManifests ctx prior cancelMarkers)

theorem run_eq_fromMarkers {ctx : RunContext} : run ctx = clearSightings.bind (fromMarkers ctx) := by
  rw [run_eq, beforeListings, clearSightings]
  simp only [Prog.bind_eq, Prog.bind_assoc, pure_eq, ret_bind]
  rfl

/-- A request that was answered: it is on file, or the plan was ended over it or complete before
it. While the ingestion can overwrite the status, it is on file. -/
def KeptRequest (p : PlanId) (ended : Prop) (w : World) : Prop :=
  ∃ m, w.plans.manifests.lookup p = some m ∧ (Requested p w ∨ ended ∧ m.status.isDecided = true)

inductive RunPhase (f : Filing) (late last ended : Prop) : Op Unit → World → Prop
  | opening {ctx : RunContext} {q : Op (Finset GcKey)} {w : World}
      (hage : pastGate f.now ctx.now ctx.settings.planCreatingMax = true → ended)
      (hq : q.Calls (LeavesPlan f.planId)) : RunPhase f late last ended (q.bind (fromMarkers ctx)) w
  | listed {ctx : RunContext} {prior : Finset GcKey} {cancelMarkers : List PlanId} {w : World}
      (hage : pastGate f.now ctx.now ctx.settings.planCreatingMax = true → ended)
      (hlisted : f.planId ∈ cancelMarkers → Requested f.planId w)
      (hlate : late → f.planId ∈ cancelMarkers ∨ ended ∧ EndingIn f.planId w) :
      RunPhase f late last ended ((Op.plans .drainPlans).bind (fromManifests ctx prior cancelMarkers)) w
  | young {q : Op Unit} {w : World} (hlast : ¬ last)
      (h : q.Sat machine.faulty (Bystands f.planId False) (Honours f.planId f.now False late)
        (fun r _ => r = .ok () → True) w) : RunPhase f late last ended q w
  | settled {q : Op Unit} {w : World} (hover : ended)
      (h : q.Sat machine.faulty (Bystands f.planId True) (Honours f.planId f.now True late)
        (fun r w => r = .ok () → late → EndingIn f.planId w) w) : RunPhase f late last ended q w
  | stopped {e : Fault} {w : World} : RunPhase f late last ended (.fail e) w

section Phases

variable {f : Filing} {late last ended : Prop} {w w' : World} {q : Op Unit}

theorem RunPhase.bears {ended' : Prop} (h : RunPhase f late last ended q w)
    (hover : ended → ended') (hR : Bystands f.planId ended w w') : RunPhase f late last ended' q w' := by
  cases h with
  | opening hage hq => exact .opening (hover ∘ hage) hq
  | listed hage hlisted hlate =>
    refine .listed (hover ∘ hage) (hR.1 ∘ hlisted) fun hl => (hlate hl).imp_right ?_
    rintro ⟨ho, m, hm, hs⟩
    exact ⟨hover ho, m, (hR.2 ho).trans hm, hs⟩
  | young hlast h => exact .young hlast (h.stable ⟨hR.1, False.elim⟩)
  | settled ho h => exact .settled (hover ho) (h.stable ⟨hR.1, fun _ => hR.2 ho⟩)
  | stopped => exact .stopped

theorem Honours.mono {c : StoreCall} {p : PlanId} {createdAt : Instant} {ended' : Prop}
    (hover : ended → ended') (h : Honours p createdAt ended late c w) :
    Honours p createdAt ended' late c w := by
  cases c with
  | plans c =>
    cases c with
    | putPlan m => exact fun hid => ⟨(h hid).1, (h hid).2.imp_right (And.imp_left hover)⟩
    | writeCancelMarker p' => exact h
    | deleteCancelMarker p' => exact fun hid => (h hid).imp_left hover
    | _ => trivial
  | _ => trivial

/-- The plan in the store. Until the ingestion is over its status is the one the ingestion wrote, or
an ending with the request on file. -/
structure FiledPlan (f : Filing) (ended : Prop) (w : World) : Prop where
  created : ∀ m, w.plans.manifests.lookup f.planId = some m → m.createdAt = f.now
  requested : Requested f.planId w → ∃ m, w.plans.manifests.lookup f.planId = some m
  unfinished : ¬ ended → ∀ m, w.plans.manifests.lookup f.planId = some m →
    m.status = .creating ∨ m.status.isEnding = true ∧ Requested f.planId w

structure Pending (p : PlanId) (ended : Prop) (w : World) : Prop where
  kept : KeptRequest p ended w
  open_ : ∀ m, w.plans.manifests.lookup p = some m → m.status ≠ .complete

theorem PlanPasses.manifests {p : PlanId} {createdAt : Instant} {ctx : RunContext}
    {cancelMarkers : List PlanId} {R : World → World → Prop} [Std.Refl R]
    {G : StoreCall → World → Prop} {F : Option PlanManifest → World → Prop} {D : World → Prop}
    {prior : Finset GcKey} {w₀ : World} (h : PlanPasses p createdAt ctx cancelMarkers R G F D)
    (hcreated : ∀ m, w₀.plans.manifests.lookup p = some m → m.createdAt = createdAt)
    (hw : F (w₀.plans.manifests.lookup p) w₀) :
    (fromManifests ctx prior cancelMarkers (w₀.plans.manifests.entries.map (·.2))).Sat machine.faulty
      R G (fun r w => r = .ok () → D w) w₀ := by
  have hown := ownManifests_drained p w₀
  have hdrained : ∀ m ∈ w₀.plans.manifests.entries.map (·.2), m.planId = p → m.createdAt = createdAt :=
    fun m hm hid => hcreated m (lookup_of_drained hm hid)
  have hsettle : (settleExpiredLeases ctx.catalog ctx.settings.lostLeaseLimit ctx.now).Calls
      (LeavesPlan p) := settleExpiredLeases_settling.mono fun _ => @SettlingCall.leavesPlan _ _ ctx.now
  refine (h.keeps (fun _ _ hw hR => Carries.bears h.kept hw hR) hsettle ⟨_, hown, hw⟩).bind
    (fun recycled w hw => ?_) fun e _ _ v _ he => by cases he
  have hfront : PlanPasses p createdAt ctx
      (Front.mk prior cancelMarkers (w₀.plans.manifests.entries.map (·.2)) recycled).cancelMarkers R G
      F D := h
  exact hfront.listing hdrained hw

theorem RunPhase.step {c : StoreCall} {k : Except Fault c.Answer → Op Unit}
    (h : RunPhase f late last ended q w) (hq : q = .call c k) (hlast : last → ended)
    (hfiled : FiledPlan f ended w) (hlate : late → Pending f.planId ended w) :
    Honours f.planId f.now ended late c w ∧
      ∀ r w', machine.faulty c w r w' → RunPhase f late last ended (k r) w' := by
  cases h with
  | @opening ctx q _ hage hcalls =>
    cases q with
    | ret prior =>
      cases hq
      refine ⟨LeavesPlan.honours trivial, fun r w' hout => ?_⟩
      obtain ⟨rfl, rfl⟩ | ⟨e, rfl, -⟩ := hout
      · refine .listed hage (fun hmem => FileTree.mem_keys_iff.mp hmem) fun hl => ?_
        obtain ⟨m, hm, hrequested | ⟨ho, hdecided⟩⟩ := (hlate hl).kept
        · exact .inl (FileTree.mem_keys_iff.mpr hrequested)
        · exact .inr ⟨ho, m, hm, PlanStatus.isEnding_of_isDecided hdecided ((hlate hl).open_ m hm)⟩
      · exact .stopped
    | fail e => cases hq
    | call c' k' =>
      cases hq
      exact ⟨hcalls.1.honours, fun r w' _ => .opening hage (hcalls.2 r)⟩
  | @listed ctx prior cancelMarkers _ hage hlisted hlate' =>
    cases hq
    refine ⟨LeavesPlan.honours trivial, fun r w' hout => ?_⟩
    obtain ⟨rfl, rfl⟩ | ⟨e, rfl, -⟩ := hout
    · by_cases ho : ended
      · refine .settled ho (settledPasses.manifests hfiled.created ?_)
        cases hm : w.plans.manifests.lookup f.planId with
        | none =>
          refine ⟨fun hl => ?_, fun hmem => ?_⟩
          · obtain ⟨m, hm', -⟩ := (hlate hl).kept
            cases hm.symm.trans hm'
          · obtain ⟨m, hm'⟩ := hfiled.requested (hlisted hmem)
            cases hm.symm.trans hm'
        | some m =>
          have hcreated := hfiled.created m hm
          refine ⟨w.plans.filed _ m hm, hcreated, fun hl => ⟨(hlate hl).open_ m hm, ?_⟩, m, hm, rfl,
            hcreated⟩
          refine (hlate' hl).imp_right ?_
          rintro ⟨-, m', hm', hs⟩
          obtain rfl : m' = m := Option.some.inj (hm'.symm.trans hm)
          exact hs
      · have hyoung : pastGate f.now ctx.now ctx.settings.planCreatingMax = false :=
          Bool.eq_false_iff.mpr (ho ∘ hage)
        refine .young (ho ∘ hlast) ((youngPasses hyoung).manifests hfiled.created ?_)
        cases hm : w.plans.manifests.lookup f.planId with
        | none =>
          intro hmem
          obtain ⟨m, hm'⟩ := hfiled.requested (hlisted hmem)
          cases hm.symm.trans hm'
        | some m =>
          refine ⟨w.plans.filed _ m hm, hfiled.created m hm, ?_⟩
          exact (hfiled.unfinished ho m hm).imp_left fun hs => ⟨hs, hlisted⟩
    · exact .stopped
  | young hl h =>
    subst hq
    obtain ⟨hhonours, hnext⟩ := h w (refl_of _ w)
    exact ⟨hhonours.mono False.elim, fun r w' hout => .young hl (hnext r w' hout)⟩
  | settled ho h =>
    subst hq
    obtain ⟨hhonours, hnext⟩ := h w (refl_of _ w)
    exact ⟨hhonours.mono fun _ => ho, fun r w' hout => .settled ho (hnext r w' hout)⟩
  | stopped => cases hq

end Phases

/-- The plan's ingestion, a cancel request, requests of devices, and slots in which maintenance
runs take turns. -/
inductive CancelParty (ι κ : Type)
  | ingest
  | cancel
  | device (i : ι)
  | maintenance (k : κ)
deriving DecidableEq

abbrev CancelParty.Result {ι κ : Type} : CancelParty ι κ → Type
  | cancel => CancelOutcome
  | ingest | device _ | maintenance _ => Unit

abbrev CancelPool (ι κ : Type) : Type := Pool Stores World (CancelParty ι κ) CancelParty.Result

namespace Filing

variable {ι κ : Type}

def pool (f : Filing) (w : World) (devices : ι → QueueActor) (runs : κ → Op Unit) :
    CancelPool ι κ :=
  ⟨w, fun
    | .ingest => f.ingest
    | .cancel => cancelPlan f.planId
    | .device i => (devices i).program
    | .maintenance k => runs k⟩

def Over (t : CancelPool ι κ) : Prop := (t.procs .ingest).outcome.isSome

/-- A new run takes the slot. The ingestion keeps within the gate of its `creating` manifest: a run
that begins past it finds the ingestion over. -/
def Begins (f : Filing) (t : CancelPool ι κ) : (i : CancelParty ι κ) → Op i.Result → Prop
  | .maintenance _, q => ∃ ctx : RunContext, q = run ctx ∧
      (pastGate f.now ctx.now ctx.settings.planCreatingMax = true → Over t)
  | .ingest, _ | .cancel, _ | .device _, _ => False

/-! What the ingestion does. -/

def finish (f : Filing) (status : PlanStatus) : Op Unit :=
  Op.plans (.putPlan { f.creating with status })

def enqueue (f : Filing) : Op PlanStatus := do
  let (clients, rights, tags) ← f.stageBesideRoster
  f.copyAnswers
  f.promote
  pure (f.status (rights.workers clients) tags)

theorem ingest_eq {f : Filing} :
    f.ingest = (Op.plans (.putPlan f.creating)).bind fun _ => f.enqueue.bind f.finish := by
  rw [ingest, enqueue]
  simp only [Prog.bind_eq, Prog.bind_assoc, pure_eq, ret_bind]
  rfl

theorem answerFrom_leaves {answer : JobId → JobId → Json → Option Json} {source j : JobId}
    {p : PlanId} : (answerFrom answer source j).Calls (LeavesPlan p) := by
  refine .bind (findBody_calls fun _ _ => trivial) fun found => ?_
  cases found with
  | none => exact .fail _
  | some record =>
    simp only
    split
    · exact .fail _
    · exact .store trivial

theorem enqueue_leaves {f : Filing} {p : PlanId} : f.enqueue.Calls (LeavesPlan p) := by
  have hstage : f.stage.Calls (LeavesPlan p) := by
    refine .void (.parAll _ fun q hq => ?_)
    obtain ⟨placement, -, rfl⟩ := List.mem_map.mp hq
    exact .store trivial
  have hroster : f.stageBesideRoster.Calls (LeavesPlan p) :=
    .bind (.par _ (.par _ hstage (.store trivial)) (.par _ (.store trivial) (.store trivial)))
      fun _ => .ret _
  have hcopy : f.copyAnswers.Calls (LeavesPlan p) := by
    refine .void (.parAll _ fun q hq => ?_)
    obtain ⟨placement, -, hq⟩ := List.mem_filterMap.mp hq
    obtain ⟨source, -, rfl⟩ := Option.map_eq_some_iff.mp hq
    exact answerFrom_leaves
  have hpromote : f.promote.Calls (LeavesPlan p) := by
    refine .void (.parAll _ fun q hq => ?_)
    obtain ⟨placement, -, rfl⟩ := List.mem_map.mp hq
    refine .bind (.store trivial) fun _ => .bind (.store trivial) fun moved => ?_
    split
    · exact .ret _
    · exact .fail _
  exact .bind hroster fun _ => .bind hcopy fun _ => .bind hpromote fun _ => .ret _

theorem enqueue_ends {f : Filing} : f.enqueue.Ends (· ≠ .complete) := by
  refine .bind fun roster => .bind fun _ => .bind fun _ => ?_
  change f.status (roster.2.1.workers roster.1) roster.2.2 ≠ .complete
  unfold status
  simp only
  split <;> simp

end Filing

inductive IngestPhase (f : Filing) : Op Unit → World → Prop
  | unfiled {w : World} (hnone : w.plans.manifests.lookup f.planId = none) :
      IngestPhase f f.ingest w
  | filing {q : Op PlanStatus} {w : World} (hq : q.Calls (LeavesPlan f.planId))
      (hends : q.Ends (· ≠ .complete)) (hopen : (q.bind f.finish).outcome = none) :
      IngestPhase f (q.bind f.finish) w
  | ended {q : Op Unit} {w : World} (h : q.outcome.isSome) : IngestPhase f q w

inductive CancelPhase (p : PlanId) (ended : Prop) : Op CancelOutcome → World → Prop
  | asked {w : World} : CancelPhase p ended (cancelPlan p) w
  | writing {w : World} (h : ∃ m, w.plans.manifests.lookup p = some m) :
      CancelPhase p ended ((Op.plans (.writeCancelMarker p)).bind fun _ => pure .requested) w
  | answered {o : CancelOutcome} {w : World} (h : KeptRequest p ended w) : CancelPhase p ended (.ret o) w
  | refused {e : Fault} {w : World} : CancelPhase p ended (.fail e) w

section Effects

variable {f : Filing} {p : PlanId} {createdAt : Instant} {ended ended' late : Prop} {w w' : World}
  {c : StoreCall} {r : Except Fault c.Answer}

theorem FiledPlan.mono (hover : ended → ended') (h : FiledPlan f ended w) : FiledPlan f ended' w :=
  ⟨h.created, h.requested, fun ho => h.unfinished (ho ∘ hover)⟩

theorem KeptRequest.mono (hover : ended → ended') (h : KeptRequest p ended w) : KeptRequest p ended' w := by
  obtain ⟨m, hm, hkept⟩ := h
  exact ⟨m, hm, hkept.imp_right (And.imp_left hover)⟩

theorem CancelPhase.mono (hover : ended → ended') {q : Op CancelOutcome} (h : CancelPhase p ended q w) :
    CancelPhase p ended' q w := by
  cases h with
  | asked => exact .asked
  | writing h => exact .writing h
  | answered h => exact .answered (h.mono hover)
  | refused => exact .refused

/-! A request that lands, and calls on other plans. -/

theorem FiledPlan.grows (h : FiledPlan f ended w) (hR : Bystands f.planId True w w')
    (hfiled : Requested f.planId w' → ∃ m, w.plans.manifests.lookup f.planId = some m) :
    FiledPlan f ended w' := by
  have hsame := hR.2 trivial
  refine ⟨fun m hm => h.created m (hsame ▸ hm), fun hr => ?_, fun ho m hm => ?_⟩
  · rw [hsame]
    exact hfiled hr
  · exact (h.unfinished ho m (hsame ▸ hm)).imp_right (And.imp_right hR.1)

theorem KeptRequest.grows (h : KeptRequest p ended w) (hR : Bystands p True w w') : KeptRequest p ended w' := by
  obtain ⟨m, hm, hkept⟩ := h
  exact ⟨m, (hR.2 trivial).trans hm, hkept.imp_left hR.1⟩

theorem Pending.grows (h : Pending p ended w) (hR : Bystands p True w w') : Pending p ended w' :=
  ⟨h.kept.grows hR, fun m hm => h.open_ m (hR.2 trivial ▸ hm)⟩

theorem CancelPhase.grows {q : Op CancelOutcome} (h : CancelPhase p ended q w)
    (hR : Bystands p True w w') : CancelPhase p ended q w' := by
  cases h with
  | asked => exact .asked
  | writing h =>
    refine .writing ?_
    rwa [hR.2 trivial]
  | answered h => exact .answered (h.grows hR)
  | refused => exact .refused

theorem IngestPhase.grows {q : Op Unit} (h : IngestPhase f q w) (hR : Bystands f.planId True w w') :
    IngestPhase f q w' := by
  cases h with
  | unfiled hnone => exact .unfiled ((hR.2 trivial).trans hnone)
  | filing hq hends hopen => exact .filing hq hends hopen
  | ended h => exact .ended h

/-! What a run does. -/

inductive HonoursEffect (p : PlanId) (createdAt : Instant) (ended late : Prop) (w w' : World) : Prop
  | same (h : SamePlan p w w')
  | written {m : PlanManifest} (hm : w'.plans.manifests.lookup p = some m)
      (hmarker : w'.plans.cancelMarkers.lookup p = w.plans.cancelMarkers.lookup p)
      (hcreated : m.createdAt = createdAt)
      (hstatus : m.status.isEnding = true ∧ Requested p w ∨
        ended ∧ ∃ m₀, w.plans.manifests.lookup p = some m₀ ∧
          (m.status = m₀.status ∨ m.status.isEnding = true ∨
            m₀.status.isDecided = false ∧ (late → m.status ≠ .complete)))
  | collected (hover : ended) {m : PlanManifest} (hm : w.plans.manifests.lookup p = some m)
      (hdecided : m.status.isDecided = true)
      (hsame : w'.plans.manifests.lookup p = w.plans.manifests.lookup p)
      (hmarker : Requested p w' → Requested p w)

theorem Honours.effect (h : Honours p createdAt ended late c w) (hout : machine.faulty c w r w') :
    HonoursEffect p createdAt ended late w w' := by
  by_cases hc : LeavesPlan p c
  · exact .same (hc.same hout)
  have hstep : w' = w ∨ w' = (machine c w).2 := by
    obtain ⟨-, rfl⟩ | ⟨e, -, rfl | rfl⟩ := hout
    · exact .inr rfl
    · exact .inl rfl
    · exact .inr rfl
  obtain rfl | rfl := hstep
  · exact .same ⟨rfl, rfl⟩
  cases c with
  | plans c =>
    cases c with
    | putPlan m =>
      have hid : m.planId = p := by simpa [LeavesPlan] using hc
      obtain ⟨hcreated, hstatus⟩ := h hid
      refine .written (m := m) ?_ rfl hcreated hstatus
      simp [machine, PlanCall.step, PlanState.put, hid]
    | writeCancelMarker p' => exact (hc h).elim
    | deleteCancelMarker p' =>
      have hid : p' = p := by simpa [LeavesPlan] using hc
      obtain ⟨hover, m, hm, hdecided⟩ := h hid
      refine .collected hover hm hdecided rfl fun hr => ?_
      simp [Requested, machine, PlanCall.step, hid] at hr
    | _ => exact (hc trivial).elim
  | _ => exact (hc trivial).elim

theorem FiledPlan.effect (h : FiledPlan f ended w)
    (he : HonoursEffect f.planId f.now ended late w w') : FiledPlan f ended w' := by
  cases he with
  | same hsame =>
    refine h.grows hsame.bystands fun hr => h.requested ?_
    rwa [Requested, hsame.marker] at hr
  | @written m hm hmarker hcreated hstatus =>
    refine ⟨fun m' hm' => ?_, fun _ => ⟨m, hm⟩, fun ho m' hm' => ?_⟩
    · obtain rfl : m' = m := Option.some.inj (hm'.symm.trans hm)
      exact hcreated
    · obtain rfl : m' = m := Option.some.inj (hm'.symm.trans hm)
      obtain ⟨hending, hr⟩ | ⟨hover, -⟩ := hstatus
      · exact .inr ⟨hending, by rwa [Requested, hmarker]⟩
      · exact (ho hover).elim
  | collected hover hm hdecided hsame hmarker =>
    refine ⟨fun m' hm' => h.created m' (hsame ▸ hm'), fun hr => ?_, fun ho => (ho hover).elim⟩
    rw [hsame]
    exact h.requested (hmarker hr)

theorem KeptRequest.effect (h : KeptRequest p ended w) (he : HonoursEffect p createdAt ended late w w') :
    KeptRequest p ended w' := by
  cases he with
  | same hsame => exact h.grows hsame.bystands
  | @written m hm hmarker _ hstatus =>
    have hrequested : Requested p w → Requested p w' := fun hr => by rwa [Requested, hmarker]
    refine ⟨m, hm, ?_⟩
    obtain ⟨m₁, hm₁, hkept⟩ := h
    obtain ⟨-, hr⟩ | ⟨hover, m₀, hm₀, hstatus⟩ := hstatus
    · exact .inl (hrequested hr)
    · obtain rfl : m₀ = m₁ := Option.some.inj (hm₀.symm.trans hm₁)
      obtain hs | hending | ⟨hopen, -⟩ := hstatus
      · exact hkept.imp hrequested fun h => ⟨h.1, hs ▸ h.2⟩
      · exact .inr ⟨hover, PlanStatus.isDecided_of_isEnding hending⟩
      · refine .inl (hrequested (hkept.resolve_right fun h => ?_))
        rw [hopen] at h
        cases h.2
  | collected hover hm hdecided hsame => exact ⟨_, hsame.trans hm, .inr ⟨hover, hdecided⟩⟩

theorem Pending.effect (h : Pending p ended w) (hl : late)
    (he : HonoursEffect p createdAt ended late w w') : Pending p ended w' := by
  refine ⟨h.kept.effect he, fun m' hm' => ?_⟩
  cases he with
  | same hsame => exact h.open_ m' (hsame.manifest ▸ hm')
  | @written m hm _ _ hstatus =>
    obtain rfl : m' = m := Option.some.inj (hm'.symm.trans hm)
    have hne : m'.status.isEnding = true → m'.status ≠ .complete := by
      intro hending he
      rw [he] at hending
      cases hending
    obtain ⟨hending, -⟩ | ⟨-, m₀, hm₀, hs | hending | ⟨-, hne'⟩⟩ := hstatus
    · exact hne hending
    · rw [hs]
      exact h.open_ m₀ hm₀
    · exact hne hending
    · exact hne' hl
  | collected _ _ _ hsame => exact h.open_ m' (hsame ▸ hm')

theorem CancelPhase.effect {q : Op CancelOutcome} (h : CancelPhase p ended q w)
    (he : HonoursEffect p createdAt ended late w w') : CancelPhase p ended q w' := by
  cases h with
  | asked => exact .asked
  | writing h =>
    refine .writing ?_
    cases he with
    | same hsame => rwa [hsame.manifest]
    | written hm => exact ⟨_, hm⟩
    | collected _ hm _ hsame => exact ⟨_, hsame.trans hm⟩
  | answered h => exact .answered (h.effect he)
  | refused => exact .refused

theorem IngestPhase.effect {q : Op Unit} (h : IngestPhase f q w)
    (hrequested : Requested f.planId w → ∃ m, w.plans.manifests.lookup f.planId = some m)
    (he : HonoursEffect f.planId createdAt ended late w w') : IngestPhase f q w' := by
  cases h with
  | unfiled hnone =>
    refine .unfiled ?_
    cases he with
    | same hsame => exact hsame.manifest.trans hnone
    | written _ _ _ hstatus =>
      obtain ⟨-, hr⟩ | ⟨-, m₀, hm₀, -⟩ := hstatus
      · obtain ⟨m, hm⟩ := hrequested hr
        cases hnone.symm.trans hm
      · cases hnone.symm.trans hm₀
    | collected _ hm => cases hnone.symm.trans hm
  | filing hq hends hopen => exact .filing hq hends hopen
  | ended h => exact .ended h

end Effects

section System

open Prog.Pool

variable {ι : Type} {f : Filing} {late last : Prop} {s t u : CancelPool ι Unit}
  {i : CancelParty ι Unit} {c : StoreCall}

variable (f late last) in
/-- What holds at every moment. `late` says that the request has been answered and every run from
now on has to heed it, `last` that the ingestion is over as well. -/
structure CancelInv (t : CancelPool ι Unit) : Prop where
  filed : FiledPlan f (Filing.Over t) t.world
  ingest : IngestPhase f (t.procs .ingest) t.world
  cancel : CancelPhase f.planId (Filing.Over t) (t.procs .cancel) t.world
  devices : ∀ i, (t.procs (.device i)).Calls (LeavesPlan f.planId)
  run : RunPhase f late last (Filing.Over t) (t.procs (.maintenance ())) t.world
  pending : late → Pending f.planId (Filing.Over t) t.world
  last : last → Filing.Over t

theorem CancelInv.grows (h : CancelInv f late last t) (hover : Filing.Over u = Filing.Over t)
    (hR : Bystands f.planId True t.world u.world)
    (hfiled : Requested f.planId u.world → ∃ m, t.world.plans.manifests.lookup f.planId = some m)
    (hingest : u.procs .ingest = t.procs .ingest)
    (hcancel : CancelPhase f.planId (Filing.Over t) (u.procs .cancel) u.world)
    (hdevices : ∀ i, (u.procs (.device i)).Calls (LeavesPlan f.planId))
    (hrun : u.procs (.maintenance ()) = t.procs (.maintenance ())) : CancelInv f late last u where
  filed := hover ▸ h.filed.grows hR hfiled
  ingest := hingest ▸ h.ingest.grows hR
  cancel := hover ▸ hcancel
  devices := hdevices
  run := by
    rw [hover, hrun]
    exact h.run.bears id ⟨hR.1, fun _ => hR.2 trivial⟩
  pending hl := hover ▸ (h.pending hl).grows hR
  last hl := hover ▸ h.last hl

variable [DecidableEq ι]

theorem Filing.over_frame (hs : Step machine.faulty t i c u) (hi : i ≠ .ingest) :
    Filing.Over u = Filing.Over t := by
  rw [Filing.Over, Filing.Over, hs.frame hi.symm]

theorem CancelInv.step_device {n : ι} (h : CancelInv f late last t)
    (hs : Step machine.faulty t (.device n) c u) : CancelInv f late last u := by
  obtain ⟨k, r, hcall, hout, hnext⟩ := hs.inv
  have hn := h.devices n
  rw [hcall] at hn
  have hsame := hn.1.same hout
  refine h.grows (Filing.over_frame hs (by simp)) hsame.bystands (fun hr => h.filed.requested ?_)
    (hs.frame (by simp)) ?_ (fun j => ?_) (hs.frame (by simp))
  · rwa [Requested, hsame.marker] at hr
  · rw [hs.frame (by simp)]
    exact h.cancel.grows hsame.bystands
  · by_cases hj : j = n
    · subst hj
      rw [hnext]
      exact hn.2 r
    · rw [hs.frame (by simpa using hj)]
      exact h.devices j

theorem requestCancel_phase {ended : Prop} {w : World} {m : PlanManifest} (h : FiledPlan f ended w)
    (hm : w.plans.manifests.lookup f.planId = some m) :
    CancelPhase f.planId ended (requestCancel m) w := by
  have hid : m.planId = f.planId := w.plans.filed _ m hm
  have hdecided : m.status.isDecided = true → KeptRequest f.planId ended w := by
    intro hs
    refine ⟨m, hm, ?_⟩
    by_cases ho : ended
    · exact .inr ⟨ho, hs⟩
    · obtain hcreating | ⟨-, hr⟩ := h.unfinished ho m hm
      · rw [hcreating] at hs
        cases hs
      · exact .inl hr
  have hwriting : CancelPhase f.planId ended
      ((Op.plans (.writeCancelMarker m.planId)).bind fun _ => pure .requested) w := by
    rw [hid]
    exact .writing ⟨m, hm⟩
  unfold requestCancel
  cases hs : m.status with
  | complete => exact .answered (hdecided (by rw [hs]; rfl))
  | cancelled => exact .answered (hdecided (by rw [hs]; rfl))
  | cancelling => exact .answered (hdecided (by rw [hs]; rfl))
  | creating => exact hwriting
  | active => exact hwriting
  | pendingClients => exact hwriting

theorem CancelInv.step_cancel (h : CancelInv f late last t)
    (hs : Step machine.faulty t .cancel c u) : CancelInv f late last u := by
  obtain ⟨k, r, hcall, hout, hnext⟩ := hs.inv
  have hphase := h.cancel
  have hgrows : Bystands f.planId True t.world u.world →
      (Requested f.planId u.world → ∃ m, t.world.plans.manifests.lookup f.planId = some m) →
      CancelPhase f.planId (Filing.Over t) (k r) u.world → CancelInv f late last u := by
    intro hR hfiled hcancel
    refine h.grows (Filing.over_frame hs (by simp)) hR hfiled (hs.frame (by simp)) ?_ (fun j => ?_)
      (hs.frame (by simp))
    · rw [hnext]
      exact hcancel
    · rw [hs.frame (by simp)]
      exact h.devices j
  rw [hcall] at hphase
  generalize hq : (Prog.call c k : Op CancelOutcome) = q at hphase
  cases hphase with
  | asked =>
    cases hq
    have hsame := LeavesPlan.same (p := f.planId) (c := .plans (.getPlan f.planId)) trivial hout
    refine hgrows hsame.bystands (fun hr => h.filed.requested ?_) ?_
    · rwa [Requested, hsame.marker] at hr
    obtain ⟨rfl, hw⟩ | ⟨e, rfl, -⟩ := hout
    · have hworld : u.world = t.world := hw
      rw [hworld]
      generalize hm : (machine (.plans (.getPlan f.planId)) t.world).1 = found
      cases found with
      | none => exact .refused
      | some m => exact requestCancel_phase h.filed hm
    · exact .refused
  | writing hm =>
    cases hq
    have hmanifest : u.world.plans.manifests.lookup f.planId =
        t.world.plans.manifests.lookup f.planId := by
      obtain ⟨-, hw⟩ | ⟨e, -, hw | hw⟩ := hout <;> rw [hw] <;> rfl
    have hfile : Requested f.planId (machine (.plans (.writeCancelMarker f.planId)) t.world).2 := by
      simp [Requested, machine, PlanCall.step]
    refine hgrows ⟨fun hr => ?_, fun _ => hmanifest⟩ (fun _ => hm) ?_
    · obtain ⟨-, hw⟩ | ⟨e, -, hw | hw⟩ := hout <;> rw [hw] <;> assumption
    · obtain ⟨rfl, hw⟩ | ⟨e, rfl, -⟩ := hout
      · obtain ⟨m, hm⟩ := hm
        exact .answered ⟨m, hmanifest.trans hm, .inl (hw ▸ hfile)⟩
      · exact .refused
  | answered => cases hq
  | refused => cases hq

theorem CancelInv.ingest_put {m : PlanManifest} (h : CancelInv f late last t)
    (hopen : ¬ Filing.Over t) (hid : m.planId = f.planId) (hcreated : m.createdAt = f.now)
    (hstatus : m.status ≠ .complete)
    (hunfinished : ¬ Filing.Over u → m.status = .creating)
    (hworld : u.world = (machine (.plans (.putPlan m)) t.world).2)
    (hs : Step machine.faulty t .ingest c u)
    (hingest : IngestPhase f (u.procs .ingest) u.world) : CancelInv f late last u := by
  have hm : u.world.plans.manifests.lookup f.planId = some m := by
    simp [hworld, machine, PlanCall.step, PlanState.put, hid]
  have hmarker : u.world.plans.cancelMarkers = t.world.plans.cancelMarkers := by
    rw [hworld]
    rfl
  have honly : ∀ {m'}, u.world.plans.manifests.lookup f.planId = some m' → m' = m := fun hm' =>
    Option.some.inj (hm'.symm.trans hm)
  have hkept : KeptRequest f.planId (Filing.Over t) t.world → KeptRequest f.planId (Filing.Over u) u.world := by
    rintro ⟨m₀, -, hr | ⟨ho, -⟩⟩
    · exact ⟨m, hm, .inl (by rwa [Requested, hmarker])⟩
    · exact (hopen ho).elim
  refine ⟨⟨fun m' hm' => honly hm' ▸ hcreated, fun _ => ⟨m, hm⟩, fun ho m' hm' => ?_⟩, hingest, ?_,
    fun j => ?_, ?_, fun hl => ?_, fun hl => (hopen (h.last hl)).elim⟩
  · rw [honly hm']
    exact .inl (hunfinished ho)
  · rw [hs.frame (by simp)]
    have hcancel := h.cancel
    generalize (t.procs .cancel : Op CancelOutcome) = q at hcancel
    cases hcancel with
    | asked => exact .asked
    | writing _ => exact .writing ⟨m, hm⟩
    | answered hk => exact .answered (hkept hk)
    | refused => exact .refused
  · rw [hs.frame (by simp)]
    exact h.devices j
  · rw [hs.frame (by simp)]
    refine h.run.bears (fun ho => (hopen ho).elim) ⟨fun hr => ?_, fun ho => (hopen ho).elim⟩
    rwa [Requested, hmarker]
  · exact ⟨hkept (h.pending hl).kept, fun m' hm' => honly hm' ▸ hstatus⟩

theorem CancelInv.ingest_same (h : CancelInv f late last t) (hopen : ¬ Filing.Over t)
    (hsame : SamePlan f.planId t.world u.world) (hs : Step machine.faulty t .ingest c u)
    (hingest : IngestPhase f (u.procs .ingest) u.world) : CancelInv f late last u := by
  have hover : Filing.Over t → Filing.Over u := fun ho => (hopen ho).elim
  have hR : Bystands f.planId True t.world u.world := hsame.bystands
  refine ⟨(h.filed.grows hR fun hr => h.filed.requested ?_).mono hover, hingest, ?_, fun j => ?_, ?_,
    fun hl => ?_, fun hl => (hopen (h.last hl)).elim⟩
  · rwa [Requested, hsame.marker] at hr
  · rw [hs.frame (by simp)]
    exact (h.cancel.grows hR).mono hover
  · rw [hs.frame (by simp)]
    exact h.devices j
  · rw [hs.frame (by simp)]
    exact h.run.bears hover hsame.bystands
  · have hpending := (h.pending hl).grows hR
    exact ⟨hpending.kept.mono hover, hpending.open_⟩

theorem IngestPhase.between {q : Op PlanStatus} {w : World} (hq : q.Calls (LeavesPlan f.planId))
    (hends : q.Ends (· ≠ .complete)) : IngestPhase f (q.bind f.finish) w := by
  by_cases hopen : (q.bind f.finish).outcome = none
  · exact .filing hq hends hopen
  · exact .ended (Option.isSome_iff_ne_none.mpr hopen)

theorem CancelInv.step_ingest (h : CancelInv f late last t)
    (hs : Step machine.faulty t .ingest c u) : CancelInv f late last u := by
  obtain ⟨k, r, hcall, hout, hnext⟩ := hs.inv
  have hopen : ¬ Filing.Over t := by
    rw [Filing.Over, hcall]
    exact fun hsome => by cases hsome
  have hphase := h.ingest
  rw [hcall] at hphase
  generalize hq : (Prog.call c k : Op Unit) = q at hphase
  cases hphase with
  | unfiled hnone =>
    rw [Filing.ingest_eq] at hq
    cases hq
    have hput : u.world = (machine (.plans (.putPlan f.creating)) t.world).2 →
        IngestPhase f (u.procs .ingest) u.world → CancelInv f late last u := fun hworld =>
      h.ingest_put hopen rfl rfl (by simp [Filing.creating]) (fun _ => rfl) hworld hs
    obtain ⟨rfl, hworld⟩ | ⟨e, rfl, hworld⟩ := hout
    · refine hput hworld ?_
      rw [hnext]
      exact .between Filing.enqueue_leaves Filing.enqueue_ends
    · have hfailed : IngestPhase f (u.procs .ingest) u.world := by
        rw [hnext]
        exact .ended rfl
      obtain hworld | hworld := hworld
      · refine h.ingest_same hopen ?_ hs hfailed
        rw [hworld]
        exact ⟨rfl, rfl⟩
      · exact hput hworld hfailed
  | @filing q _ hcalls hends _ =>
    cases q with
    | ret status =>
      cases hq
      have hstatus : status ≠ .complete := hends
      have hended : IngestPhase f (u.procs .ingest) u.world ∧ Filing.Over u := by
        rw [Filing.Over, hnext]
        cases r <;> exact ⟨.ended rfl, rfl⟩
      have hput : u.world = (machine (.plans (.putPlan { f.creating with status })) t.world).2 →
          CancelInv f late last u := fun hworld =>
        h.ingest_put hopen rfl rfl hstatus (fun ho => (ho hended.2).elim) hworld hs hended.1
      obtain ⟨-, hworld⟩ | ⟨e, -, hworld | hworld⟩ := hout
      · exact hput hworld
      · refine h.ingest_same hopen ?_ hs hended.1
        rw [hworld]
        exact ⟨rfl, rfl⟩
      · exact hput hworld
    | fail e => cases hq
    | call c' k' =>
      cases hq
      refine h.ingest_same hopen (hcalls.1.same hout) hs ?_
      rw [hnext]
      exact .between (hcalls.2 r) (hends r)
  | ended hsome =>
    subst hq
    cases hsome

theorem CancelInv.step_run {k : Unit} (h : CancelInv f late last t)
    (hs : Step machine.faulty t (.maintenance k) c u) : CancelInv f late last u := by
  obtain ⟨k', r, hcall, hout, hnext⟩ := hs.inv
  have hover : Filing.Over u = Filing.Over t := Filing.over_frame hs (by simp)
  obtain ⟨hhonours, hrun⟩ := h.run.step hcall h.last h.filed h.pending
  have heffect := hhonours.effect hout
  refine ⟨hover ▸ h.filed.effect heffect, ?_, ?_, fun j => ?_, ?_, fun hl => ?_,
    fun hl => hover ▸ h.last hl⟩
  · rw [hs.frame (by simp)]
    exact h.ingest.effect h.filed.requested heffect
  · rw [hover, hs.frame (by simp)]
    exact h.cancel.effect heffect
  · rw [hs.frame (by simp)]
    exact h.devices j
  · rw [hover, hnext]
    exact hrun r u.world hout
  · rw [hover]
    exact (h.pending hl).effect hl heffect

theorem CancelInv.step (h : CancelInv f late last t) (hs : Step machine.faulty t i c u) :
    CancelInv f late last u := by
  cases i with
  | ingest => exact h.step_ingest hs
  | cancel => exact h.step_cancel hs
  | device n => exact h.step_device hs
  | maintenance k => exact h.step_run hs

omit [DecidableEq ι] in
theorem CancelInv.begin_run {late' last' : Prop} {ctx : RunContext} (h : CancelInv f late last t)
    (hrun : u.procs (.maintenance ()) = Pipette.run ctx)
    (hrest : ∀ i, i ≠ .maintenance () → u.procs i = t.procs i) (hworld : u.world = t.world)
    (hage : pastGate f.now ctx.now ctx.settings.planCreatingMax = true → Filing.Over t)
    (hpending : late' → Pending f.planId (Filing.Over t) t.world) (hlast : last' → Filing.Over t) :
    CancelInv f late' last' u := by
  have hover : Filing.Over u = Filing.Over t := by
    rw [Filing.Over, hrest _ (by simp), Filing.Over]
  refine ⟨?_, ?_, ?_, fun j => ?_, ?_, fun hl => ?_, fun hl => hover ▸ hlast hl⟩
  · rw [hover, hworld]
    exact h.filed
  · rw [hworld, hrest _ (by simp)]
    exact h.ingest
  · rw [hover, hworld, hrest _ (by simp)]
    exact h.cancel
  · rw [hrest _ (by simp)]
    exact h.devices j
  · rw [hover, hrun, run_eq_fromMarkers]
    exact .opening hage (.bind (.store trivial) fun _ => .bind (.store trivial) fun _ => .ret _)
  · rw [hover, hworld]
    exact hpending hl

theorem CancelInv.relay (h : CancelInv f late last s) (hr : Relay machine.faulty f.Begins s t) :
    CancelInv f late last t := by
  refine hr.invariant (CancelInv f late last) h (fun _ _ _ _ h hs => h.step hs) ?_
  intro t i q h hbegins
  cases i with
  | maintenance k =>
    obtain ⟨ctx, rfl, hage⟩ := hbegins
    exact h.begin_run replace_self (fun i hi => replace_of_ne hi) rfl hage h.pending h.last
  | _ => exact hbegins.elim

omit [DecidableEq ι] in
theorem Filing.cancelInv {w : World} {devices : ι → QueueActor}
    (hfresh : w.plans.manifests.lookup f.planId = none) (hrequest : ¬ Requested f.planId w)
    (hdevices : ∀ i, (devices i).IsDevice) :
    CancelInv f False False (f.pool w devices fun _ => .ret ()) where
  filed := by
    refine ⟨fun m hm => ?_, fun hr => (hrequest hr).elim, fun _ m hm => ?_⟩
    · cases hfresh.symm.trans hm
    · cases hfresh.symm.trans hm
  ingest := .unfiled hfresh
  cancel := .asked
  devices i := (hdevices i).calls.mono fun _ => SubmissionCall.leavesPlan
  run := .young id fun _ _ _ => trivial
  pending := False.elim
  last := False.elim

theorem CancelPhase.kept {p : PlanId} {ended : Prop} {o : CancelOutcome} {w : World}
    (h : CancelPhase p ended (.ret o) w) : KeptRequest p ended w := by
  generalize hq : (Prog.ret o : Op CancelOutcome) = q at h
  cases h with
  | answered hk => exact hk
  | _ => cases hq

theorem RunPhase.ending {ended : Prop} {w : World} (h : RunPhase f True True ended (.ret ()) w) :
    EndingIn f.planId w := by
  generalize hq : (Prog.ret () : Op Unit) = q at h
  cases h with
  | @opening ctx q _ _ _ => cases q <;> cases hq
  | listed => cases hq
  | young hlast => exact (hlast trivial).elim
  | settled _ hsat =>
    subst hq
    exact hsat w (refl_of _ w) rfl trivial
  | stopped => cases hq

end System

/-- A request is answered, and then the next run begins. Once the ingestion is over and a run that
began after that has ended without failures, the plan is being cancelled or is, unless it was
complete when that next run began. -/
theorem cancel_request_kept {ι : Type} [DecidableEq ι] {f : Filing} {w : World}
    {devices : ι → QueueActor} {t₁ t₂ t₃ : CancelPool ι Unit} {ctx₁ ctx₂ : RunContext}
    {o : CancelOutcome}
    (hfresh : w.plans.manifests.lookup f.planId = none) (hrequest : ¬ Requested f.planId w)
    (hdevices : ∀ i, (devices i).IsDevice)
    (h₁ : Pool.Relay machine.faulty f.Begins (f.pool w devices fun _ => .ret ()) t₁)
    (hanswered : t₁.procs .cancel = .ret o)
    (hbegins : f.Begins t₁ (.maintenance ()) (run ctx₁))
    (h₂ : Pool.Relay machine.faulty f.Begins (t₁.replace (.maintenance ()) (run ctx₁)) t₂)
    (hover : Filing.Over t₂) (hrun : t₂.procs (.maintenance ()) = run ctx₂)
    (h₃ : Pool.Relay machine.faulty f.Begins t₂ t₃) (hdone : t₃.procs (.maintenance ()) = .ret ()) :
    EndingIn f.planId t₃.world ∨
      (t₁.world.plans.manifests.lookup f.planId).map (·.status) = some .complete := by
  have hinv₁ := (Filing.cancelInv hfresh hrequest hdevices).relay h₁
  by_cases hcomplete : (t₁.world.plans.manifests.lookup f.planId).map (·.status) = some .complete
  · exact .inr hcomplete
  left
  have hpending : Pending f.planId (Filing.Over t₁) t₁.world := by
    refine ⟨CancelPhase.kept (hanswered ▸ hinv₁.cancel), fun m hm hs => hcomplete ?_⟩
    rw [hm, Option.map_some, hs]
  obtain ⟨ctx, hctx, hage⟩ := hbegins
  rw [hctx] at h₂
  have hinv₂ : CancelInv f True False t₂ :=
    (hinv₁.begin_run Pool.replace_self (fun i hi => Pool.replace_of_ne hi) rfl hage
      (fun _ => hpending) False.elim).relay h₂
  have hinv₃ : CancelInv f True True t₃ :=
    (hinv₂.begin_run hrun (fun _ _ => rfl) rfl (fun _ => hover) hinv₂.pending fun _ => hover).relay h₃
  have hphase := hinv₃.run
  rw [hdone] at hphase
  exact hphase.ending

def emptyFiling (p : PlanId) : Filing where
  planId := p
  now := 0
  placements := []
  clock _ := 0
  answer _ _ _ := none
  staging := []
  roster := []
  copying := []
  promoting := []

/-- A run latches the cancellation while the plan is being filed, and the ingestion overwrites it;
the next run finds the marker. -/
theorem cancel_request_kept_overwritten :
    let plan : PlanId := ⟨"plan"⟩
    let f := emptyFiling plan
    let ctx : Instant → RunContext := fun now => ⟨fun _ => true, ⟨10, 3⟩, now⟩
    let t₁ : CancelPool Empty Unit := (f.pool World.empty Empty.elim fun _ => .ret ()).play machine
      [.ingest, .cancel, .cancel]
    let latched := (t₁.replace (.maintenance ()) (run (ctx 5))).play machine
      (List.replicate 40 (.maintenance ()))
    let filed := latched.play machine (List.replicate 10 .ingest)
    let t₂ := filed.replace (.maintenance ()) (run (ctx 20))
    let t₃ := t₂.play machine (List.replicate 40 (.maintenance ()))
    planStatus plan latched.world = some .cancelled ∧ planStatus plan filed.world = some .active ∧
      (EndingIn plan t₃.world ∨ planStatus plan t₁.world = some .complete) := by
  intro plan f ctx t₁ latched filed t₂ t₃
  have hplay : ∀ {s t : CancelPool Empty Unit} (sched : List (CancelParty Empty Unit)),
      Pool.Relay machine.faulty f.Begins s t →
      Pool.Relay machine.faulty f.Begins s (t.play machine sched) := fun sched h =>
    Pool.Reach.relay h ((Pool.Reach.play fun _ _ => trivial).mono (fun _ _ _ _ h => .inl h)
      fun _ _ _ h => h)
  have hover : (filed.procs .ingest).outcome.isSome := by decide +kernel
  have hanswered : t₁.procs .cancel = .ret .requested := Prog.outcome_eq_ok.mp (by decide +kernel)
  have hdone : t₃.procs (.maintenance ()) = .ret () := Prog.outcome_eq_ok.mp (by decide +kernel)
  have h₁ : Pool.Relay machine.faulty f.Begins (f.pool World.empty Empty.elim fun _ => .ret ()) t₁ :=
    hplay _ .refl
  have hbegins : f.Begins t₁ (.maintenance ()) (run (ctx 5)) :=
    ⟨ctx 5, rfl, fun hage => absurd hage (by decide)⟩
  have h₂ : Pool.Relay machine.faulty f.Begins (t₁.replace (.maintenance ()) (run (ctx 5))) t₂ :=
    .replace (hplay _ (hplay _ .refl)) ⟨ctx 20, rfl, fun _ => hover⟩
  have hover₂ : Filing.Over t₂ := by
    rw [Filing.Over, Pool.replace_of_ne (by simp)]
    exact hover
  have hrequest : ¬ Requested plan World.empty := by simp [Requested, World.empty]
  have hrun : t₂.procs (.maintenance ()) = run (ctx 20) := Pool.replace_self
  have h₃ : Pool.Relay machine.faulty f.Begins t₂ t₃ := hplay _ .refl
  have hkept := cancel_request_kept rfl hrequest (fun i => i.elim) h₁ hanswered hbegins h₂ hover₂ hrun h₃ hdone
  exact ⟨by decide +kernel, by decide +kernel, hkept⟩

/-- Two ways for a plan to be complete after it was asked to cancel. A run that overlaps another
writes its stale copy over the cancellation; and a run that listed the markers before the request
landed latches the plan it found with nothing outstanding. -/
theorem cancel_request_lost :
    let plan : PlanId := ⟨"plan"⟩
    let f := emptyFiling plan
    let s : CancelPool Empty (Fin 3) :=
      f.pool World.empty Empty.elim fun _ => run ⟨fun _ => true, ⟨10, 3⟩, 20⟩
    let runs : Fin 3 → Nat → List (CancelParty Empty (Fin 3)) := fun k n =>
      List.replicate n (.maintenance k)
    let asked := List.replicate 10 .ingest ++ runs 0 4 ++ [.cancel, .cancel]
    let t := s.play machine asked
    let overlapped := t.play machine (runs 1 40)
    let lost := overlapped.play machine (runs 0 40 ++ runs 2 40)
    let inTurn := t.play machine (runs 0 40 ++ runs 1 40)
    (t.procs .ingest).outcome = some (.ok ()) ∧ (t.procs .cancel).outcome = some (.ok .requested) ∧
      (∀ u ∈ s.trace machine (asked ++ runs 1 40), planStatus plan u.world ≠ some .complete) ∧
      planStatus plan overlapped.world = some .cancelled ∧
      (lost.procs (.maintenance 2)).outcome = some (.ok ()) ∧
      planStatus plan lost.world = some .complete ∧
      (inTurn.procs (.maintenance 1)).outcome = some (.ok ()) ∧
      planStatus plan inTurn.world = some .complete := by
  decide +kernel

end Pipette
