import Pipette.Lib.Walk
import Pipette.Pipeline.Stages
import Pipette.System.OneEntry
import Pipette.System.ProfileChange

/-! A marker is collected once two runs in a row have missed one of its owners. Between the runs the
sightings are in a file that every run clears and only a complete one writes again. -/
namespace Pipette

open Prog

inductive Marker
  | eligible (m : EligibleMarker)
  | denied (j : JobId) (c : ClientId)
  | lost (l : LostLease)
  | suspended (c : ClientId)
deriving DecidableEq

namespace Marker

def OnFile : Marker → World → Prop
  | eligible m, w => (w.index.eligible.lookup m).isSome
  | denied j c, w => (w.notes.denied.lookup (j, c)).isSome
  | lost l, w => (w.notes.lost.lookup l).isSome
  | suspended c, w => (w.notes.suspended.lookup c).isSome

instance (K : Marker) (w : World) : Decidable (K.OnFile w) := by
  cases K <;> exact inferInstanceAs (Decidable (_ = true))

def key : Marker → GcKey
  | eligible m => .eligible m
  | denied j c => .denied j c
  | lost l => .lost l.jobId
  | suspended c => .suspended c

end Marker

structure LiveView where
  jobs : Finset JobId
  clients : List ClientId

namespace LiveView

/-- The run saw one of the marker's owners nowhere. A suspension belongs to its client alone. -/
def Misses (s : LiveView) : Marker → Prop
  | .eligible m => m.jobId ∉ s.jobs ∨ m.clientId ∉ s.clients
  | .denied j c => j ∉ s.jobs ∨ c ∉ s.clients
  | .lost l => l.jobId ∉ s.jobs ∨ l.clientId ∉ s.clients
  | .suspended c => c ∉ s.clients

def MissesKey (s : LiveView) : GcKey → Prop
  | .eligible m => m.jobId ∉ s.jobs ∨ m.clientId ∉ s.clients
  | .denied j c => j ∉ s.jobs ∨ c ∉ s.clients
  | .lost j => j ∉ s.jobs
  | .suspended c => c ∉ s.clients
  | _ => True

theorem MissesKey.misses {s : LiveView} {K : Marker} (h : s.MissesKey K.key) : s.Misses K := by
  cases K with
  | lost l => exact .inl h
  | _ => exact h

end LiveView

def Removes : StoreCall → Marker → Prop
  | .index (.deleteEligible m), K => K = .eligible m
  | .index (.deleteEligibleForClient c), K => ∃ m, K = .eligible m ∧ m.clientId = c
  | .notes (.deleteDenied j c), K => K = .denied j c
  | .notes (.deleteDeniedForJob j), K => ∃ c, K = .denied j c
  | .notes (.deleteLostLeasesForJob j), K => ∃ l, K = .lost l ∧ l.jobId = j
  | .notes (.deleteSuspension c), K => K = .suspended c
  | _, _ => False

theorem removes_of_gone {c : StoreCall} {K : Marker} {w : World} (h : K.OnFile w)
    (hgone : ¬ K.OnFile (machine c w).2) : Removes c K := by
  cases c with
  | index c =>
    cases K with
    | eligible m =>
      cases c with
      | deleteEligible m' =>
        exact congrArg _ (FileTree.eq_of_gone h (Option.not_isSome_iff_eq_none.mp hgone))
      | deleteEligibleForClient c =>
        have hm := FileTree.holds_of_gone h (Option.not_isSome_iff_eq_none.mp hgone)
        exact ⟨m, rfl, by simpa using hm⟩
      | writeEligible m' => exact (hgone (FileTree.isSome_write h)).elim
      | _ => exact (hgone h).elim
    | _ => exact (hgone (by cases c <;> exact h)).elim
  | notes c =>
    cases K with
    | eligible m => exact (hgone (by cases c <;> exact h)).elim
    | denied j client =>
      cases c with
      | deleteDenied j' client' =>
        have heq := FileTree.eq_of_gone h (Option.not_isSome_iff_eq_none.mp hgone)
        obtain ⟨rfl, rfl⟩ := Prod.mk.inj heq
        rfl
      | deleteDeniedForJob j' =>
        have hj := FileTree.holds_of_gone h (Option.not_isSome_iff_eq_none.mp hgone)
        obtain rfl : j = j' := by simpa using hj
        exact ⟨client, rfl⟩
      | writeDenied j' client' => exact (hgone (FileTree.isSome_write h)).elim
      | _ => exact (hgone h).elim
    | lost l =>
      cases c with
      | deleteLostLeasesForJob j =>
        have hj := FileTree.holds_of_gone h (Option.not_isSome_iff_eq_none.mp hgone)
        exact ⟨l, rfl, by simpa using hj⟩
      | writeLostLease l' => exact (hgone (FileTree.isSome_write h)).elim
      | _ => exact (hgone h).elim
    | suspended client =>
      cases c with
      | deleteSuspension client' =>
        exact congrArg _ (FileTree.eq_of_gone h (Option.not_isSome_iff_eq_none.mp hgone))
      | writeSuspension client' j => exact (hgone (FileTree.isSome_write h)).elim
      | _ => exact (hgone h).elim
  | _ => exact (hgone (by cases K <;> exact h)).elim

structure SweepStart where
  front : Front
  view : QueueView
  clients : List Client
  workers : List Client
  tags : FleetTags
  bodies : Bodies
  /-- The markers on file, without those of withheld jobs. -/
  eligible : List EligibleMarker
  denied : List (JobId × ClientId)

namespace SweepStart

def live (s : SweepStart) : LiveView := ⟨s.view.live, s.clients.map (·.clientId)⟩

def sweep (s : SweepStart) : Sweep :=
  ⟨s.front.prior, s.view.terminal, s.view.live, s.clients.map (·.clientId)⟩

def orphans (s : SweepStart) : Op (Finset GcKey) :=
  reconcileOrphans s.sweep s.eligible s.denied s.view.keys

def passes (ctx : RunContext) (s : SweepStart) (next : Finset GcKey) : Op Nat :=
  let backlog := countBacklog (claimableMarkers s.eligible s.view.keys s.denied ctx.now)
  (Op.notes (.writeBacklog ⟨ctx.now, backlog⟩)).attempt.bind fun _ =>
    let plans : PlanView :=
      { cancelMarkers := s.front.cancelMarkers, endings := s.view.endings
        membership := s.view.membership, avail := s.view.keys, leased := s.view.leasedIds
        live := s.view.live, workers := s.workers, tags := s.tags, now := ctx.now
        creatingMaxAge := ctx.settings.planCreatingMax }
    (reconcilePlans plans s.view.manifests s.bodies).bind fun reconciled =>
      (gcPlanIndex plans s.view.manifests s.front.prior).bind fun collected =>
        (Op.notes (.writeGcCandidates (next ∪ collected.next))).bind fun _ =>
          .ret (s.view.failures + reconciled.failures + collected.failures)

def rest (ctx : RunContext) (s : SweepStart) (next : Finset GcKey) : Op Unit :=
  (s.passes ctx next).bind reportFailed

end SweepStart

def dropWithheld (view : QueueView) (eligible : List EligibleMarker) :
    Op (List EligibleMarker × List (JobId × ClientId)) :=
  ((eligible.filter fun m => m.jobId ∈ view.withheld).forM fun m =>
    Op.index (.deleteEligible m)).bind fun _ =>
      (Op.notes .listAllDenied).bind fun denied =>
        .ret (eligible.filter fun m => m.jobId ∉ view.withheld, denied)

def listMarkers (view : QueueView) : Op (List EligibleMarker × List (JobId × ClientId)) :=
  (Op.index .listAllEligible).bind (dropWithheld view)

def approach (ctx : RunContext) (prior : Finset GcKey) : Op SweepStart :=
  (Op.plans .listCancelMarkers).bind fun cancelMarkers =>
    (Op.plans .drainPlans).bind fun manifests =>
      (settleExpiredLeases ctx.catalog ctx.settings.lostLeaseLimit ctx.now).bind fun recycled =>
        let front : Front := { prior, cancelMarkers, manifests, recycled }
        (Op.queue .listAvail).bind fun avail =>
          (Op.queue .listLeased).bind fun leases =>
            (queuePasses ctx front avail leases).bind fun view =>
              (Op.fleet .drainClients).bind fun clients =>
                (Op.fleet .listForwardTagMarkers).bind fun tags =>
                  (Op.fleet .listClientPermissions).bind fun rights =>
                    (indexPasses view (rights.workers clients) tags).bind fun bodies =>
                      (listMarkers view).bind fun (eligible, denied) =>
                        .ret ⟨front, view, clients, rights.workers clients, tags, bodies, eligible,
                          denied⟩

def untilSweep (ctx : RunContext) : Op SweepStart := clearSightings.bind (approach ctx)

theorem runPasses_eq_untilSweep {ctx : RunContext} :
    runPasses ctx = (untilSweep ctx).bind fun s => s.orphans.bind (s.passes ctx) := by
  simp only [runPasses, beforeListings, afterAvailListing, afterQueuePasses, sweepPasses,
    untilSweep, clearSightings, approach, listMarkers, dropWithheld, SweepStart.orphans,
    SweepStart.sweep, bind_eq, pure_eq, bind_assoc, ret_bind]
  rfl

theorem run_eq_untilSweep {ctx : RunContext} :
    run ctx = (untilSweep ctx).bind fun s => s.orphans.bind (s.rest ctx) := by
  simp only [run, bind_eq, runPasses_eq_untilSweep, bind_assoc]
  rfl

def StagesNothing : StoreCall → Prop
  | .notes (.writeGcCandidates _) => False
  | _ => True

namespace SweepStart

/-- The markers that need no second sighting: those of jobs this run removed, and eligible markers
of withheld jobs or of a deadline the job does not carry. -/
def Exempt (s : SweepStart) : Marker → Prop
  | .eligible m => Sweep.staleExpiry s.view.keys m = true ∨ m.jobId ∈ s.view.withheld ∨
      m.jobId ∈ s.view.terminal
  | .denied j _ => j ∈ s.view.terminal
  | .lost l => l.jobId ∈ s.view.terminal
  | .suspended _ => False

def Listed (s : SweepStart) : Marker → Prop
  | .denied j c => (j, c) ∈ s.denied
  | _ => True

def Confirmed (s : SweepStart) (K : Marker) : Prop :=
  s.live.MissesKey K.key ∧ K.key ∈ s.front.prior

def Covers (s : SweepStart) (w : World) : Prop :=
  ∀ m, (w.index.eligible.lookup m).isSome → m ∈ s.eligible ∨ m.jobId ∈ s.view.withheld

structure Sound (s : SweepStart) (c : StoreCall) : Prop where
  stages : StagesNothing c
  removes : ∀ w K, s.Covers w → Removes c K → K.OnFile w → s.Listed K → s.Exempt K ∨ s.Confirmed K
  writes : ∀ m, c ≠ .index (.writeEligible m)

variable {s : SweepStart}

theorem Sound.of_none {c : StoreCall} (hstages : StagesNothing c) (hremoves : ∀ K, ¬ Removes c K)
    (hwrites : ∀ m, c ≠ .index (.writeEligible m)) : s.Sound c :=
  ⟨hstages, fun _ K _ h => (hremoves K h).elim, hwrites⟩

theorem sound_deleteEligible {m : EligibleMarker}
    (h : s.Exempt (.eligible m) ∨ s.Confirmed (.eligible m)) :
    s.Sound (.index (.deleteEligible m)) := by
  refine ⟨trivial, ?_, fun _ h => by cases h⟩
  rintro w K - rfl - -
  exact h

theorem sweepMarker_sound {m : EligibleMarker} {next : Finset GcKey} :
    (s.sweep.sweepMarker s.view.keys next m).Calls s.Sound := by
  unfold Sweep.sweepMarker
  split
  · exact .ret _
  split
  · next hstale => exact .bind (.store (sound_deleteEligible (.inl (.inl hstale)))) fun _ => .ret _
  split
  · exact .ret _
  next hdead =>
  obtain ⟨heq, hconfirmed⟩ | heq :=
    confirmOrStageGroup_cases s.sweep next [.eligible m] (some m.jobId)
  · rw [Sweep.confirmOrStage, heq]
    refine .bind (.store (sound_deleteEligible ?_)) fun _ => .ret _
    obtain hterminal | hprior : m.jobId ∈ s.view.terminal ∨ GcKey.eligible m ∈ s.front.prior := by
      simpa [sweep] using hconfirmed
    · exact .inl (.inr (.inr hterminal))
    · exact .inr ⟨.inl fun hlive => hdead (decide_eq_true hlive), hprior⟩
  · rw [Sweep.confirmOrStage, heq]
    exact .ret _

theorem sweepDeadClient_sound {c : ClientId} {next : Finset GcKey}
    (hdead : c ∉ s.clients.map (·.clientId)) :
    (s.sweep.sweepDeadClient s.eligible next c).Calls s.Sound := by
  unfold Sweep.sweepDeadClient
  simp only
  obtain ⟨heq, hconfirmed⟩ | heq := confirmOrStageGroup_cases s.sweep next
    ((s.eligible.filter (·.clientId = c)).map .eligible) none
  · rw [heq]
    refine .bind (.store ⟨trivial, ?_, fun _ h => by cases h⟩) fun _ => .ret _
    -- the call takes whatever the client has on file, so the listing has to cover it
    rintro w _ hcovers ⟨m, rfl, rfl⟩ hm -
    obtain hlisted | hwithheld := hcovers m hm
    · obtain ⟨j, hj, -⟩ | hprior := hconfirmed
      · cases hj
      · exact .inr ⟨.inr hdead, hprior _ (List.mem_map_of_mem (by simpa using hlisted))⟩
    · exact .inl (.inr (.inl hwithheld))
  · rw [heq]
    exact .ret _

theorem sweepDeadJob_sound {j : JobId} {next : Finset GcKey} (hdead : j ∉ s.view.live) :
    (s.sweep.sweepDeadJob s.denied next j).Calls s.Sound := by
  unfold Sweep.sweepDeadJob
  simp only
  obtain ⟨heq, hconfirmed⟩ | heq := confirmOrStageGroup_cases s.sweep next
    ((s.denied.filter (·.1 = j)).map fun m => .denied m.1 m.2) (some j)
  · rw [heq]
    refine .bind (.store ⟨trivial, ?_, fun _ h => by cases h⟩) fun _ => .ret _
    rintro w _ - ⟨c, rfl⟩ - hlisted
    obtain ⟨_, ⟨⟩, hterminal⟩ | hprior := hconfirmed
    · exact .inl hterminal
    · refine .inr ⟨.inl hdead, hprior (.denied j c) ?_⟩
      exact List.mem_map.mpr ⟨(j, c), List.mem_filter.mpr ⟨hlisted, by simp⟩, rfl⟩
  · rw [heq]
    exact .ret _

theorem sweepEach_sound {α : Type} {dead : α → Bool} {key : α → GcKey} {owner : α → Option JobId}
    {remove : α → Op Unit} {items : List α} {next : Finset GcKey}
    (h : ∀ a, dead a → (∃ j ∈ owner a, j ∈ s.view.terminal) ∨ key a ∈ s.front.prior →
      (remove a).Calls s.Sound) :
    (s.sweep.sweepEach dead key owner remove items next).Calls s.Sound :=
  sweepEach_calls fun a _ => h a

theorem orphans_sound : s.orphans.Calls s.Sound := by
  have hnone : ∀ (c : StoreCall), StagesNothing c → (∀ K, ¬ Removes c K) →
      (∀ m, c ≠ .index (.writeEligible m)) → (store (I := Stores) c).Calls s.Sound :=
    fun c h h' h'' => .store (.of_none h h' h'')
  have hclient : ∀ c, (!s.sweep.liveClients.contains c) = true → c ∉ s.clients.map (·.clientId) := by
    intro c hc
    simpa [sweep] using hc
  have hjob : ∀ j, decide (j ∉ s.sweep.liveJobs) = true → j ∉ s.view.live := fun j hj =>
    of_decide_eq_true hj
  refine .bind ?_ fun next => .bind ?_ fun next => ?_
  · refine .bind (.foldlM (fun next m _ => sweepMarker_sound) _) fun next =>
      .foldlM (fun next c hc => sweepDeadClient_sound (hclient c ?_)) _
    exact (List.mem_filter.mp (List.mem_dedup.mp hc)).2
  · refine .bind (sweepEach_sound ?_) fun next =>
      .foldlM (fun next j hj => sweepDeadJob_sound (hjob j ?_)) _
    · rintro ⟨j, c⟩ hdead hconfirmed
      refine .store ⟨trivial, ?_, fun _ h => by cases h⟩
      rintro w K - rfl - -
      obtain ⟨_, hj, -⟩ | hprior := hconfirmed
      · cases hj
      · exact .inr ⟨.inr (hclient c hdead), hprior⟩
    · exact (List.mem_filter.mp (List.mem_dedup.mp hj)).2
  refine .bind (hnone _ trivial (fun _ h => h) fun _ h => by cases h) fun suspensions => ?_
  refine .bind (sweepEach_sound fun c hdead hconfirmed => ?_) fun next => ?_
  · refine .store ⟨trivial, ?_, fun _ h => by cases h⟩
    rintro w K - rfl - -
    obtain ⟨_, hj, -⟩ | hprior := hconfirmed
    · cases hj
    · exact .inr ⟨hclient c hdead, hprior⟩
  refine .bind (hnone _ trivial (fun _ h => h) fun _ h => by cases h) fun liveness => ?_
  refine .bind (sweepEach_sound fun c _ _ => hnone _ trivial (fun _ h => h) fun _ h => by cases h)
    fun next => ?_
  refine .bind (hnone _ trivial (fun _ h => h) fun _ h => by cases h) fun flags => ?_
  refine .bind (sweepEach_sound fun f _ _ => hnone _ trivial (fun _ h => h) fun _ h => by cases h)
    fun next => ?_
  refine .bind (hnone _ trivial (fun _ h => h) fun _ h => by cases h) fun jobFlags => ?_
  refine .bind (sweepEach_sound fun j _ _ => hnone _ trivial (fun _ h => h) fun _ h => by cases h)
    fun next => ?_
  refine .bind (hnone _ trivial (fun _ h => h) fun _ h => by cases h) fun lost => ?_
  refine .bind (sweepEach_sound fun j hdead hconfirmed => ?_) fun next => ?_
  · refine .store ⟨trivial, ?_, fun _ h => by cases h⟩
    rintro w _ - ⟨l, rfl, rfl⟩ - -
    obtain ⟨_, ⟨⟩, hterminal⟩ | hprior := hconfirmed
    · exact .inl hterminal
    · exact .inr ⟨hjob _ hdead, hprior⟩
  refine .bind (hnone _ trivial (fun _ h => h) fun _ h => by cases h) fun leases => ?_
  refine sweepEach_sound fun l _ _ => .void (resolveOrRecycleLease_calls (fun _ => ?_) ?_ ?_)
  all_goals exact .of_none trivial (fun _ h => h) fun _ h => by cases h

def Missed (s : SweepStart) (next : Finset GcKey) : Prop := ∀ key ∈ next, s.live.MissesKey key

theorem missed_group {next next' : Finset GcKey} {keys : List GcKey} {owner : Option JobId}
    {confirmed : Bool} (h : s.Missed next) (hkeys : ∀ key ∈ keys, s.live.MissesKey key)
    (heq : s.sweep.confirmOrStageGroup next keys owner = (confirmed, next')) : s.Missed next' := by
  obtain ⟨hcase, -⟩ | hcase := confirmOrStageGroup_cases s.sweep next keys owner
  · cases hcase.symm.trans heq
    exact h
  · cases hcase.symm.trans heq
    intro key hkey
    obtain hold | hnew := Finset.mem_union.mp hkey
    · exact h key hold
    · exact hkeys key (List.mem_toFinset.mp hnew)

theorem sweepEach_missed {α : Type} {dead : α → Bool} {key : α → GcKey} {owner : α → Option JobId}
    {remove : α → Op Unit} {items : List α} {next : Finset GcKey}
    (hkey : ∀ a, dead a → s.live.MissesKey (key a)) (h : s.Missed next) :
    (s.sweep.sweepEach dead key owner remove items next).Ends s.Missed := by
  refine .foldlM (fun next a _ h => ?_) h
  split
  · exact h
  next hdead =>
  have hstaged : ∀ k ∈ [key a], s.live.MissesKey k := by
    intro k hk
    rw [List.mem_singleton.mp hk]
    exact hkey a (by simpa using hdead)
  split
  · next heq => exact .bind fun _ => missed_group h hstaged heq
  · next heq => exact missed_group h hstaged heq

theorem sweepEligible_missed {next : Finset GcKey} (h : s.Missed next) :
    (s.sweep.sweepEligible s.view.keys s.eligible next).Ends s.Missed := by
  refine .seq (.foldlM (fun next m _ h => ?_) h) fun next h => .foldlM (fun next c hc h => ?_) h
  · unfold Sweep.sweepMarker
    split
    · exact h
    split
    · exact .bind fun _ => h
    split
    · exact h
    next hdead =>
    have hstaged : ∀ k ∈ [GcKey.eligible m], s.live.MissesKey k := by
      intro k hk
      rw [List.mem_singleton.mp hk]
      exact .inl fun hlive => hdead (decide_eq_true hlive)
    split
    · next heq => exact .bind fun _ => missed_group h hstaged heq
    · next heq => exact missed_group h hstaged heq
  · have hdead : c ∉ s.clients.map (·.clientId) := by
      simpa [sweep] using (List.mem_filter.mp (List.mem_dedup.mp hc)).2
    have hstaged : ∀ k ∈ (s.eligible.filter (·.clientId = c)).map GcKey.eligible,
        s.live.MissesKey k := by
      intro k hk
      obtain ⟨m, hm, rfl⟩ := List.mem_map.mp hk
      obtain rfl : m.clientId = c := by simpa using (List.mem_filter.mp hm).2
      exact .inr hdead
    unfold Sweep.sweepDeadClient
    simp only
    split
    · next heq => exact .bind fun _ => missed_group h hstaged heq
    · next heq => exact missed_group h hstaged heq

theorem sweepDenied_missed {next : Finset GcKey} (h : s.Missed next) :
    (s.sweep.sweepDenied s.denied next).Ends s.Missed := by
  refine .seq (sweepEach_missed ?_ h) fun next h => .foldlM (fun next j hj h => ?_) h
  · exact fun m hdead => .inr (by simpa [sweep, live] using hdead)
  · have hdead : j ∉ s.view.live :=
      of_decide_eq_true (List.mem_filter.mp (List.mem_dedup.mp hj)).2
    have hstaged : ∀ k ∈ (s.denied.filter (·.1 = j)).map fun m => GcKey.denied m.1 m.2,
        s.live.MissesKey k := by
      intro k hk
      obtain ⟨m, hm, rfl⟩ := List.mem_map.mp hk
      obtain rfl : m.1 = j := by simpa using (List.mem_filter.mp hm).2
      exact .inl hdead
    unfold Sweep.sweepDeadJob
    simp only
    split
    · next heq => exact .bind fun _ => missed_group h hstaged heq
    · next heq => exact missed_group h hstaged heq

theorem orphans_missed : s.orphans.Ends s.Missed := by
  have hclient : ∀ c, (!s.sweep.liveClients.contains c) = true → c ∉ s.clients.map (·.clientId) := by
    intro c hc
    simpa [sweep] using hc
  refine .seq (sweepEligible_missed fun _ hkey => ?_) fun next h => ?_
  · cases hkey
  refine .seq (sweepDenied_missed h) fun next h => ?_
  refine .bind fun suspensions => .seq (sweepEach_missed (fun c hdead => hclient c hdead) h) fun next h => ?_
  refine .bind fun liveness => .seq (sweepEach_missed (fun _ _ => trivial) h) fun next h => ?_
  refine .bind fun flags => .seq (sweepEach_missed (fun _ _ => trivial) h) fun next h => ?_
  refine .bind fun jobFlags => .seq (sweepEach_missed (fun _ _ => trivial) h) fun next h => ?_
  refine .bind fun lost => .seq (sweepEach_missed (fun j hdead => of_decide_eq_true (p := j ∉ s.view.live) hdead) h)
    fun next h => ?_
  exact .bind fun leases => sweepEach_missed (fun _ _ => trivial) h

def StagesMissed (s : SweepStart) : StoreCall → Prop
  | .notes (.writeGcCandidates keys) => s.Missed keys
  | _ => True

theorem collectKey_missed {prior : Finset GcKey} {key : GcKey} {remove : Op Unit} {acc : Collected}
    (hkey : s.live.MissesKey key) (h : s.Missed acc.next) :
    (collectKey prior key remove acc).Ends fun col => s.Missed col.next := by
  unfold collectKey
  split
  · refine .bind fun r => ?_
    cases r <;> exact h
  · intro k hk
    obtain rfl | hold := Finset.mem_insert.mp hk
    · exact hkey
    · exact h k hold

theorem gcPlanIndex_missed {v : PlanView} {ms : List PlanManifest} {prior : Finset GcKey} :
    (gcPlanIndex v ms prior).Ends fun col => s.Missed col.next := by
  have hboth : ∀ (records : List (String × ContentKeyRecord)) (markers : List JobPlanMarker)
      (failures : Nat), ((records.foldlM (fun acc r => collectKey prior (.contentKey r.1)
        (Op.plans (.deleteContentKey r.1 r.2.version)).void acc) ⟨∅, failures⟩ : Op Collected).bind
          fun acc => markers.foldlM (fun acc mk => collectKey prior
            (.jobPlan mk.jobId mk.planId mk.expiresAt)
            (Op.plans (.deleteJobPlanMarker mk.jobId mk.planId mk.expiresAt)) acc) acc).Ends
        fun col => s.Missed col.next := by
    intro records markers failures
    have hstart : s.Missed (Collected.mk ∅ failures).next := fun _ hkey => nomatch hkey
    refine .seq (P := fun col => s.Missed col.next) (.foldlM (fun acc r _ h => ?_) hstart)
      fun acc h => .foldlM (fun acc mk _ h => ?_) h
    · exact collectKey_missed (by trivial) h
    · exact collectKey_missed (by trivial) h
  refine .bind fun listed => ?_
  cases listed with
  | ok records => exact hboth _ _ 0
  | error e => exact hboth _ _ 1

theorem rest_stages {ctx : RunContext} {next : Finset GcKey} (h : s.Missed next) :
    (s.rest ctx next).Calls s.StagesMissed := by
  refine .bind (.bind (.attempt (.store trivial)) fun _ => ?_) fun failed => ?_
  · refine .bind (reconcilePlans_calls (fun _ => trivial) (fun _ _ => trivial) (fun _ => trivial)
      (fun _ => trivial) fun _ _ _ _ _ _ _ => trivial) fun reconciled => ?_
    refine .bind_ends (gcPlanIndex_calls trivial (fun _ _ => trivial) fun _ _ _ => trivial)
      (gcPlanIndex_missed (s := s)) fun collected hcollected => .bind (.store ?_) fun _ => .ret _
    intro key hkey
    obtain hold | hnew := Finset.mem_union.mp hkey
    · exact h key hold
    · exact hcollected key hnew
  · unfold reportFailed
    split
    · exact .fail _
    · exact .ret _

end SweepStart

section Approach

variable {ctx : RunContext} {prior : Finset GcKey} {c : StoreCall} {w w' : World}

theorem SettlingCall.stages {now : Instant} (h : SettlingCall now c) : StagesNothing c := by
  cases c with
  | notes c => cases c <;> first | exact h.elim | trivial
  | _ => trivial

theorem IndexingCall.stages (h : IndexingCall c) : StagesNothing c := by
  cases c with
  | notes c => exact h.elim
  | _ => trivial

theorem stages_teardown (j : JobId) (p : PlanId) : AllowsTeardown StagesNothing j p where
  markers := trivial
  drop _ := trivial
  list := trivial
  entry _ := ⟨trivial, trivial⟩
  lease _ _ := ⟨trivial, trivial⟩
  restore _ _ := ⟨trivial, trivial⟩
  flag := trivial

theorem approach_stages : (approach ctx prior).Calls StagesNothing := by
  refine .bind (.store trivial) fun cancelMarkers => .bind (.store trivial) fun manifests => ?_
  refine .bind (settleExpiredLeases_settling.mono fun _ => @SettlingCall.stages _ ctx.now)
    fun recycled => ?_
  refine .bind (.store trivial) fun avail => .bind (.store trivial) fun leases => ?_
  refine .bind (queuePasses_calls (fun _ => trivial) (fun _ _ => trivial) stages_teardown
    fun _ => SettlingCall.stages) fun view => ?_
  refine .bind (.store trivial) fun clients => .bind (.store trivial) fun tags =>
    .bind (.store trivial) fun rights => ?_
  refine .bind (indexPasses_indexing.mono fun _ => IndexingCall.stages) fun bodies => ?_
  refine .bind ?_ fun markers => .ret _
  exact .bind (.store trivial) fun eligible => .bind (.forM fun _ _ => .store trivial) fun _ =>
    .bind (.store trivial) fun denied => .ret _

theorem approach_prior : (approach ctx prior).Ends fun s => s.front.prior = prior :=
  .bind fun _ => .bind fun _ => .bind fun _ => .bind fun _ => .bind fun _ => .bind fun _ =>
    .bind fun _ => .bind fun _ => .bind fun _ => .bind fun _ => .bind fun _ => rfl

/-- What others do beside a run. The sightings and the eligible markers are written by runs only. -/
structure Beside (w w' : World) : Prop where
  candidates : w'.notes.gcCandidates = w.notes.gcCandidates
  eligible : ∀ m, (w'.index.eligible.lookup m).isSome → (w.index.eligible.lookup m).isSome

instance : Std.Refl Beside := ⟨fun _ => ⟨rfl, fun _ h => h⟩⟩

instance : IsTrans World Beside :=
  ⟨fun _ _ _ h h' => ⟨h'.candidates.trans h.candidates, fun m hm => h.eligible m (h'.eligible m hm)⟩⟩

theorem SweepStart.Covers.bears {s : SweepStart} (h : s.Covers w) (hR : Beside w w') : s.Covers w' :=
  fun m hm => h m (hR.eligible m hm)

theorem StagesNothing.candidates {r : Except Fault c.Answer} (h : StagesNothing c)
    (hout : machine.faulty c w r w') : w'.notes.gcCandidates = w.notes.gcCandidates := by
  have hstep : (machine c w).2.notes.gcCandidates = w.notes.gcCandidates := by
    cases c with
    | notes c => cases c <;> first | exact h.elim | rfl
    | _ => rfl
  obtain ⟨-, rfl⟩ | ⟨e, -, rfl | rfl⟩ := hout
  · exact hstep
  · rfl
  · exact hstep

theorem eligible_shrinks {r : Except Fault c.Answer} (h : ∀ m, c ≠ .index (.writeEligible m))
    (hout : machine.faulty c w r w') (m : EligibleMarker)
    (hm : (w'.index.eligible.lookup m).isSome) : (w.index.eligible.lookup m).isSome := by
  have hstep : ((machine c w).2.index.eligible.lookup m).isSome →
      (w.index.eligible.lookup m).isSome := by
    intro hm
    cases c with
    | index c =>
      cases c with
      | writeEligible m' => exact (h m' rfl).elim
      | deleteEligible m' =>
        simp only [machine, IndexCall.step, FileTree.lookup_remove] at hm
        split at hm
        · cases hm
        · exact hm
      | deleteEligibleForClient c =>
        simp only [machine, IndexCall.step, FileTree.lookup_eraseWhere] at hm
        split at hm
        · cases hm
        · exact hm
      | _ => exact hm
    | _ => exact hm
  obtain ⟨-, rfl⟩ | ⟨e, -, rfl | rfl⟩ := hout
  · exact hstep hm
  · exact hm
  · exact hstep hm

/-- A call that a run bears between its own. -/
def BesideCall : StoreCall → Prop
  | .notes (.writeGcCandidates _) | .index (.writeEligible _) => False
  | _ => True

theorem BesideCall.beside {r : Except Fault c.Answer} (h : BesideCall c)
    (hout : machine.faulty c w r w') : Beside w w' := by
  have hstages : StagesNothing c := by
    cases c with
    | notes c => cases c <;> trivial
    | _ => trivial
  refine ⟨hstages.candidates hout, eligible_shrinks ?_ hout⟩
  rintro m rfl
  exact h.elim

theorem relinquishPasses_beside {c : ClientId} {n : Nat} : (relinquishPasses c n).Calls BesideCall := by
  have hlease : ∀ l, (relinquishLease l).Calls BesideCall := fun _ =>
    relinquishLease_calls.mono fun c hc => by cases c <;> trivial
  induction n with
  | zero =>
    refine .bind (.store trivial) fun leases => ?_
    split
    · exact .ret _
    · exact .fail _
  | succ n ih =>
    refine .bind (.store trivial) fun leases => ?_
    split
    · exact .ret _
    · exact .bind (.forM fun l _ => hlease l) fun _ => ih

theorem persistUpdate_beside {read client : Client} {changed : Bool} :
    (persistUpdate read client changed).Calls BesideCall := by
  refine .bind (.store trivial) fun replaced => ?_
  split
  · cases changed <;> repeat' first | exact .ret _ | refine .bind (.store trivial) fun _ => ?_
  · exact .fail _

theorem updateOwnClient_beside {read : Client} {body : UpdateClient} :
    (updateOwnClient read body).Calls BesideCall := by
  unfold updateOwnClient
  split
  · exact .fail _
  · dsimp only
    split
    · exact .bind (.store trivial) fun _ => .bind relinquishPasses_beside fun _ => persistUpdate_beside
    · exact persistUpdate_beside

theorem QueueActor.program_beside (a : QueueActor) : a.program.Calls BesideCall := by
  refine a.program_calls.mono fun c hc => ?_
  cases a <;> cases c with
  | notes c | index c => cases c <;> trivial
  | _ => trivial

/-- Requests of devices and settling passes, interleaved in any way and stopped anywhere, run beside
a run. -/
theorem beside_of_reach {ι : Type} [DecidableEq ι] {procs : ι → Op Unit}
    {t : Pool Stores World ι fun _ => Unit} (hprocs : ∀ i, (procs i).Calls BesideCall)
    (h : Pool.Reach machine.faulty (fun _ _ _ => True) ⟨w, procs⟩ t) : Beside w t.world := by
  refine (h.world_invariant (Beside w) (refl_of _ w) hprocs ?_).1
  exact fun _ _ _ _ _ hc hout hv => trans_of Beside hv (hc.beside hout)

theorem listMarkers_covers {view : QueueView} : (listMarkers view).Sat machine.faulty Beside
    (fun _ _ => True) (fun r w => ∀ found, r = .ok found →
      ∀ m, (w.index.eligible.lookup m).isSome → m ∈ found.1 ∨ m.jobId ∈ view.withheld) w := by
  refine .store_bind fun w₁ _ => ⟨trivial, fun eligible w₂ hout => ?_, fun e w₂ _ v _ found he => ?_⟩
  · obtain ⟨hlisted, rfl⟩ | ⟨e, he, -⟩ := hout
    swap
    · cases he
    cases hlisted
    have hcalls : (dropWithheld view w₁.index.eligible.keys).Calls
        fun c => ∀ m, c ≠ StoreCall.index (.writeEligible m) := by
      refine .bind (.forM fun m _ => .store fun _ h => by cases h) fun _ => ?_
      exact .bind (.store fun _ h => by cases h) fun _ => .ret _
    have hends : (dropWithheld view w₁.index.eligible.keys).Ends fun found =>
        found.1 = w₁.index.eligible.keys.filter fun m => m.jobId ∉ view.withheld :=
      .bind fun _ => .bind fun _ => rfl
    have hsat := (Sat.invariant (O := machine.faulty) (R := Beside) (G := fun _ _ => True)
      (J := fun w => ∀ m, (w.index.eligible.lookup m).isSome → m ∈ w₁.index.eligible.keys)
      (fun _ _ hw hR m hm => hw m (hR.eligible m hm))
      (fun c w hc hw => ⟨trivial, fun r w' hout m hm => hw m (eligible_shrinks hc hout m hm)⟩) hcalls
      fun m hm => FileTree.mem_keys_iff.mpr hm).and_ends hends
    refine hsat.mono (fun _ _ h => h) fun r w hw found hfound m hm => ?_
    rw [hw.2 found hfound]
    by_cases hwithheld : m.jobId ∈ view.withheld
    · exact .inr hwithheld
    · exact .inl (List.mem_filter.mpr ⟨hw.1 m hm, by simpa using hwithheld⟩)
  · cases he

theorem approach_covers : (approach ctx prior).Sat machine.faulty Beside (fun _ _ => True)
    (fun r w => ∀ s, r = .ok s → s.Covers w) w := by
  have hG : ∀ (c : StoreCall) (w : World), (fun _ _ => True : StoreCall → World → Prop) c w :=
    fun _ _ => trivial
  have herror : ∀ (e : Fault) (w : World) (s : SweepStart), Except.error e = .ok s → s.Covers w :=
    fun e w s he => by cases he
  refine .after hG (fun cancelMarkers w => .after hG (fun manifests w => .after hG
    (fun recycled w => .after hG (fun avail w => .after hG (fun leases w => .after hG
      (fun view w => .after hG (fun clients w => .after hG (fun tags w => .after hG
        (fun rights w => .after hG (fun bodies w => ?_) herror) herror) herror) herror) herror)
          herror) herror) herror) herror) herror
  refine listMarkers_covers.bind (fun found w hw => ?_) fun e _ _ v _ => herror e v
  rintro w' hR s ⟨⟩ m hm
  exact hw found rfl m (hR.eligible m hm)

end Approach

/-- Runs one after the other, and what the last of them saw. A run may fail anywhere. One that
fails before it has cleared the sightings does not count, and one that fails before the sweep has
seen nothing. -/
inductive SweptRuns (w : World) : Option LiveView → World → Prop
  | start (h : w.notes.gcCandidates = ∅) : SweptRuns w none w
  | others {last : Option LiveView} {u v : World} (h : SweptRuns w last u) (hbeside : Beside u v) :
      SweptRuns w last v
  | unstarted {last : Option LiveView} {u v : World} {q : Op (Finset GcKey)}
      (h : SweptRuns w last u) (hwalk : Walk machine.faulty Beside clearSightings u q v) :
      SweptRuns w last v
  | stopped {last : Option LiveView} {u u₁ v : World} {ctx : RunContext} {prior : Finset GcKey}
      {q : Op SweepStart} (h : SweptRuns w last u)
      (hclear : Walk machine.faulty Beside clearSightings u (.ret prior) u₁)
      (hwalk : Walk machine.faulty Beside (approach ctx prior) u₁ q v) : SweptRuns w none v
  | swept {last : Option LiveView} {u u₁ v : World} {ctx : RunContext} {s : SweepStart} {q : Op Unit}
      (h : SweptRuns w last u) (hstart : Walk machine.faulty Beside (untilSweep ctx) u (.ret s) u₁)
      (hwalk : Walk machine.faulty Beside (s.orphans.bind (s.rest ctx)) u₁ q v) :
      SweptRuns w (some s.live) v

section Sequences

variable {w u u₁ v : World} {last : Option LiveView} {ctx : RunContext} {prior : Finset GcKey}
  {s : SweepStart}

theorem clearSightings_sat : clearSightings.Sat machine.faulty Beside (fun _ _ => True)
    (fun r v => ∀ prior, r = .ok prior → prior = u.notes.gcCandidates ∧ v.notes.gcCandidates = ∅) u := by
  refine .store_bind fun u₁ hR₁ => ⟨trivial, fun prior u₂ hout => ?_, fun e u₂ _ v _ prior he => ?_⟩
  · obtain ⟨hprior, rfl⟩ | ⟨e, he, -⟩ := hout
    swap
    · cases he
    cases hprior
    refine .store_bind fun u₃ _ => ⟨trivial, fun _ u₄ hout => ?_, fun e u₄ _ v _ prior he => ?_⟩
    · obtain ⟨-, rfl⟩ | ⟨e, he, -⟩ := hout
      · rintro v hR _ ⟨⟩
        exact ⟨hR₁.candidates, hR.candidates⟩
      · cases he
    · cases he
  · cases he

theorem clearSightings_keeps {q : Op (Finset GcKey)}
    (h : Walk machine.faulty Beside clearSightings u q v) :
    v.notes.gcCandidates = u.notes.gcCandidates ∨ v.notes.gcCandidates = ∅ := by
  refine h.keeps (P := fun c => StagesNothing c ∨ c = StoreCall.notes (.writeGcCandidates ∅))
    (J := fun v => v.notes.gcCandidates = u.notes.gcCandidates ∨ v.notes.gcCandidates = ∅)
    (fun v v' hv hR => ?_) (fun c v r v' hc hout hv => ?_) ?_ (.inl rfl)
  · rwa [hR.candidates]
  · obtain hc | rfl := hc
    · rwa [hc.candidates hout]
    · obtain ⟨-, rfl⟩ | ⟨e, -, rfl | rfl⟩ := hout
      · exact .inr rfl
      · exact hv
      · exact .inr rfl
  · exact .bind (.store (.inl trivial)) fun _ => .bind (.store (.inr rfl)) fun _ => .ret _

theorem approach_keeps {q : Op SweepStart} (h : Walk machine.faulty Beside (approach ctx prior) u q v)
    (hu : u.notes.gcCandidates = ∅) : v.notes.gcCandidates = ∅ := by
  refine h.keeps (P := StagesNothing) (J := fun v => v.notes.gcCandidates = ∅)
    (fun v v' hv hR => ?_) (fun c v r v' hc hout hv => ?_) approach_stages hu
  · rwa [hR.candidates]
  · rwa [hc.candidates hout]

theorem untilSweep_facts (h : Walk machine.faulty Beside (untilSweep ctx) u (.ret s) v) :
    s.front.prior = u.notes.gcCandidates ∧ v.notes.gcCandidates = ∅ ∧ s.Covers v := by
  have hfrom : ∀ {prior : Finset GcKey} {u₁ : World},
      Walk machine.faulty Beside clearSightings u (.ret prior) u₁ →
      Walk machine.faulty Beside (approach ctx prior) u₁ (.ret s) v →
      s.front.prior = u.notes.gcCandidates ∧ v.notes.gcCandidates = ∅ ∧ s.Covers v := by
    intro prior u₁ hclear happroach
    obtain ⟨hprior, hempty⟩ := hclear.sat clearSightings_sat u₁ (refl_of _ u₁) prior rfl
    have hcovers := happroach.sat approach_covers v (refl_of _ v) s rfl
    exact ⟨(happroach.ends approach_prior).trans hprior, approach_keeps happroach hempty, hcovers⟩
  obtain ⟨q, hclear, hq⟩ | ⟨prior, u₁, hclear, happroach⟩ := h.bind_cases
  · cases q with
    | ret prior => exact hfrom hclear (hq ▸ .start)
    | fail e => cases hq
    | call c k => cases hq
  · exact hfrom hclear happroach

theorem sweep_keeps {q : Op Unit} (h : Walk machine.faulty Beside (s.orphans.bind (s.rest ctx)) u q v)
    (hu : u.notes.gcCandidates = ∅) : s.Missed v.notes.gcCandidates := by
  have hcalls : (s.orphans.bind (s.rest ctx)).Calls s.StagesMissed := by
    refine .bind_ends (SweepStart.orphans_sound.mono fun c hc => ?_) SweepStart.orphans_missed
      fun next hnext => SweepStart.rest_stages hnext
    have hstages := hc.stages
    cases c with
    | notes c => cases c <;> first | exact hstages.elim | trivial
    | _ => trivial
  refine h.keeps (J := fun v => s.Missed v.notes.gcCandidates) (fun v v' hv hR => ?_)
    (fun c v r v' hc hout hv => ?_) hcalls ?_
  · rwa [hR.candidates]
  · by_cases hstages : StagesNothing c
    · rwa [hstages.candidates hout]
    cases c with
    | notes c =>
      cases c with
      | writeGcCandidates keys =>
        obtain ⟨-, rfl⟩ | ⟨e, -, rfl | rfl⟩ := hout
        · exact hc
        · exact hv
        · exact hc
      | _ => exact (hstages trivial).elim
    | _ => exact (hstages trivial).elim
  · rw [hu]
    exact fun _ hkey => nomatch hkey

theorem SweptRuns.staged (h : SweptRuns w last u) :
    ∀ key ∈ u.notes.gcCandidates, ∃ before, last = some before ∧ before.MissesKey key := by
  induction h with
  | start h =>
    rw [h]
    exact fun _ hkey => nomatch hkey
  | others _ hbeside ih => rwa [hbeside.candidates]
  | unstarted _ hwalk ih =>
    obtain hsame | hempty := clearSightings_keeps hwalk
    · rwa [hsame]
    · rw [hempty]
      exact fun _ hkey => nomatch hkey
  | @stopped _ _ u₁ _ _ prior _ _ hclear hwalk _ =>
    obtain ⟨-, hempty⟩ := hclear.sat clearSightings_sat u₁ (refl_of _ u₁) prior rfl
    rw [approach_keeps hwalk hempty]
    exact fun _ hkey => nomatch hkey
  | swept _ hstart hwalk _ =>
    intro key hkey
    exact ⟨_, rfl, sweep_keeps hwalk (untilSweep_facts hstart).2.1 key hkey⟩

end Sequences

/-- A marker that the sweep of orphans takes away has no owner missing from one run only: this run
missed an owner of it, and so did the run before. A denial has to be on file when the run lists the
denials. -/
theorem two_sightings {w u u₁ v v' : World} {last : Option LiveView} {ctx : RunContext}
    {s : SweepStart} {c : StoreCall} {k : Except Fault c.Answer → Op (Finset GcKey)}
    {r : Except Fault c.Answer} {K : Marker} (hruns : SweptRuns w last u)
    (hstart : Walk machine.faulty Beside (untilSweep ctx) u (.ret s) u₁)
    (hsweep : Walk machine.faulty Beside s.orphans u₁ (.call c k) v) (hout : machine.faulty c v r v')
    (hfile : K.OnFile v) (hgone : ¬ K.OnFile v') (hlisted : s.Listed K) :
    s.Exempt K ∨ s.live.Misses K ∧ ∃ before, last = some before ∧ before.Misses K := by
  obtain ⟨hprior, -, hcovers⟩ := untilSweep_facts hstart
  have hsound : s.Sound c := (hsweep.calls SweepStart.orphans_sound).1
  have hcovers : s.Covers v := by
    refine hsweep.keeps (J := s.Covers) (fun _ _ h hR => h.bears hR) (fun c v r v' hc hout h m hm => ?_)
      SweepStart.orphans_sound hcovers
    exact h m (eligible_shrinks hc.writes hout m hm)
  have hremoves : Removes c K := by
    obtain ⟨-, rfl⟩ | ⟨e, -, rfl | rfl⟩ := hout
    · exact removes_of_gone hfile hgone
    · exact (hgone hfile).elim
    · exact removes_of_gone hfile hgone
  obtain hexempt | ⟨hmissed, hstaged⟩ := hsound.removes v K hcovers hremoves hfile hlisted
  · exact .inl hexempt
  · rw [hprior] at hstaged
    obtain ⟨before, hlast, hbefore⟩ := hruns.staged _ hstaged
    exact .inr ⟨hmissed.misses, before, hlast, hbefore.misses⟩

def fleetWorker (id : String) : Client := ⟨⟨id⟩, .approved, {}, ∅⟩

def rosterWorld : World :=
  let workers := ["first", "second", "third"]
  let fleet := workers.foldl (fun s id => s.put (fleetWorker id)) World.empty.fleet
  { World.empty with
    queue := ⟨(∅ : FileTree _ _).insert (.avail ⟨⟨"job"⟩, .never⟩) (.obj [("job_id", .str "job"),
      ("clients", .arr (workers.map .str)), ("spec", .obj [("benchmark", .str "bench")])])⟩
    notes := { World.empty.notes with
      denied := (∅ : FileTree _ _).insert (⟨"job"⟩, ⟨"left"⟩) ()
      suspended := (∅ : FileTree _ _).insert ⟨"left"⟩ ⟨"job"⟩ }
    fleet := { fleet with
      permissions := workers.foldl (fun t id => t.insert ⟨id⟩ {.performWork}) ∅ } }

inductive SweepParty
  | run (now : Instant)
  | claim (id : String)
  | retag (id : String)
  | deny (id : String)
deriving DecidableEq

namespace SweepParty

def context (now : Instant) : RunContext := ⟨fun _ => true, ⟨10, 3⟩, now⟩

def program : SweepParty → Op Unit
  | run now => Pipette.run (context now)
  | claim id => (Pipette.claim ⟨60, 3⟩ 5 (fleetWorker id) fun _ => 0).void
  | retag id => (updateOwnClient (fleetWorker id) { capabilities := some {"tools"} }).void
  | deny id => submitBenchmark ⟨60, 3⟩ 5 [] ⟨id⟩ ⟨⟨"job"⟩, .failure true, .null⟩ false true

/-- A run in which the worker takes the job before `avail/` is listed, and puts it back before
`leased/` is. Of the run, `n` calls follow. -/
def missing (now : Instant) (id : String) (n : Nat) : List SweepParty :=
  .replicate 5 (run now) ++ .replicate 11 (claim id) ++ [run now] ++ .replicate 18 (retag id) ++
    .replicate n (run now)

def played (schedule : List SweepParty) : Pool Stores World SweepParty fun _ => Unit :=
  (Pool.mk rosterWorld program).play machine (.replicate 60 (run 5) ++ schedule)

end SweepParty

theorem SweptRuns.alone {w u u₁ : World} {last : Option LiveView} {ctx : RunContext} {s : SweepStart}
    (h : SweptRuns w last u) (hexec : (untilSweep ctx).exec machine u = (.ok s, u₁)) :
    SweptRuns w (some s.live) ((run ctx).exec machine u).2 := by
  have hclean : ∀ c u r v, Machine.clean machine c u r v → machine.faulty c u r v :=
    fun _ _ _ _ hout => .inl hout
  obtain ⟨q, hrest, -⟩ := Walk.exec (R := Beside) hclean (s.orphans.bind (s.rest ctx)) u₁
  rw [run_eq_untilSweep, exec_bind, hexec]
  exact .swept h (Walk.exec_ok hclean hexec) hrest

/-- The runs left to themselves: the first one stages the suspension, and the second one takes it
away. Both miss the client. -/
theorem two_sightings_suspension :
    let K := Marker.suspended ⟨"left"⟩
    let first := untilSweep (SweepParty.context 5)
    let second := untilSweep (SweepParty.context 6)
    let w := ((run (SweepParty.context 5)).exec machine rosterWorld).2
    K.OnFile w ∧ ¬ K.OnFile ((run (SweepParty.context 6)).exec machine w).2 ∧
      ∃ before s, (first.exec machine rosterWorld).1 = .ok before ∧ (second.exec machine w).1 = .ok s ∧
        s.live.Misses K ∧ before.live.Misses K := by
  intro K first second w
  have hclean : ∀ c u r v, Machine.clean machine c u r v → machine.faulty c u r v :=
    fun _ _ _ _ hout => .inl hout
  have hall : ∀ (p : Op SweepStart) (u : World), (p.exec machine u).1.isOk = true →
      ∃ s, p.exec machine u = (.ok s, (p.exec machine u).2) := by
    intro p u hok
    cases hexec : p.exec machine u with
    | mk r u₁ =>
      rw [hexec] at hok
      cases r with
      | error e => cases hok
      | ok s => exact ⟨s, rfl⟩
  obtain ⟨before, hbefore⟩ := hall first rosterWorld (by decide +kernel)
  obtain ⟨s, hs⟩ := hall second w (by decide +kernel)
  have hgone : ¬ K.OnFile (s.orphans.exec machine (second.exec machine w).2).2 := by
    have hswept : ¬ K.OnFile ((second.bind (·.orphans)).exec machine w).2 := by decide +kernel
    rw [exec_bind, hs] at hswept
    exact hswept
  obtain ⟨c, k, v, hsweep, hfile, hgone⟩ := Walk.exec_breaks (R := Beside) (J := K.OnFile) hclean
    (by decide +kernel) hgone
  obtain hexempt | ⟨hmisses, _, ⟨⟩, hmissed⟩ := two_sightings (SweptRuns.alone (.start rfl) hbefore)
    (Walk.exec_ok hclean hs) hsweep (.inl ⟨rfl, rfl⟩) hfile hgone trivial
  · exact hexempt.elim
  · exact ⟨by decide +kernel, by decide +kernel, before, s, congrArg Prod.fst hbefore,
      congrArg Prod.fst hs, hmisses, hmissed⟩

/-- A run that misses the job deletes a denial written after its listing, though the run before saw
the job and the client. And a run that misses the job deletes an eligible marker for the sighting of
a run two before, because the one between was stopped before it cleared the sightings. -/
theorem sweep_takes_marker_of_live_owners :
    let t := SweepParty.played (SweepParty.missing 6 "first" 20 ++
      .replicate 11 (.claim "third") ++ .replicate 9 (.deny "third"))
    let t' := t.advance machine (.run 6)
    let s := SweepParty.played (SweepParty.missing 6 "first" 60 ++ [.run 7] ++
      SweepParty.missing 8 "second" 19)
    let s' := s.advance machine (.run 8)
    (Marker.denied ⟨"job"⟩ ⟨"third"⟩).OnFile t.world ∧
      ¬ (Marker.denied ⟨"job"⟩ ⟨"third"⟩).OnFile t'.world ∧
      (Marker.eligible ⟨⟨"third"⟩, ⟨"job"⟩, .never⟩).OnFile s.world ∧
      ¬ (Marker.eligible ⟨⟨"third"⟩, ⟨"job"⟩, .never⟩).OnFile s'.world ∧
      (∀ u ∈ [t.world, t'.world, s.world, s'.world],
        u.queue.files.keys.filterMap (·.queued) = [⟨⟨"job"⟩, .never⟩] ∧
          (u.fleet.clients.lookup ⟨"third"⟩).isSome) ∧
      ((untilSweep (SweepParty.context 5)).exec machine rosterWorld).1.toOption.any fun first =>
        ⟨"job"⟩ ∈ first.live.jobs ∧ ⟨"third"⟩ ∈ first.live.clients := by
  decide +kernel

end Pipette
