import Pipette.System.TwoSightings
import Pipette.System.ListedQueue
import Pipette.System.ProfileChange

/-! After a run that nobody disturbs, the backlog of a client counts the jobs a claim of that client
can get. The run lists, sweeps and counts; the claim ranks, filters and retries on reads of its own. -/
namespace Pipette

open Prog

def World.registered (w : World) : List ClientId :=
  (w.fleet.clients.entries.map (·.2)).map (·.clientId)

def TenantsRegistered (w : World) : Prop :=
  ∀ l, (w.queue.files.lookup (.leased l)).isSome → l.clientId ∈ w.registered

theorem MaintenanceCall.registered {c : StoreCall} {w : World} (h : MaintenanceCall c) :
    (machine c w).2.registered = w.registered := by
  cases c with
  | fleet c => cases c <;> first | rfl | exact h.elim
  | _ => rfl

theorem MaintenanceCall.tenants {c : StoreCall} {w : World} (h : MaintenanceCall c)
    (hw : TenantsRegistered w) : TenantsRegistered (machine c w).2 := by
  intro l hl
  rw [h.registered]
  refine hw l (Option.isSome_iff_ne_none.mpr fun hnone => ?_)
  rw [show (machine c w).2.queue.files.lookup (.leased l) = none from h.notHeld hnone] at hl
  cases hl

structure SweepStart.Current (s : SweepStart) (w : World) : Prop where
  shows : Shows s.view.keys w
  live : ∀ k ∈ s.view.keys, k.jobId ∈ s.view.live
  clients : s.clients.map (·.clientId) = w.registered
  eligible : ∀ m, m ∈ s.eligible ↔ (w.index.eligible.lookup m).isSome
  nodup : s.eligible.Nodup
  denied : ∀ mark, mark ∈ s.denied ↔ (w.notes.denied.lookup mark).isSome

theorem IndexingCall.leavesQueue {c : StoreCall} (h : IndexingCall c) : LeavesQueue c := by
  cases c with
  | queue c => cases c <;> first | exact h.elim | trivial
  | _ => trivial

section Listings

variable {ctx : RunContext} {view : QueueView} {prior : Finset GcKey} {w : World}

theorem listMarkers_current :
    (listMarkers view).Yields machine (fun found w' => w'.queue = w.queue ∧ w'.fleet = w.fleet ∧
      found.1.Nodup ∧ (∀ m, m ∈ found.1 ↔ (w'.index.eligible.lookup m).isSome) ∧
      ∀ mark, mark ∈ found.2 ↔ (w'.notes.denied.lookup mark).isSome) w := by
  refine .store_bind ?_
  refine .bind (Q := fun _ w' => w'.queue = w.queue ∧ w'.fleet = w.fleet ∧
    ∀ m, (w'.index.eligible.lookup m).isSome ↔
      (w.index.eligible.lookup m).isSome ∧ m.jobId ∉ view.withheld) ?_ fun _ w' hw' => ?_
  · let J := fun (rest : List EligibleMarker) (w' : World) => w'.queue = w.queue ∧
      w'.fleet = w.fleet ∧ (∀ m ∈ rest, m.jobId ∈ view.withheld) ∧
      (∀ m, (w'.index.eligible.lookup m).isSome →
        (w.index.eligible.lookup m).isSome ∧ (m.jobId ∈ view.withheld → m ∈ rest)) ∧
      ∀ m, (w.index.eligible.lookup m).isSome → m.jobId ∉ view.withheld →
        (w'.index.eligible.lookup m).isSome
    have hloop := Yields.forM_rest (m := machine) (J := J) (w := w)
      ((machine (.index .listAllEligible) w).1.filter fun m => m.jobId ∈ view.withheld)
      (f := fun m => Op.index (.deleteEligible m)) ?_ ?_
    · refine hloop.mono fun _ w' hw' => ⟨hw'.1, hw'.2.1, fun m => ⟨fun hm => ?_, fun hm => ?_⟩⟩
      · obtain ⟨hfile, hrest⟩ := hw'.2.2.2.1 m hm
        exact ⟨hfile, fun hwithheld => by cases hrest hwithheld⟩
      · exact hw'.2.2.2.2 m hm.1 hm.2
    · rintro a rest w' ⟨hqueue, hfleet, hrest, hfrom, hkept⟩
      refine .store ⟨hqueue, hfleet, fun m hm => hrest m (List.mem_cons_of_mem _ hm), fun m hm => ?_,
        fun m hm hwithheld => ?_⟩
      · simp only [machine, IndexCall.step, FileTree.lookup_remove] at hm
        split at hm
        · cases hm
        · next hne =>
          obtain ⟨hfile, hmem⟩ := hfrom m hm
          exact ⟨hfile, fun hw => (List.mem_cons.mp (hmem hw)).resolve_left hne⟩
      · have hne : m ≠ a := fun h => hwithheld (h ▸ hrest a List.mem_cons_self)
        simp only [machine, IndexCall.step, FileTree.lookup_remove, if_neg hne]
        exact hkept m hm hwithheld
    · refine ⟨rfl, rfl, fun m hm => ?_, fun m hm => ⟨hm, fun hwithheld => ?_⟩, fun m hm _ => hm⟩
      · simpa using (List.mem_filter.mp hm).2
      · exact List.mem_filter.mpr ⟨FileTree.mem_keys_iff.mpr hm, by simpa using hwithheld⟩
  · obtain ⟨hqueue, hfleet, heligible⟩ := hw'
    refine .store_bind (.ret ⟨hqueue, hfleet, ?_, fun m => ?_, fun mark => FileTree.mem_keys_iff⟩)
    · exact (AList.keys_nodup _).filter _
    · refine List.mem_filter.trans (.trans (and_congr FileTree.mem_keys_iff ?_) (heligible m).symm)
      exact decide_eq_true_iff

theorem untilSweep_current (hone : w.queue.OneEntry) :
    (untilSweep ctx).Yields machine (fun s w => s.Current w) w := by
  have hkeep : ∀ (c : StoreCall) (w : World), LeavesQueue c → w.queue.OneEntry →
      (machine c w).2.queue.OneEntry := fun c w hc hw => hc.queue.symm ▸ hw
  refine .bind (.of_calls hkeep (.bind (.store trivial) fun _ => .bind (.store trivial) fun _ => .ret _)
    hone) fun prior w hone => ?_
  refine .store_bind (.store_bind ?_)
  refine .bind (.of_calls (P := SettlingCall ctx.now) (J := fun w => w.queue.OneEntry) ?_
    settleExpiredLeases_settling hone) fun recycled w hone => ?_
  · intro c w hc hw
    cases c with
    | queue c => exact (QueueCall.BySettling.keepsJobs hc).oneEntry hw
    | _ => exact hw
  refine .store_bind (.store_bind ?_)
  refine (queuePasses_shows (Shows.of_oneEntry hone)).bind fun view w hview => ?_
  refine .store_bind (.store_bind (.store_bind ?_))
  refine .bind (.of_calls (P := IndexingCall) (J := fun w' => w'.queue = w.queue ∧
    w'.registered = w.registered) (fun c w hc hw => ?_) indexPasses_indexing ⟨rfl, rfl⟩)
    fun bodies w₁ hw₁ => ?_
  · rw [hc.leavesQueue.queue, hc.maintenance.registered]
    exact hw
  refine listMarkers_current.bind fun found w₂ hw₂ => .ret ?_
  obtain ⟨hqueue, hfleet, hnodup, heligible, hdenied⟩ := hw₂
  refine ⟨hview.1.of_queue (hqueue.trans hw₁.1), hview.2, ?_, heligible, hnodup, hdenied⟩
  rw [World.registered, hfleet]
  exact hw₁.2.symm

end Listings

namespace SweepStart

def Spares (s : SweepStart) : StoreCall → Prop
  | .index (.deleteEligible m) => Sweep.staleExpiry s.view.keys m = true ∨ m.jobId ∉ s.view.live
  | .index (.deleteEligibleForClient c) => c ∉ s.clients.map (·.clientId)
  | .index (.writeEligible _) => False
  | .notes (.deleteDenied _ c) => c ∉ s.clients.map (·.clientId)
  | .notes (.deleteDeniedForJob j) => j ∉ s.view.live
  | .notes (.writeDenied _ _) => False
  | .fleet c => c.Reads
  | c => LeavesQueue c

structure Swept (s : SweepStart) (w : World) : Prop where
  shows : Shows s.view.keys w
  clients : s.clients.map (·.clientId) = w.registered
  tenants : ∀ l, (w.queue.files.lookup (.leased l)).isSome → l.clientId ∈ s.clients.map (·.clientId)
  listed : ∀ m, (w.index.eligible.lookup m).isSome → m ∈ s.eligible
  kept : ∀ m ∈ s.eligible, m.clientId ∈ s.clients.map (·.clientId) →
    Sweep.staleExpiry s.view.keys m = false → m.jobId ∈ s.view.live →
      (w.index.eligible.lookup m).isSome
  denied : ∀ j ∈ s.view.live, ∀ c ∈ s.clients.map (·.clientId),
    ((w.notes.denied.lookup (j, c)).isSome ↔ (j, c) ∈ s.denied)

def NoneStale (s : SweepStart) (w : World) : Prop :=
  ∀ m, (w.index.eligible.lookup m).isSome → m.clientId ∈ s.clients.map (·.clientId) →
    Sweep.staleExpiry s.view.keys m = false

variable {s : SweepStart} {c : StoreCall} {w : World}

theorem Current.swept (h : s.Current w) (htenants : TenantsRegistered w) : s.Swept w where
  shows := h.shows
  clients := h.clients
  tenants l hl := h.clients.symm ▸ htenants l hl
  listed m hm := (h.eligible m).mpr hm
  kept m hm _ _ _ := (h.eligible m).mp hm
  denied j _ c _ := (h.denied (j, c)).symm

theorem Spares.leavesQueue (h : s.Spares c) : LeavesQueue c := by
  cases c with
  | queue c => exact h
  | _ => trivial

theorem Spares.registered (h : s.Spares c) : (machine c w).2.registered = w.registered := by
  cases c with
  | fleet c => cases c <;> first | rfl | exact h.elim
  | _ => rfl

theorem Spares.shrinks (h : s.Spares c) (m : EligibleMarker)
    (hm : ((machine c w).2.index.eligible.lookup m).isSome) : (w.index.eligible.lookup m).isSome :=
  eligible_shrinks (r := .ok (machine c w).1) (fun m hc => by subst hc; exact h) (.inl ⟨rfl, rfl⟩) m hm

theorem Spares.kept (h : s.Spares c) {m : EligibleMarker}
    (hclient : m.clientId ∈ s.clients.map (·.clientId))
    (hfresh : Sweep.staleExpiry s.view.keys m = false) (hlive : m.jobId ∈ s.view.live)
    (hm : (w.index.eligible.lookup m).isSome) : ((machine c w).2.index.eligible.lookup m).isSome := by
  cases c with
  | index c =>
    cases c with
    | writeEligible m' => exact h.elim
    | deleteEligible m' =>
      have hne : m ≠ m' := by
        rintro rfl
        obtain hstale | hdead := h
        · rw [hfresh] at hstale
          cases hstale
        · exact hdead hlive
      simpa only [machine, IndexCall.step, FileTree.lookup_remove, if_neg hne] using hm
    | deleteEligibleForClient c =>
      have hne : m.clientId ≠ c := fun heq => h (heq ▸ hclient)
      simpa [machine, IndexCall.step, FileTree.lookup_eraseWhere, hne] using hm
    | _ => exact hm
  | _ => exact hm

theorem Spares.denied (h : s.Spares c) {j : JobId} {client : ClientId} (hlive : j ∈ s.view.live)
    (hclient : client ∈ s.clients.map (·.clientId)) :
    (machine c w).2.notes.denied.lookup (j, client) = w.notes.denied.lookup (j, client) := by
  cases c with
  | notes c =>
    cases c with
    | writeDenied j' c' => exact h.elim
    | deleteDenied j' c' =>
      have hne : (j, client) ≠ (j', c') := fun heq => h ((Prod.mk.inj heq).2 ▸ hclient)
      simp only [machine, NoteCall.step, FileTree.lookup_remove, if_neg hne]
    | deleteDeniedForJob j' =>
      have hne : j ≠ j' := fun heq => h (heq ▸ hlive)
      simp [machine, NoteCall.step, FileTree.lookup_eraseWhere, hne]
    | _ => rfl
  | _ => rfl

theorem Spares.swept (h : s.Spares c) (hw : s.Swept w) : s.Swept (machine c w).2 where
  shows := h.leavesQueue.shows hw.shows
  clients := hw.clients.trans h.registered.symm
  tenants l hl := hw.tenants l (by rwa [h.leavesQueue.queue] at hl)
  listed m hm := hw.listed m (h.shrinks m hm)
  kept m hm hclient hfresh hlive := h.kept hclient hfresh hlive (hw.kept m hm hclient hfresh hlive)
  denied j hj client hclient := by
    rw [h.denied hj hclient]
    exact hw.denied j hj client hclient

theorem Spares.noneStale (h : s.Spares c) (hw : s.NoneStale w) : s.NoneStale (machine c w).2 :=
  fun m hm hclient => hw m (h.shrinks m hm) hclient

theorem sweepMarker_swept {a : EligibleMarker} {rest : List EligibleMarker} {next : Finset GcKey}
    (hw : s.Swept w) (hrest : ∀ m, (w.index.eligible.lookup m).isSome →
      m.clientId ∈ s.clients.map (·.clientId) → Sweep.staleExpiry s.view.keys m = true →
        m ∈ a :: rest) :
    (s.sweep.sweepMarker s.view.keys next a).Yields machine (fun _ w => s.Swept w ∧
      ∀ m, (w.index.eligible.lookup m).isSome → m.clientId ∈ s.clients.map (·.clientId) →
        Sweep.staleExpiry s.view.keys m = true → m ∈ rest) w := by
  have hskip : (a.clientId ∈ s.clients.map (·.clientId) → Sweep.staleExpiry s.view.keys a = false) →
      s.Swept w ∧ ∀ m, (w.index.eligible.lookup m).isSome →
        m.clientId ∈ s.clients.map (·.clientId) → Sweep.staleExpiry s.view.keys m = true → m ∈ rest := by
    refine fun ha => ⟨hw, fun m hm hclient hstale => ?_⟩
    refine (List.mem_cons.mp (hrest m hm hclient hstale)).resolve_left ?_
    rintro rfl
    rw [ha hclient] at hstale
    cases hstale
  have hdelete : s.Spares (.index (.deleteEligible a)) →
      s.Swept (machine (.index (.deleteEligible a)) w).2 ∧
        ∀ m, ((machine (.index (.deleteEligible a)) w).2.index.eligible.lookup m).isSome →
          m.clientId ∈ s.clients.map (·.clientId) → Sweep.staleExpiry s.view.keys m = true →
            m ∈ rest := by
    refine fun hspares => ⟨hspares.swept hw, fun m hm hclient hstale => ?_⟩
    refine (List.mem_cons.mp (hrest m (hspares.shrinks m hm) hclient hstale)).resolve_left ?_
    rintro rfl
    simp [machine, IndexCall.step] at hm
  unfold Sweep.sweepMarker
  split
  · next hdead =>
    refine .ret (hskip fun hclient => ?_)
    have hlive : s.sweep.liveClients.contains a.clientId = true := List.contains_iff_mem.mpr hclient
    rw [hlive] at hdead
    cases hdead
  split
  · next hstale => exact .store_bind (.ret (hdelete (.inl hstale)))
  next hfresh =>
  have hfresh : Sweep.staleExpiry s.view.keys a = false := by simpa using hfresh
  split
  · exact .ret (hskip fun _ => hfresh)
  next hdead =>
  split
  · exact .store_bind (.ret (hdelete (.inr fun hlive => hdead (decide_eq_true hlive))))
  · exact .ret (hskip fun _ => hfresh)

theorem sweepDeadClient_spares {client : ClientId} {next : Finset GcKey}
    (hdead : client ∉ s.clients.map (·.clientId)) :
    (s.sweep.sweepDeadClient s.eligible next client).Calls s.Spares := by
  unfold Sweep.sweepDeadClient
  simp only
  split
  · exact .bind (.store hdead) fun _ => .ret _
  · exact .ret _

theorem sweepDenied_spares {next : Finset GcKey} :
    (s.sweep.sweepDenied s.denied next).Calls s.Spares := by
  refine .bind (sweepEach_calls fun mark _ hdead _ => .store ?_) fun next => .foldlM (fun next j hj => ?_) _
  · simpa [SweepStart.Spares, sweep] using hdead
  · have hdead : j ∉ s.view.live :=
      of_decide_eq_true (p := j ∉ s.view.live) (List.mem_filter.mp (List.mem_dedup.mp hj)).2
    unfold Sweep.sweepDeadJob
    simp only
    split
    · exact .bind (.store hdead) fun _ => .ret _
    · exact .ret _

theorem sweepEligible_swept {next : Finset GcKey} (hw : s.Swept w) :
    (s.sweep.sweepEligible s.view.keys s.eligible next).Yields machine
      (fun _ w => s.Swept w ∧ s.NoneStale w) w := by
  refine .bind (Q := fun _ w => s.Swept w ∧ s.NoneStale w) ?_ fun next w hw => ?_
  · have hloop := Yields.foldlM_rest (m := machine) (b := next) s.eligible
      (f := s.sweep.sweepMarker s.view.keys)
      (J := fun rest (_ : Finset GcKey) w => s.Swept w ∧ ∀ m, (w.index.eligible.lookup m).isSome →
        m.clientId ∈ s.clients.map (·.clientId) → Sweep.staleExpiry s.view.keys m = true → m ∈ rest)
      (fun m rest next w hw => sweepMarker_swept hw.1 hw.2) ⟨hw, fun m hm _ _ => hw.listed m hm⟩
    refine hloop.mono fun _ w hw => ⟨hw.1, fun m hm hclient => ?_⟩
    cases hstale : Sweep.staleExpiry s.view.keys m with
    | false => rfl
    | true => cases hw.2 m hm hclient hstale
  · refine .of_calls (fun c w hc hw => ⟨hc.swept hw.1, hc.noneStale hw.2⟩)
      (.foldlM (fun next client hclient => sweepDeadClient_spares ?_) _) hw
    simpa [sweep] using (List.mem_filter.mp (List.mem_dedup.mp hclient)).2

theorem orphans_swept (hw : s.Swept w) :
    s.orphans.Yields machine (fun _ w => s.Swept w ∧ s.NoneStale w) w := by
  have hkeep : ∀ (c : StoreCall) (w : World), s.Spares c → s.Swept w ∧ s.NoneStale w →
      s.Swept (machine c w).2 ∧ s.NoneStale (machine c w).2 :=
    fun c w hc hw => ⟨hc.swept hw.1, hc.noneStale hw.2⟩
  refine (sweepEligible_swept hw).bind fun next w hw => ?_
  refine .bind (.of_calls hkeep sweepDenied_spares hw) fun next w hw => .store_bind ?_
  refine .bind (.of_calls hkeep (sweepEach_calls fun _ _ _ _ => .store trivial) hw)
    fun next w hw => .store_bind ?_
  refine .bind (.of_calls hkeep (sweepEach_calls fun _ _ _ _ => .store trivial) hw)
    fun next w hw => .store_bind ?_
  refine .bind (.of_calls hkeep (sweepEach_calls fun _ _ _ _ => .store trivial) hw)
    fun next w hw => .store_bind ?_
  refine .bind (.of_calls hkeep (sweepEach_calls fun _ _ _ _ => .store trivial) hw)
    fun next w hw => .store_bind ?_
  refine .bind (.of_calls hkeep (sweepEach_calls fun _ _ _ _ => .store trivial) hw)
    fun next w hw => .store_bind ?_
  -- every lease has a registered holder, so none is recycled
  refine .of_calls hkeep (sweepEach_calls fun l hl hdead _ => ?_) hw
  have hclient := hw.1.tenants l (QueueState.mem_leases.mp hl)
  have hlive : s.sweep.liveClients.contains l.clientId = true := List.contains_iff_mem.mpr hclient
  rw [hlive] at hdead
  cases hdead

structure Tallied (s : SweepStart) (now : Instant) (w : World) : Prop where
  swept : s.Swept w
  noneStale : s.NoneStale w
  backlog : w.notes.backlog =
    some ⟨now, countBacklog (claimableMarkers s.eligible s.view.keys s.denied now)⟩

theorem Tallied.reconciling {now : Instant} (h : s.Tallied now w)
    (hc : ReconcilingCall c ∨ ∃ keys, c = .notes (.writeGcCandidates keys)) :
    s.Tallied now (machine c w).2 := by
  have hspares : s.Spares c := by
    obtain hc | ⟨keys, rfl⟩ := hc
    · cases c with
      | queue c => cases c <;> first | exact hc.elim | trivial
      | index c => exact hc.elim
      | notes c => exact hc.elim
      | fleet c => exact hc.elim
      | _ => trivial
    · trivial
  refine ⟨hspares.swept h.swept, hspares.noneStale h.noneStale, ?_⟩
  obtain hc | ⟨keys, rfl⟩ := hc
  · cases c with
    | notes c => exact hc.elim
    | _ => exact h.backlog
  · exact h.backlog

theorem passes_tallied {ctx : RunContext} {next : Finset GcKey} (hw : s.Swept w ∧ s.NoneStale w) :
    (s.passes ctx next).Yields machine (fun _ w => s.Tallied ctx.now w) w := by
  have hwritten : s.Spares (.notes (.writeBacklog ⟨ctx.now,
      countBacklog (claimableMarkers s.eligible s.view.keys s.denied ctx.now)⟩)) := trivial
  refine .attempt_bind (Q := fun _ w => s.Tallied ctx.now w)
    (.store trivial ⟨hwritten.swept hw.1, hwritten.noneStale hw.2, rfl⟩) fun _ w hw => ?_
  refine .of_calls (J := s.Tallied ctx.now) (fun _ _ hc hw => hw.reconciling hc) ?_ hw
  refine .bind (reconcilePlans_calls (fun _ => .inl trivial) (fun _ _ => .inl trivial)
    (fun _ => .inl trivial) (fun _ => .inl trivial) fun _ _ _ _ _ _ _ => .inl trivial) fun reconciled => ?_
  exact .bind (gcPlanIndex_calls (.inl trivial) (fun _ _ => .inl trivial)
    fun _ _ _ => .inl trivial) fun collected => .bind (.store (.inr ⟨_, rfl⟩)) fun _ => .ret _

end SweepStart

theorem run_tallied {ctx : RunContext} {w w' : World} {failed : Nat} (hone : w.queue.OneEntry)
    (htenants : TenantsRegistered w) (hdone : (runPasses ctx).exec machine w = (.ok failed, w')) :
    ∃ s : SweepStart, s.Tallied ctx.now w' ∧ s.eligible.Nodup ∧
      ∀ k ∈ s.view.keys, k.jobId ∈ s.view.live := by
  have hcalls : (untilSweep ctx).Calls MaintenanceCall := by
    have hrun : (run ctx).Calls MaintenanceCall := run_maintenance
    rw [run_eq_untilSweep] at hrun
    exact hrun.of_bind
  have hstart : (untilSweep ctx).Yields machine (fun s u => s.Current u ∧ TenantsRegistered u) w :=
    (untilSweep_current hone).and
      (.of_calls (fun _ _ hc hw => MaintenanceCall.tenants hc hw) hcalls htenants)
  rw [runPasses_eq_untilSweep] at hdone
  refine Yields.exec (Q := fun _ w' => ∃ s : SweepStart, s.Tallied ctx.now w' ∧ s.eligible.Nodup ∧
    ∀ k ∈ s.view.keys, k.jobId ∈ s.view.live) ?_ hdone
  refine hstart.bind fun s u hs => ?_
  refine (SweepStart.orphans_swept (hs.1.swept hs.2)).bind fun next v hv => ?_
  exact (SweepStart.passes_tallied hv).mono fun failed w' hw' => ⟨s, hw', hs.1.nodup, hs.1.live⟩

/-- The client has a marker for the deadline the job is in `avail/` under, which has not passed, and
has not denied the job. -/
def Claimable (now : Instant) (c : ClientId) (w : World) (j : JobId) : Prop :=
  ∃ d, (w.index.eligible.lookup ⟨c, j, d⟩).isSome ∧ (w.queue.files.lookup (.avail ⟨j, d⟩)).isSome ∧
    d.isExpired now = false ∧ w.notes.denied.lookup (j, c) = none

def Grants (cfg : Config) (now : Instant) (client : Client) (tiebreak : EligibleMarker → Nat)
    (w : World) (j : JobId) : Prop :=
  let ended := (claim cfg now client tiebreak).exec machine w
  (∃ answer, ended.1 = .ok (.claimed answer)) ∧
    ∃ l : Lease, l.jobId = j ∧ l.clientId = client.clientId ∧
      w.queue.files.lookup (.leased l) = none ∧ (ended.2.queue.files.lookup (.leased l)).isSome

/-- Nothing keeps the client from a job: no suspension, no flag, no live lease, and no vault that
refuses it. -/
structure Unhindered (now : Instant) (c : ClientId) (w : World) : Prop where
  suspension : w.notes.suspended.lookup c = none
  flag : ¬ Flagged c w
  lease : ∀ l, (w.queue.files.lookup (.leased l)).isSome → l.clientId = c → l.leaseExpiry.instant ≤ now
  vault : ∀ body, w.fleet.mayFetchJob c body = true

structure Aligned (c : ClientId) (w : World) : Prop where
  fresh : ∀ m, (w.index.eligible.lookup m).isSome → m.clientId = c → ∀ k : AvailKey,
    (w.queue.files.lookup (.avail k)).isSome → k.jobId = m.jobId → k.expiresAt = m.expiresAt
  apart : ∀ k, (w.queue.files.lookup (.avail k)).isSome → ∀ l,
    (w.queue.files.lookup (.leased l)).isSome → l.jobId ≠ k.jobId

section Claim

variable {cfg : Config} {now : Instant} {client : Client} {tiebreak : EligibleMarker → Nat}
  {w : World} {j : JobId} {tags : FleetTags}

theorem claimJob_there {k : AvailKey} {c : ClientId} {e : Stamp}
    (hk : (w.queue.files.lookup (.avail k)).isSome) :
    (claimJob k c e).Lands machine (fun r w' => (∃ body, r = some body) ∧
      w' = (machine (.queue (.rename (.avail k) (.leased ⟨k.jobId, k.expiresAt, c, e⟩))) w).2) w := by
  obtain ⟨body, hbody⟩ := Option.isSome_iff_exists.mp hk
  cases hmove : w.queue.files.rename (.avail k) (.leased ⟨k.jobId, k.expiresAt, c, e⟩) with
  | none =>
    rw [FileTree.rename_eq_none.mp hmove] at hk
    cases hk
  | some files =>
    have hmoved : machine (.queue (.rename (.avail k) (.leased ⟨k.jobId, k.expiresAt, c, e⟩))) w =
        (true, { w with queue := ⟨files⟩ }) := by
      simp only [machine, QueueState.step_rename, hmove]
    have hread : files.lookup (.leased ⟨k.jobId, k.expiresAt, c, e⟩) = some body := by
      rw [FileTree.lookup_rename hmove, if_pos rfl, hbody]
    refine .store_bind ?_
    simp only [hmoved, if_true]
    refine .store_bind ?_
    simp only [machine, QueueCall.step, hread]
    exact .ret ⟨⟨body, rfl⟩, rfl⟩

theorem claimAtCurrentKey_there {c : ClientId} {d : ExpiresAt} {e : Stamp}
    (hk : (w.queue.files.lookup (.avail ⟨j, d⟩)).isSome) :
    (claimAtCurrentKey c j d e now).Lands machine (fun r w' => (∃ body, r = some (d, body)) ∧
      w' = (machine (.queue (.rename (.avail ⟨j, d⟩) (.leased ⟨j, d, c, e⟩))) w).2) w := by
  refine .bind (claimJob_there hk) fun r w' hr => ?_
  obtain ⟨⟨body, rfl⟩, rfl⟩ := hr
  exact .ret ⟨⟨body, rfl⟩, rfl⟩

theorem claimAtCurrentKey_gone {c : ClientId} {d : ExpiresAt} {e : Stamp}
    (hnone : ∀ d, w.queue.files.lookup (.avail ⟨j, d⟩) = none) :
    (claimAtCurrentKey c j d e now).Lands machine (fun r w' => r = none ∧ w' = w) w := by
  have hmove : machine (.queue (.rename (.avail ⟨j, d⟩) (.leased ⟨j, d, c, e⟩))) w = (false, w) := by
    simp only [machine, QueueState.step_rename, FileTree.rename_eq_none.mpr (hnone d)]
  have hlist : (machine (.queue (.listAvailOf j)) w).1 = [] := by
    refine List.eq_nil_iff_forall_not_mem.mpr fun d hd => ?_
    rw [mem_listAvailOf, hnone d] at hd
    cases hd
  refine .bind (Q := fun r w' => r = none ∧ w' = w) ?_ fun r w' hr => ?_
  · refine .store_bind ?_
    simp only [hmove]
    exact .ret ⟨rfl, rfl⟩
  · obtain ⟨rfl, rfl⟩ := hr
    refine .bind (Q := fun r u => r = none ∧ u = w') ?_ fun r u hr => ?_
    · refine .store_bind ?_
      rw [hlist]
      exact .ret ⟨rfl, rfl⟩
    · obtain ⟨rfl, rfl⟩ := hr
      exact .ret ⟨rfl, rfl⟩

theorem revertClaimIfVoid_stands {l : Lease} (hflag : ¬ Flagged l.clientId w)
    (hlease : ∀ l', (w.queue.files.lookup (.leased l')).isSome → l'.clientId = l.clientId →
      l'.jobId ≠ l.jobId → l'.leaseExpiry.instant ≤ now) :
    (revertClaimIfVoid l now).Lands machine (fun r w' => r = none ∧ w' = w) w := by
  have hclear : (machine (.index (.hasPendingReindex l.clientId)) w).1 = false :=
    Bool.eq_false_iff.mpr hflag
  refine .store_bind ?_
  simp only [hclear]
  refine .bind (Q := fun r w' => r = none ∧ w' = w) (.store_bind ?_) fun r w' hr => ?_
  · have hnone : (machine (.queue (.listLeasedOf l.clientId)) w).1.find?
        (fun l' => l'.jobId ≠ l.jobId && now < l'.leaseExpiry.instant) = none := by
      refine List.find?_eq_none.mpr fun l' hl' => ?_
      obtain ⟨hfile, hclient⟩ := List.mem_filter.mp hl'
      have hlapsed := hlease l' (QueueState.mem_leases.mp hfile) (by simpa using hclient)
      simpa using hlapsed
    have hsame : (machine (.index (.hasPendingReindex l.clientId)) w).2 = w := rfl
    rw [hsame, hnone]
    exact .ret ⟨rfl, rfl⟩
  · obtain ⟨rfl, rfl⟩ := hr
    exact .ret ⟨rfl, rfl⟩

theorem revertClaimIfOutOfVaultReach_stands {l : Lease} {body : Json}
    (h : w.fleet.mayFetchJob l.clientId body = true) :
    (revertClaimIfOutOfVaultReach l body).Lands machine (fun r w' => r = false ∧ w' = w) w := by
  refine .attempt_bind (Q := fun r w' => r = true ∧ w' = w) (.store ⟨h, rfl⟩) fun r w' hr => ?_
  obtain ⟨rfl, rfl⟩ := hr
  exact .ret ⟨rfl, rfl⟩

def World.taking (w : World) (cfg : Config) (now : Instant) (c : ClientId) (m : EligibleMarker) : World :=
  (machine (.queue (.rename (.avail ⟨m.jobId, m.expiresAt⟩)
    (.leased ⟨m.jobId, m.expiresAt, c, cfg.leaseExpiryFrom now⟩))) w).2

theorem taking_leased {c : ClientId} {m : EligibleMarker} {l : Lease}
    (h : ((w.taking cfg now c m).queue.files.lookup (.leased l)).isSome) :
    l = ⟨m.jobId, m.expiresAt, c, cfg.leaseExpiryFrom now⟩ ∨
      (w.queue.files.lookup (.leased l)).isSome := by
  simp only [World.taking, machine, QueueState.step_rename] at h
  split at h
  · next files hmove =>
    simp only [FileTree.lookup_rename hmove, QueuePath.leased.injEq] at h
    split at h
    · next heq => exact .inl heq
    · exact .inr (by simpa using h)
  · exact .inr h

theorem claimFirst_lands (hfree : Unhindered now client.clientId w)
    (halign : Aligned client.clientId w) {ms : List EligibleMarker}
    (hms : ∀ m ∈ ms, m.clientId = client.clientId ∧ (w.index.eligible.lookup m).isSome) :
    (claimFirst cfg now client tags ms).Lands machine (fun r w' =>
      (r = .noContent ∧ ∀ m ∈ ms, (w.queue.files.lookup (.avail ⟨m.jobId, m.expiresAt⟩)).isSome →
        (w.notes.denied.lookup (m.jobId, client.clientId)).isSome) ∨
      ∃ m ∈ ms, (w.queue.files.lookup (.avail ⟨m.jobId, m.expiresAt⟩)).isSome ∧
        w.notes.denied.lookup (m.jobId, client.clientId) = none ∧ (∃ answer, r = .claimed answer) ∧
        w' = w.taking cfg now client.clientId m) w := by
  induction ms with
  | nil => exact .ret (.inl ⟨rfl, nofun⟩)
  | cons m rest ih =>
    have hskip := ih fun m' hm' => hms m' (List.mem_cons_of_mem _ hm')
    -- a marker that is passed over leaves the rest to decide
    have hpassed : ((w.queue.files.lookup (.avail ⟨m.jobId, m.expiresAt⟩)).isSome →
        (w.notes.denied.lookup (m.jobId, client.clientId)).isSome) →
        (claimFirst cfg now client tags rest).Lands machine (fun r w' =>
          (r = .noContent ∧ ∀ m' ∈ m :: rest,
            (w.queue.files.lookup (.avail ⟨m'.jobId, m'.expiresAt⟩)).isSome →
              (w.notes.denied.lookup (m'.jobId, client.clientId)).isSome) ∨
          ∃ m' ∈ m :: rest, (w.queue.files.lookup (.avail ⟨m'.jobId, m'.expiresAt⟩)).isSome ∧
            w.notes.denied.lookup (m'.jobId, client.clientId) = none ∧
            (∃ answer, r = .claimed answer) ∧ w' = w.taking cfg now client.clientId m') w := by
      refine fun hm => hskip.mono fun r w' h => ?_
      obtain ⟨hr, hrest⟩ | ⟨m', hm', h⟩ := h
      · exact .inl ⟨hr, List.forall_mem_cons.mpr ⟨hm, hrest⟩⟩
      · exact .inr ⟨m', List.mem_cons_of_mem _ hm', h⟩
    refine .store_bind ?_
    cases hdenied : w.notes.denied.lookup (m.jobId, client.clientId) with
    | some u =>
      have hanswer : (machine (.notes (.isDenied m.jobId client.clientId)) w).1 = true := by
        simp only [machine, NoteCall.step, hdenied, Option.isSome_some]
      rw [hanswer]
      exact hpassed fun _ => by rw [hdenied]; rfl
    | none =>
      have hanswer : (machine (.notes (.isDenied m.jobId client.clientId)) w).1 = false := by
        simp only [machine, NoteCall.step, hdenied, Option.isSome_none]
      rw [hanswer]
      obtain ⟨hclient, hfile⟩ := hms m List.mem_cons_self
      by_cases hthere : (w.queue.files.lookup (.avail ⟨m.jobId, m.expiresAt⟩)).isSome
      · refine .bind (claimAtCurrentKey_there hthere) fun r w' hr => ?_
        obtain ⟨⟨body, rfl⟩, rfl⟩ := hr
        refine .bind (revertClaimIfVoid_stands hfree.flag fun l hl hown hne => ?_) fun r w' hr => ?_
        · obtain rfl | hl := taking_leased hl
          · exact (hne rfl).elim
          · exact hfree.lease l hl hown
        obtain ⟨rfl, rfl⟩ := hr
        refine .bind (revertClaimIfOutOfVaultReach_stands (hfree.vault body)) fun r w' hr => ?_
        obtain ⟨rfl, rfl⟩ := hr
        exact .ret (.inr ⟨m, List.mem_cons_self, hthere, hdenied, ⟨_, rfl⟩, rfl⟩)
      · have hnone : ∀ d, w.queue.files.lookup (.avail ⟨m.jobId, d⟩) = none := by
          intro d
          by_contra hd
          have hd := Option.isSome_iff_ne_none.mpr hd
          have heq : d = m.expiresAt := halign.fresh m hfile hclient ⟨m.jobId, d⟩ hd rfl
          exact hthere (heq ▸ hd)
        refine .bind (claimAtCurrentKey_gone hnone) fun r w' hr => ?_
        obtain ⟨rfl, rfl⟩ := hr
        exact hpassed fun h => (hthere h).elim

theorem claimNew_lands (cfg : Config) (tiebreak : EligibleMarker → Nat)
    (hfree : Unhindered now client.clientId w) (halign : Aligned client.clientId w)
    (taken : List JobId)
    (htaken : ∀ j ∈ taken, ∀ d, w.queue.files.lookup (.avail ⟨j, d⟩) = none) :
    (claimNew cfg now client tiebreak taken).Lands machine (fun r w' =>
      (r = .noContent ∧ ∀ j, ¬ Claimable now client.clientId w j) ∨
      ∃ m, (w.queue.files.lookup (.avail ⟨m.jobId, m.expiresAt⟩)).isSome ∧
        Claimable now client.clientId w m.jobId ∧ (∃ answer, r = .claimed answer) ∧
        w' = w.taking cfg now client.clientId m) w := by
  have hlisted : ∀ m, m ∈ (machine (.index (.listEligibleForClient client.clientId)) w).1 ↔
      (w.index.eligible.lookup m).isSome ∧ m.clientId = client.clientId := fun m => by
    simp only [machine, IndexCall.step, List.mem_filter, FileTree.mem_keys_iff, decide_eq_true_eq]
  refine .store_bind ?_
  split
  · next hempty =>
    refine .ret (.inl ⟨rfl, ?_⟩)
    rintro j ⟨d, hmarker, -⟩
    have hmem := (hlisted ⟨client.clientId, j, d⟩).mpr ⟨hmarker, rfl⟩
    rw [List.isEmpty_iff.mp hempty] at hmem
    cases hmem
  · refine .store_bind ?_
    set candidates := (machine (.index (.listEligibleForClient client.clientId)) w).1
    set ranked := rankCandidates tiebreak
      (candidates.filter fun m => !taken.contains m.jobId && !m.expiresAt.isExpired now) with hdef
    have hranked : ∀ m, m ∈ ranked ↔ (w.index.eligible.lookup m).isSome ∧
        m.clientId = client.clientId ∧ m.jobId ∉ taken ∧ m.expiresAt.isExpired now = false := by
      intro m
      rw [hdef, rankCandidates, List.mem_insertionSort, List.mem_filter, hlisted]
      simp [and_assoc]
    refine (claimFirst_lands hfree halign fun m hm => ?_).mono fun r w' h => ?_
    · obtain ⟨hfile, hown, -⟩ := (hranked m).mp hm
      exact ⟨hown, hfile⟩
    obtain ⟨hr, hdenied⟩ | ⟨m, hm, hthere, hdenied, hr, hw'⟩ := h
    · refine .inl ⟨hr, ?_⟩
      rintro j ⟨d, hmarker, hthere, hopen, hnot⟩
      have hmem : (⟨client.clientId, j, d⟩ : EligibleMarker) ∈ ranked := by
        refine (hranked _).mpr ⟨hmarker, rfl, fun hj => ?_, hopen⟩
        rw [htaken j hj d] at hthere
        cases hthere
      have hmark := hdenied _ hmem hthere
      rw [hnot] at hmark
      cases hmark
    · obtain ⟨hfile, hown, -, hopen⟩ := (hranked m).mp hm
      refine .inr ⟨m, hthere, ⟨m.expiresAt, ?_, hthere, hopen, hdenied⟩, hr, hw'⟩
      rw [← hown]
      exact hfile

theorem claim_lands (cfg : Config) (tiebreak : EligibleMarker → Nat)
    (hfree : Unhindered now client.clientId w) (halign : Aligned client.clientId w) :
    (claim cfg now client tiebreak).Lands machine (fun r w' =>
      (r = .noContent ∧ ∀ j, ¬ Claimable now client.clientId w j) ∨
      ∃ m, (w.queue.files.lookup (.avail ⟨m.jobId, m.expiresAt⟩)).isSome ∧
        Claimable now client.clientId w m.jobId ∧ (∃ answer, r = .claimed answer) ∧
        w' = w.taking cfg now client.clientId m) w := by
  have hsuspended : (machine (.notes (.readSuspension client.clientId)) w).1 = none := hfree.suspension
  have hclear : (machine (.index (.hasPendingReindex client.clientId)) w).1 = false :=
    Bool.eq_false_iff.mpr hfree.flag
  refine .store_bind ?_
  simp only [hsuspended, Option.isSome_none]
  refine .store_bind ?_
  change Lands machine (if (machine (.index (.hasPendingReindex client.clientId)) w).1 then _ else _) _ _
  rw [hclear]
  refine .store_bind ?_
  set live := (machine (.queue .listLeased) w).1.filter fun l => now < l.leaseExpiry.instant with hdef
  have hlive : ∀ l ∈ live, (w.queue.files.lookup (.leased l)).isSome ∧ now < l.leaseExpiry.instant := by
    intro l hl
    obtain ⟨hfile, hopen⟩ := List.mem_filter.mp hl
    exact ⟨QueueState.mem_leases.mp hfile, by simpa using hopen⟩
  have hown : live.filter (·.clientId = client.clientId) = [] := by
    refine List.filter_eq_nil_iff.mpr fun l hl hown => ?_
    obtain ⟨hfile, hopen⟩ := hlive l hl
    have hlapsed := hfree.lease l hfile (by simpa using hown)
    exact absurd hopen (not_lt.mpr hlapsed)
  have hnone : (ownLive client.clientId live).entries = [] := by
    rw [ownLive, hown]
    rfl
  have hnew := claimNew_lands cfg tiebreak hfree halign
    ((live.filter (·.clientId ≠ client.clientId)).map (·.jobId)) fun j hj d => ?_
  · have hread : (machine (.notes (.readSuspension client.clientId)) w).2 = w := rfl
    have hasked : (machine (.index (.hasPendingReindex client.clientId)) w).2 = w := rfl
    rw [hread, hasked, ← hdef, hnone]
    exact hnew
  · obtain ⟨l, hl, rfl⟩ := List.mem_map.mp hj
    obtain ⟨hfile, -⟩ := hlive l (List.mem_of_mem_filter hl)
    by_contra hthere
    exact halign.apart ⟨l.jobId, d⟩ (Option.isSome_iff_ne_none.mpr hthere) l hfile rfl

theorem Claimable.of_grants (hfree : Unhindered now client.clientId w)
    (halign : Aligned client.clientId w) (h : Grants cfg now client tiebreak w j) :
    Claimable now client.clientId w j := by
  obtain ⟨r, w', hexec, hend⟩ := claim_lands cfg tiebreak hfree halign
  obtain ⟨⟨answer, hanswer⟩, l, rfl, -, hbefore, hafter⟩ := h
  rw [hexec] at hanswer hafter
  obtain ⟨rfl, -⟩ | ⟨m, -, hclaimable, -, rfl⟩ := hend
  · cases hanswer
  obtain rfl | hheld := taking_leased hafter
  · exact hclaimable
  · rw [hbefore] at hheld
    cases hheld

theorem exists_grants (cfg : Config) (tiebreak : EligibleMarker → Nat) (hfree : Unhindered now client.clientId w)
    (halign : Aligned client.clientId w) (h : Claimable now client.clientId w j) :
    ∃ j, Grants cfg now client tiebreak w j := by
  obtain ⟨r, w', hexec, hend⟩ := claim_lands cfg tiebreak hfree halign
  obtain ⟨-, hnone⟩ | ⟨m, hthere, hclaimable, ⟨answer, rfl⟩, rfl⟩ := hend
  · exact (hnone j h).elim
  let l : Lease := ⟨m.jobId, m.expiresAt, client.clientId, cfg.leaseExpiryFrom now⟩
  refine ⟨m.jobId, ⟨answer, by rw [hexec]⟩, l, rfl, rfl, ?_, ?_⟩
  · by_contra hheld
    exact halign.apart _ hthere l (Option.isSome_iff_ne_none.mpr hheld) rfl
  · rw [hexec]
    simp only [World.taking, machine, QueueState.step_rename]
    cases hmove : w.queue.files.rename (.avail ⟨m.jobId, m.expiresAt⟩) (.leased l) with
    | none =>
      rw [FileTree.rename_eq_none.mp hmove] at hthere
      cases hthere
    | some files => simpa only [FileTree.lookup_rename hmove, if_true] using hthere

/-- The world without the client's markers for some jobs: what a claim works with that has missed
them. -/
def World.hiding (w : World) (c : ClientId) (hidden : JobId → Bool) : World :=
  { w with index := { w.index with
    eligible := w.index.eligible.eraseWhere fun m => m.clientId = c && hidden m.jobId } }

theorem claimable_hiding {c : ClientId} {hidden : JobId → Bool} :
    Claimable now c (w.hiding c hidden) j ↔ Claimable now c w j ∧ hidden j = false := by
  unfold Claimable World.hiding
  simp only [FileTree.lookup_eraseWhere, decide_true, Bool.true_and]
  cases hidden j <;> simp

theorem Unhindered.hiding {c : ClientId} {hidden : JobId → Bool} (h : Unhindered now c w) :
    Unhindered now c (w.hiding c hidden) :=
  ⟨h.suspension, h.flag, h.lease, h.vault⟩

theorem Aligned.hiding {c : ClientId} {hidden : JobId → Bool} (h : Aligned c w) :
    Aligned c (w.hiding c hidden) := by
  refine ⟨fun m hm => h.fresh m ?_, h.apart⟩
  simp only [World.hiding, FileTree.lookup_eraseWhere] at hm
  split at hm
  · cases hm
  · exact hm

/-- The claims that may have missed some of the client's markers get the claimable jobs, and no
other. -/
theorem exists_hiding_grants (hfree : Unhindered now client.clientId w)
    (halign : Aligned client.clientId w) :
    (∃ tiebreak hidden, Grants cfg now client tiebreak (w.hiding client.clientId hidden) j) ↔
      Claimable now client.clientId w j := by
  constructor
  · rintro ⟨tiebreak, hidden, h⟩
    exact (claimable_hiding.mp (Claimable.of_grants hfree.hiding halign.hiding h)).1
  · intro h
    have honly : Claimable now client.clientId (w.hiding client.clientId fun j' => j' ≠ j) j :=
      claimable_hiding.mpr ⟨h, by simp⟩
    obtain ⟨j', hj'⟩ := exists_grants cfg (fun _ => 0) hfree.hiding
      halign.hiding honly
    have hsame := (claimable_hiding.mp (Claimable.of_grants hfree.hiding halign.hiding hj')).2
    obtain rfl : j' = j := by simpa using hsame
    exact ⟨_, _, hj'⟩

end Claim

def BacklogSnapshot.countOf (s : BacklogSnapshot) (c : ClientId) : Nat := (s.jobs.lookup c).getD 0

theorem lookup_countBacklog {claimable : List EligibleMarker} {c : ClientId} :
    ((countBacklog claimable).lookup c).getD 0 = (claimable.filter (·.clientId = c)).length := by
  have hlookup : ∀ (cs : List ClientId) (count : ClientId → Nat),
      ((cs.map fun c => (c, count c)).lookup c).getD 0 = if c ∈ cs then count c else 0 := by
    intro cs count
    induction cs with
    | nil => rfl
    | cons c' cs ih =>
      rw [List.map_cons, List.lookup_cons]
      by_cases heq : c = c'
      · simp [heq]
      · rw [beq_eq_false_iff_ne.mpr heq]
        simp [heq, ih]
  rw [countBacklog, hlookup]
  split
  · rfl
  · next hnone =>
    symm
    refine List.length_eq_zero_iff.mpr (List.filter_eq_nil_iff.mpr fun m hm hown => hnone ?_)
    rw [List.mem_dedup, ← of_decide_eq_true hown]
    exact List.mem_map_of_mem hm

theorem availExpiry_eq_some {keys : List AvailKey} {j : JobId} {d : ExpiresAt}
    (hnodup : (keys.map (·.jobId)).Nodup) :
    Sweep.availExpiry keys j = some d ↔ (⟨j, d⟩ : AvailKey) ∈ keys := by
  constructor
  · intro h
    unfold Sweep.availExpiry at h
    split at h
    · next k hk =>
      have hmem : k ∈ keys.filter (·.jobId = j) := hk ▸ List.mem_singleton_self k
      obtain ⟨hlisted, hjob⟩ := List.mem_filter.mp hmem
      rw [← of_decide_eq_true hjob, ← Option.some.inj h]
      exact hlisted
    · cases h
  · intro h
    have hfilter := filter_job_eq hnodup h
    simp only at hfilter
    rw [Sweep.availExpiry, hfilter]

namespace SweepStart

variable {s : SweepStart} {now : Instant} {w : World} {c : ClientId}

theorem Tallied.aligned (h : s.Tallied now w) (hc : c ∈ w.registered) : Aligned c w := by
  refine ⟨fun m hm hown k hk hjob => ?_, fun k hk l hl => ?_⟩
  · have hfresh := h.noneStale m hm (h.swept.clients ▸ hown ▸ hc)
    have hkey : (⟨m.jobId, k.expiresAt⟩ : AvailKey) ∈ s.view.keys := by
      rw [← hjob]
      exact (h.swept.shows.mem k).mpr hk
    rw [Sweep.staleExpiry, (availExpiry_eq_some h.swept.shows.nodup).mpr hkey] at hfresh
    simpa using hfresh
  · exact h.swept.shows.apart k ((h.swept.shows.mem k).mpr hk) l hl

theorem Tallied.claimable_iff (h : s.Tallied now w) (hlive : ∀ k ∈ s.view.keys, k.jobId ∈ s.view.live)
    (hc : c ∈ w.registered) {j : JobId} :
    Claimable now c w j ↔ ∃ m ∈ claimableMarkers s.eligible s.view.keys s.denied now,
      m.clientId = c ∧ m.jobId = j := by
  have hshows := h.swept.shows
  have hclient : c ∈ s.clients.map (·.clientId) := h.swept.clients ▸ hc
  simp only [claimableMarkers, List.mem_filter, Bool.and_eq_true, decide_eq_true_eq,
    Bool.not_eq_eq_eq_not, Bool.not_true, List.contains_eq_mem, decide_eq_false_iff_not]
  constructor
  · rintro ⟨d, hmarker, hthere, hopen, hnot⟩
    have hkey : (⟨j, d⟩ : AvailKey) ∈ s.view.keys := (hshows.mem _).mpr hthere
    refine ⟨⟨c, j, d⟩, ⟨h.swept.listed _ hmarker,
      ⟨(availExpiry_eq_some hshows.nodup).mpr hkey, hopen⟩, fun hdenied => ?_⟩, rfl, rfl⟩
    have hmark := (h.swept.denied j (hlive _ hkey) c hclient).mpr hdenied
    rw [hnot] at hmark
    cases hmark
  · rintro ⟨m, ⟨hlisted, ⟨hexpiry, hopen⟩, hnot⟩, rfl, rfl⟩
    have hkey : (⟨m.jobId, m.expiresAt⟩ : AvailKey) ∈ s.view.keys :=
      (availExpiry_eq_some hshows.nodup).mp hexpiry
    have hfresh : Sweep.staleExpiry s.view.keys m = false := by
      rw [Sweep.staleExpiry, hexpiry]
      simp
    refine ⟨m.expiresAt, h.swept.kept m hlisted hclient hfresh (hlive _ hkey), (hshows.mem _).mp hkey,
      hopen, ?_⟩
    by_contra hmark
    exact hnot ((h.swept.denied _ (hlive _ hkey) _ hclient).mp (Option.isSome_iff_ne_none.mpr hmark))

theorem nodup_claimable_jobs (hnodup : s.eligible.Nodup) :
    (((claimableMarkers s.eligible s.view.keys s.denied now).filter (·.clientId = c)).map
      (·.jobId)).Nodup := by
  refine List.Nodup.map_on (fun m hm m' hm' hjob => ?_) ((hnodup.filter _).filter _)
  have hparts : ∀ m ∈ (claimableMarkers s.eligible s.view.keys s.denied now).filter (·.clientId = c),
      Sweep.availExpiry s.view.keys m.jobId = some m.expiresAt ∧ m.clientId = c := by
    intro m hm
    simp only [claimableMarkers, List.mem_filter, Bool.and_eq_true, decide_eq_true_eq] at hm
    exact ⟨hm.1.2.1.1, hm.2⟩
  obtain ⟨hexpiry, hown⟩ := hparts m hm
  obtain ⟨hexpiry', hown'⟩ := hparts m' hm'
  rw [hjob, hexpiry'] at hexpiry
  cases m
  cases m'
  simp_all

end SweepStart

def Completes (ctx : RunContext) (w : World) : Prop :=
  ∃ failed, ((runPasses ctx).exec machine w).1 = .ok failed

/-- After a run that nobody disturbs, on a queue with one entry for each job and no lease of a client
without a record, the snapshot counts the jobs a claim of the client can get at that moment. -/
theorem backlog_agrees_with_claim {ctx : RunContext} {w : World} (hone : w.queue.OneEntry)
    (htenants : TenantsRegistered w) (hdone : Completes ctx w) (cfg : Config) (client : Client)
    (hregistered : client.clientId ∈ ((run ctx).exec machine w).2.registered)
    (hfree : Unhindered ctx.now client.clientId ((run ctx).exec machine w).2) :
    let w' := ((run ctx).exec machine w).2
    ∃ snapshot, w'.notes.backlog = some snapshot ∧ snapshot.countedAt = ctx.now ∧
      (∀ tiebreak, 1 ≤ snapshot.countOf client.clientId ↔
        ∃ j, Grants cfg ctx.now client tiebreak w' j) ∧
      ∃ jobs : Finset JobId, snapshot.countOf client.clientId = jobs.card ∧ ∀ j, j ∈ jobs ↔
        ∃ tiebreak hidden, Grants cfg ctx.now client tiebreak (w'.hiding client.clientId hidden) j := by
  intro w'
  obtain ⟨failed, hfailed⟩ := hdone
  have hexec : (runPasses ctx).exec machine w = (.ok failed, w') := by
    refine Prod.ext hfailed ?_
    change _ = ((runPasses ctx).bind reportFailed |>.exec machine w).2
    rw [exec_bind, show (runPasses ctx).exec machine w = (.ok failed, _) from Prod.ext hfailed rfl]
    simp only [reportFailed]
    split <;> rfl
  obtain ⟨s, htallied, hnodup, hlive⟩ := run_tallied hone htenants hexec
  have halign := htallied.aligned hregistered
  have hclaimable := fun j => htallied.claimable_iff (j := j) hlive hregistered
  set counted := (claimableMarkers s.eligible s.view.keys s.denied ctx.now).filter
    (·.clientId = client.clientId) with hcounted
  have hcount : (BacklogSnapshot.mk ctx.now
      (countBacklog (claimableMarkers s.eligible s.view.keys s.denied ctx.now))).countOf client.clientId =
        (counted.map (·.jobId)).toFinset.card := by
    rw [BacklogSnapshot.countOf, lookup_countBacklog, List.toFinset_card_of_nodup
      (SweepStart.nodup_claimable_jobs hnodup), List.length_map]
  have hmem : ∀ j, j ∈ (counted.map (·.jobId)).toFinset ↔ Claimable ctx.now client.clientId w' j := by
    intro j
    rw [hclaimable j, List.mem_toFinset, List.mem_map]
    simp [hcounted, List.mem_filter, and_assoc]
  refine ⟨_, htallied.backlog, rfl, fun tiebreak => ?_, _, hcount, fun j => ?_⟩
  · rw [hcount, Nat.one_le_iff_ne_zero, Finset.card_ne_zero]
    constructor
    · rintro ⟨j, hj⟩
      exact exists_grants cfg tiebreak hfree halign ((hmem j).mp hj)
    · rintro ⟨j, hj⟩
      exact ⟨j, (hmem j).mpr (Claimable.of_grants hfree halign hj)⟩
  · rw [hmem j]
    exact (exists_hiding_grants hfree halign).symm

/-- A run on the small fleet counts the job for its first worker, and a claim of that worker gets
it. -/
theorem backlog_agrees_with_claim_roster :
    let w' := ((run (SweepParty.context 5)).exec machine rosterWorld).2
    w'.notes.backlog.map (·.countOf ⟨"first"⟩) = some 1 ∧
      ∃ j, Grants ⟨60, 3⟩ 5 (fleetWorker "first") (fun _ => 0) w' j := by
  intro w'
  have hone : rosterWorld.queue.OneEntry := by
    have hfile : ∀ p k b, rosterWorld.queue.Stands p k b → p = .avail ⟨⟨"job"⟩, .never⟩ := by
      rintro p k b ⟨-, hp⟩
      have hmem : p ∈ rosterWorld.queue.files.keys := FileTree.mem_keys_iff.mpr (by rw [hp]; rfl)
      exact List.mem_singleton.mp hmem
    exact fun p q k k' b b' hp hq _ => (hfile p k b hp).trans (hfile q k' b' hq).symm
  have htenants : TenantsRegistered rosterWorld := by
    intro l hl
    have hmem : l ∈ rosterWorld.queue.leases := QueueState.mem_leases.mpr hl
    cases hmem
  have hdone : Completes (SweepParty.context 5) rosterWorld := by
    have hok : ((runPasses (SweepParty.context 5)).exec machine rosterWorld).1.isOk = true := by
      decide +kernel
    cases hresult : ((runPasses (SweepParty.context 5)).exec machine rosterWorld).1 with
    | ok failed => exact ⟨failed, hresult⟩
    | error e =>
      rw [hresult] at hok
      cases hok
  have hfree : Unhindered 5 ⟨"first"⟩ w' := by
    refine ⟨by decide +kernel, ?_, fun l hl => ?_, ?_⟩
    · change ¬ (w'.index.flags.keys.any (·.clientId = ⟨"first"⟩) = true)
      decide +kernel
    · have hnone : w'.queue.leases = [] := by decide +kernel
      have hmem : l ∈ w'.queue.leases := QueueState.mem_leases.mpr hl
      rw [hnone] at hmem
      cases hmem
    · have hcalls : (run (SweepParty.context 5)).Calls MaintenanceCall := run_maintenance
      have hkept := (Alone.invariant (m := machine) (w := rosterWorld)
        (J := fun w : World => ∀ body, w.fleet.mayFetchJob ⟨"first"⟩ body = true)
        (fun c w hc hw => ?_) hcalls fun _ => rfl).exec
      · exact hkept
      cases c with
      | fleet c => cases c <;> first | exact hw | exact hc.elim
      | _ => exact hw
  obtain ⟨snapshot, hbacklog, -, hgrants, -⟩ := backlog_agrees_with_claim hone htenants hdone ⟨60, 3⟩
    (fleetWorker "first") (by decide +kernel) hfree
  have hcount : w'.notes.backlog.map (·.countOf ⟨"first"⟩) = some 1 := by decide +kernel
  refine ⟨hcount, (hgrants fun _ => 0).mp ?_⟩
  rw [hbacklog] at hcount
  exact (Option.some.inj hcount).ge

end Pipette
