import Pipette.Api.Footprint
import Pipette.Pipeline.Run

/-! The calls each stage of a run after its queue passes can make: the index passes leave the queue
as it is, the sweep only recycles leases, and reconciliation keeps to the plans. -/
namespace Pipette

open Prog (Calls)

def IndexingCall : StoreCall → Prop
  | .queue (.read (.avail _)) => True
  | .queue _ => False
  | .index (.listEligibleForClient _) | .index .listAllEligible | .index (.writePendingReindex _)
  | .index (.hasPendingReindex _) => False
  | .index _ => True
  | .records (.tryExists _ _) => True
  | .fleet c => c.Reads
  | _ => False

def SweepingCall : StoreCall → Prop
  | .queue .listLeased | .queue (.remove (.leased _)) => True
  | .queue (.rename (.leased l) (.avail k)) => k = l.availKey
  | .queue _ => False
  | .index .listAllEligible | .index (.deleteEligible _) | .index (.deleteEligibleForClient _)
  | .index .listPendingReindex | .index (.deletePendingReindex _)
  | .index .listPendingReindexJobs | .index (.deletePendingReindexJob _) => True
  | .index _ => False
  | .notes _ => True
  | .records (.tryExists _ _) => True
  | _ => False

def ReconcilingCall : StoreCall → Prop
  | .queue (.read (.avail _)) => True
  | .records (.read _ _) => True
  | .plans _ => True
  | _ => False

structure AllowsTeardown (P : StoreCall → Prop) (j : JobId) (p : PlanId) : Prop where
  markers : P (.plans (.listJobPlanMarkers j))
  drop : ∀ d, P (.plans (.deleteJobPlanMarker j p d))
  list : P (.queue (.listAvailOf j))
  entry : ∀ d, P (.queue (.read (.avail ⟨j, d⟩))) ∧ P (.queue (.remove (.avail ⟨j, d⟩)))
  lease : ∀ l : Lease, l.jobId = j →
    P (.queue (.read (.leased l))) ∧ P (.queue (.remove (.leased l)))
  restore : ∀ d body, P (.queue (.writeTmp j body)) ∧
    P (.queue (.rename (.tmp j) (.avail ⟨j, d⟩)))
  flag : P (.index (.writePendingReindexJob j))

section Teardown

variable {P : StoreCall → Prop} {j : JobId} {p : PlanId} {entry : Option AvailKey}
  {held : List Lease}

theorem dropMembership_calls (hlist : P (.plans (.listJobPlanMarkers j)))
    (hdrop : ∀ d, P (.plans (.deleteJobPlanMarker j p d))) : (dropMembership p j).Calls P :=
  .bind (.store hlist) fun _ => .forM fun m _ => .store (hdrop m.2)

theorem bodyToRestore_calls (h : AllowsTeardown P j p) (hheld : ∀ l ∈ held, l.jobId = j) :
    (bodyToRestore j entry held).Calls P := by
  cases entry with
  | some k => exact .bind (.store (h.entry k.expiresAt).1) fun _ => .ret _
  | none =>
    cases held with
    | nil => exact .ret _
    | cons l rest =>
      exact .bind (.store (h.lease l (hheld l List.mem_cons_self)).1) fun _ => .ret _

theorem retireJob_calls {inAvail : Bool} (hlist : P (.queue (.listAvailOf j)))
    (hentry : ∀ d, P (.queue (.remove (.avail ⟨j, d⟩))))
    (hlease : ∀ l ∈ held, P (.queue (.remove (.leased l)))) : (retireJob j inAvail held).Calls P := by
  have hleases : (held.forM deleteLease).Calls P :=
    .forM fun l hl => .void (.store (hlease l hl))
  cases inAvail with
  | true => exact .bind (deleteAvailByJob_calls hlist hentry) fun _ => hleases
  | false => exact hleases

theorem endMembership_calls (h : AllowsTeardown P j p) (hheld : ∀ l ∈ held, l.jobId = j) :
    (endMembership p j entry held).Calls P := by
  have hretire : ∀ inAvail, (retireJob j inAvail held).Calls P := fun inAvail =>
    retireJob_calls h.list (fun d => (h.entry d).2) fun l hl => (h.lease l (hheld l hl)).2
  refine .bind (dropMembership_calls h.markers (h.drop)) fun _ =>
    .bind (.store h.markers) fun remaining => ?_
  split
  · exact .ret _
  refine .bind (bodyToRestore_calls h hheld) fun r => ?_
  match r with
  | none => exact .ret _
  | some (d, none) =>
    refine .bind (hretire _) fun _ => .bind (.store h.markers) fun joiners =>
      .bind (.store h.flag) fun _ => ?_
    split <;> exact .ret _
  | some (d, some body) =>
    refine .bind (hretire _) fun _ => .bind (.store h.markers) fun joiners => ?_
    simp only
    split
    · exact .ret _
    · refine .bind (.store (h.restore d body).1) fun _ => .bind ?_ fun _ =>
        .bind (.store h.flag) fun _ => .ret _
      refine .bind (.store (h.restore d body).2) fun moved => ?_
      split
      · exact .ret _
      · exact .fail _

theorem tearDownPlans_calls {manifests : List PlanManifest} {cancelMarkers : List PlanId}
    {membership : List JobPlanMarker} {avail : List AvailKey} {leases : List Lease} {now : Instant}
    {creatingMaxAge : Nat} (h : ∀ j p, AllowsTeardown P j p) :
    (tearDownPlans manifests cancelMarkers membership avail leases now creatingMaxAge).Calls P := by
  refine .bind (.foldlM (fun acc m _ => .foldlM (fun acc j _ => ?_) _) _) fun _ => .ret _
  unfold tearDownJob
  split
  · exact .ret _
  extract_lets entry held
  split
  · exact .ret _
  refine .bind (.attempt (endMembership_calls (h j m.planId) fun l hl => ?_)) fun fate => ?_
  · simpa using (List.mem_filter.mp hl).2
  · split <;> exact .ret _

theorem recordOneLapse_calls {markers : List JobPlanMarker} {horizon : Stamp} {now : Instant}
    (hget : P (.plans (.getPlan p))) (hput : ∀ m, P (.plans (.putPlan m)))
    (hdrop : ∀ d, P (.plans (.deleteJobPlanMarker j p d))) :
    (recordOneLapse markers p j horizon now).Calls P := by
  refine .bind (.store hget) fun found => ?_
  cases found with
  | none => exact .ret _
  | some m =>
    simp only
    have hmarkers : ((((markers.filter fun mk => mk.planId = p ∧ mk.jobId = j).map
        (·.expiresAt)).forM fun d => Op.plans (.deleteJobPlanMarker j p d))).Calls P :=
      .forM fun d _ => .store (hdrop d)
    split
    · exact .bind (.store (hput _)) fun _ => .bind hmarkers fun _ => .ret _
    · exact .bind hmarkers fun _ => .ret _

theorem recordMemberLapses_calls {manifests : List PlanManifest} {markers : List JobPlanMarker}
    {cancelMarkers : List PlanId} {stranded : Finset PlanId} {now : Instant} {creatingMaxAge : Nat}
    (hrecord : ∀ place j, P (.records (.tryExists place j))) (hget : ∀ p, P (.plans (.getPlan p)))
    (hput : ∀ m, P (.plans (.putPlan m)))
    (hdrop : ∀ j p d, P (.plans (.deleteJobPlanMarker j p d))) :
    (recordMemberLapses manifests markers cancelMarkers stranded now creatingMaxAge).Calls P := by
  refine .foldlM (fun acc member _ => ?_) _
  unfold recordMemberLapse
  simp only
  split
  · split
    · exact .ret _
    refine .bind (.attempt (hasRecord_calls fun place => hrecord place _)) fun r => ?_
    match r with
    | .ok true => exact .ret _
    | .error _ => exact .ret _
    | .ok false =>
      simp only
      split
      · exact .ret _
      refine .bind (.attempt (recordOneLapse_calls (hget _) hput fun d => hdrop _ _ d)) fun r => ?_
      split <;> exact .ret _
  · exact .ret _

end Teardown

section Index

variable {k : AvailKey} {keys : List AvailKey} {bodies : Bodies} {workers : List ClientId}
  {tags : FleetTags}

theorem trackWorkerChanges_indexing {indexed : List ClientId} :
    (trackWorkerChanges indexed workers).Calls IndexingCall := by
  unfold trackWorkerChanges
  split
  · exact .ret _
  · exact .bind (.forM fun _ _ => .store trivial) fun _ => .ret _

theorem markWorkers_indexing {clients : List Client} {body : Json} :
    (markWorkers clients tags k body).Calls IndexingCall := by
  refine .forM fun c _ => ?_
  split
  · exact .store trivial
  · exact .ret _

theorem indexNewJob_indexing {clients : List Client} :
    (indexNewJob clients tags bodies k).Calls IndexingCall := by
  refine .bind (cachedBody_calls trivial) fun r => ?_
  match r with
  | (none, _) => exact .ret _
  | (some _, _) => exact .bind markWorkers_indexing fun _ => .ret _

theorem indexNewJobs_indexing {clients : List Client} {leased : Finset AvailKey} :
    (indexNewJobs clients tags keys leased bodies).Calls IndexingCall := by
  refine .bind (.store trivial) fun indexed =>
    .bind (.foldlM (fun _ _ _ => indexNewJob_indexing) _) fun _ => ?_
  extract_lets retained
  split
  · exact .ret _
  · exact .bind (.store trivial) fun _ => .ret _

theorem remarkClient_indexing {client : Client} :
    (remarkClient client tags bodies k).Calls IndexingCall := by
  refine .bind (cachedBody_calls trivial) fun r => ?_
  match r with
  | (none, _) => exact .bind (.store trivial) fun _ => .ret _
  | (some _, _) =>
    simp only
    split
    · exact .bind (.store trivial) fun _ => .ret _
    · exact .ret _

theorem dropFlags_indexing {flags : List ReindexFlag} : (dropFlags flags).Calls IndexingCall :=
  .forM fun _ _ => .store trivial

theorem dropFlagsIfUnchanged_indexing {c : ClientId} {evaluated : Finset String}
    {flags : List ReindexFlag} : (dropFlagsIfUnchanged c evaluated flags).Calls IndexingCall := by
  have hfresh : (freshCapabilities c).Calls IndexingCall :=
    .bind (.store trivial) fun _ => .bind (.store trivial) fun _ => .ret _
  refine .bind (.attempt hfresh) fun r => ?_
  match r with
  | .ok (some _) =>
    simp only
    split
    · exact dropFlags_indexing
    · exact .ret _
  | .ok none => exact .ret _
  | .error _ => exact .ret _

theorem reindexClient_indexing {flags : List ReindexFlag} {c : ClientId} :
    (reindexClient workers keys flags bodies c).Calls IndexingCall := by
  have hrecord : (workerRecord workers c).Calls IndexingCall := by
    unfold workerRecord
    split
    · exact .store trivial
    · exact .ret _
  refine .bind hrecord fun record => ?_
  cases record with
  | none => exact .bind (.store trivial) fun _ => .bind dropFlags_indexing fun _ => .ret _
  | some client =>
    refine .bind (.store trivial) fun _ => .bind (.store trivial) fun _ => ?_
    exact .bind (.foldlM (fun _ _ _ => remarkClient_indexing) _) fun _ =>
      .bind dropFlagsIfUnchanged_indexing fun _ => .ret _

theorem reindexFlaggedClients_indexing {joined : List ClientId} {leased : List JobId} :
    (reindexFlaggedClients workers joined keys leased bodies).Calls IndexingCall := by
  refine .bind (.store trivial) fun flags => ?_
  extract_lets clients rebuild
  have hrebuild : ∀ u, (rebuild u).Calls IndexingCall := fun _ =>
    .foldlM (fun _ _ _ => reindexClient_indexing) _
  split
  · exact .bind (.forM fun _ _ => .store trivial) hrebuild
  · exact hrebuild ()

theorem settlePendingReindexJob_indexing {clients : List Client} {j : JobId} :
    (settlePendingReindexJob workers clients tags keys bodies j).Calls IndexingCall := by
  unfold settlePendingReindexJob
  split
  · refine .bind (hasRecord_calls fun _ => trivial) fun found => ?_
    split
    · exact .bind (.store trivial) fun _ => .ret _
    · exact .ret _
  · refine .bind (cachedBody_calls trivial) fun r => ?_
    match r with
    | (none, _) => exact .ret _
    | (some body, _) =>
      refine .bind (.forM fun client _ => ?_) fun _ => .bind (.store trivial) fun _ => .ret _
      unfold settleMarker
      split <;> exact .store trivial

theorem settlePendingReindexJobs_indexing :
    (settlePendingReindexJobs workers keys bodies).Calls IndexingCall := by
  refine .bind (.store trivial) fun flags => ?_
  split
  · exact .ret _
  · exact .bind (.store trivial) fun _ => .bind (.store trivial) fun _ =>
      .foldlM (fun _ _ _ => settlePendingReindexJob_indexing) _

theorem indexPasses_indexing {view : QueueView} {clients : List Client} :
    (indexPasses view clients tags).Calls IndexingCall := by
  refine .bind (.store trivial) fun indexed => .bind trackWorkerChanges_indexing fun joined => ?_
  refine .bind indexNewJobs_indexing fun _ => .bind reindexFlaggedClients_indexing fun _ => ?_
  split
  · exact .bind (.store trivial) fun _ => settlePendingReindexJobs_indexing
  · exact settlePendingReindexJobs_indexing

end Index

section Sweep

variable {sw : Sweep} {next : Finset GcKey}

theorem confirmOrStageGroup_cases (sw : Sweep) (next : Finset GcKey) (keys : List GcKey)
    (owner : Option JobId) :
    sw.confirmOrStageGroup next keys owner = (true, next) ∧
        ((∃ j ∈ owner, j ∈ sw.terminal) ∨ ∀ key ∈ keys, key ∈ sw.prior) ∨
      sw.confirmOrStageGroup next keys owner = (false, next ∪ keys.toFinset) := by
  unfold Sweep.confirmOrStageGroup
  split
  · next h =>
    refine .inl ⟨rfl, ?_⟩
    cases owner <;> simpa using h
  · exact .inr rfl

theorem sweepEach_calls {α : Type} {P : StoreCall → Prop} {dead : α → Bool} {key : α → GcKey}
    {owner : α → Option JobId} {remove : α → Op Unit} {items : List α}
    (h : ∀ a ∈ items, dead a → (∃ j ∈ owner a, j ∈ sw.terminal) ∨ key a ∈ sw.prior →
      (remove a).Calls P) :
    (sw.sweepEach dead key owner remove items next).Calls P := by
  refine .foldlM (fun next a ha => ?_) _
  split
  · exact .ret _
  next hdead =>
  obtain ⟨heq, hconfirmed⟩ | heq := confirmOrStageGroup_cases sw next [key a] (owner a)
  · rw [Sweep.confirmOrStage, heq]
    exact .bind (h a ha (by simpa using hdead) (by simpa using hconfirmed)) fun _ => .ret _
  · rw [Sweep.confirmOrStage, heq]
    exact .ret _

theorem sweepEligible_sweeping {keys : List AvailKey} {eligible : List EligibleMarker} :
    (sw.sweepEligible keys eligible next).Calls SweepingCall := by
  refine .bind (.foldlM (fun next m _ => ?_) _) fun next => .foldlM (fun next c _ => ?_) _
  · unfold Sweep.sweepMarker
    split
    · exact .ret _
    split
    · exact .bind (.store trivial) fun _ => .ret _
    split
    · exact .ret _
    split
    · exact .bind (.store trivial) fun _ => .ret _
    · exact .ret _
  · unfold Sweep.sweepDeadClient
    extract_lets markers
    split
    · exact .bind (.store trivial) fun _ => .ret _
    · exact .ret _

theorem sweepDenied_sweeping {denied : List (JobId × ClientId)} :
    (sw.sweepDenied denied next).Calls SweepingCall := by
  refine .bind (sweepEach_calls fun _ _ _ _ => .store trivial) fun next => .foldlM (fun next j _ => ?_) _
  unfold Sweep.sweepDeadJob
  extract_lets markers
  split
  · exact .bind (.store trivial) fun _ => .ret _
  · exact .ret _

theorem sweepLeases_sweeping {leases : List Lease} :
    (sw.sweepLeases leases next).Calls SweepingCall :=
  sweepEach_calls fun _ _ _ _ =>
    .void (resolveOrRecycleLease_calls (fun _ => trivial) trivial rfl)

theorem reconcileOrphans_sweeping {eligible : List EligibleMarker}
    {denied : List (JobId × ClientId)} {keys : List AvailKey} :
    (reconcileOrphans sw eligible denied keys).Calls SweepingCall := by
  refine .bind sweepEligible_sweeping fun _ => .bind sweepDenied_sweeping fun _ => ?_
  refine .bind (.store trivial) fun _ => .bind (sweepEach_calls fun _ _ _ _ => .store trivial) fun _ => ?_
  refine .bind (.store trivial) fun _ => .bind (sweepEach_calls fun _ _ _ _ => .store trivial) fun _ => ?_
  refine .bind (.store trivial) fun _ => .bind (sweepEach_calls fun _ _ _ _ => .store trivial) fun _ => ?_
  refine .bind (.store trivial) fun _ => .bind (sweepEach_calls fun _ _ _ _ => .store trivial) fun _ => ?_
  refine .bind (.store trivial) fun _ => .bind (sweepEach_calls fun _ _ _ _ => .store trivial) fun _ => ?_
  exact .bind (.store trivial) fun _ => sweepLeases_sweeping

theorem sweepPasses_sweeping {ctx : RunContext} {prior : Finset GcKey} {view : QueueView}
    {clients : List Client} : (sweepPasses ctx prior view clients).Calls SweepingCall := by
  refine .bind (.store trivial) fun eligible => .bind (.forM fun _ _ => .store trivial) fun _ => ?_
  refine .bind (.store trivial) fun denied => .bind reconcileOrphans_sweeping fun next => ?_
  exact .bind (.attempt (.store trivial)) fun _ => .ret _

end Sweep

section Reconcile

variable {P : StoreCall → Prop} {v : PlanView} {m : PlanManifest} {bodies : Bodies}

theorem findBody_calls {places : List Place} {j : JobId} (h : ∀ p j, P (.records (.read p j))) :
    (findBody places j).Calls P := by
  induction places with
  | nil => exact .ret _
  | cons p rest ih =>
    refine .bind (.store (h p j)) fun entry => ?_
    cases entry with
    | none => exact ih
    | some entry =>
      simp only
      split
      · exact .ret _
      · exact .fail _

theorem findOutcomes_calls {jobs : List JobId} (h : ∀ p j, P (.records (.read p j))) :
    (findOutcomes jobs).Calls P := by
  refine .foldlM (fun found j _ => .bind (.bind (findBody_calls h) fun _ => .ret _) fun r => ?_) _
  cases r <;> exact .ret _

namespace PlanPass

variable {α β : Type} {caches : PlanCaches}

theorem bind_apply (x : PlanPass α) (f : α → PlanPass β) :
    (x >>= f) caches = (x caches).bind fun
      | (.ok a, caches) => f a caches
      | (.error e, caches) => .ret (.error e, caches) := by
  refine congrArg (Prog.bind (x caches)) (funext fun ⟨r, caches⟩ => ?_)
  cases r <;> rfl

theorem calls_of {x : PlanCaches → Op (α × PlanCaches)} (h : (x caches).Calls P) :
    (PlanPass.of x caches).Calls P := by
  refine .bind (.attempt h) fun r => ?_
  cases r <;> exact .ret _

theorem calls_bind {x : PlanPass α} {f : α → PlanPass β} (hx : (x caches).Calls P)
    (hf : ∀ a caches, (f a caches).Calls P) : ((x >>= f) caches).Calls P := by
  rw [bind_apply]
  refine .bind hx fun (r, caches) => ?_
  cases r
  · exact .ret _
  · exact hf _ _

theorem calls_foldlM {f : β → α → PlanPass β} (hf : ∀ b a caches, (f b a caches).Calls P)
    (l : List α) (b : β) : (l.foldlM f b caches).Calls P := by
  induction l generalizing b caches with
  | nil => exact .ret _
  | cons a l ih =>
    rw [List.foldlM_cons]
    exact calls_bind (hf b a caches) fun b _ => ih b

theorem cachedBody_calls (h : ∀ k, P (.queue (.read (.avail k)))) :
    (PlanPass.cachedBody k caches).Calls P :=
  calls_of (.bind (Pipette.cachedBody_calls (h k)) fun _ => .ret _)

end PlanPass

variable {caches : PlanCaches}

theorem starveOne_calls {acc : Starvation} {j : JobId}
    (h : ∀ k, P (.queue (.read (.avail k)))) : (starveOne v acc j caches).Calls P := by
  unfold starveOne
  cases availByJob v.avail j with
  | none => exact .ret _
  | some k =>
    refine PlanPass.calls_bind (PlanPass.cachedBody_calls h) fun body caches => ?_
    cases body with
    | none => exact .ret _
    | some body =>
      dsimp only
      split <;> exact .ret _

theorem countJobs_calls (h : ∀ p j, P (.records (.read p j))) : (countJobs v m caches).Calls P :=
  PlanPass.calls_of (.bind (findOutcomes_calls h) fun _ => .ret _)

theorem groupStarved_calls {starved : List JobId} (h : ∀ k, P (.queue (.read (.avail k)))) :
    (groupStarved v starved caches).Calls P := by
  refine PlanPass.calls_foldlM (fun groups j caches => ?_) starved []
  cases availByJob v.avail j with
  | none => exact .ret _
  | some k =>
    refine PlanPass.calls_bind (PlanPass.cachedBody_calls h) fun body caches => ?_
    cases body <;> exact .ret _

theorem collectCancelMarker_calls (h : P (.plans (.deleteCancelMarker m.planId))) :
    (collectCancelMarker v m).Calls P := by
  unfold collectCancelMarker
  split
  · exact .store h
  · exact .ret _

theorem decideStatus_complete {ending empty retired matched : Bool} {now : Instant}
    (h : (decideStatus ending empty retired matched now).1 = .complete) :
    ending = false ∧ empty = true := by
  cases ending <;> cases empty <;> cases retired <;> cases matched <;> simp_all [decideStatus]

/-- A manifest is written complete only for a plan that is not ending and waits on nothing. -/
theorem reconcileOnePlan_calls (hread : ∀ k, P (.queue (.read (.avail k))))
    (hrecords : ∀ p j, P (.records (.read p j)))
    (hcancel : P (.plans (.deleteCancelMarker m.planId)))
    (hput : ∀ m' : PlanManifest, m'.planId = m.planId → m'.jobIds = m.jobIds →
      m'.expiredJobs = m.expiredJobs →
      (m'.status = .complete → v.isEnding m = false ∧ v.outstanding m = []) →
      P (.plans (.putPlan m'))) : (reconcileOnePlan v m caches).Calls P := by
  have hcollect := collectCancelMarker_calls (v := v) hcancel
  unfold reconcileOnePlan
  split
  · exact PlanPass.calls_of (.bind hcollect fun _ => .ret _)
  split
  · exact .ret _
  refine PlanPass.calls_bind (PlanPass.calls_foldlM (fun _ _ _ => starveOne_calls hread) _ _)
    fun starvation _ => PlanPass.calls_bind (countJobs_calls hrecords)
      fun counted _ => PlanPass.calls_bind (groupStarved_calls hread) fun groups _ => ?_
  refine PlanPass.calls_of (.bind (.store (hput _ rfl rfl rfl ?_)) fun _ => .bind hcollect fun _ => .ret _)
  intro hstatus
  obtain ⟨hending, hempty⟩ := decideStatus_complete hstatus
  exact ⟨hending, List.isEmpty_iff.mp hempty⟩

theorem reconcilePlans_calls {manifests : List PlanManifest}
    (hread : ∀ k, P (.queue (.read (.avail k)))) (hrecords : ∀ p j, P (.records (.read p j)))
    (hget : ∀ p, P (.plans (.getPlan p))) (hcancel : ∀ p, P (.plans (.deleteCancelMarker p)))
    (hput : ∀ m ∈ manifests, ∀ m' : PlanManifest, m'.planId = m.planId → m'.jobIds = m.jobIds →
      m'.expiredJobs = m.expiredJobs →
      (m'.status = .complete → v.isEnding m = false ∧ v.outstanding m = []) →
      P (.plans (.putPlan m'))) : (reconcilePlans v manifests bodies).Calls P := by
  refine .bind (.foldlM (fun acc m hm => ?_) _) fun acc => .foldlM (fun acc p _ => ?_) _
  · refine .bind (reconcileOnePlan_calls hread hrecords (hcancel _) (hput m hm)) fun (r, caches) => ?_
    cases r <;> exact .ret _
  · have hcollect : (collectOrphanedMarker p).Calls P := by
      refine .bind (.store (hget p)) fun found => ?_
      cases found
      · exact .store (hcancel p)
      · exact .ret _
    refine .bind (.attempt hcollect) fun r => ?_
    cases r <;> exact .ret _

theorem gcPlanIndex_calls {manifests : List PlanManifest} {prior : Finset GcKey}
    (hlist : P (.plans .listContentKeys))
    (hkey : ∀ digest version, P (.plans (.deleteContentKey digest version)))
    (hmarker : ∀ j p d, P (.plans (.deleteJobPlanMarker j p d))) :
    (gcPlanIndex v manifests prior).Calls P := by
  have hcollect : ∀ (key : GcKey) (remove : Op Unit) (acc : Collected), remove.Calls P →
      (collectKey prior key remove acc).Calls P := by
    intro key remove acc hremove
    unfold collectKey
    split
    · refine .bind (.attempt hremove) fun r => ?_
      cases r <;> exact .ret _
    · exact .ret _
  refine .bind (.attempt (.store hlist)) fun listed => ?_
  have hrest : ∀ (records : List (String × ContentKeyRecord)) (failures : Nat),
      ((records.filter fun r =>
          decide (r.2.jobId ∉ v.live) && pastGate r.2.createdAt v.now v.creatingMaxAge).foldlM
        (fun acc r => collectKey prior (.contentKey r.1)
          (Op.plans (.deleteContentKey r.1 r.2.version)).void acc) ⟨∅, failures⟩ :
        Op Collected).Calls P := fun records failures =>
    .foldlM (fun acc r _ => hcollect _ _ _ (.void (.store (hkey _ _)))) _
  cases listed with
  | ok records =>
    exact .bind (hrest records 0) fun acc =>
      .foldlM (fun acc mk _ => hcollect _ _ _ (.store (hmarker _ _ _))) _
  | error e =>
    exact .bind (hrest [] 1) fun acc =>
      .foldlM (fun acc mk _ => hcollect _ _ _ (.store (hmarker _ _ _))) _

end Reconcile

/-- What a run can call: it grants no lease, raises no client's flag and writes no client record. -/
def MaintenanceCall : StoreCall → Prop
  | .queue (.rename _ (.leased _)) => False
  | .index (.writePendingReindex _) => False
  | .fleet c => c.Reads
  | _ => True

section Run

variable {ctx : RunContext} {front : Front} {view : QueueView}

theorem SettlingCall.maintenance {now : Instant} {c : StoreCall} (h : SettlingCall now c) :
    MaintenanceCall c := by
  cases c with
  | queue c =>
    cases c with
    | rename src dst => cases src <;> cases dst <;> first | exact h.elim | trivial
    | _ => trivial
  | index c => cases c <;> first | exact h.elim | trivial
  | fleet c => exact h.elim
  | _ => trivial

theorem IndexingCall.maintenance {c : StoreCall} (h : IndexingCall c) : MaintenanceCall c := by
  cases c with
  | queue c =>
    cases c with
    | read p => trivial
    | _ => exact h.elim
  | index c => cases c <;> first | exact h.elim | trivial
  | fleet c => exact h
  | _ => trivial

theorem SweepingCall.maintenance {c : StoreCall} (h : SweepingCall c) : MaintenanceCall c := by
  cases c with
  | queue c =>
    cases c with
    | rename src dst => cases src <;> cases dst <;> first | exact h.elim | trivial
    | _ => trivial
  | index c => cases c <;> first | exact h.elim | trivial
  | fleet c => exact h.elim
  | _ => trivial

theorem maintenance_teardown (j : JobId) (p : PlanId) : AllowsTeardown MaintenanceCall j p where
  markers := trivial
  drop _ := trivial
  list := trivial
  entry _ := ⟨trivial, trivial⟩
  lease _ _ := ⟨trivial, trivial⟩
  restore _ _ := ⟨trivial, trivial⟩
  flag := trivial

theorem queuePasses_calls {P : StoreCall → Prop} {avail : List AvailKey} {leases : List Lease}
    (hplans : ∀ c, P (.plans c)) (hrecords : ∀ p j, P (.records (.tryExists p j)))
    (hteardown : ∀ j p, AllowsTeardown P j p) (hsettling : ∀ c, SettlingCall ctx.now c → P c) :
    (queuePasses ctx front avail leases).Calls P := by
  refine .bind (.store (hplans _)) fun _ => .bind (tearDownPlans_calls hteardown) fun _ => ?_
  refine .bind (recordMemberLapses_calls hrecords (fun _ => hplans _) (fun _ => hplans _)
    fun _ _ _ => hplans _) fun _ => ?_
  refine .bind (expireOverdueJobs_settling.mono hsettling) fun _ => ?_
  refine .bind (retireUnmatchableJobs_settling.mono hsettling) fun _ => ?_
  exact .bind (escalateAllDeniedJobs_settling.mono hsettling) fun _ => .ret _

theorem queuePasses_maintenance {avail : List AvailKey} {leases : List Lease} :
    (queuePasses ctx front avail leases).Calls MaintenanceCall :=
  queuePasses_calls (fun _ => trivial) (fun _ _ => trivial) maintenance_teardown
    fun _ => SettlingCall.maintenance

theorem afterQueuePasses_maintenance : (afterQueuePasses ctx front view).Calls MaintenanceCall := by
  refine .bind (.store trivial) fun _ => .bind (.store trivial) fun _ => .bind (.store trivial)
    fun _ => ?_
  refine .bind (indexPasses_indexing.mono fun _ => IndexingCall.maintenance) fun _ => ?_
  refine .bind (sweepPasses_sweeping.mono fun _ => SweepingCall.maintenance) fun _ => ?_
  refine .bind (reconcilePlans_calls (fun _ => trivial) (fun _ _ => trivial) (fun _ => trivial)
    (fun _ => trivial) fun _ _ _ _ _ _ _ => trivial) fun _ => ?_
  refine .bind (gcPlanIndex_calls trivial (fun _ _ => trivial) fun _ _ _ => trivial) fun _ => ?_
  exact .bind (.store trivial) fun _ => .ret _

theorem run_maintenance : (run ctx).Calls MaintenanceCall := by
  refine .bind (.bind ?_ fun front => .bind (.store trivial) fun avail =>
    .bind (.store trivial) fun leases => .bind queuePasses_maintenance fun view =>
      afterQueuePasses_maintenance) fun failed => ?_
  · refine .bind (.store trivial) fun _ => .bind (.store trivial) fun _ => .bind (.store trivial)
      fun _ => .bind (.store trivial) fun _ => .bind ?_ fun _ => .ret _
    exact settleExpiredLeases_settling.mono fun _ => @SettlingCall.maintenance ctx.now _
  · unfold reportFailed
    split
    · exact .fail _
    · exact .ret _

end Run

def clearSightings : Op (Finset GcKey) := do
  let prior ← Op.notes .readGcCandidates
  Op.notes (.writeGcCandidates ∅)
  pure prior

end Pipette
