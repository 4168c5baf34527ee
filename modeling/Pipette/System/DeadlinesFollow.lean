import Mathlib.Order.Bounds.Basic
import Pipette.System.ListedQueue
import Pipette.System.PlanForward

/-! Deadlines follow the member plans. The lapse pass records, for each plan that still waits, the
jobs whose horizon has passed, and drops their markers; the expiry pass then files every overdue
job under the latest horizon that is left. -/
namespace Pipette

open Prog

section Expiry

variable {catalog : Catalog} {now : Instant} {k : AvailKey} {keys rest : List AvailKey}
  {w v : World}

def World.horizons (w : World) (j : JobId) : List (PlanId × ExpiresAt) :=
  (machine (.plans (.listJobPlanMarkers j)) w).1

def followed (now : Instant) (w : World) (k : AvailKey) : Option AvailKey :=
  if k.expiresAt.isExpired now then
    (latestHorizon now (w.horizons k.jobId)).map fun d => ⟨k.jobId, d⟩
  else some k

theorem followed_jobId {k' : AvailKey} (h : followed now w k = some k') : k'.jobId = k.jobId := by
  unfold followed at h
  split at h
  · obtain ⟨d, -, rfl⟩ := Option.map_eq_some_iff.mp h
    rfl
  · cases h
    rfl

def LeavesPlans (c : StoreCall) : Prop := ∀ w, (machine c w).2.plans = w.plans

theorem settleOverdueJob_leavesPlans : (settleOverdueJob catalog k now).Calls LeavesPlans :=
  settleOverdueJob_calls ⟨fun _ _ _ => rfl, fun _ _ _ => rfl⟩ (fun _ => rfl) (fun _ => rfl)
    (fun _ _ _ => rfl) (fun _ => rfl) fun _ => rfl

theorem settleOverdueJob_follows {acc : Pruned} (h : Shows (acc.survivors ++ k :: rest) w)
    (hexpired : k.expiresAt.isExpired now = true) :
    (settleOverdueJob catalog k now).Alone machine (fun _ _ => True)
      (fun r _ => (acc.settle k r).failures = acc.failures →
        (acc.settle k r).survivors = acc.survivors ++ (followed now w k).toList) w := by
  refine .store_bind trivial ?_
  cases hlatest : latestHorizon now (machine (.plans (.listJobPlanMarkers k.jobId)) w).1 with
  | none =>
    have hnone : followed now w k = none := by simp [followed, World.horizons, hexpired, hlatest]
    refine .bind (expireOneJob_shows h) (fun found v hv => ?_) fun e v hv => ?_
    · obtain ⟨rfl, -⟩ := hv.1 found rfl
      intro _
      simp [hnone, Pruned.settle, Pruned.drop]
    · intro hfailures
      simp [Pruned.settle, Pruned.failed, Pruned.keep] at hfailures
  | some horizon =>
    have hsome : followed now w k = some ⟨k.jobId, horizon⟩ := by
      simp [followed, World.horizons, hexpired, hlatest]
    obtain ⟨hmoved, -⟩ := Shows.redate (d := horizon) h
    refine .store_bind trivial ?_
    change Alone machine _
      (if (machine (.queue (.rename (.avail k) (.avail ⟨k.jobId, horizon⟩))) w).1 then _ else _) _ _
    rw [if_pos hmoved]
    refine .store_bind trivial fun _ => ?_
    simp [hsome, Pruned.settle, Pruned.keep]

theorem Pruned.le_failures_settle {acc : Pruned} {r : Except Fault Overdue} :
    acc.failures ≤ (acc.settle k r).failures := by
  obtain _ | _ | _ | _ := r <;> simp [Pruned.settle, Pruned.failed, Pruned.keep, Pruned.drop]

theorem expireOverdueJobs_follows (h : Shows keys w) :
    (expireOverdueJobs catalog keys now).Yields machine (fun out v => Shows out.survivors v ∧
      (out.failures = 0 → out.survivors = keys.filterMap (followed now w))) w := by
  have hloop := Yields.foldlM_rest (m := machine) (b := Pruned.start) keys
    (f := fun acc k => if !k.expiresAt.isExpired now then pure (acc.keep k)
      else (settleOverdueJob catalog k now).attempt.bind fun r => pure (acc.settle k r))
    (J := fun rest (acc : Pruned) v => Shows (acc.survivors ++ rest) v ∧ v.plans = w.plans ∧
      (acc.failures = 0 → acc.survivors ++ rest.filterMap (followed now w) =
        keys.filterMap (followed now w))) ?_ ⟨h, rfl, fun _ => rfl⟩
  · refine hloop.mono fun out v hv => ⟨by simpa using hv.1, fun hzero => ?_⟩
    simpa using hv.2.2 hzero
  · rintro k rest acc v ⟨hshows, hplans, hdone⟩
    have hfollowed : followed now v k = followed now w k := by
      simp only [followed, World.horizons, machine, hplans]
    by_cases hexpired : k.expiresAt.isExpired now = true
    · simp only [hexpired, Bool.not_true, Bool.false_eq_true, if_false]
      refine .attempt_bind (.mono (fun _ _ _ => trivial) (fun _ _ hr => hr)
        (.and (.and (settleOverdueJob_shows hshows) (settleOverdueJob_follows hshows hexpired))
          (Alone.invariant (m := machine) (J := fun v => v.plans = w.plans)
            (fun c v hc hv => (hc v).trans hv) settleOverdueJob_leavesPlans hplans)))
        fun r v' hr => .ret ?_
      obtain ⟨⟨hshows', hkept⟩, hplans'⟩ := hr
      refine ⟨hshows', hplans', fun hzero => ?_⟩
      have hacc : acc.failures = 0 := Nat.le_zero.mp (hzero ▸ Pruned.le_failures_settle)
      rw [hkept (hzero.trans hacc.symm), ← hdone hacc, hfollowed, List.append_assoc]
      cases hk : followed now w k <;> simp [hk]
    · have hkey : followed now w k = some k := by simp [followed, hexpired]
      simp only [hexpired, Bool.not_false, if_true]
      refine .ret ⟨by simpa [Pruned.keep] using hshows, hplans, fun hzero => ?_⟩
      rw [← hdone hzero]
      simp [Pruned.keep, hkey]

theorem latestHorizon_eq_none {j : JobId} : latestHorizon now (w.horizons j) = none ↔
    ∀ p d, (w.plans.jobPlans.lookup (j, p, d)).isSome → d.isExpired now = true := by
  rw [latestHorizon, List.max?_eq_none_iff, List.filter_eq_nil_iff]
  simp only [List.mem_map, Bool.not_eq_true', Bool.not_eq_false]
  constructor
  · exact fun h p d hd => h d ⟨(p, d), mem_listJobPlanMarkers.mpr hd, rfl⟩
  · rintro h _ ⟨⟨p, d⟩, hd, rfl⟩
    exact h p d (mem_listJobPlanMarkers.mp hd)

theorem latestHorizon_eq_some {j : JobId} {d : ExpiresAt} :
    latestHorizon now (w.horizons j) = some d ↔ IsGreatest
      {d | d.isExpired now = false ∧ ∃ p, (w.plans.jobPlans.lookup (j, p, d)).isSome} d := by
  have hmem : ∀ d, d ∈ ((w.horizons j).map Prod.snd).filter (fun d => !d.isExpired now) ↔
      d.isExpired now = false ∧ ∃ p, (w.plans.jobPlans.lookup (j, p, d)).isSome := by
    intro d
    simp only [List.mem_filter, List.mem_map, Bool.not_eq_true']
    constructor
    · rintro ⟨⟨⟨p, d'⟩, hp, rfl⟩, hd⟩
      exact ⟨hd, p, mem_listJobPlanMarkers.mp hp⟩
    · rintro ⟨hd, p, hp⟩
      exact ⟨⟨(p, d), mem_listJobPlanMarkers.mpr hp, rfl⟩, hd⟩
  rw [latestHorizon, List.max?_eq_some_iff]
  simp only [hmem, IsGreatest, upperBounds, Set.mem_ofPred_eq]

theorem lookup_followed {out : Pruned} (h : Shows keys w) (hout : Shows out.survivors v)
    (hfollows : out.survivors = keys.filterMap (followed now w)) (hk : k ∈ keys) (d : ExpiresAt) :
    (v.queue.files.lookup (.avail ⟨k.jobId, d⟩)).isSome ↔ followed now w k = some ⟨k.jobId, d⟩ := by
  rw [← hout.mem, hfollows, List.mem_filterMap]
  constructor
  · rintro ⟨k₀, hk₀, hd⟩
    cases h.eq_of_job hk₀ hk (followed_jobId hd).symm
    exact hd
  · exact fun hd => ⟨k, hk, hd⟩

theorem expireOverdueJobs_bodies : (expireOverdueJobs catalog keys now).Yields machine
    (fun _ v => w.queue.BodiesFrom v.queue) w := by
  refine .of_calls (J := fun (v : World) => w.queue.BodiesFrom v.queue) (fun c v hc hv => ?_)
    expireOverdueJobs_settling fun p k body hp => ⟨p, k, hp, rfl⟩
  cases c with
  | queue c => exact hc.keepsJobs.bodiesFrom hv
  | _ => exact hv

end Expiry

theorem hasRecordFrom_lands {w : World} {j : JobId} {places : List Place} :
    (hasRecordFrom places j).Lands machine (fun found v => v = w ∧
      (found = true ↔ ∃ p ∈ places, (w.records.places.lookup (p, j)).isSome)) w := by
  induction places with
  | nil => exact .ret ⟨rfl, by simp⟩
  | cons p rest ih =>
    refine .store_bind ?_
    change Lands machine (if (w.records.places.lookup (p, j)).isSome then _ else _) _ w
    split
    · next hfound => exact .ret ⟨rfl, by simp [hfound]⟩
    · next hmissing => exact ih.mono fun found v hv => ⟨hv.1, by simpa [hmissing] using hv.2⟩

theorem hasRecord_lands {w : World} {j : JobId} :
    (hasRecord j).Lands machine
      (fun found v => v = w ∧ (found = true ↔ w.records.Recorded j)) w := by
  refine hasRecordFrom_lands.mono fun found v hv => ⟨hv.1, hv.2.trans ?_⟩
  refine ⟨fun ⟨p, _, hp⟩ => ⟨p, hp⟩, fun ⟨p, hp⟩ => ⟨p, ?_, hp⟩⟩
  cases p <;> simp [recordPlaces]

/-- The plan has left `creating`, is not complete and owes no teardown. -/
def PlanManifest.Waits (m : PlanManifest) (cancelMarkers : List PlanId) : Prop :=
  (m.status = .active ∨ m.status = .pendingClients) ∧ m.planId ∉ cancelMarkers

section Lapses

structure LapseView where
  manifests : List PlanManifest
  markers : List JobPlanMarker
  cancelMarkers : List PlanId
  stranded : Finset PlanId
  now : Instant
  creatingMaxAge : Nat

namespace LapseView

def cause (r : LapseView) (m : PlanManifest) : Option Cause :=
  teardownCause m r.cancelMarkers r.now r.creatingMaxAge

def pass (r : LapseView) : Op Lapses :=
  recordMemberLapses r.manifests r.markers r.cancelMarkers r.stranded r.now r.creatingMaxAge

/-- The view shows the plans on file, and which of them are stranded. Since the markers were listed,
teardown has dropped markers of ending plans only. -/
structure Fits (r : LapseView) (w : World) : Prop where
  listed : ∀ p, r.manifests.find? (·.planId = p) = w.plans.manifests.lookup p
  stranded : ∀ p m, w.plans.manifests.lookup p = some m →
    (p ∈ r.stranded ↔ r.cause m = some .creatingStranded)
  members : ∀ p m, w.plans.manifests.lookup p = some m → r.cause m = none → ∀ j d,
    ((∃ mk ∈ r.markers, (mk.planId = p ∧ mk.jobId = j) ∧ mk.expiresAt = d) ↔
      (w.plans.jobPlans.lookup (j, p, d)).isSome)

end LapseView

variable {r : LapseView} {now : Instant} {markers : List JobPlanMarker}
  {manifests : List PlanManifest} {w v : World} {p : PlanId} {j : JobId} {m m' : PlanManifest}

@[mk_iff] structure Lapsing (r : LapseView) (records : RecordState) (m : PlanManifest) (j : JobId) :
    Prop where
  owed : lapseExempt m r.cancelMarkers r.stranded = false
  written : ingestMayOverwrite m r.now r.creatingMaxAge = false
  listed : j ∈ m.jobIds
  passed : ((horizonOf r.markers m.planId j).bind (lapsedDeadline r.now)).isSome
  unanswered : ¬ records.Recorded j

theorem UpToLapses.lapsing {records : RecordState} (h : UpToLapses m m') :
    Lapsing r records m' j ↔ Lapsing r records m j := by
  rw [h, lapsing_iff, lapsing_iff]
  rfl

theorem horizonOf_eq_some {d : ExpiresAt} : horizonOf markers p j = some d ↔
    IsGreatest {d | ∃ mk ∈ markers, (mk.planId = p ∧ mk.jobId = j) ∧ mk.expiresAt = d} d := by
  rw [horizonOf, List.max?_eq_some_iff]
  simp only [List.mem_map, List.mem_filter, decide_eq_true_eq, IsGreatest, upperBounds,
    Set.mem_ofPred_eq, and_assoc]

/-- Beside the manifests, only markers change whose horizon has passed. -/
structure Passes (now : Instant) (v v' : World) : Prop where
  queue : v'.queue = v.queue
  records : v'.records = v.records
  markers : ∀ i q d, d.isExpired now = false →
    v'.plans.jobPlans.lookup (i, q, d) = v.plans.jobPlans.lookup (i, q, d)

theorem Passes.trans {v v' v'' : World} (h : Passes now v v') (h' : Passes now v' v'') :
    Passes now v v'' :=
  ⟨h'.queue.trans h.queue, h'.records.trans h.records,
    fun i q d hd => (h'.markers i q d hd).trans (h.markers i q d hd)⟩

theorem Passes.latestHorizon_eq {v' : World} (h : Passes now v v') :
    latestHorizon now (v'.horizons j) = latestHorizon now (v.horizons j) := by
  refine Option.ext fun d => latestHorizon_eq_some.trans (Iff.trans ?_ latestHorizon_eq_some.symm)
  refine iff_of_eq (congrArg (IsGreatest · d) (Set.ext fun d => and_congr_right fun hd => ?_))
  simp only [h.markers j _ d hd]

/-- The plans on file gain the lapses that are due, and nothing else of them changes. -/
structure Gains (now : Instant) (due : PlanId → PlanManifest → JobId → Prop) (v v' : World) : Prop
    extends Passes now v v' where
  plans : ∀ q m, v.plans.manifests.lookup q = some m → ∃ m', v'.plans.manifests.lookup q = some m' ∧
    UpToLapses m m' ∧ ∀ i, (m'.expiredJobs.lookup i).isSome ↔
      (m.expiredJobs.lookup i).isSome ∨ due q m i

theorem Gains.none {due : PlanId → PlanManifest → JobId → Prop}
    (h : ∀ q m i, v.plans.manifests.lookup q = some m → ¬ due q m i) : Gains now due v v :=
  ⟨⟨rfl, rfl, fun _ _ _ _ => rfl⟩,
    fun q m hm => ⟨m, hm, rfl, fun i => by simp [h q m i hm]⟩⟩

theorem deleteMarkers_lands {ds : List ExpiresAt} (hds : ∀ d ∈ ds, d.isExpired now = true) :
    (ds.forM fun d => Op.plans (.deleteJobPlanMarker j p d)).Lands machine (fun _ v' =>
      Passes now v v' ∧ v'.plans.manifests = v.plans.manifests) v := by
  refine .forM_rest (J := fun _ v' => Passes now v v' ∧ v'.plans.manifests = v.plans.manifests)
    ?_ ⟨⟨rfl, rfl, fun _ _ _ _ => rfl⟩, rfl⟩
  rintro d rest v' hsuf ⟨hpasses, hmanifests⟩
  refine .store ⟨⟨hpasses.queue, hpasses.records, fun i q d' hd' => ?_⟩, hmanifests⟩
  have hne : (i, q, d') ≠ (j, p, d) := by
    rintro ⟨⟩
    exact absurd (hds d (hsuf.subset List.mem_cons_self)) (by simp [hd'])
  exact (FileTree.lookup_remove.trans (if_neg hne)).trans (hpasses.markers i q d' hd')

theorem ExpiresAt.isExpired_of_le {d d' : ExpiresAt} (hle : d ≤ d')
    (h : d'.isExpired now = true) : d.isExpired now = true := by
  obtain s' | _ := d'
  · obtain s | _ := d
    · have hsecs : s ≤ s' := WithTop.coe_le_coe.mp hle
      have hlate : s.instant ≤ s'.instant := Int.mul_le_mul_of_nonneg_right hsecs (by decide)
      exact decide_eq_true (hlate.trans_lt (of_decide_eq_true h))
    · exact absurd hle (WithTop.not_top_le_coe _)
  · cases h

theorem isExpired_of_horizonOf {deadline : Stamp}
    (h : (horizonOf markers p j).bind (lapsedDeadline now) = some deadline) :
    ∀ d ∈ (markers.filter fun mk => mk.planId = p ∧ mk.jobId = j).map (·.expiresAt),
      d.isExpired now = true := by
  obtain ⟨horizon, hmax, hpast⟩ := Option.bind_eq_some_iff.mp h
  refine fun d hd => ExpiresAt.isExpired_of_le ((List.max?_eq_some_iff.mp hmax).2 d hd) ?_
  cases horizon with
  | atStamp s => by_contra hs; simp_all [lapsedDeadline, ExpiresAt.isExpired]
  | never => cases hpast

theorem recordOneLapse_lands {deadline : Stamp} (hm : v.plans.manifests.lookup p = some m)
    (h : (horizonOf markers p j).bind (lapsedDeadline now) = some deadline) :
    (recordOneLapse markers p j deadline now).Lands machine (fun out v' =>
      ∃ m', out = some m' ∧ UpToLapses m m' ∧ Passes now v v' ∧
        (∀ q, v'.plans.manifests.lookup q = if q = p then some m' else v.plans.manifests.lookup q) ∧
        ∀ i, (m'.expiredJobs.lookup i).isSome ↔ (m.expiredJobs.lookup i).isSome ∨ i = j) v := by
  have hplan : m.planId = p := v.plans.filed p m hm
  refine .store_bind ?_
  rw [show (machine (.plans (.getPlan p)) v).1 = some m from hm]
  by_cases hlapsed : (m.expiredJobs.lookup j).isSome = true
  · simp only [hlapsed, if_true, Bool.not_true, Bool.false_eq_true, if_false]
    refine (deleteMarkers_lands (isExpired_of_horizonOf h)).bind fun _ v' hv' => .ret ?_
    obtain ⟨hpasses, hmanifests⟩ := hv'
    refine ⟨m, rfl, rfl, hpasses, fun q => ?_, fun i => ?_⟩
    · rw [hmanifests]
      split
      · next hq => rw [hq]; exact hm
      · rfl
    · refine ⟨.inl, fun h => h.elim id ?_⟩
      rintro rfl
      exact hlapsed
  · rw [Bool.not_eq_true] at hlapsed
    simp only [hlapsed, Bool.false_eq_true, if_false, Bool.not_false, if_true]
    refine .store_bind ((deleteMarkers_lands (isExpired_of_horizonOf h)).bind
      fun _ v' hv' => .ret ?_)
    obtain ⟨⟨hqueue, hrecords, hmarkers⟩, hmanifests⟩ := hv'
    refine ⟨_, rfl, rfl, ⟨hqueue, hrecords, hmarkers⟩, fun q => ?_, fun i => ?_⟩
    · rw [hmanifests]
      simp only [machine, PlanCall.step, PlanState.put, FileTree.lookup_write, hplan, hlapsed,
        Bool.false_eq_true, if_false]
    · rw [FileTree.lookup_write]
      split <;> simp [*]

def Synced (manifests : List PlanManifest) (v : World) : Prop :=
  ∀ p, manifests.find? (·.planId = p) = v.plans.manifests.lookup p

theorem find?_replace {p q : PlanId} (hm : m'.planId = p) :
    (manifests.map fun m => if m.planId = p then m' else m).find? (·.planId = q) =
      (manifests.find? (·.planId = q)).map fun m => if q = p then m' else m := by
  have hid : ∀ m : PlanManifest, (if m.planId = p then m' else m).planId = m.planId := by
    intro m
    split <;> simp [*]
  simp only [List.find?_map, Function.comp_def, hid]
  refine Option.map_congr fun m hfound => ?_
  have hq : m.planId = q := by simpa using List.find?_some hfound
  rw [hq]

def LapsingAt (r : LapseView) (records : RecordState) (member : PlanId × JobId) (q : PlanId)
    (m : PlanManifest) (i : JobId) : Prop :=
  (q, i) = member ∧ Lapsing r records m i

theorem recordMemberLapse_lands {acc : Lapses} (hsync : Synced acc.manifests v) :
    (recordMemberLapse r.markers r.cancelMarkers r.stranded r.now r.creatingMaxAge acc
      (p, j)).Lands machine (fun acc' v' => Synced acc'.manifests v' ∧
        Gains r.now (LapsingAt r v.records (p, j)) v v') v := by
  have hskip : (∀ m, v.plans.manifests.lookup p = some m → ¬ Lapsing r v.records m j) →
      (Prog.ret acc : Op Lapses).Lands machine (fun acc' v' => Synced acc'.manifests v' ∧
        Gains r.now (LapsingAt r v.records (p, j)) v v') v := by
    refine fun hnot => .ret ⟨hsync, .none fun q m i hm hdue => ?_⟩
    cases hdue.1
    exact hnot m hm hdue.2
  have hfiled := v.plans.filed p
  simp only [recordMemberLapse]
  cases hpassed : (horizonOf r.markers p j).bind (lapsedDeadline r.now) with
  | none =>
    refine hskip fun m hm hdue => ?_
    have hsome := hdue.passed
    rw [hfiled m hm, hpassed] at hsome
    cases hsome
  | some deadline =>
    rw [hsync p]
    cases hm : v.plans.manifests.lookup p with
    | none => exact hskip fun m hm' => by rw [hm] at hm'; cases hm'
    | some m =>
      have honly : ¬ Lapsing r v.records m j → ∀ m', v.plans.manifests.lookup p = some m' →
          ¬ Lapsing r v.records m' j := by
        intro hnot m' hm'
        rw [hm] at hm'
        cases hm'
        exact hnot
      by_cases hexempt : (lapseExempt m r.cancelMarkers r.stranded || !m.jobIds.contains j) = true
      · simp only [hexempt, if_true]
        refine hskip (honly fun hdue => ?_)
        simp [hdue.owed, hdue.listed] at hexempt
      rw [Bool.not_eq_true] at hexempt
      simp only [hexempt, Bool.false_eq_true, if_false]
      refine hasRecord_lands.attempt_bind fun found v' hv' => ?_
      obtain ⟨hsame, hfound⟩ := hv'
      rw [hsame]
      cases found with
      | true => exact hskip (honly fun hdue => hdue.unanswered (hfound.mp rfl))
      | false =>
        by_cases hdefer : ingestMayOverwrite m r.now r.creatingMaxAge = true
        · simp only [hdefer, if_true]
          refine hskip (honly fun hdue => ?_)
          simp [hdue.written] at hdefer
        rw [Bool.not_eq_true] at hdefer
        simp only [hdefer, Bool.false_eq_true, if_false]
        refine (recordOneLapse_lands hm hpassed).attempt_bind fun out v₁ hout => ?_
        obtain ⟨m', rfl, hlike, hpasses, hplans, hlapses⟩ := hout
        have hdue : Lapsing r v.records m j := by
          simp only [Bool.or_eq_false_iff, Bool.not_eq_false', List.contains_iff_mem] at hexempt
          refine ⟨hexempt.1, hdefer, hexempt.2, ?_, fun h => by simpa using hfound.mpr h⟩
          rw [hfiled m hm, hpassed]
          rfl
        refine .ret ⟨fun q => ?_, hpasses, fun q m₀ hm₀ => ?_⟩
        · rw [find?_replace (by rw [hlike, hfiled m hm]), hsync q, hplans]
          split
          · next hq => rw [hq, hm]; rfl
          · simp
        · rw [hplans]
          split
          · next hq =>
            subst hq
            rw [hm] at hm₀
            cases hm₀
            refine ⟨m', rfl, hlike, fun i => (hlapses i).trans (or_congr_right ?_)⟩
            refine ⟨?_, fun hi => congrArg Prod.snd hi.1⟩
            rintro rfl
            exact ⟨rfl, hdue⟩
          · next hq =>
            exact ⟨m₀, hm₀, rfl, fun i => by simp [LapsingAt, hq]⟩

theorem LapseView.pass_lands (hfits : r.Fits w) :
    r.pass.Lands machine (fun _ v => Gains r.now (fun _ => Lapsing r w.records) w v) w := by
  let pairs := (r.markers.map fun mk => (mk.planId, mk.jobId)).dedup
  -- before each round, the lapses of the members that are done
  let done := fun (rest : List (PlanId × JobId)) q m i =>
    ((q, i) ∈ pairs ∧ (q, i) ∉ rest) ∧ Lapsing r w.records m i
  have hloop : r.pass.Lands machine
      (fun acc v => Synced acc.manifests v ∧ Gains r.now (done []) w v) w := by
    refine Lands.foldlM_rest (J := fun rest (acc : Lapses) (v : World) =>
      Synced acc.manifests v ∧ Gains r.now (done rest) w v) ?_
      ⟨hfits.listed, .none fun q m i _ hdue => hdue.1.2 hdue.1.1⟩
    rintro ⟨p, j⟩ rest acc v hsuf ⟨hsync, hgains⟩
    refine (recordMemberLapse_lands hsync).mono fun acc' v' hv' => ⟨hv'.1, ?_⟩
    have hround := hv'.2
    refine ⟨hgains.toPasses.trans hround.toPasses, fun q m hm => ?_⟩
    obtain ⟨m₁, hm₁, hlike₁, hlapses₁⟩ := hgains.plans q m hm
    obtain ⟨m₂, hm₂, hlike₂, hlapses₂⟩ := hround.plans q m₁ hm₁
    refine ⟨m₂, hm₂, by rw [hlike₂, hlike₁]; rfl, fun i => ?_⟩
    have hmem : (p, j) ∈ pairs := hsuf.subset List.mem_cons_self
    have hnot : (p, j) ∉ rest := (List.nodup_cons.mp ((List.nodup_dedup _).sublist hsuf.sublist)).1
    rw [hlapses₂, hlapses₁, or_assoc]
    refine or_congr_right ?_
    simp only [LapsingAt, hgains.records, hlike₁.lapsing, done, List.mem_cons]
    by_cases hround : (q, i) = (p, j)
    · simp [hround, hmem, hnot]
    · simp [hround]
  refine hloop.mono fun _ v hv => ⟨hv.2.toPasses, fun q m hm => ?_⟩
  obtain ⟨m', hm', hlike, hlapses⟩ := hv.2.plans q m hm
  refine ⟨m', hm', hlike, fun i => (hlapses i).trans (or_congr_right ?_)⟩
  refine ⟨And.right, fun h => ⟨⟨?_, List.not_mem_nil⟩, h⟩⟩
  obtain ⟨d, hd⟩ := Option.isSome_iff_exists.mp (Option.isSome_of_isSome_bind h.passed)
  rw [w.plans.filed q m hm] at hd
  obtain ⟨mk, hmk, ⟨hplan, hjob⟩, -⟩ := (horizonOf_eq_some.mp hd).1
  exact List.mem_dedup.mpr (List.mem_map.mpr ⟨mk, hmk, Prod.ext hplan hjob⟩)

theorem LapseView.Fits.waits_iff (hfits : r.Fits w) (hm : w.plans.manifests.lookup p = some m) :
    m.Waits r.cancelMarkers ↔ lapseExempt m r.cancelMarkers r.stranded = false ∧
      ingestMayOverwrite m r.now r.creatingMaxAge = false := by
  have hplan := w.plans.filed p m hm
  have hstranded := hfits.stranded p m hm
  rw [← hplan] at hstranded
  simp only [PlanManifest.Waits, lapseExempt, ingestMayOverwrite, hstranded, LapseView.cause,
    teardownCause]
  cases m.status <;> simp [PlanStatus.isTerminal]
  -- a plan still `creating` is either young, and may be overwritten, or stranded
  intro hcancel hgate
  by_contra hpast
  simp [hcancel, hpast] at hgate

theorem PlanManifest.Waits.cause (h : m.Waits r.cancelMarkers) : r.cause m = none := by
  obtain ⟨hstatus | hstatus, hcancel⟩ := h <;>
    simp [LapseView.cause, teardownCause, hstatus, hcancel]

theorem LapseView.Fits.lapsing_iff (hfits : r.Fits w) (hm : w.plans.manifests.lookup p = some m) :
    Lapsing r w.records m j ↔ m.Waits r.cancelMarkers ∧ j ∈ m.jobIds ∧
      (∃ s, IsGreatest {d | (w.plans.jobPlans.lookup (j, p, d)).isSome} (.atStamp s) ∧
        s.instant < r.now) ∧ ¬ w.records.Recorded j := by
  have hplan := w.plans.filed p m hm
  have hpassed : m.Waits r.cancelMarkers →
      (((horizonOf r.markers m.planId j).bind (lapsedDeadline r.now)).isSome ↔
        ∃ s, IsGreatest {d | (w.plans.jobPlans.lookup (j, p, d)).isSome} (.atStamp s) ∧
          s.instant < r.now) := by
    intro hwaits
    have hmembers := hfits.members p m hm hwaits.cause j
    simp only [← hmembers, ← horizonOf_eq_some, hplan]
    cases horizonOf r.markers p j with
    | none => simp
    | some d => cases d <;> simp [lapsedDeadline]
  constructor
  · rintro ⟨howed, hwritten, hlisted, hpast, hopen⟩
    have hwaits := (hfits.waits_iff hm).mpr ⟨howed, hwritten⟩
    exact ⟨hwaits, hlisted, (hpassed hwaits).mp hpast, hopen⟩
  · rintro ⟨hwaits, hlisted, hpast, hopen⟩
    obtain ⟨howed, hwritten⟩ := (hfits.waits_iff hm).mp hwaits
    exact ⟨howed, hwritten, hlisted, (hpassed hwaits).mpr hpast, hopen⟩

end Lapses

/-- The lapse pass and then the expiry pass, run alone and without failures. An overdue job ends
under the greatest unexpired horizon of its plans' markers and is retired exactly when there is
none; any other job keeps its key; no body changes. A plan gains the lapses of its own open jobs
whose latest marker has passed, provided the plan still waits, and no others. -/
theorem deadlines_follow_members {catalog : Catalog} {r : LapseView} {w w₁ w₂ : World}
    {lapses : Lapses} {pruned : Pruned} (hone : w.queue.OneEntry) (hfits : r.Fits w)
    (hlapse : r.pass.exec machine w = (.ok lapses, w₁))
    (hexpire :
      (expireOverdueJobs catalog w.queue.availKeys r.now).exec machine w₁ = (.ok pruned, w₂))
    (hfailures : pruned.failures = 0) :
    (∀ k body, w.queue.files.lookup (.avail k) = some body →
      (k.expiresAt.isExpired r.now = true →
        (∀ d, (w₂.queue.files.lookup (.avail ⟨k.jobId, d⟩)).isSome ↔ IsGreatest {d |
          d.isExpired r.now = false ∧ ∃ p, (w.plans.jobPlans.lookup (k.jobId, p, d)).isSome} d) ∧
        ((∀ d, w₂.queue.files.lookup (.avail ⟨k.jobId, d⟩) = none) ↔
          ∀ p d, (w.plans.jobPlans.lookup (k.jobId, p, d)).isSome → d.isExpired r.now = true)) ∧
      (k.expiresAt.isExpired r.now = false → (w₂.queue.files.lookup (.avail k)).isSome) ∧
      ∀ d b, w₂.queue.files.lookup (.avail ⟨k.jobId, d⟩) = some b → b = body) ∧
    ∀ p m, w.plans.manifests.lookup p = some m → ∃ m', w₁.plans.manifests.lookup p = some m' ∧
      ∀ j, (m'.expiredJobs.lookup j).isSome ↔ (m.expiredJobs.lookup j).isSome ∨
        m.Waits r.cancelMarkers ∧ j ∈ m.jobIds ∧
          (∃ s, IsGreatest {d | (w.plans.jobPlans.lookup (j, p, d)).isSome} (.atStamp s) ∧
            s.instant < r.now) ∧ ¬ w.records.Recorded j := by
  obtain ⟨lapses', w₁', hexec, hpasses, hplans⟩ := LapseView.pass_lands hfits
  rw [hlapse] at hexec
  cases hexec
  have hshows : Shows w.queue.availKeys w₁ := (Shows.of_oneEntry hone).of_queue hpasses.queue
  obtain ⟨hsurvive, hfollows⟩ := (expireOverdueJobs_follows hshows).exec hexpire
  have hbodies := expireOverdueJobs_bodies.exec hexpire
  refine ⟨fun k body hbody => ?_, fun p m hm => ?_⟩
  · have hk : k ∈ w.queue.availKeys := QueueState.mem_availKeys.mpr (by rw [hbody]; rfl)
    have hkey := lookup_followed hshows hsurvive (hfollows hfailures) hk
    refine ⟨fun hexpired => ⟨fun d => ?_, ?_⟩, fun hfuture => ?_, fun d b hb => ?_⟩
    · rw [hkey d, ← latestHorizon_eq_some, ← hpasses.latestHorizon_eq]
      simp [followed, hexpired]
    · rw [← latestHorizon_eq_none, ← hpasses.latestHorizon_eq]
      simp only [← Option.not_isSome_iff_eq_none, hkey, followed, hexpired, if_true]
      cases latestHorizon r.now (w₁.horizons k.jobId) <;> simp
    · rw [hkey k.expiresAt]
      simp [followed, hfuture]
    · obtain ⟨q, k₀, hq, hjob⟩ := hbodies (.avail ⟨k.jobId, d⟩) ⟨k.jobId, d⟩ b ⟨rfl, hb⟩
      rw [hpasses.queue] at hq
      have hsame := hone q (.avail k) k₀ k b body hq ⟨rfl, hbody⟩ hjob
      rw [hsame] at hq
      exact Option.some.inj (hq.2.symm.trans hbody)
  · obtain ⟨m', hm', -, hlapses⟩ := hplans p m hm
    exact ⟨m', hm', fun j => (hlapses j).trans (or_congr_right (hfits.lapsing_iff hm))⟩

def shortPlan : PlanManifest :=
  ⟨⟨"short"⟩, .active, 0, [⟨"lapsed"⟩], ∅, ∅, none, none⟩

/-- The job's deadline has passed, and so has the horizon of the short plan; another plan holds the
job for good. -/
def overdueWorld : World :=
  let w := lapsedWorld ⟨"lapsed"⟩ ⟨"held"⟩ ⟨"plan"⟩ ⟨"client"⟩
  { w with plans := PlanState.put { w.plans with
      jobPlans := w.plans.jobPlans.insert (⟨"lapsed"⟩, ⟨"short"⟩, .atStamp ⟨0⟩) 0 } shortPlan }

def overdueView : LapseView := ⟨[shortPlan], overdueWorld.plans.markers, [], ∅, 5, 10⟩

theorem overdueView_fits : overdueView.Fits overdueWorld := by
  have hplan : ∀ p m, overdueWorld.plans.manifests.lookup p = some m → m = shortPlan := by
    intro p m hm
    have hp : p ∈ [⟨"short"⟩] := FileTree.mem_keys_iff.mpr (Option.isSome_iff_exists.mpr ⟨m, hm⟩)
    obtain rfl := List.mem_singleton.mp hp
    exact (Option.some.inj hm).symm
  refine ⟨fun p => ?_, fun p m hm => ?_, fun p m hm _ j d => ⟨?_, fun hmarker => ?_⟩⟩
  · rw [overdueWorld, PlanState.put, FileTree.lookup_write]
    by_cases hp : p = shortPlan.planId
    · simp [overdueView, hp]
    · simp [overdueView, hp, Ne.symm hp, lapsedWorld, World.empty]
  · rw [hplan p m hm]
    exact ⟨fun h => by simp [overdueView] at h, fun h => absurd h (by decide)⟩
  · rintro ⟨mk, hmk, ⟨rfl, rfl⟩, rfl⟩
    exact Option.isSome_iff_exists.mpr ⟨_, PlanState.mem_markers.mp hmk⟩
  · obtain ⟨writtenAt, hmarker⟩ := Option.isSome_iff_exists.mp hmarker
    exact ⟨⟨j, p, d, writtenAt⟩, PlanState.mem_markers.mpr hmarker, ⟨rfl, rfl⟩, rfl⟩

def overdueLapsed : World := (overdueView.pass.exec machine overdueWorld).2

def overdueExpired : Except Fault Pruned × World :=
  (expireOverdueJobs (fun _ => true) overdueWorld.queue.availKeys 5).exec machine overdueLapsed

/-- The short plan gets its lapse, and the job goes on under the horizon of the other. -/
theorem deadlines_follow_members_redated :
    overdueExpired.2.queue.files.keys =
        [.avail ⟨⟨"lapsed"⟩, .never⟩, .leased ⟨⟨"held"⟩, .never, ⟨"client"⟩, ⟨9⟩⟩] ∧
      (∀ d, (overdueExpired.2.queue.files.lookup (.avail ⟨⟨"lapsed"⟩, d⟩)).isSome ↔
        IsGreatest {d | d.isExpired 5 = false ∧
          ∃ p, (overdueWorld.plans.jobPlans.lookup (⟨"lapsed"⟩, p, d)).isSome} d) ∧
      ∃ m', overdueLapsed.plans.manifests.lookup ⟨"short"⟩ = some m' ∧
        (m'.expiredJobs.lookup ⟨"lapsed"⟩).isSome ∧
        ∃ s, IsGreatest {d | (overdueWorld.plans.jobPlans.lookup
          (⟨"lapsed"⟩, ⟨"short"⟩, d)).isSome} (.atStamp s) ∧ s.instant < 5 := by
  have hone : overdueWorld.queue.OneEntry := QueueState.oneEntry_of_pairwise (by decide +kernel)
  obtain ⟨lapses, w₁, hlapse, -⟩ := LapseView.pass_lands overdueView_fits
  obtain rfl : overdueLapsed = w₁ := congrArg Prod.snd hlapse
  have hclean : overdueExpired.1.toOption.map (·.failures) = some 0 := by decide +kernel
  obtain ⟨pruned, hpruned, hzero⟩ := Option.map_eq_some_iff.mp hclean
  have hexpire : overdueExpired = (.ok pruned, overdueExpired.2) := by
    generalize overdueExpired = out at hpruned
    obtain ⟨_ | _, w₂⟩ := out
    · cases hpruned
    · cases hpruned
      rfl
  have hbody : overdueWorld.queue.files.lookup (.avail ⟨⟨"lapsed"⟩, .atStamp ⟨0⟩⟩) =
      some (.str "lapsed") := rfl
  obtain ⟨hjobs, hplans⟩ := deadlines_follow_members hone overdueView_fits hlapse hexpire hzero
  obtain ⟨m', hm', hlapses⟩ := hplans ⟨"short"⟩ shortPlan rfl
  have hgained : (m'.expiredJobs.lookup ⟨"lapsed"⟩).isSome := by
    have hany : (overdueLapsed.plans.manifests.lookup ⟨"short"⟩).any
        (fun m => (m.expiredJobs.lookup ⟨"lapsed"⟩).isSome) = true := by
      decide +kernel
    rwa [hm'] at hany
  refine ⟨by decide +kernel, ((hjobs _ _ hbody).1 (by decide)).1, m', hm', hgained, ?_⟩
  obtain hbefore | ⟨-, -, hpassed, -⟩ := (hlapses _).mp hgained
  · exact absurd hbefore (by decide)
  · exact hpassed

end Pipette
