import Pipette.Lib.Alone
import Pipette.System.Restore

/-! What the teardown pass takes when it runs alone: the jobs that only ending plans wait on, and
nothing of a job that another plan holds. -/
namespace Pipette

open Prog

/-- The plan is ending: it is cancelling or cancelled, was asked to cancel before it was complete,
or is stranded in `creating`. -/
def IsEndingPlan (w : World) (now : Instant) (creatingMaxAge : Nat) (p : PlanId) : Prop :=
  ∃ m, w.plans.manifests.lookup p = some m ∧
    (m.status = .cancelling ∨ m.status = .cancelled ∨
      (p ∈ w.plans.cancelMarkers.keys ∧ m.status ≠ .complete) ∨
      (m.status = .creating ∧ pastGate m.createdAt now creatingMaxAge = true))

def ListsJob (w : World) (p : PlanId) (j : JobId) : Prop :=
  ∃ m, w.plans.manifests.lookup p = some m ∧ j ∈ m.jobIds

def HoldsJob (w : World) (p : PlanId) (j : JobId) : Prop :=
  ∃ d, (w.plans.jobPlans.lookup (j, p, d)).isSome

theorem teardownCause_isSome_iff {m : PlanManifest} {cancelMarkers : List PlanId} {now : Instant}
    {creatingMaxAge : Nat} :
    (teardownCause m cancelMarkers now creatingMaxAge).isSome ↔
      (m.status = .cancelling ∨ m.status = .cancelled ∨
        (m.planId ∈ cancelMarkers ∧ m.status ≠ .complete) ∨
        (m.status = .creating ∧ pastGate m.createdAt now creatingMaxAge = true)) := by
  unfold teardownCause
  cases m.status <;> simp
  by_cases hmarker : m.planId ∈ cancelMarkers <;> simp [hmarker]

section Calls

variable {w : World} {j : JobId} {p : PlanId} {held : List Lease} {entry : Option AvailKey}

theorem dropMembership_lands :
    (dropMembership p j).Lands machine (fun _ w' => w'.queue = w.queue ∧
      (∀ d, w'.plans.jobPlans.lookup (j, p, d) = none) ∧
      ∀ x, (x.1 ≠ j ∨ x.2.1 ≠ p) → w'.plans.jobPlans.lookup x = w.plans.jobPlans.lookup x) w := by
  refine .store_bind ?_
  refine (Lands.forM_rest (J := fun rest w' => w'.queue = w.queue ∧ (∀ x ∈ rest, x.1 = p) ∧
    (∀ d, (p, d) ∉ rest → w'.plans.jobPlans.lookup (j, p, d) = none) ∧
    ∀ x, (x.1 ≠ j ∨ x.2.1 ≠ p) → w'.plans.jobPlans.lookup x = w.plans.jobPlans.lookup x)
    (fun m rest w' _ hw' => ?_) ?_).mono fun _ w' hw' => ?_
  · obtain ⟨hqueue, hplan, hgone, hsame⟩ := hw'
    refine .store ⟨hqueue, fun x hx => hplan x (List.mem_cons_of_mem m hx), fun d hd => ?_,
      fun x hx => ?_⟩
    · simp only [machine, PlanCall.step, FileTree.lookup_remove]
      split
      · rfl
      · next hne =>
        refine hgone d fun hmem => ?_
        obtain rfl | hmem := List.mem_cons.mp hmem
        · exact hne rfl
        · exact hd hmem
    · simp only [machine, PlanCall.step, FileTree.lookup_remove]
      split
      · next heq =>
        subst heq
        simp at hx
      · exact hsame x hx
  · refine ⟨rfl, fun x hx => by simpa using (List.mem_filter.mp hx).2, fun d hd => ?_, fun _ _ => rfl⟩
    rw [← Option.not_isSome_iff_eq_none]
    intro hsome
    exact hd (List.mem_filter.mpr ⟨mem_listJobPlanMarkers.mpr hsome, by simp⟩)
  · exact ⟨hw'.1, fun d => hw'.2.2.1 d List.not_mem_nil, hw'.2.2.2⟩

theorem deleteAvailByJob_lands :
    (deleteAvailByJob j).Lands machine (fun _ w' => w'.plans = w.plans ∧
      (∀ e, w'.queue.files.lookup (.avail ⟨j, e⟩) = none) ∧
      ∀ l, w'.queue.files.lookup (.leased l) = w.queue.files.lookup (.leased l)) w := by
  refine .store_bind ?_
  refine (Lands.forM_rest (J := fun rest w' => rest.Nodup ∧ w'.plans = w.plans ∧
    (∀ e, e ∈ rest ↔ (w'.queue.files.lookup (.avail ⟨j, e⟩)).isSome) ∧
    ∀ l, w'.queue.files.lookup (.leased l) = w.queue.files.lookup (.leased l))
    (fun e rest w' _ hw' => ?_) ?_).mono fun _ w' hw' => ?_
  · obtain ⟨hnodup, hplans, hlisted, hleased⟩ := hw'
    obtain ⟨hnew, hrest⟩ := List.nodup_cons.mp hnodup
    have hthere := (hlisted e).mp List.mem_cons_self
    refine .store_bind ?_
    simp only [machine, QueueCall.step, hthere, if_true]
    refine .ret ⟨hrest, hplans, fun e' => ?_, fun l => ?_⟩
    · simp only [FileTree.lookup_remove]
      split
      · next heq =>
        cases heq
        simpa using hnew
      · next hne =>
        rw [← hlisted e', List.mem_cons]
        refine ⟨.inr, fun h => h.resolve_left ?_⟩
        rintro rfl
        exact hne rfl
    · simp only [FileTree.lookup_remove]
      exact hleased l
  · exact ⟨nodup_listAvailOf, rfl, fun e => mem_listAvailOf, fun _ => rfl⟩
  · obtain ⟨-, hplans, hlisted, hleased⟩ := hw'
    refine ⟨hplans, fun e => ?_, hleased⟩
    rw [← Option.not_isSome_iff_eq_none, ← hlisted e]
    exact List.not_mem_nil

theorem forM_deleteLease_lands :
    (held.forM deleteLease).Lands machine (fun _ w' => w'.plans = w.plans ∧
      (∀ l ∈ held, w'.queue.files.lookup (.leased l) = none) ∧
      ∀ q, w.queue.files.lookup q = none → w'.queue.files.lookup q = none) w := by
  refine (Lands.forM_rest (J := fun rest w' => w'.plans = w.plans ∧
    (∀ l ∈ held, l ∉ rest → w'.queue.files.lookup (.leased l) = none) ∧
    ∀ q, w.queue.files.lookup q = none → w'.queue.files.lookup q = none)
    (fun l rest w' _ hw' => ?_) ?_).mono fun _ w' hw' => ?_
  · obtain ⟨hplans, hgone, hnone⟩ := hw'
    have hremove : ∀ q, q = .leased l ∨ w'.queue.files.lookup q = none →
        (w'.queue.files.erase (.leased l)).lookup q = none := by
      intro q hq
      rw [FileTree.lookup_remove]
      split
      · rfl
      · next hne => exact hq.resolve_left hne
    refine .store_bind (.ret ⟨hplans, fun l' hl' hrest => hremove _ ?_, fun q hq => hremove q ?_⟩)
    · by_cases hl : l' = l
      · exact .inl (hl ▸ rfl)
      · exact .inr (hgone l' hl' fun hmem => (List.mem_cons.mp hmem).elim hl hrest)
    · exact .inr (hnone q hq)
  · exact ⟨rfl, fun l hl hnot => absurd hl hnot, fun _ h => h⟩
  · exact ⟨hw'.1, fun l hl => hw'.2.1 l hl List.not_mem_nil, hw'.2.2⟩

structure Shown (j : JobId) (inAvail : Bool) (held : List Lease) (w : World) : Prop where
  avail : ∀ e, (w.queue.files.lookup (.avail ⟨j, e⟩)).isSome → inAvail = true
  leased : ∀ l : Lease, l.jobId = j → (w.queue.files.lookup (.leased l)).isSome → l ∈ held

theorem noEntry_iff : w.queue.NoEntry j ↔ (∀ e, w.queue.files.lookup (.avail ⟨j, e⟩) = none) ∧
    ∀ l : Lease, l.jobId = j → w.queue.files.lookup (.leased l) = none := by
  refine ⟨fun h => ⟨fun e => h _ ⟨_, rfl, rfl⟩, fun l hl => h _ ⟨_, rfl, hl⟩⟩, fun h q hq => ?_⟩
  obtain ⟨k, hk, hj⟩ := hq
  cases q with
  | avail k' =>
    cases hk
    subst hj
    exact h.1 k.expiresAt
  | leased l =>
    cases hk
    exact h.2 l hj
  | tmp => cases hk

theorem retireJob_lands {inAvail : Bool} (h : Shown j inAvail held w) :
    (retireJob j inAvail held).Lands machine
      (fun _ w' => w'.plans = w.plans ∧ w'.queue.NoEntry j) w := by
  have hleases : ∀ v : World, v.plans = w.plans →
      (∀ e, v.queue.files.lookup (.avail ⟨j, e⟩) = none) →
      (∀ l, v.queue.files.lookup (.leased l) = w.queue.files.lookup (.leased l)) →
      (held.forM deleteLease).Lands machine
        (fun _ w' => w'.plans = w.plans ∧ w'.queue.NoEntry j) v := by
    intro v hplans havail hleased
    refine forM_deleteLease_lands.mono fun _ w' hw' => ?_
    obtain ⟨hplans', hgone, hnone⟩ := hw'
    refine ⟨hplans'.trans hplans, noEntry_iff.mpr ⟨fun e => hnone _ (havail e), fun l hl => ?_⟩⟩
    by_cases hthere : (w.queue.files.lookup (.leased l)).isSome
    · exact hgone l (h.leased l hl hthere)
    · refine hnone _ ?_
      rw [hleased l]
      exact Option.not_isSome_iff_eq_none.mp hthere
  cases inAvail with
  | true => exact deleteAvailByJob_lands.bind fun _ v hv => hleases v hv.1 hv.2.1 hv.2.2
  | false =>
    refine hleases w rfl (fun e => ?_) fun _ => rfl
    rw [← Option.not_isSome_iff_eq_none]
    exact fun hthere => nomatch h.avail e hthere

/-- Nobody joins a job while the pass runs alone: once its last membership is gone, so is the job. -/
theorem retireOrRestore_lands {inAvail : Bool} {d : ExpiresAt} {body : Option Json}
    (h : Shown j inAvail held w) (hfree : ∀ q, ¬ HoldsJob w q j) :
    (retireOrRestore j inAvail held d body).Lands machine
      (fun _ w' => w'.plans = w.plans ∧ w'.queue.NoEntry j) w := by
  refine (retireJob_lands h).bind fun _ v hv => .store_bind ?_
  obtain ⟨hplans, hgone⟩ := hv
  have hnone : (machine (.plans (.listJobPlanMarkers j)) v).1 = [] := by
    refine List.eq_nil_iff_forall_not_mem.mpr fun x hx => hfree x.1 ⟨x.2, ?_⟩
    rw [← hplans]
    exact mem_listJobPlanMarkers.mp hx
  rw [hnone]
  cases body with
  | none => exact .store_bind (.ret ⟨hplans, hgone⟩)
  | some body => exact .ret ⟨hplans, hgone⟩

theorem bodyToRestore_lands :
    (bodyToRestore j entry held).Lands machine
      (fun r w' => w' = w ∧ (r = none → entry = none ∧ held = [])) w := by
  cases entry with
  | some k => exact .store_bind (.ret ⟨rfl, nofun⟩)
  | none =>
    cases held with
    | nil => exact .ret ⟨rfl, fun _ => ⟨rfl, rfl⟩⟩
    | cons l rest => exact .store_bind (.ret ⟨rfl, nofun⟩)

theorem Shown.noEntry (h : Shown j false [] w) : w.queue.NoEntry j := by
  refine noEntry_iff.mpr ⟨fun e => ?_, fun l hl => ?_⟩
  · rw [← Option.not_isSome_iff_eq_none]
    exact fun hthere => nomatch h.avail e hthere
  · rw [← Option.not_isSome_iff_eq_none]
    exact fun hthere => nomatch h.leased l hl hthere

/-- What ending one membership of a job does: the plan's markers go, and the job with them unless
another plan holds it. -/
structure MembershipEnded (p : PlanId) (j : JobId) (w w' : World) : Prop where
  dropped : ∀ d, w'.plans.jobPlans.lookup (j, p, d) = none
  kept : ∀ q d, q ≠ p → w'.plans.jobPlans.lookup (j, q, d) = w.plans.jobPlans.lookup (j, q, d)
  shared : (∃ q, q ≠ p ∧ HoldsJob w q j) →
    ∀ f, w'.queue.files.lookup f = w.queue.files.lookup f
  retired : (∀ q, q ≠ p → ¬ HoldsJob w q j) → w'.queue.NoEntry j

theorem endMembership_lands (h : Shown j entry.isSome held w) :
    (endMembership p j entry held).Lands machine (fun _ w' => MembershipEnded p j w w') w := by
  rw [endMembership_eq]
  refine dropMembership_lands.bind fun _ v hv => .store_bind ?_
  obtain ⟨hqueue, hdropped, hkept⟩ := hv
  have hkept' : ∀ q d, q ≠ p →
      v.plans.jobPlans.lookup (j, q, d) = w.plans.jobPlans.lookup (j, q, d) :=
    fun q d hq => hkept (j, q, d) (.inr hq)
  have hholds : ∀ q, HoldsJob v q j ↔ q ≠ p ∧ HoldsJob w q j := by
    intro q
    by_cases hq : q = p
    · subst hq
      simp [HoldsJob, hdropped]
    · simp [HoldsJob, hkept' q _ hq, hq]
  by_cases hlast : ∀ q, ¬ HoldsJob v q j
  · have hnone : (machine (.plans (.listJobPlanMarkers j)) v).1 = [] :=
      List.eq_nil_iff_forall_not_mem.mpr fun x hx =>
        hlast x.1 ⟨x.2, mem_listJobPlanMarkers.mp hx⟩
    have hshown : Shown j entry.isSome held v := by
      refine ⟨fun e => ?_, fun l => ?_⟩
      · rw [hqueue]
        exact h.avail e
      · rw [hqueue]
        exact h.leased l
    have hend : ∀ w' : World, w'.plans = v.plans → w'.queue.NoEntry j → MembershipEnded p j w w' := by
      intro w' hplans hgone
      refine ⟨fun d => hplans ▸ hdropped d, fun q d hq => hplans ▸ hkept' q d hq, ?_, fun _ => hgone⟩
      rintro ⟨q, hq, hholder⟩
      exact absurd ((hholds q).mpr ⟨hq, hholder⟩) (hlast q)
    rw [hnone]
    refine bodyToRestore_lands.bind fun r v' hv' => ?_
    obtain ⟨rfl, hr⟩ := hv'
    cases r with
    | none =>
      obtain ⟨rfl, rfl⟩ := hr rfl
      exact .ret (hend v rfl hshown.noEntry)
    | some found =>
      exact (retireOrRestore_lands hshown hlast).mono fun _ w' hw' => hend w' hw'.1 hw'.2
  · obtain ⟨q, d, hmarker⟩ := not_forall_not.mp hlast
    have hmem : (q, d) ∈ (machine (.plans (.listJobPlanMarkers j)) v).1 :=
      mem_listJobPlanMarkers.mpr hmarker
    have hsome : (machine (.plans (.listJobPlanMarkers j)) v).1.isEmpty = false := by
      cases hlist : (machine (.plans (.listJobPlanMarkers j)) v).1 with
      | nil =>
        rw [hlist] at hmem
        cases hmem
      | cons => rfl
    rw [hsome]
    refine .ret ⟨hdropped, hkept', fun _ f => by rw [← hqueue]; rfl, fun hnone => ?_⟩
    obtain ⟨hq, hholder⟩ := (hholds q).mp ⟨d, hmarker⟩
    exact absurd hholder (hnone q hq)

end Calls

section Frame

variable {j : JobId}

structure SameJobState (j : JobId) (w w' : World) : Prop where
  files : ∀ f, f.IsOf j → w'.queue.files.lookup f = w.queue.files.lookup f
  markers : ∀ q d, w'.plans.jobPlans.lookup (j, q, d) = w.plans.jobPlans.lookup (j, q, d)

theorem SameJobState.refl (w : World) : SameJobState j w w := ⟨fun _ _ => rfl, fun _ _ => rfl⟩

theorem SameJobState.trans {u v w : World} (h : SameJobState j u v) (h' : SameJobState j v w) :
    SameJobState j u w :=
  ⟨fun f hf => (h'.files f hf).trans (h.files f hf), fun q d => (h'.markers q d).trans (h.markers q d)⟩

theorem allowsTeardown_other {j' : JobId} (p : PlanId) (hj : j' ≠ j) :
    AllowsTeardown (fun c => ∀ w, SameJobState j w (machine c w).2) j' p := by
  have hremove : ∀ f : QueuePath, ¬ f.IsOf j →
      ∀ w, SameJobState j w (machine (.queue (.remove f)) w).2 := by
    refine fun f hf w => ⟨fun g hg => ?_, fun _ _ => rfl⟩
    simp only [machine, QueueCall.step, FileTree.lookup_remove]
    refine if_neg ?_
    rintro rfl
    exact hf hg
  refine ⟨.refl, fun d w => ⟨fun _ _ => rfl, fun q e => ?_⟩, .refl, fun d => ⟨.refl, hremove _ ?_⟩,
    fun l hl => ⟨.refl, hremove _ ?_⟩, fun d body => ⟨fun w => ⟨fun g hg => ?_, fun _ _ => rfl⟩,
      fun w => ⟨fun g hg => ?_, fun _ _ => rfl⟩⟩, fun w => ⟨fun _ _ => rfl, fun _ _ => rfl⟩⟩
  · simp only [machine, PlanCall.step, FileTree.lookup_remove]
    refine if_neg fun heq => hj ?_
    cases heq
    rfl
  · rintro ⟨k, hk, rfl⟩
    cases hk
    exact hj rfl
  · rintro ⟨k, hk, rfl⟩
    cases hk
    exact hj hl.symm
  · simp only [machine, QueueCall.step, FileTree.lookup_write]
    refine if_neg ?_
    rintro rfl
    obtain ⟨k, hk, -⟩ := hg
    cases hk
  · simp only [machine, QueueState.step_rename]
    split
    · next files hrename =>
      simp only [FileTree.lookup_rename hrename]
      have hdst : g ≠ .avail ⟨j', d⟩ := by
        rintro rfl
        obtain ⟨k, hk, rfl⟩ := hg
        cases hk
        exact hj rfl
      have hsrc : g ≠ .tmp j' := by
        rintro rfl
        obtain ⟨k, hk, -⟩ := hg
        cases hk
      rw [if_neg hdst, if_neg hsrc]
    · rfl

end Frame

section Pass

variable {w₀ w w' : World} {now : Instant} {creatingMaxAge : Nat} {j j' : JobId} {p : PlanId}
  {rest : List (PlanId × JobId)}

variable (w₀ now creatingMaxAge j) in
structure JobTorn (rest : List (PlanId × JobId)) (w : World) : Prop where
  ending : ∀ x ∈ rest, IsEndingPlan w₀ now creatingMaxAge x.1
  fewer : ∀ q, HoldsJob w q j → HoldsJob w₀ q j
  spared : ∀ q d, ¬ IsEndingPlan w₀ now creatingMaxAge q →
    w.plans.jobPlans.lookup (j, q, d) = w₀.plans.jobPlans.lookup (j, q, d)
  files : (∀ f, f.IsOf j → w.queue.files.lookup f = w₀.queue.files.lookup f) ∨ w.queue.NoEntry j
  shared : (∃ q, ¬ IsEndingPlan w₀ now creatingMaxAge q ∧ HoldsJob w₀ q j) →
    ∀ f, f.IsOf j → w.queue.files.lookup f = w₀.queue.files.lookup f
  owed : w₀.queue.NoEntry j ∨ ∀ q, HoldsJob w q j → IsEndingPlan w₀ now creatingMaxAge q →
    ListsJob w₀ q j → (q, j) ∈ rest
  left : w₀.queue.NoEntry j ∨ w.queue.NoEntry j ∨ (∃ q, HoldsJob w q j) ∨
    (∃ q, (q, j) ∈ rest ∧ releasedBy w₀.plans.markers j q = false) ∨
    ((∀ q, ¬ HoldsJob w₀ q j) ∧
      ∀ q, IsEndingPlan w₀ now creatingMaxAge q → ¬ ListsJob w₀ q j)

theorem holdsJob_iff {q : PlanId} :
    HoldsJob w₀ q j ↔ ∃ m ∈ w₀.plans.markers, m.jobId = j ∧ m.planId = q := by
  constructor
  · rintro ⟨d, hd⟩
    obtain ⟨writtenAt, hlookup⟩ := Option.isSome_iff_exists.mp hd
    exact ⟨⟨j, q, d, writtenAt⟩, PlanState.mem_markers.mpr hlookup, rfl, rfl⟩
  · rintro ⟨m, hm, rfl, rfl⟩
    exact ⟨m.expiresAt, by rw [PlanState.mem_markers.mp hm]; rfl⟩

theorem releasedBy_iff : releasedBy w₀.plans.markers j p = true ↔
    (∃ q, HoldsJob w₀ q j) ∧ ¬ HoldsJob w₀ p j := by
  simp only [releasedBy, holdsJob_iff, Bool.and_eq_true, Bool.not_eq_true', List.isEmpty_eq_false_iff,
    ne_eq, List.filter_eq_nil_iff, List.any_eq_false, List.mem_filter, decide_eq_true_eq]
  constructor
  · rintro ⟨hsome, hnone⟩
    refine ⟨?_, fun ⟨m, hm, hj, hp⟩ => hnone m ⟨hm, hj⟩ hp⟩
    by_contra hno
    exact hsome fun m hm hj => hno ⟨m.planId, m, hm, hj, rfl⟩
  · rintro ⟨⟨q, m, hm, hj, -⟩, hnone⟩
    exact ⟨fun hno => hno m hm hj, fun m' hm' hp => hnone ⟨m', hm'.1, hm'.2, hp⟩⟩

theorem SameJobState.holdsJob (h : SameJobState j w w') (q : PlanId) :
    HoldsJob w' q j ↔ HoldsJob w q j := by
  simp only [HoldsJob, h.markers]

theorem SameJobState.noEntry (h : SameJobState j w w') (hw : w.queue.NoEntry j) :
    w'.queue.NoEntry j :=
  fun f hf => (h.files f hf).trans (hw f hf)

theorem JobTorn.skip (h : JobTorn w₀ now creatingMaxAge j ((p, j') :: rest) w)
    (hskip : j' = j → w₀.queue.NoEntry j ∨ releasedBy w₀.plans.markers j p = true)
    (hsame : SameJobState j w w') : JobTorn w₀ now creatingMaxAge j rest w' := by
  refine ⟨fun x hx => h.ending x (List.mem_cons_of_mem _ hx), fun q hq => ?_, fun q d hq => ?_, ?_,
    fun hholder f hf => (hsame.files f hf).trans (h.shared hholder f hf), ?_, ?_⟩
  · exact h.fewer q ((hsame.holdsJob q).mp hq)
  · exact (hsame.markers q d).trans (h.spared q d hq)
  · obtain hfiles | hgone := h.files
    · exact .inl fun f hf => (hsame.files f hf).trans (hfiles f hf)
    · exact .inr (hsame.noEntry hgone)
  · obtain hnone | howed := h.owed
    · exact .inl hnone
    · by_cases hnone : w₀.queue.NoEntry j
      · exact .inl hnone
      · refine .inr fun q hq hending hlists => ?_
        have hq := (hsame.holdsJob q).mp hq
        obtain heq | hmem := List.mem_cons.mp (howed q hq hending hlists)
        · cases heq
          obtain hnone' | hreleased := hskip rfl
          · exact absurd hnone' hnone
          · exact absurd (h.fewer p hq) (releasedBy_iff.mp hreleased).2
        · exact hmem
  · obtain hnone | hgone | ⟨q, hq⟩ | ⟨q, hmem, hheld⟩ | hfree := h.left
    · exact .inl hnone
    · exact .inr (.inl (hsame.noEntry hgone))
    · exact .inr (.inr (.inl ⟨q, (hsame.holdsJob q).mpr hq⟩))
    · obtain heq | hmem := List.mem_cons.mp hmem
      · cases heq
        obtain hnone | hreleased := hskip rfl
        · exact .inl hnone
        · rw [hreleased] at hheld
          cases hheld
      · exact .inr (.inr (.inr (.inl ⟨q, hmem, hheld⟩)))
    · exact .inr (.inr (.inr (.inr hfree)))

theorem MembershipEnded.holdsJob (h : MembershipEnded p j w w') (q : PlanId) :
    HoldsJob w' q j ↔ q ≠ p ∧ HoldsJob w q j := by
  by_cases hq : q = p
  · subst hq
    simp [HoldsJob, h.dropped]
  · simp [HoldsJob, h.kept q _ hq, hq]

theorem JobTorn.endMembership (h : JobTorn w₀ now creatingMaxAge j ((p, j) :: rest) w)
    (hend : MembershipEnded p j w w') : JobTorn w₀ now creatingMaxAge j rest w' := by
  have hp : IsEndingPlan w₀ now creatingMaxAge p := h.ending (p, j) List.mem_cons_self
  have hne : ∀ q, ¬ IsEndingPlan w₀ now creatingMaxAge q → q ≠ p := by
    rintro q hq rfl
    exact hq hp
  refine ⟨fun x hx => h.ending x (List.mem_cons_of_mem _ hx), fun q hq => ?_, fun q d hq => ?_, ?_, ?_,
    ?_, ?_⟩
  · exact h.fewer q ((hend.holdsJob q).mp hq).2
  · exact (hend.kept q d (hne q hq)).trans (h.spared q d hq)
  · by_cases hother : ∃ q, q ≠ p ∧ HoldsJob w q j
    · obtain hfiles | hgone := h.files
      · exact .inl fun f hf => (hend.shared hother f).trans (hfiles f hf)
      · exact .inr fun f hf => (hend.shared hother f).trans (hgone f hf)
    · exact .inr (hend.retired fun q hq hholds => hother ⟨q, hq, hholds⟩)
  · rintro ⟨q, hq, d, hd⟩ f hf
    have hholds : HoldsJob w q j := ⟨d, by rw [h.spared q d hq]; exact hd⟩
    exact (hend.shared ⟨q, hne q hq, hholds⟩ f).trans (h.shared ⟨q, hq, d, hd⟩ f hf)
  · obtain hnone | howed := h.owed
    · exact .inl hnone
    · refine .inr fun q hq hending hlists => ?_
      obtain ⟨hqp, hq⟩ := (hend.holdsJob q).mp hq
      obtain heq | hmem := List.mem_cons.mp (howed q hq hending hlists)
      · cases heq
        exact absurd rfl hqp
      · exact hmem
  · by_cases hother : ∃ q, q ≠ p ∧ HoldsJob w q j
    · obtain ⟨q, hq⟩ := hother
      exact .inr (.inr (.inl ⟨q, (hend.holdsJob q).mpr hq⟩))
    · exact .inr (.inl (hend.retired fun q hq hholds => hother ⟨q, hq, hholds⟩))

theorem shown_listed : Shown j (availByJob w₀.queue.availKeys j).isSome
    (w₀.queue.leases.filter (·.jobId = j)) w₀ := by
  refine ⟨fun e hthere => ?_, fun l hl hthere => ?_⟩
  · have hkey : (⟨j, e⟩ : AvailKey) ∈ w₀.queue.availKeys.filter (·.jobId = j) :=
      List.mem_filter.mpr ⟨QueueState.mem_availKeys.mpr hthere, by simp⟩
    rw [availByJob, List.getLast?_isSome]
    exact List.ne_nil_of_mem hkey
  · exact List.mem_filter.mpr ⟨QueueState.mem_leases.mpr hthere, by simpa using hl⟩

theorem JobTorn.shown (h : JobTorn w₀ now creatingMaxAge j rest w) :
    Shown j (availByJob w₀.queue.availKeys j).isSome (w₀.queue.leases.filter (·.jobId = j)) w := by
  have hback : ∀ f, f.IsOf j → (w.queue.files.lookup f).isSome →
      (w₀.queue.files.lookup f).isSome := by
    intro f hf hthere
    obtain hfiles | hgone := h.files
    · rwa [hfiles f hf] at hthere
    · rw [hgone f hf] at hthere
      cases hthere
  exact ⟨fun e hthere => shown_listed.avail e (hback _ ⟨_, rfl, rfl⟩ hthere),
    fun l hl hthere => shown_listed.leased l hl (hback _ ⟨_, rfl, hl⟩ hthere)⟩

theorem tearDownJob_lands {acc : Teardown}
    (h : ∀ j, JobTorn w₀ now creatingMaxAge j ((p, j') :: rest) w) :
    (tearDownJob w₀.plans.markers w₀.queue.availKeys w₀.queue.leases p acc j').Lands machine
      (fun acc' w' => acc'.failures = acc.failures ∧
        ∀ j, JobTorn w₀ now creatingMaxAge j rest w') w := by
  unfold tearDownJob
  split
  · next hreleased =>
    exact .ret ⟨rfl, fun j => (h j).skip (fun hj => .inr (hj ▸ hreleased)) (.refl w)⟩
  extract_lets entry held
  split
  · next hnone =>
    obtain ⟨hentry, hheld⟩ := Bool.and_eq_true_iff.mp hnone
    have hgone : w₀.queue.NoEntry j' := by
      refine Shown.noEntry ?_
      have hlisted : Shown j' entry.isSome held w₀ := shown_listed
      rwa [List.isEmpty_iff.mp hheld, Option.isNone_iff_eq_none.mp hentry] at hlisted
    exact .ret ⟨rfl, fun j => (h j).skip (fun hj => .inl (hj ▸ hgone)) (.refl w)⟩
  -- every other job is left alone, call by call
  have hother : (endMembership p j' entry held).Calls
      fun c => ∀ j : {j // j ≠ j'}, ∀ w, SameJobState j.1 w (machine c w).2 := by
    refine .all fun j => endMembership_calls (allowsTeardown_other p j.2.symm) fun l hl => ?_
    simpa using (List.mem_filter.mp hl).2
  have hlands := (endMembership_lands (p := p) (h j').shown).keep
    (J := fun w' => ∀ j : {j // j ≠ j'}, SameJobState j.1 w w')
    (fun c v hc hv j => (hv j).trans (hc j v)) hother fun j => .refl w
  refine hlands.attempt_bind fun fate w' hw' => ?_
  have htorn : ∀ j, JobTorn w₀ now creatingMaxAge j rest w' := by
    intro j
    by_cases hj : j = j'
    · subst hj
      exact (h j).endMembership hw'.1
    · exact (h j).skip (fun heq => absurd heq.symm hj) (hw'.2 ⟨j, hj⟩)
  cases fate <;> exact .ret ⟨rfl, htorn⟩

def memberships (plans : List PlanManifest) : List (PlanId × JobId) :=
  plans.flatMap fun m => m.jobIds.map (m.planId, ·)

theorem tearDownJobs_lands {plans : List PlanManifest} {acc : Teardown}
    (h : ∀ j, JobTorn w₀ now creatingMaxAge j (memberships plans) w) :
    (plans.foldlM (fun acc (m : PlanManifest) => m.jobIds.foldlM
      (tearDownJob w₀.plans.markers w₀.queue.availKeys w₀.queue.leases m.planId) acc) acc).Lands
      machine (fun acc' w' => acc'.failures = acc.failures ∧
        ∀ j, JobTorn w₀ now creatingMaxAge j [] w') w := by
  refine Lands.foldlM_rest (J := fun plans (acc' : Teardown) w' => acc'.failures = acc.failures ∧
    ∀ j, JobTorn w₀ now creatingMaxAge j (memberships plans) w') (fun m plans acc' w' _ hw' => ?_)
    ⟨rfl, h⟩
  refine (Lands.foldlM_rest (J := fun jobs (acc' : Teardown) w' => acc'.failures = acc.failures ∧
    ∀ j, JobTorn w₀ now creatingMaxAge j (jobs.map (m.planId, ·) ++ memberships plans) w')
    (fun j' jobs acc' w' _ hw' => ?_) hw')
  refine (tearDownJob_lands hw'.2).mono fun acc'' w'' hw'' => ?_
  exact ⟨hw''.1.trans hw'.1, hw''.2⟩

theorem mem_doomed {m : PlanManifest} : m ∈ (w₀.plans.manifests.entries.map (·.2)).filter
    (fun m => (teardownCause m w₀.plans.cancelMarkers.keys now creatingMaxAge).isSome) ↔
      w₀.plans.manifests.lookup m.planId = some m ∧
        IsEndingPlan w₀ now creatingMaxAge m.planId := by
  have hlisted : m ∈ w₀.plans.manifests.entries.map (·.2) ↔
      w₀.plans.manifests.lookup m.planId = some m := by
    rw [List.mem_map]
    constructor
    · rintro ⟨⟨p, m'⟩, hentry, rfl⟩
      have hlookup : w₀.plans.manifests.lookup p = some m' := AList.mem_lookup_iff.mpr hentry
      rwa [w₀.plans.filed p m' hlookup]
    · exact fun h => ⟨⟨m.planId, m⟩, AList.mem_lookup_iff.mp h, rfl⟩
  rw [List.mem_filter, hlisted, teardownCause_isSome_iff]
  refine and_congr_right fun hlookup => ?_
  constructor
  · exact fun h => ⟨m, hlookup, h⟩
  · rintro ⟨m', hlookup', h⟩
    rw [hlookup] at hlookup'
    cases hlookup'
    exact h

theorem jobTorn_start : JobTorn w₀ now creatingMaxAge j (memberships
    ((w₀.plans.manifests.entries.map (·.2)).filter fun m =>
      (teardownCause m w₀.plans.cancelMarkers.keys now creatingMaxAge).isSome)) w₀ := by
  have hmember : ∀ q, IsEndingPlan w₀ now creatingMaxAge q → ListsJob w₀ q j → (q, j) ∈ memberships
      ((w₀.plans.manifests.entries.map (·.2)).filter fun m =>
        (teardownCause m w₀.plans.cancelMarkers.keys now creatingMaxAge).isSome) := by
    rintro q hq ⟨m, hlookup, hj⟩
    obtain rfl := w₀.plans.filed q m hlookup
    exact List.mem_flatMap.mpr ⟨m, mem_doomed.mpr ⟨hlookup, hq⟩, List.mem_map.mpr ⟨j, hj, rfl⟩⟩
  refine ⟨fun x hx => ?_, fun _ h => h, fun _ _ _ => rfl, .inl fun _ _ => rfl, fun _ _ _ => rfl,
    .inr fun q _ => hmember q, ?_⟩
  · obtain ⟨m, hm, hx⟩ := List.mem_flatMap.mp hx
    obtain ⟨j', -, rfl⟩ := List.mem_map.mp hx
    exact (mem_doomed.mp hm).2
  · right
    right
    by_cases hheld : ∃ q, HoldsJob w₀ q j
    · exact .inl hheld
    right
    by_cases hlister : ∃ q, IsEndingPlan w₀ now creatingMaxAge q ∧ ListsJob w₀ q j
    · obtain ⟨q, hq, hlists⟩ := hlister
      refine .inl ⟨q, hmember q hq hlists, ?_⟩
      rw [Bool.eq_false_iff, ne_eq, releasedBy_iff]
      exact fun h => hheld h.1
    · exact .inr ⟨fun q hq => hheld ⟨q, hq⟩, fun q hq hlists => hlister ⟨q, hq, hlists⟩⟩

end Pass

def teardownPass (w : World) (now : Instant) (creatingMaxAge : Nat) : Op TeardownOutcome :=
  tearDownPlans (w.plans.manifests.entries.map (·.2)) w.plans.cancelMarkers.keys w.plans.markers
    w.queue.availKeys w.queue.leases now creatingMaxAge

/-- A cancel takes exactly its own jobs, in whatever order the ending plans are gone through. -/
theorem teardown_takes_own_jobs (w : World) (now : Instant) (creatingMaxAge : Nat) :
    let after := ((teardownPass w now creatingMaxAge).exec machine w).2
    (∃ outcome, ((teardownPass w now creatingMaxAge).exec machine w).1 = .ok outcome ∧
        outcome.failures = 0) ∧
      (∀ j, (∃ p, HoldsJob w p j) →
        (∀ p, HoldsJob w p j → IsEndingPlan w now creatingMaxAge p ∧ ListsJob w p j) →
        after.queue.NoEntry j) ∧
      (∀ j, (∀ p, ¬ HoldsJob w p j) →
        (∃ p, IsEndingPlan w now creatingMaxAge p ∧ ListsJob w p j) → after.queue.NoEntry j) ∧
      ∀ j p d, ¬ IsEndingPlan w now creatingMaxAge p → (w.plans.jobPlans.lookup (j, p, d)).isSome →
        after.plans.jobPlans.lookup (j, p, d) = w.plans.jobPlans.lookup (j, p, d) ∧
          ∀ f, f.IsOf j → after.queue.files.lookup f = w.queue.files.lookup f := by
  have hlands : (teardownPass w now creatingMaxAge).Lands machine (fun outcome w' =>
      outcome.failures = 0 ∧ ∀ j, JobTorn w now creatingMaxAge j [] w') w :=
    (tearDownJobs_lands fun j => jobTorn_start).bind fun acc w' hw' => .ret hw'
  obtain ⟨outcome, after, hexec, hfailures, htorn⟩ := hlands
  have hgone : ∀ j,
      ((∃ p, HoldsJob w p j) ∨ ∃ p, IsEndingPlan w now creatingMaxAge p ∧ ListsJob w p j) →
      (∀ p, HoldsJob w p j → IsEndingPlan w now creatingMaxAge p ∧ ListsJob w p j) →
      after.queue.NoEntry j := by
    intro j hsome hall
    have hnoEntry : w.queue.NoEntry j → after.queue.NoEntry j := by
      intro hno
      obtain hfiles | hgone := (htorn j).files
      · exact fun f hf => (hfiles f hf).trans (hno f hf)
      · exact hgone
    have hnoHolder : w.queue.NoEntry j ∨ ∀ p, ¬ HoldsJob after p j := by
      refine (htorn j).owed.imp_right fun howed p hp => ?_
      obtain ⟨hending, hlists⟩ := hall p ((htorn j).fewer p hp)
      exact absurd (howed p hp hending hlists) List.not_mem_nil
    obtain hno | hnoHolder := hnoHolder
    · exact hnoEntry hno
    obtain hno | hno | ⟨p, hp⟩ | ⟨p, hp, -⟩ | ⟨hnone, hlister⟩ := (htorn j).left
    · exact hnoEntry hno
    · exact hno
    · exact absurd hp (hnoHolder p)
    · exact absurd hp List.not_mem_nil
    · obtain ⟨p, hp⟩ | ⟨p, hp, hlists⟩ := hsome
      · exact absurd hp (hnone p)
      · exact absurd hlists (hlister p hp)
  simp only [hexec]
  refine ⟨⟨outcome, rfl, hfailures⟩, fun j hholder hall => hgone j (.inl hholder) hall,
    fun j hnone hlister => hgone j (.inr hlister) fun p hp => absurd hp (hnone p),
    fun j p d hp hmarker => ⟨(htorn j).spared p d hp, (htorn j).shared ⟨p, hp, d, hmarker⟩⟩⟩

end Pipette
