import Pipette.Pipeline.Stages
import Pipette.System.PlanLatch

/-! One plan seen through a run: which calls reach its manifest and its cancel marker, and a rule
for the run that leaves only those to be judged. -/
namespace Pipette

open Prog

def Requested (p : PlanId) (w : World) : Prop := (w.plans.cancelMarkers.lookup p).isSome

def planStatus (p : PlanId) (w : World) : Option PlanStatus :=
  (w.plans.manifests.lookup p).map (·.status)

def LeavesPlan (p : PlanId) : StoreCall → Prop
  | .plans (.putPlan m) => m.planId ≠ p
  | .plans (.writeCancelMarker q) | .plans (.deleteCancelMarker q) => q ≠ p
  | _ => True

structure SamePlan (p : PlanId) (w w' : World) : Prop where
  manifest : w'.plans.manifests.lookup p = w.plans.manifests.lookup p
  marker : w'.plans.cancelMarkers.lookup p = w.plans.cancelMarkers.lookup p

section Leaves

variable {p : PlanId} {c : StoreCall} {w w' : World}

theorem LeavesPlan.step (h : LeavesPlan p c) : SamePlan p w (machine c w).2 := by
  cases c with
  | plans c =>
    cases c with
    | putPlan m =>
      have hne : p ≠ m.planId := fun he => h he.symm
      exact ⟨by simp [machine, PlanCall.step, PlanState.put, hne], rfl⟩
    | writeCancelMarker q =>
      have hne : p ≠ q := fun he => h he.symm
      exact ⟨rfl, by simp [machine, PlanCall.step, hne]⟩
    | deleteCancelMarker q =>
      have hne : p ≠ q := fun he => h he.symm
      exact ⟨rfl, by simp [machine, PlanCall.step, hne]⟩
    | deleteContentKey digest version =>
      simp only [machine, PlanCall.step]
      split
      · split <;> exact ⟨rfl, rfl⟩
      · exact ⟨rfl, rfl⟩
    | _ => exact ⟨rfl, rfl⟩
  | _ => exact ⟨rfl, rfl⟩

theorem LeavesPlan.same {r : Except Fault c.Answer} (h : LeavesPlan p c)
    (hout : machine.faulty c w r w') : SamePlan p w w' := by
  obtain ⟨-, rfl⟩ | ⟨e, -, rfl | rfl⟩ := hout
  · exact h.step
  · exact ⟨rfl, rfl⟩
  · exact h.step

theorem SubmissionCall.leavesPlan (h : SubmissionCall c) : LeavesPlan p c := by
  cases c with
  | plans c => exact h.elim
  | _ => trivial

theorem SettlingCall.leavesPlan {now : Instant} (h : SettlingCall now c) : LeavesPlan p c := by
  cases c with
  | plans c => cases c <;> first | exact h.elim | trivial
  | _ => trivial

theorem IndexingCall.leavesPlan (h : IndexingCall c) : LeavesPlan p c := by
  cases c with
  | plans c => exact h.elim
  | _ => trivial

theorem SweepingCall.leavesPlan (h : SweepingCall c) : LeavesPlan p c := by
  cases c with
  | plans c => exact h.elim
  | _ => trivial

theorem leavesPlan_teardown (p : PlanId) (j : JobId) (q : PlanId) :
    AllowsTeardown (LeavesPlan p) j q where
  markers := trivial
  drop _ := trivial
  list := trivial
  entry _ := ⟨trivial, trivial⟩
  lease _ _ := ⟨trivial, trivial⟩
  restore _ _ := ⟨trivial, trivial⟩
  flag := trivial

end Leaves

def Counts.inBuckets (c : Counts) : Nat :=
  c.finished + c.running + c.available + c.failed + c.cancelled

theorem Counts.inBuckets_addOutcome (c : Counts) (outcome : SettledOutcome) :
    (c.addOutcome outcome).inBuckets = c.inBuckets + 1 := by
  cases outcome <;> simp only [Counts.addOutcome, Counts.inBuckets] <;> omega

/-- What the count of `n` jobs leaves: each is in a bucket or still to be probed, and the outcomes the
manifest holds stay as they are. -/
structure Counted (m : PlanManifest) (n : Nat) (acc : JobCount) : Prop where
  inBuckets : acc.counts.inBuckets + acc.toProbe.length = n
  settled : ∀ j o, m.settledJobs.lookup j = some o → acc.settledJobs.lookup j = some o
  probes : ∀ j ∈ acc.toProbe, m.settledJobs.lookup j = none

theorem PlanPass.ends_of {α : Type} {Q : α → Prop} {x : PlanCaches → Op (α × PlanCaches)}
    {caches : PlanCaches} (h : (x caches).Ends fun r => Q r.1) :
    (PlanPass.of x caches).Ends fun r => ∀ a, r.1 = .ok a → Q a := by
  refine h.attempt.seq fun r hr => ?_
  cases r with
  | error e => exact fun a ha => nomatch ha
  | ok out =>
    rintro _ ⟨⟩
    exact hr out rfl

section Counting

variable {v : PlanView} {m : PlanManifest} {settled : FileTree JobId SettledOutcome} {n : Nat}

theorem settled_insert {s : FileTree JobId SettledOutcome} {j : JobId} {outcome : SettledOutcome}
    (h : ∀ j o, m.settledJobs.lookup j = some o → s.lookup j = some o)
    (hj : m.settledJobs.lookup j = none) (j' : JobId) (o : SettledOutcome)
    (ho : m.settledJobs.lookup j' = some o) : (s.insert j outcome).lookup j' = some o := by
  have hne : j' ≠ j := by
    rintro rfl
    rw [hj] at ho
    cases ho
  rw [FileTree.lookup_write, if_neg hne]
  exact h j' o ho

theorem Counted.one {acc : JobCount} (h : Counted m n acc) (j : JobId) :
    Counted m (n + 1) (countOne v m settled acc j) := by
  obtain ⟨hcounts, hsettled, hprobes⟩ := h
  unfold countOne
  split
  · exact ⟨by simp only [Counts.inBuckets] at hcounts ⊢; omega, hsettled, hprobes⟩
  split
  · exact ⟨by simp only [Counts.inBuckets] at hcounts ⊢; omega, hsettled, hprobes⟩
  split
  · exact ⟨by simp only [Counts.inBuckets] at hcounts ⊢; omega, hsettled, hprobes⟩
  split
  · exact ⟨by simp only [Counts.inBuckets_addOutcome]; omega, hsettled, hprobes⟩
  · next hnone _ =>
    exact ⟨by simp only [Counts.inBuckets_addOutcome]; omega, settled_insert hsettled hnone, hprobes⟩
  · next hnone _ =>
    refine ⟨by simp only [List.length_append, List.length_singleton]; omega, hsettled, ?_⟩
    intro j' hj'
    obtain hold | rfl : j' ∈ acc.toProbe ∨ j' = j := by simpa using hj'
    · exact hprobes j' hold
    · exact hnone

theorem Counted.all {l : List JobId} {acc : JobCount} (h : Counted m n acc) :
    Counted m (n + l.length) (l.foldl (countOne v m settled) acc) := by
  induction l generalizing n acc with
  | nil => exact h
  | cons j rest ih =>
    rw [List.length_cons, Nat.add_comm rest.length, ← Nat.add_assoc]
    exact ih (h.one j)

theorem countProbed_one {acc : Probed} {j : JobId}
    (hsettled : ∀ j o, m.settledJobs.lookup j = some o → acc.settledJobs.lookup j = some o)
    (hj : m.settledJobs.lookup j = none) :
    (countProbed acc j).counts.inBuckets = acc.counts.inBuckets + 1 ∧
      ∀ j' o, m.settledJobs.lookup j' = some o →
        (countProbed acc j).settledJobs.lookup j' = some o := by
  unfold countProbed
  split
  · exact ⟨acc.counts.inBuckets_addOutcome _, settled_insert hsettled hj⟩
  · refine ⟨?_, hsettled⟩
    simp only [Counts.inBuckets]
    omega

theorem countProbed_all {l : List JobId} (acc : Probed)
    (hsettled : ∀ j o, m.settledJobs.lookup j = some o → acc.settledJobs.lookup j = some o)
    (hl : ∀ j ∈ l, m.settledJobs.lookup j = none) :
    (l.foldl countProbed acc).counts.inBuckets = acc.counts.inBuckets + l.length ∧
      ∀ j o, m.settledJobs.lookup j = some o →
        (l.foldl countProbed acc).settledJobs.lookup j = some o := by
  induction l generalizing acc with
  | nil => exact ⟨rfl, hsettled⟩
  | cons j rest ih =>
    obtain ⟨hj, hrest⟩ := List.forall_mem_cons.mp hl
    obtain ⟨hone, hkept⟩ := countProbed_one hsettled hj
    obtain ⟨hcounts, hall⟩ := ih _ hkept hrest
    refine ⟨?_, hall⟩
    rw [List.foldl_cons, hcounts, hone, List.length_cons]
    omega

def CountsAll (m : PlanManifest) (counted : JobCount) : Prop :=
  counted.counts.inBuckets = m.jobIds.length ∧
    ∀ j o, m.settledJobs.lookup j = some o → counted.settledJobs.lookup j = some o

theorem countJobs_ends {caches : PlanCaches} : (countJobs v m caches).Ends fun r =>
    ∀ counted, r.1 = .ok counted → CountsAll m counted := by
  have hknown : Counted m (0 + m.jobIds.length) (m.jobIds.foldl (countOne v m caches.settled)
      ⟨⟨m.jobIds.length, 0, 0, 0, 0, 0⟩, m.settledJobs, []⟩) :=
    .all ⟨rfl, fun _ _ ho => ho, fun _ hj => nomatch hj⟩
  refine PlanPass.ends_of (Q := CountsAll m) (.bind fun found => ?_)
  obtain ⟨hcounts, hsettled⟩ := countProbed_all ⟨_, caches.settled, found⟩ hknown.settled
    hknown.probes
  exact ⟨hcounts.trans (hknown.inBuckets.trans (Nat.zero_add _)), hsettled⟩

end Counting

def ownManifests (p : PlanId) (ms : List PlanManifest) : List PlanManifest :=
  ms.filter (·.planId = p)

theorem ownManifests_drained (p : PlanId) (w : World) :
    ownManifests p (w.plans.manifests.entries.map (·.2)) = (w.plans.manifests.lookup p).toList :=
  FileTree.filter_values w.plans.filed

theorem lookup_of_drained {p : PlanId} {w : World} {m : PlanManifest}
    (hm : m ∈ w.plans.manifests.entries.map (·.2)) (hid : m.planId = p) :
    w.plans.manifests.lookup p = some m := by
  have hmem : m ∈ ownManifests p (w.plans.manifests.entries.map (·.2)) :=
    List.mem_filter.mpr ⟨hm, by simpa using hid⟩
  rw [ownManifests_drained] at hmem
  simpa using hmem

theorem eq_some_of_find {p : PlanId} {ms : List PlanManifest} {m : PlanManifest}
    {o : Option PlanManifest} (h : ms.find? (·.planId = p) = some m)
    (ho : ownManifests p ms = o.toList) : o = some m := by
  have hmem : m ∈ ownManifests p ms :=
    List.mem_filter.mpr ⟨List.mem_of_find?_eq_some h, by simpa using List.find?_some h⟩
  rw [ho] at hmem
  simpa using hmem

def Carries (p : PlanId) (F : Option PlanManifest → World → Prop) (ms : List PlanManifest)
    (w : World) : Prop :=
  ∃ o : Option PlanManifest, ownManifests p ms = o.toList ∧ F o w

structure Refreshed (v : PlanView) (m m' : PlanManifest) : Prop where
  planId : m'.planId = m.planId
  createdAt : m'.createdAt = m.createdAt
  live : m.status.isTerminal = false
  creating : m.status = .creating → v.isEnding m = true
  ending : v.isEnding m = true → m'.status = .cancelling ∨ m'.status = .cancelled
  cancelled : m'.status = .cancelled → v.outstanding m = [] ∧ m.planId ∉ v.endings.perturbed
  jobIds : m'.jobIds = m.jobIds
  settled : ∀ j o, m.settledJobs.lookup j = some o → m'.settledJobs.lookup j = some o
  snapshot : ∀ s, m'.progressSnapshot = some s → s.counts.inBuckets = m.jobIds.length

/-- Interference and a guard under which calls on other plans are free. -/
structure PlanRule (p : PlanId) (R : World → World → Prop) (G : StoreCall → World → Prop) : Prop where
  leaves : ∀ c w, LeavesPlan p c → G c w
  bears : ∀ w w', SamePlan p w w' → R w w'

section Rule

variable {α β : Type} {p : PlanId} {R : World → World → Prop} {G : StoreCall → World → Prop}
  {v : PlanView} {m : PlanManifest} {acc : Reconciled} {caches : PlanCaches} {w : World}

def FreeCall (R : World → World → Prop) (G : StoreCall → World → Prop) (c : StoreCall) : Prop :=
  ∀ w, G c w ∧ ∀ r w', machine.faulty c w r w' → R w w'

theorem PlanRule.free (h : PlanRule p R G) {c : StoreCall} (hc : LeavesPlan p c) : FreeCall R G c :=
  fun w => ⟨h.leaves c w hc, fun _ w' hout => h.bears w w' (hc.same hout)⟩

theorem sat_of_free {F : World → Prop} (hF : ∀ w w', F w → R w w' → F w') {q : Op α}
    (hq : q.Calls (FreeCall R G)) (hw : F w) : q.Sat machine.faulty R G (fun _ w => F w) w :=
  .invariant hF (fun _ v hc hv => ⟨(hc v).1, fun r v' hout => hF v v' hv ((hc v).2 r v' hout)⟩) hq hw

theorem PlanRule.keeps (h : PlanRule p R G) {F : World → Prop} (hF : ∀ w w', F w → R w w' → F w')
    {q : Op α} (hq : q.Calls (LeavesPlan p)) (hw : F w) :
    q.Sat machine.faulty R G (fun _ w => F w) w :=
  sat_of_free hF (hq.mono fun _ => h.free) hw

/-- The marker of the plan is collected as an orphan only where the run has no manifest of it. -/
theorem PlanRule.orphan_free (h : PlanRule p R G) {F : Option PlanManifest → World → Prop}
    {ms : List PlanManifest}
    (hnone : F none w → p ∈ v.cancelMarkers → FreeCall R G (.plans (.deleteCancelMarker p)))
    (hw : Carries p F ms w) {q : PlanId}
    (hq : q ∈ v.cancelMarkers.filter fun q => !ms.any (·.planId = q)) :
    FreeCall R G (.plans (.deleteCancelMarker q)) := by
  by_cases hqp : q = p
  swap
  · exact h.free hqp
  subst hqp
  obtain ⟨o, ho, hw⟩ := hw
  obtain ⟨hmem, hmissing⟩ := List.mem_filter.mp hq
  cases o with
  | none => exact hnone hw hmem
  | some m =>
    have hm : m ∈ ownManifests q ms := by
      rw [ho]
      exact List.mem_singleton_self m
    obtain ⟨hms, hid⟩ := List.mem_filter.mp hm
    have hany : ms.any (·.planId = q) = true := List.any_eq_true.mpr ⟨m, hms, hid⟩
    simp [hany] at hmissing

theorem decideStatus_ending {empty retired matched : Bool} {now : Instant} :
    (decideStatus true empty retired matched now).1 = .cancelling ∨
      (decideStatus true empty retired matched now).1 = .cancelled := by
  cases empty <;> cases retired <;> simp [decideStatus]

theorem decideStatus_cancelled {ending empty retired matched : Bool} {now : Instant}
    (h : (decideStatus ending empty retired matched now).1 = .cancelled) :
    empty = true ∧ retired = false := by
  cases ending <;> cases empty <;> cases retired <;> cases matched <;> simp_all [decideStatus]

variable [Std.Refl R] {D : World → Prop}

namespace PlanPass

variable {Q : α → World → Prop} {S : β → World → Prop} {caches : PlanCaches}

/-- `Q` holds of what a plan's pass gives, if it comes through. -/
def Gives (Q : α → World → Prop) (r : Except Fault (Except Fault α × PlanCaches)) (w : World) : Prop :=
  ∀ a caches, r = .ok (.ok a, caches) → Q a w

theorem sat_of {x : PlanCaches → Op (α × PlanCaches)} (hQ : ∀ a w w', Q a w → R w w' → Q a w')
    (hx : (x caches).Sat machine.faulty R G (fun r w => ∀ a, r.map (·.1) = .ok a → Q a w) w) :
    (PlanPass.of x caches).Sat machine.faulty R G (Gives Q) w := by
  refine hx.attempt_bind fun r w hw => ?_
  cases r with
  | error e => exact fun w' _ a _ he => by cases he
  | ok out =>
    rintro w' hR _ _ ⟨⟩
    exact hQ _ w w' (hw _ rfl) hR

theorem sat_bind {x : PlanPass α} {f : α → PlanPass β}
    (hx : (x caches).Sat machine.faulty R G (Gives Q) w)
    (hf : ∀ a caches w, Q a w → (f a caches).Sat machine.faulty R G (Gives S) w) :
    ((x >>= f) caches).Sat machine.faulty R G (Gives S) w := by
  rw [bind_apply]
  refine hx.bind (fun (r, caches) w hw => ?_) fun e _ _ v' _ a _ he => by cases he
  cases r with
  | error e => exact fun w' _ a _ he => by cases he
  | ok a => exact hf a caches w (hw a caches rfl)

end PlanPass

theorem PlanRule.onePlan (h : PlanRule p R G) {F : World → Prop}
    (hF : ∀ w w', F w → R w w' → F w') (hD : ∀ w w', D w → R w w' → D w')
    (hterminal : m.status.isTerminal = true → ∀ w, F w →
      (collectCancelMarker v m).Sat machine.faulty R G (fun r w => r = .ok () → D w) w)
    (hskip : m.status = .creating → v.isEnding m = false → ∀ w, F w → D w)
    (hput : ∀ m', Refreshed v m m' → ∀ w, F w → G (.plans (.putPlan m')) w)
    (hcollect : ∀ m', Refreshed v m m' → ∀ w, F w →
      (collectCancelMarker v m).Sat machine.faulty R G (fun r w => r = .ok () → D w)
        (machine (.plans (.putPlan m')) w).2) (hw : F w) :
    (reconcileOnePlan v m caches).Sat machine.faulty R G (PlanPass.Gives fun _ => D) w := by
  have hthen : ∀ (caches : PlanCaches) w, (collectCancelMarker v m).Sat machine.faulty R G
      (fun r w => r = .ok () → D w) w → ((collectCancelMarker v m).bind fun _ => ret ((), caches)).Sat
        machine.faulty R G (fun r w => ∀ a, r.map (·.1) = .ok a → D w) w := fun caches w hsat =>
    hsat.bind (fun _ w' hw' v' hR _ _ => hD w' v' (hw' rfl) hR) fun e _ _ v' _ _ he => by cases he
  unfold reconcileOnePlan
  split
  · next hstatus => exact PlanPass.sat_of (fun _ => hD) (hthen caches w (hterminal hstatus w hw))
  next hstatus =>
  split
  · next hcreating =>
    intro w' hR _ _ _
    exact hskip hcreating.1 (by simpa using hcreating.2) w' (hF w w' hw hR)
  · next hgoing =>
    have hkeep : ∀ {α : Type} {x : PlanPass α} (caches : PlanCaches) {w : World}, F w →
        (x caches).Calls (LeavesPlan p) →
        (x caches).Sat machine.faulty R G (PlanPass.Gives fun _ => F) w := fun caches w hw hx =>
      (h.keeps hF hx hw).mono (fun _ _ hG => hG) fun _ _ hw _ _ _ => hw
    refine PlanPass.sat_bind (hkeep caches hw
      (PlanPass.calls_foldlM (fun _ _ _ => starveOne_calls fun _ => trivial) _ _))
      fun starvation caches w₁ hw₁ => ?_
    have hcount : (countJobs v m caches).Calls (LeavesPlan p) := countJobs_calls fun _ _ => trivial
    refine PlanPass.sat_bind (Q := fun counted w => F w ∧ CountsAll m counted)
      (((h.keeps hF hcount hw₁).and_ends countJobs_ends).mono (fun _ _ hG => hG)
        fun _ _ ⟨hw, hends⟩ counted _ he => ⟨hw, hends _ he counted rfl⟩)
      fun counted caches w₂ ⟨hw₂, hcounts, hsettled⟩ => ?_
    refine PlanPass.sat_bind (hkeep caches hw₂ (groupStarved_calls fun _ => trivial))
      fun groups caches w₃ hw₃ => PlanPass.sat_of (fun _ => hD) (.store_bind fun w₄ hR => ?_)
    have hw₄ : F w₄ := hF w₃ w₄ hw₃ hR
    have hrefreshed : ∀ terminalAt groups, Refreshed v m { m with
        status := (decideStatus (v.isEnding m) (v.outstanding m).isEmpty
          (decide (m.planId ∈ v.endings.perturbed)) starvation.anyMatched v.now).1
        terminalAt
        progressSnapshot := some ⟨v.now, counted.counts, groups⟩
        settledJobs := counted.settledJobs } := by
      intro terminalAt groups
      refine ⟨rfl, rfl, by simpa using hstatus, fun hcreating => ?_, fun hending => ?_,
        fun hcancelled => ?_, rfl, hsettled, ?_⟩
      · simpa [hcreating] using hgoing
      · rw [hending]
        exact decideStatus_ending
      · obtain ⟨hempty, hretired⟩ := decideStatus_cancelled hcancelled
        exact ⟨List.isEmpty_iff.mp hempty, by simpa using hretired⟩
      · rintro _ ⟨⟩
        exact hcounts
    refine ⟨?_, fun _ w₅ hout => ?_, fun e w₅ _ v' _ _ he => by cases he⟩
    · exact hput _ (hrefreshed _ _) w₄ hw₄
    · obtain ⟨-, rfl⟩ | ⟨e, he, -⟩ := hout
      · exact hthen _ _ (hcollect _ (hrefreshed _ _) w₄ hw₄)
      · cases he

theorem reconcileOnePlan_leaves (hm : m.planId ≠ p) :
    (reconcileOnePlan v m caches).Calls (LeavesPlan p) := by
  refine reconcileOnePlan_calls (fun _ => trivial) (fun _ _ => trivial) hm fun m' hid _ _ _ => ?_
  exact fun he => hm (hid.symm.trans he)

theorem ownManifests_cons {ms : List PlanManifest} :
    ownManifests p (m :: ms) = if m.planId = p then m :: ownManifests p ms else ownManifests p ms := by
  simp [ownManifests, List.filter_cons]

def PlanDue (p : PlanId) (F : Option PlanManifest → World → Prop) (D : World → Prop)
    (rest : List PlanManifest) (acc : Reconciled) (w : World) : Prop :=
  (∃ m, ownManifests p rest = [m] ∧ F (some m) w) ∨
    (ownManifests p rest = [] ∧ (acc.failures = 0 → D w))

theorem PlanDue.failures {F : Option PlanManifest → World → Prop} {rest : List PlanManifest}
    {acc' : Reconciled} (hw : PlanDue p F D rest acc w)
    (hfailures : acc'.failures = 0 → acc.failures = 0) : PlanDue p F D rest acc' w :=
  hw.imp_right fun ⟨hown, hdone⟩ => ⟨hown, fun hzero => hdone (hfailures hzero)⟩

omit [Std.Refl R] in
theorem PlanDue.bears {F : Option PlanManifest → World → Prop} {rest : List PlanManifest} {w' : World}
    (hF : ∀ o w w', F o w → R w w' → F o w') (hD : ∀ w w', D w → R w w' → D w')
    (hw : PlanDue p F D rest acc w) (hR : R w w') : PlanDue p F D rest acc w' := by
  obtain ⟨m, hm, hw⟩ | ⟨hm, hw⟩ := hw
  · exact .inl ⟨m, hm, hF _ w w' hw hR⟩
  · exact .inr ⟨hm, fun hzero => hD w w' (hw hzero) hR⟩

/-- All plans: what is left to judge is the plan itself, and that its marker is no orphan. -/
theorem PlanRule.allPlans (h : PlanRule p R G) {ms : List PlanManifest} {bodies : Bodies}
    {F : Option PlanManifest → World → Prop} (hF : ∀ o w w', F o w → R w w' → F o w')
    (hD : ∀ w w', D w → R w w' → D w')
    (hnone : ∀ w, F none w →
      D w ∧ (p ∈ v.cancelMarkers → FreeCall R G (.plans (.deleteCancelMarker p))))
    (hone : ∀ m acc w, m.planId = p → F (some m) w →
      (reconcileOnePlan v m acc).Sat machine.faulty R G (PlanPass.Gives fun _ => D) w)
    (hcarried : Carries p F ms w) :
    (reconcilePlans v ms bodies).Sat machine.faulty R G
      (fun r w => ∀ acc, r = .ok acc → acc.failures = 0 → D w) w := by
  have herror : ∀ (e : Fault) (w : World) (acc : Reconciled), Except.error e = .ok acc →
      acc.failures = 0 → D w := fun e w acc he => by cases he
  have hdue : ∀ rest acc w w', PlanDue p F D rest acc w → R w w' → PlanDue p F D rest acc w' :=
    fun _ _ _ _ => PlanDue.bears hF hD
  have hstart : ∀ acc, PlanDue p F D ms acc w := by
    intro acc
    obtain ⟨o, ho, hw⟩ := hcarried
    cases o with
    | none => exact .inr ⟨ho, fun _ => (hnone w hw).1⟩
    | some m => exact .inl ⟨m, ho, hw⟩
  refine (Sat.foldlM_rest (J := PlanDue p F D) hdue (fun m rest acc w _ hw => ?_) (hstart _)).bind
    (fun acc w hw => ?_) fun e _ _ v' _ => herror e v'
  · by_cases hm : m.planId = p
    · rw [PlanDue, ownManifests_cons, if_pos hm] at hw
      obtain ⟨m₀, hown, hw⟩ | ⟨hown, -⟩ := hw
      · obtain ⟨rfl, hrest⟩ := List.cons.inj hown
        refine (hone m _ w hm hw).bind (fun (r, caches) w hr => ?_) fun e _ _ v' _ acc he => by cases he
        cases r with
        | ok _ =>
          rintro w' hR _ ⟨⟩
          exact .inr ⟨hrest, fun _ => hD w w' (hr () caches rfl) hR⟩
        | error e =>
          rintro w' hR _ ⟨⟩
          exact .inr ⟨hrest, fun hzero => absurd hzero (Nat.succ_ne_zero _)⟩
      · cases hown
    · have hrest : PlanDue p F D rest acc w := by
        rwa [PlanDue, ownManifests_cons, if_neg hm] at hw
      refine (h.keeps (hdue rest acc) (reconcileOnePlan_leaves hm) hrest).bind
        (fun (r, caches) w hw => ?_) fun e _ _ v' _ acc he => by cases he
      cases r with
      | ok _ =>
        rintro w' hR _ ⟨⟩
        exact (hdue _ _ w w' hw hR).failures id
      | error e =>
        rintro w' hR _ ⟨⟩
        exact (hdue _ _ w w' hw hR).failures fun hzero => absurd hzero (Nat.succ_ne_zero _)
  · have hdone : acc.failures = 0 → D w := by
      obtain ⟨m, hm, -⟩ | ⟨-, hdone⟩ := hw acc rfl
      · cases hm
      · exact hdone
    refine Sat.foldlM (J := fun (acc : Reconciled) w => acc.failures = 0 → D w)
      (fun acc w w' hw hR hzero => hD w w' (hw hzero) hR) (fun acc q hq w hw => ?_) hdone
    have hfree : (collectOrphanedMarker q).Calls (FreeCall R G) := by
      refine .bind (.store (h.free trivial)) fun found => ?_
      cases found
      · exact .store (h.orphan_free (fun hw => (hnone _ hw).2) hcarried hq)
      · exact .ret _
    have hkept := sat_of_free (F := fun w => acc.failures = 0 → D w)
      (fun w w' hw hR hzero => hD w w' (hw hzero) hR) hfree hw
    refine hkept.attempt_bind fun r w hw => ?_
    cases r with
    | ok _ =>
      rintro w' hR _ ⟨⟩ hzero
      exact hD w w' (hw hzero) hR
    | error e =>
      rintro w' hR _ ⟨⟩ hzero
      exact absurd hzero (Nat.succ_ne_zero _)

section Lapses

variable {F : Option PlanManifest → World → Prop} {markers : List JobPlanMarker}
  {cancelMarkers : List PlanId} {stranded : Finset PlanId} {now : Instant} {creatingMaxAge : Nat}
  {lapses : Lapses} {q : PlanId} {j : JobId}

omit [Std.Refl R] in
theorem Carries.bears (hF : ∀ o w w', F o w → R w w' → F o w') {ms : List PlanManifest} {w' : World}
    (hw : Carries p F ms w) (hR : R w w') : Carries p F ms w' := by
  obtain ⟨o, ho, hw⟩ := hw
  exact ⟨o, ho, hF o w w' hw hR⟩

def rewritten (q : PlanId) (m : PlanManifest) (ms : List PlanManifest) : List PlanManifest :=
  ms.map fun m₀ => if m₀.planId = q then m else m₀

theorem ownManifests_rewritten_of_ne {ms : List PlanManifest} (hq : q ≠ p) (hm : m.planId = q) :
    ownManifests p (rewritten q m ms) = ownManifests p ms := by
  induction ms with
  | nil => rfl
  | cons m₀ rest ih =>
    have hcons : rewritten q m (m₀ :: rest) =
        (if m₀.planId = q then m else m₀) :: rewritten q m rest := rfl
    rw [hcons, ownManifests_cons, ownManifests_cons, ih]
    by_cases hm₀ : m₀.planId = q
    · simp [hm₀, hm, hq]
    · simp [hm₀]

theorem ownManifests_rewritten {ms : List PlanManifest} (hm : m.planId = p) :
    ownManifests p (rewritten p m ms) = (ownManifests p ms).map fun _ => m := by
  induction ms with
  | nil => rfl
  | cons m₀ rest ih =>
    have hcons : rewritten p m (m₀ :: rest) =
        (if m₀.planId = p then m else m₀) :: rewritten p m rest := rfl
    rw [hcons, ownManifests_cons, ownManifests_cons, ih]
    by_cases hm₀ : m₀.planId = p
    · simp [hm₀, hm]
    · simp [hm₀]

def AfterLapse (p : PlanId) (F : Option PlanManifest → World → Prop) (ms : List PlanManifest)
    (q : PlanId) : Except Fault (Option PlanManifest) → World → Prop
  | .ok (some m), w => Carries p F (rewritten q m ms) w
  | .ok none, w | .error _, w => Carries p F ms w

theorem PlanRule.memberLapse (h : PlanRule p R G) (hF : ∀ o w w', F o w → R w w' → F o w')
    (hlapse : ∀ m deadline w, lapses.manifests.find? (·.planId = q) = some m →
      lapseExempt m cancelMarkers stranded = false → ingestMayOverwrite m now creatingMaxAge = false →
      Carries p F lapses.manifests w →
      (recordOneLapse markers q j deadline now).Sat machine.faulty R G
        (AfterLapse p F lapses.manifests q) w)
    (hw : Carries p F lapses.manifests w) :
    (recordMemberLapse markers cancelMarkers stranded now creatingMaxAge lapses (q, j)).Sat
      machine.faulty R G (fun r w => ∀ acc, r = .ok acc → Carries p F acc.manifests w) w := by
  have hret : ∀ (acc : Lapses) w, Carries p F acc.manifests w →
      (ret acc : Op Lapses).Sat machine.faulty R G
        (fun r w => ∀ acc, r = .ok acc → Carries p F acc.manifests w) w := by
    rintro acc w hw w' hR _ ⟨⟩
    exact hw.bears hF hR
  unfold recordMemberLapse
  simp only
  split
  · next deadline m _ hfind =>
    split
    · exact hret lapses w hw
    next hexempt =>
    have hkept := h.keeps (fun w w' hw hR => Carries.bears hF hw hR)
      (hasRecord_calls (j := j) fun _ => trivial) hw
    refine hkept.attempt_bind fun r w hw => ?_
    match r with
    | .ok true => exact hret lapses w hw
    | .error _ => exact hret _ w hw
    | .ok false =>
      simp only
      split
      · exact hret lapses w hw
      next hyoung =>
      have hexempt : lapseExempt m cancelMarkers stranded = false := by
        simp only [Bool.or_eq_true, not_or, Bool.not_eq_true] at hexempt
        exact hexempt.1
      refine (hlapse m deadline w hfind hexempt (by simpa using hyoung) hw).attempt_bind
        fun r w hw => ?_
      match r with
      | .ok (some m') => exact hret _ w hw
      | .ok none => exact hret _ w hw
      | .error _ => exact hret _ w hw
  · exact hret lapses w hw

omit [Std.Refl R] in
theorem PlanRule.otherLapse (h : PlanRule p R G) (hF : ∀ o w w', F o w → R w w' → F o w')
    (hq : q ≠ p) {ms : List PlanManifest} {deadline : Stamp} (hw : Carries p F ms w) :
    (recordOneLapse markers q j deadline now).Sat machine.faulty R G (AfterLapse p F ms q) w := by
  have hbears : ∀ w w', Carries p F ms w → R w w' → Carries p F ms w' := fun _ _ hw hR =>
    hw.bears hF hR
  have hsat : ∀ (rest : Op (Option PlanManifest)) w, rest.Calls (LeavesPlan p) →
      rest.Ends (fun o => ∃ m', o = some m' ∧ m'.planId = q) → Carries p F ms w →
      rest.Sat machine.faulty R G (AfterLapse p F ms q) w := by
    intro rest w hcalls hends hw
    refine ((h.keeps hbears hcalls hw).and_ends hends).mono (fun _ _ hG => hG) ?_
    rintro r w ⟨⟨o, ho, hw⟩, hends⟩
    match r with
    | .error _ => exact ⟨o, ho, hw⟩
    | .ok found =>
      obtain ⟨m', rfl, hm'⟩ := hends found rfl
      exact ⟨o, (ownManifests_rewritten_of_ne hq hm').trans ho, hw⟩
  refine .store_bind fun w₁ hR => ⟨h.leaves _ _ trivial, fun found w₂ hout => ?_, fun e w₂ hout v' hR' => ?_⟩
  · have hw₂ : Carries p F ms w₂ :=
      hbears _ _ (hbears _ _ hw hR) (h.bears _ _ (LeavesPlan.same (c := .plans (.getPlan q)) trivial hout))
    obtain ⟨hfound, -⟩ | ⟨e, he, -⟩ := hout
    · cases found with
      | none => exact fun v' hR' => hbears _ _ hw₂ hR'
      | some m =>
        have hid : m.planId = q := w₁.plans.filed q m (Except.ok.inj hfound).symm
        have hmarkers : (((markers.filter fun mk => mk.planId = q ∧ mk.jobId = j).map
            (·.expiresAt)).forM fun d => Op.plans (.deleteJobPlanMarker j q d)).Calls
              (LeavesPlan p) := .forM fun d _ => .store trivial
        have hkeeps : ∀ (lapsed : Bool) expiredJobs,
            (if lapsed then m else { m with expiredJobs }).planId = q := by
          intro lapsed expiredJobs
          split <;> exact hid
        simp only
        split
        · refine hsat _ _ (.bind (.store ?_) fun _ => .bind hmarkers fun _ => .ret _)
            (.bind fun _ => .bind fun _ => ⟨_, rfl, hkeeps _ _⟩) hw₂
          exact fun he => hq ((hkeeps _ _).symm.trans he)
        · exact hsat _ _ (.bind hmarkers fun _ => .ret _)
            (.bind fun _ => ⟨_, rfl, hkeeps _ _⟩) hw₂
    · cases he
  · exact hbears _ _ (hbears _ _ (hbears _ _ hw hR)
      (h.bears _ _ (LeavesPlan.same (c := .plans (.getPlan q)) trivial hout))) hR'

/-- The lapse of the plan itself: a copy of the stored manifest with one more lapse is written, and
the run goes on with it once the markers are gone. -/
theorem PlanRule.ownLapse (h : PlanRule p R G) (hF : ∀ o w w', F o w → R w w' → F o w')
    (hR : ∀ w w', R w w' → w'.plans.manifests.lookup p = w.plans.manifests.lookup p)
    (hread : ∀ m₀ w, w.plans.manifests.lookup p = some m₀ → F (some m) w → F (some m₀) w)
    (hput : ∀ m₀ w expiredJobs, w.plans.manifests.lookup p = some m₀ → F (some m) w →
      G (.plans (.putPlan { m₀ with expiredJobs })) w ∧
        F (some m) (machine (.plans (.putPlan { m₀ with expiredJobs })) w).2 ∧
        F (some { m₀ with expiredJobs }) (machine (.plans (.putPlan { m₀ with expiredJobs })) w).2)
    {ms : List PlanManifest} {deadline : Stamp} (hown : ownManifests p ms = [m]) (hw : F (some m) w) :
    (recordOneLapse markers p j deadline now).Sat machine.faulty R G (AfterLapse p F ms p) w := by
  have hcopy : ∀ w, F (some m) w → Carries p F ms w := fun w hw => ⟨some m, hown, hw⟩
  -- once the write has landed, the run holds either copy
  have hmarkers : ∀ (m' : PlanManifest) w, m'.planId = p → F (some m) w ∧ F (some m') w →
      ((((markers.filter fun mk => mk.planId = p ∧ mk.jobId = j).map (·.expiresAt)).forM fun d =>
        Op.plans (.deleteJobPlanMarker j p d)).bind fun _ => ret (some m')).Sat machine.faulty R G
          (AfterLapse p F ms p) w := by
    intro m' w hid hw
    have hdelete : (((markers.filter fun mk => mk.planId = p ∧ mk.jobId = j).map
        (·.expiresAt)).forM fun d => Op.plans (.deleteJobPlanMarker j p d)).Calls (LeavesPlan p) :=
      .forM fun d _ => .store trivial
    refine (h.keeps (F := fun w => F (some m) w ∧ F (some m') w)
      (fun w w' hw hR => ⟨hF _ w w' hw.1 hR, hF _ w w' hw.2 hR⟩) hdelete hw).bind
        (fun _ w hw w' hR => ?_) fun e w hw w' hR => hcopy w' (hF _ w w' hw.1 hR)
    refine ⟨some m', ?_, hF _ w w' hw.2 hR⟩
    rw [ownManifests_rewritten hid, hown]
    rfl
  refine .store_bind fun w₁ hR₁ => ?_
  have hw₁ := hF _ w w₁ hw hR₁
  refine ⟨h.leaves _ _ trivial, fun found w₂ hout => ?_, fun e w₂ hout w₃ hR₃ => ?_⟩
  · obtain ⟨hfound, rfl⟩ | ⟨e, he, -⟩ := hout
    swap
    · cases he
    cases found with
    | none => exact fun w₃ hR₃ => hcopy w₃ (hF _ _ _ hw₁ hR₃)
    | some m₀ =>
      have hm₀ : w₁.plans.manifests.lookup p = some m₀ := (Except.ok.inj hfound).symm
      have hid : m₀.planId = p := w₁.plans.filed p m₀ hm₀
      simp only
      cases hlapsed : (m₀.expiredJobs.lookup j).isSome with
      | true => exact hmarkers m₀ _ hid ⟨hw₁, hread m₀ _ hm₀ hw₁⟩
      | false =>
        refine .store_bind fun w₃ hR₃ => ?_
        have hm₃ : w₃.plans.manifests.lookup p = some m₀ := (hR _ _ hR₃).trans hm₀
        have hw₃ := hF _ _ w₃ hw₁ hR₃
        obtain ⟨hG, hold, hnew⟩ := hput m₀ w₃ (m₀.expiredJobs.insert j ⟨deadline, now⟩) hm₃ hw₃
        refine ⟨hG, fun _ w₄ hout => ?_, fun e w₄ hout w₅ hR₅ => ?_⟩
        · obtain ⟨-, rfl⟩ | ⟨e, he, -⟩ := hout
          · exact hmarkers _ _ hid ⟨hold, hnew⟩
          · cases he
        · obtain ⟨he, -⟩ | ⟨_, -, rfl | rfl⟩ := hout
          · cases he
          · exact hcopy w₅ (hF _ _ _ hw₃ hR₅)
          · exact hcopy w₅ (hF _ _ _ hold hR₅)
  · obtain ⟨he, -⟩ | ⟨_, -, rfl | rfl⟩ := hout
    · cases he
    · exact hcopy w₃ (hF _ _ _ hw₁ hR₃)
    · exact hcopy w₃ (hF _ _ _ hw₁ hR₃)

theorem PlanRule.allLapses (h : PlanRule p R G) (hF : ∀ o w w', F o w → R w w' → F o w')
    (hown : ∀ j ms m deadline w, ms.find? (·.planId = p) = some m →
      lapseExempt m cancelMarkers stranded = false → ingestMayOverwrite m now creatingMaxAge = false →
      Carries p F ms w →
      (recordOneLapse markers p j deadline now).Sat machine.faulty R G (AfterLapse p F ms p) w)
    {ms : List PlanManifest} (hw : Carries p F ms w) :
    (recordMemberLapses ms markers cancelMarkers stranded now creatingMaxAge).Sat machine.faulty R G
      (fun r w => ∀ acc, r = .ok acc → Carries p F acc.manifests w) w := by
  refine Sat.foldlM (J := fun (acc : Lapses) w => Carries p F acc.manifests w)
    (fun acc _ _ hw hR => hw.bears hF hR) (fun acc member _ w hw => ?_) hw
  obtain ⟨q, j⟩ := member
  refine h.memberLapse hF (fun m deadline w hfind hexempt hyoung hw => ?_) hw
  by_cases hq : q = p
  · subst hq
    exact hown j acc.manifests m deadline w hfind hexempt hyoung hw
  · exact h.otherLapse hF hq hw

end Lapses

structure PlanPasses (p : PlanId) (createdAt : Instant) (ctx : RunContext) (cancelMarkers : List PlanId)
    (R : World → World → Prop) (G : StoreCall → World → Prop)
    (F : Option PlanManifest → World → Prop) (D : World → Prop) : Prop extends PlanRule p R G where
  kept : ∀ o w w', F o w → R w w' → F o w'
  done : ∀ w w', D w → R w w' → D w'
  none : ∀ w, F none w →
    D w ∧ (p ∈ cancelMarkers → FreeCall R G (.plans (.deleteCancelMarker p)))
  lapse : ∀ markers stranded j ms m deadline w, ms.find? (·.planId = p) = some m →
    lapseExempt m cancelMarkers stranded = false →
    ingestMayOverwrite m ctx.now ctx.settings.planCreatingMax = false → Carries p F ms w →
    (recordOneLapse markers p j deadline ctx.now).Sat machine.faulty R G (AfterLapse p F ms p) w
  reconcile : ∀ v m acc w, v.cancelMarkers = cancelMarkers → v.now = ctx.now →
    v.creatingMaxAge = ctx.settings.planCreatingMax →
    (p ∈ v.endings.stranded → pastGate createdAt ctx.now ctx.settings.planCreatingMax = true) →
    m.planId = p → F (some m) w →
    (reconcileOnePlan v m acc).Sat machine.faulty R G (PlanPass.Gives fun _ => D) w

section Passes

variable {createdAt : Instant} {ctx : RunContext} {front : Front}
  {F : Option PlanManifest → World → Prop}

structure ViewOf (p : PlanId) (createdAt : Instant) (ctx : RunContext)
    (F : Option PlanManifest → World → Prop) (view : QueueView) (w : World) : Prop where
  carries : Carries p F view.manifests w
  stranded : p ∈ view.endings.stranded →
    pastGate createdAt ctx.now ctx.settings.planCreatingMax = true

theorem tearDownPlans_stranded {ms : List PlanManifest} {cancelMarkers : List PlanId}
    {membership : List JobPlanMarker} {avail : List AvailKey} {leases : List Lease} {now : Instant}
    {creatingMaxAge : Nat} (hcreated : ∀ m ∈ ms, m.planId = p → m.createdAt = createdAt) :
    (tearDownPlans ms cancelMarkers membership avail leases now creatingMaxAge).Ends fun t =>
      p ∈ t.endings.stranded → pastGate createdAt now creatingMaxAge = true := by
  refine .bind fun acc hstranded => ?_
  simp only [List.mem_toFinset, List.mem_map, List.mem_filter, decide_eq_true_eq] at hstranded
  obtain ⟨m, ⟨hm, hcause⟩, hid⟩ := hstranded
  rw [← hcreated m hm hid]
  unfold teardownCause at hcause
  split at hcause
  · cases hcause
  · cases hcause
  · cases hcause
  · split at hcause
    · cases hcause
    split at hcause
    · assumption
    · cases hcause
  · split at hcause <;> cases hcause
  · split at hcause <;> cases hcause

theorem PlanRule.queue (h : PlanRule p R G) {avail : List AvailKey} {leases : List Lease}
    (hF : ∀ o w w', F o w → R w w' → F o w')
    (hlapse : ∀ markers stranded j ms m deadline w, ms.find? (·.planId = p) = some m →
      lapseExempt m front.cancelMarkers stranded = false →
      ingestMayOverwrite m ctx.now ctx.settings.planCreatingMax = false → Carries p F ms w →
      (recordOneLapse markers p j deadline ctx.now).Sat machine.faulty R G (AfterLapse p F ms p) w)
    (hcreated : ∀ m ∈ front.manifests, m.planId = p → m.createdAt = createdAt)
    (hw : Carries p F front.manifests w) :
    (queuePasses ctx front avail leases).Sat machine.faulty R G
      (fun r w => ∀ view, r = .ok view → ViewOf p createdAt ctx F view w) w := by
  have herror : ∀ (e : Fault) (w : World) (view : QueueView), Except.error e = .ok view →
      ViewOf p createdAt ctx F view w := fun e w view he => by cases he
  have hbears : ∀ ms w w', Carries p F ms w → R w w' → Carries p F ms w' := fun _ _ _ hw hR =>
    hw.bears hF hR
  have hmembers : (Op.plans .listAllJobPlanMarkers).Calls (LeavesPlan p) := .store trivial
  refine (h.keeps (hbears _) hmembers hw).bind (fun membership w hw => ?_)
    fun e _ _ v' _ => herror e v'
  refine ((h.keeps (hbears _) (tearDownPlans_calls (leavesPlan_teardown p)) hw).and_ends
    (tearDownPlans_stranded hcreated)).bind (fun teardown w hw => ?_) fun e _ _ v' _ => herror e v'
  obtain ⟨hw, hstranded⟩ := hw
  refine (h.allLapses hF (hlapse _ _) hw).bind
    (fun lapses w hw => ?_) fun e _ _ v' _ => herror e v'
  have hexpire : (expireOverdueJobs ctx.catalog teardown.avail ctx.now).Calls (LeavesPlan p) :=
    expireOverdueJobs_settling.mono fun _ => SettlingCall.leavesPlan
  refine (h.keeps (hbears _) hexpire (hw lapses rfl)).bind (fun expired w hw => ?_)
    fun e _ _ v' _ => herror e v'
  have hretire : (retireUnmatchableJobs ctx.catalog expired.survivors ∅).Calls (LeavesPlan p) :=
    retireUnmatchableJobs_settling.mono fun _ => @SettlingCall.leavesPlan _ _ ctx.now
  refine (h.keeps (hbears _) hretire hw).bind (fun retired w hw => ?_) fun e _ _ v' _ => herror e v'
  have hescalate : (escalateAllDeniedJobs ctx.catalog retired.1.survivors retired.2).Calls
      (LeavesPlan p) := escalateAllDeniedJobs_settling.mono fun _ => @SettlingCall.leavesPlan _ _ ctx.now
  refine (h.keeps (hbears _) hescalate hw).bind (fun escalated w hw => ?_)
    fun e _ _ v' _ => herror e v'
  rintro w' hR view ⟨⟩
  exact ⟨hbears _ _ _ hw hR, hstranded teardown rfl⟩

theorem PlanPasses.queue {avail : List AvailKey} {leases : List Lease}
    (h : PlanPasses p createdAt ctx front.cancelMarkers R G F D)
    (hcreated : ∀ m ∈ front.manifests, m.planId = p → m.createdAt = createdAt)
    (hw : Carries p F front.manifests w) :
    (queuePasses ctx front avail leases).Sat machine.faulty R G
      (fun r w => ∀ view, r = .ok view → ViewOf p createdAt ctx F view w) w :=
  h.toPlanRule.queue h.kept h.lapse hcreated hw

def QueueView.plans (view : QueueView) (ctx : RunContext) (front : Front) (workers : List Client)
    (tags : FleetTags) : PlanView :=
  { cancelMarkers := front.cancelMarkers, endings := view.endings
    membership := view.membership, avail := view.keys, leased := view.leasedIds
    live := view.live, workers, tags, now := ctx.now
    creatingMaxAge := ctx.settings.planCreatingMax }

theorem PlanRule.afterQueue (h : PlanRule p R G) {view : QueueView}
    (hF : ∀ o w w', F o w → R w w' → F o w') (hD : ∀ w w', D w → R w w' → D w')
    (hnone : ∀ w, F none w →
      D w ∧ (p ∈ front.cancelMarkers → FreeCall R G (.plans (.deleteCancelMarker p))))
    (hone : ∀ workers tags m acc w, m.planId = p → F (some m) w →
      (reconcileOnePlan (view.plans ctx front workers tags) m acc).Sat machine.faulty R G
        (PlanPass.Gives fun _ => D) w)
    (hw : Carries p F view.manifests w) :
    (afterQueuePasses ctx front view).Sat machine.faulty R G (fun r w => r = .ok 0 → D w) w := by
  have herror : ∀ (e : Fault) (w : World), (Except.error e : Except Fault Nat) = .ok 0 → D w :=
    fun e w he => by cases he
  have hbears : ∀ w w', Carries p F view.manifests w → R w w' → Carries p F view.manifests w' :=
    fun _ _ hw hR => hw.bears hF hR
  have hask : ∀ (c : FleetCall) w, Carries p F view.manifests w → (Op.fleet c).Sat machine.faulty
      R G (fun _ w => Carries p F view.manifests w) w := fun c w hw =>
    h.keeps hbears (.store trivial) hw
  refine (hask .drainClients w hw).bind (fun clients w hw => ?_) fun e _ _ v' _ => herror e v'
  refine (hask .listForwardTagMarkers w hw).bind (fun tags w hw => ?_) fun e _ _ v' _ => herror e v'
  refine (hask .listClientPermissions w hw).bind (fun rights w hw => ?_) fun e _ _ v' _ => herror e v'
  have hindex : (indexPasses view (rights.workers clients) tags).Calls (LeavesPlan p) :=
    indexPasses_indexing.mono fun _ => IndexingCall.leavesPlan
  refine (h.keeps hbears hindex hw).bind (fun bodies w hw => ?_) fun e _ _ v' _ => herror e v'
  have hsweep : (sweepPasses ctx front.prior view clients).Calls (LeavesPlan p) :=
    sweepPasses_sweeping.mono fun _ => SweepingCall.leavesPlan
  refine (h.keeps hbears hsweep hw).bind (fun next w hw => ?_) fun e _ _ v' _ => herror e v'
  refine (h.allPlans hF hD hnone (hone _ _) hw).bind (fun reconciled w hw => ?_)
    fun e _ _ v' _ => herror e v'
  have hreconciled : ∀ w w', (reconciled.failures = 0 → D w) → R w w' → reconciled.failures = 0 →
      D w' := fun w w' hw hR hzero => hD w w' (hw hzero) hR
  refine (h.keeps hreconciled (gcPlanIndex_calls trivial (fun _ _ => trivial) fun _ _ _ => trivial)
    (hw reconciled rfl)).bind (fun collected w hw => ?_) fun e _ _ v' _ => herror e v'
  have hstaged : (Op.notes (.writeGcCandidates (next ∪ collected.next))).Calls (LeavesPlan p) :=
    .store trivial
  refine (h.keeps hreconciled hstaged hw).bind (fun _ w hw => ?_) fun e _ _ v' _ => herror e v'
  intro w' hR hzero
  refine hreconciled w w' hw hR ?_
  have hsum : view.failures + reconciled.failures + collected.failures = 0 := Except.ok.inj hzero
  omega

theorem PlanPasses.afterQueue {view : QueueView}
    (h : PlanPasses p createdAt ctx front.cancelMarkers R G F D)
    (hw : ViewOf p createdAt ctx F view w) :
    (afterQueuePasses ctx front view).Sat machine.faulty R G (fun r w => r = .ok 0 → D w) w :=
  h.toPlanRule.afterQueue h.kept h.done h.none (fun _ _ m acc w hm hw' =>
    h.reconcile _ m acc w rfl rfl rfl hw.stranded hm hw') hw.carries

/-- From its listings on, a run that ends without failures has done what the plan asks for. -/
theorem PlanPasses.listing (h : PlanPasses p createdAt ctx front.cancelMarkers R G F D)
    (hcreated : ∀ m ∈ front.manifests, m.planId = p → m.createdAt = createdAt)
    (hw : Carries p F front.manifests w) :
    (fromListing ctx front).Sat machine.faulty R G (fun r w => r = .ok () → D w) w := by
  have herror : ∀ (e : Fault) (w : World), (Except.error e : Except Fault Unit) = .ok () → D w :=
    fun e w he => by cases he
  have hbears : ∀ w w', Carries p F front.manifests w → R w w' → Carries p F front.manifests w' :=
    fun _ _ hw hR => hw.bears h.kept hR
  have hlist : ∀ c : QueueCall, (Op.queue c).Calls (LeavesPlan p) := fun c => .store trivial
  refine (h.keeps hbears (hlist .listAvail) hw).bind (fun avail w hw => ?_) fun e _ _ v' _ => herror e v'
  have hpasses : (afterAvailListing ctx front avail).Sat machine.faulty R G
      (fun r w => r = .ok 0 → D w) w := by
    refine (h.keeps hbears (hlist .listLeased) hw).bind (fun leases w hw => ?_)
      fun e _ _ v' _ he => by cases he
    exact (h.queue hcreated hw).bind (fun view w hw => h.afterQueue (hw view rfl))
      fun e _ _ v' _ he => by cases he
  refine hpasses.bind (fun failed w hw => ?_) fun e _ _ v' _ => herror e v'
  unfold reportFailed
  split
  · exact fun v' _ => herror _ v'
  · next hzero =>
    intro v' hR _
    obtain rfl : failed = 0 := by omega
    exact h.done w v' (hw rfl) hR

end Passes

end Rule

end Pipette
