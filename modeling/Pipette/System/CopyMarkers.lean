import Pipette.System.CopyEqual

/-! The markers that a copy of the queue brings over, and the copy as a whole: stopped after any call
and run again, as often as it takes. -/
namespace Pipette.QueueCopy

open Phases (Reaches Runs Done)

variable {backend : Backend} {source target s t : Store}

section Tree

variable {K V X W : Type} {delete : X → Call} {write : W → Call} {deletes : List X}
  {writes : List W} {done : Bool}

/-- The deletes of a tree, each with the names that it hits, and then the writes. `Frame` holds of what
the calls leave alone. -/
theorem tree_runs [DecidableEq K] (tree : Store → FileTree K V) (Frame : Store → Store → Prop)
    (Hit : X → K → Prop) (key : W → K) (val : W → V) (hrefl : ∀ s, Frame s s)
    (htrans : ∀ s t u, Frame s t → Frame t u → Frame s u)
    (hdelete : ∀ x s s', (delete x).step backend s = some s' → Frame s s' ∧
      ∀ k, (Hit x k → (tree s').lookup k = none) ∧ (¬ Hit x k → (tree s').lookup k = (tree s).lookup k))
    (hwrite : ∀ w s s', (write w).step backend s = some s' → Frame s s' ∧
      ∀ k, (tree s').lookup k = if k = key w then some (val w) else (tree s).lookup k)
    (hwrites : writes.Pairwise fun a b => key a = key b → val a = val b)
    (h : Runs (Call.step backend) [deletes.map fun x => [delete x], writes.map fun w => [write w]]
      s t done) :
    Frame s t ∧ (done = true →
      (∀ w ∈ writes, (tree t).lookup (key w) = some (val w)) ∧
      ∀ k, (∀ w ∈ writes, key w ≠ k) →
        ((∃ x ∈ deletes, Hit x k) → (tree t).lookup k = none) ∧
        ((∀ x ∈ deletes, ¬ Hit x k) → (tree t).lookup k = (tree s).lookup k)) := by
  have hdeleted : ∀ {left u}, Reaches (Call.step backend) (deletes.map fun x => [delete x]) s left u →
      (Frame s u ∧ ∀ k, (∀ x ∈ deletes, ¬ Hit x k) → (tree u).lookup k = (tree s).lookup k) ∧
        (Done left → ∀ x ∈ deletes, ∀ k, Hit x k → (tree u).lookup k = none) := by
    intro left u hreach
    refine hreach.singles (fun x u => ∀ k, Hit x k → (tree u).lookup k = none)
      (fun u => Frame s u ∧ ∀ k, (∀ x ∈ deletes, ¬ Hit x k) → (tree u).lookup k = (tree s).lookup k)
      (fun _ _ => True) (fun _ _ _ => trivial) (List.pairwise_of_forall fun _ _ => trivial) ?_
      ⟨hrefl s, fun _ _ => rfl⟩
    rintro x hx u u' ⟨hframe, hkept⟩ hstep
    obtain ⟨hframe', hafter⟩ := hdelete x u u' hstep
    refine ⟨fun k => (hafter k).1, ⟨htrans _ _ _ hframe hframe', ?_⟩, ?_⟩
    · intro k hmiss
      rw [(hafter k).2 (hmiss x hx), hkept k hmiss]
    · intro y _ hgone k hhit
      by_cases hx : Hit x k
      · exact (hafter k).1 hx
      · rw [(hafter k).2 hx, hgone k hhit]
  have hwritten : ∀ {left u u'}, Reaches (Call.step backend) (writes.map fun w => [write w]) u left u' →
      (Frame u u' ∧ ∀ k, (∀ w ∈ writes, key w ≠ k) → (tree u').lookup k = (tree u).lookup k) ∧
        (Done left → ∀ w ∈ writes, (tree u').lookup (key w) = some (val w)) := by
    intro left u u' hreach
    refine hreach.singles (fun w u => (tree u).lookup (key w) = some (val w))
      (fun u' => Frame u u' ∧
        ∀ k, (∀ w ∈ writes, key w ≠ k) → (tree u').lookup k = (tree u).lookup k)
      (fun a b => key a = key b → val a = val b) (fun _ _ h heq => (h heq.symm).symm) hwrites ?_
      ⟨hrefl u, fun _ _ => rfl⟩
    rintro w hw v v' ⟨hframe, hkept⟩ hstep
    obtain ⟨hframe', hafter⟩ := hwrite w v v' hstep
    refine ⟨by simp [hafter], ⟨htrans _ _ _ hframe hframe', ?_⟩, ?_⟩
    · intro k hmiss
      rw [hafter, if_neg (hmiss w hw).symm, hkept k hmiss]
    · intro y happart hthere
      rw [hafter]
      split
      · next heq => rw [happart heq.symm]
      · exact hthere
  cases h with
  | stopped hreach => exact ⟨(hdeleted hreach).1.1, by simp⟩
  | next hreach hdone hrest =>
    obtain ⟨⟨hframe, hkept⟩, hgone⟩ := hdeleted hreach
    cases hrest with
    | stopped hreach' => exact ⟨htrans _ _ _ hframe (hwritten hreach').1.1, by simp⟩
    | next hreach' hdone' hrest' =>
      obtain ⟨⟨hframe', hkept'⟩, hthere⟩ := hwritten hreach'
      cases hrest'
      refine ⟨htrans _ _ _ hframe hframe', fun _ => ⟨hthere hdone', ?_⟩⟩
      intro k hmiss
      rw [hkept' k hmiss]
      refine ⟨?_, hkept k⟩
      rintro ⟨x, hx, hhit⟩
      exact hgone hdone x hx k hhit

theorem tree_exists_done (s : Store) (hdelete : ∀ x s, ∃ s', (delete x).step backend s = some s')
    (hwrite : ∀ w s, ∃ s', (write w).step backend s = some s') :
    ∃ t, Runs (Call.step backend) [deletes.map fun x => [delete x], writes.map fun w => [write w]]
      s t true := by
  obtain ⟨left, u, h, hdone⟩ := Reaches.exists_done_singles s fun x (_ : x ∈ deletes) => hdelete x
  obtain ⟨left', t, h', hdone'⟩ := Reaches.exists_done_singles u fun w (_ : w ∈ writes) => hwrite w
  exact ⟨t, .next h hdone (.next h' hdone' .finished)⟩

end Tree

def DeniedEqual (source t : Store) : Prop :=
  ∀ k, (t.denied.lookup k).map DenialRecord.normal = (source.denied.lookup k).map DenialRecord.normal

theorem Backend.normal_keep (backend : Backend) (r : DenialRecord) :
    (backend.keep r).normal = r.normal := by
  simp [DenialRecord.normal, Backend.keep, Function.comp_def, backend.toMicros_spell]

theorem mem_deniedDeletes {k : JobId × ClientId} :
    k ∈ deniedDeletes source target ↔ (target.denied.lookup k).isSome ∧ source.denied.lookup k = none := by
  simp only [deniedDeletes, gone, List.mem_map, List.mem_filter]
  constructor
  · rintro ⟨_, ⟨⟨key, ⟨hkey, -⟩, rfl⟩, hgone⟩, rfl⟩
    exact ⟨FileTree.mem_keys_iff.mp hkey, by simpa using hgone⟩
  · rintro ⟨hheld, hnone⟩
    refine ⟨(k, false), ⟨⟨k, ⟨FileTree.mem_keys_iff.mpr hheld, ?_⟩, by simp [hnone]⟩, rfl⟩, rfl⟩
    have hkey : k ∉ source.denied.keys := by simp [FileTree.mem_keys_iff, hnone]
    simpa using hkey

theorem mem_deniedWrites {w : Write (JobId × ClientId) DenialRecord} :
    w ∈ deniedWrites source target ↔
      source.denied.lookup w.key = some w.value ∧
        (target.denied.lookup w.key).map DenialRecord.normal ≠ some w.value.normal ∧
        w.replaces = (target.denied.lookup w.key).isSome := by
  obtain ⟨k, value, replaces⟩ := w
  have hheld : (if k ∈ target.denied.keys then some (target.denied.lookup k) else none).isSome =
      (target.denied.lookup k).isSome := by
    by_cases h : k ∈ target.denied.keys
    · simp [h, FileTree.mem_keys_iff.mp h]
    · simp [h, FileTree.mem_keys_iff.not.mp h]
  have hunchanged : unchanged sameDenial
      (if k ∈ target.denied.keys then some (target.denied.lookup k) else none) value = false ↔
        (target.denied.lookup k).map DenialRecord.normal ≠ some value.normal := by
    by_cases h : k ∈ target.denied.keys
    · obtain ⟨held, hread⟩ := Option.isSome_iff_exists.mp (FileTree.mem_keys_iff.mp h)
      simp [h, hread, unchanged, sameDenial]
    · have hread : target.denied.lookup k = none := by simpa using FileTree.mem_keys_iff.not.mp h
      simp [h, hread, unchanged]
  rw [deniedWrites, mem_decide]
  constructor
  · rintro ⟨read, hread, hsource, hchanged, hkey, hreplaces⟩
    obtain ⟨k', -, rfl⟩ := List.mem_map.mp hread
    cases hkey
    exact ⟨hsource, hunchanged.mp hchanged, hreplaces.trans hheld⟩
  · rintro ⟨hsource, hchanged, hreplaces⟩
    have hkey : k ∈ source.denied.keys := FileTree.mem_keys_iff.mpr (by simp [hsource])
    refine ⟨_, List.mem_map.mpr ⟨k, hkey, rfl⟩, hsource, hunchanged.mpr hchanged, rfl, ?_⟩
    exact hreplaces.trans hheld.symm

def BesideDenied (s t : Store) : Prop :=
  t.queue = s.queue ∧ t.eligible = s.eligible ∧ t.lost = s.lost

theorem denied_runs {done : Bool}
    (h : Runs (Call.step backend) (denied source target) target t done) :
    BesideDenied target t ∧ (done = true → DeniedEqual source t) := by
  have hruns := tree_runs Store.denied BesideDenied (fun x k => k = x) Write.key
    (fun w => backend.keep w.value) (fun s => ⟨rfl, rfl, rfl⟩)
    (fun s t u h h' => ⟨h'.1.trans h.1, h'.2.1.trans h.2.1, h'.2.2.trans h.2.2⟩) ?_ ?_ ?_ h
  · refine ⟨hruns.1, ?_⟩
    intro hdone k
    obtain ⟨hwritten, hother⟩ := hruns.2 hdone
    by_cases hwrite : ∃ w ∈ deniedWrites source target, w.key = k
    · obtain ⟨w, hw, rfl⟩ := hwrite
      simp [hwritten w hw, (mem_deniedWrites.mp hw).1, backend.normal_keep]
    · obtain ⟨hgone, hkept⟩ := hother k fun w hw hkey => hwrite ⟨w, hw, hkey⟩
      cases hsource : source.denied.lookup k with
      | none =>
        by_cases hheld : (target.denied.lookup k).isSome
        · simp [hgone ⟨k, mem_deniedDeletes.mpr ⟨hheld, hsource⟩, rfl⟩]
        · have hnone : target.denied.lookup k = none := by simpa using hheld
          have hmiss : k ∉ deniedDeletes source target := by simp [mem_deniedDeletes, hnone]
          rw [hkept fun x hx hk => hmiss (hk ▸ hx), hnone]
      | some r =>
        have hmiss : k ∉ deniedDeletes source target := by simp [mem_deniedDeletes, hsource]
        rw [hkept fun x hx hk => hmiss (hk ▸ hx)]
        by_contra hchanged
        exact hwrite ⟨⟨k, r, (target.denied.lookup k).isSome⟩,
          mem_deniedWrites.mpr ⟨hsource, hchanged, rfl⟩, rfl⟩
  · intro x s s' hstep
    cases hstep
    refine ⟨⟨rfl, rfl, rfl⟩, ?_⟩
    intro k
    simp only [FileTree.lookup_remove]
    exact ⟨fun hk => if_pos hk, fun hk => if_neg hk⟩
  · intro w s s' hstep
    cases hstep
    refine ⟨⟨rfl, rfl, rfl⟩, ?_⟩
    intro k
    simp only [FileTree.lookup_write]
  · have hkeys : ((deniedWrites source target).map Write.key).Nodup := by
      apply List.Nodup.sublist decide_sublist
      have hreads : (deniedReads source target).map Read.key = source.denied.keys := by
        simp [deniedReads, Function.comp_def]
      rw [hreads]
      exact source.denied.keys_nodup
    refine (List.pairwise_map.mp hkeys).imp ?_
    intro a b hne heq
    exact absurd heq hne

theorem denied_exists_done (backend : Backend) (source target : Store) :
    ∃ t, Runs (Call.step backend) (denied source target) target t true :=
  tree_exists_done target (fun _ _ => ⟨_, rfl⟩) (fun _ _ => ⟨_, rfl⟩)

theorem denied_eq_nil (h : DeniedEqual source target) : ∀ phase ∈ denied source target, phase = [] := by
  have hwrites : deniedWrites source target = [] := by
    rw [List.eq_nil_iff_forall_not_mem]
    intro w hw
    obtain ⟨hsource, hchanged, -⟩ := mem_deniedWrites.mp hw
    apply hchanged
    rw [h, hsource]
    rfl
  have hdeletes : deniedDeletes source target = [] := by
    rw [List.eq_nil_iff_forall_not_mem]
    intro k hk
    obtain ⟨hheld, hnone⟩ := mem_deniedDeletes.mp hk
    have hsame := h k
    rw [hnone] at hsame
    simp [Option.map_eq_none_iff.mp hsame] at hheld
  simp [denied, hwrites, hdeletes]

def Latest (s : Store) (m : EligibleMarker) : Prop :=
  (s.eligible.lookup m).isSome ∧ ∀ m', (s.eligible.lookup m').isSome → m'.clientId = m.clientId →
    m'.jobId = m.jobId → m'.expiresAt ≤ m.expiresAt

theorem latestDeadline_eq_some_iff {m : EligibleMarker} :
    latestDeadline source m.clientId m.jobId = some m.expiresAt ↔ Latest source m := by
  have hmem : ∀ d, d ∈ (source.eligible.keys.filter fun marker =>
      marker.clientId = m.clientId && marker.jobId = m.jobId).map EligibleMarker.expiresAt ↔
        (source.eligible.lookup ⟨m.clientId, m.jobId, d⟩).isSome := by
    intro d
    simp only [List.mem_map, List.mem_filter, Bool.and_eq_true, decide_eq_true_eq]
    constructor
    · rintro ⟨⟨c, j, d'⟩, ⟨hkey, rfl, rfl⟩, rfl⟩
      exact FileTree.mem_keys_iff.mp hkey
    · intro h
      exact ⟨_, ⟨FileTree.mem_keys_iff.mpr h, rfl, rfl⟩, rfl⟩
  constructor
  · intro h
    obtain ⟨hthere, hmax⟩ := getLast?_sortOn h
    refine ⟨(hmem _).mp hthere, ?_⟩
    rintro ⟨c, j, d⟩ hm' rfl rfl
    exact hmax d ((hmem d).mpr hm')
  · rintro ⟨hthere, hmax⟩
    cases hlatest : latestDeadline source m.clientId m.jobId with
    | none =>
      have hnil := getLast?_sortOn_eq_none.mp hlatest
      have hd := (hmem m.expiresAt).mpr hthere
      rw [hnil] at hd
      simp at hd
    | some d =>
      obtain ⟨hd, hdmax⟩ := getLast?_sortOn hlatest
      have hle := hmax ⟨m.clientId, m.jobId, d⟩ ((hmem d).mp hd) rfl rfl
      have hge := hdmax m.expiresAt ((hmem m.expiresAt).mpr hthere)
      exact congrArg some (le_antisymm hle hge)

theorem mem_keptEligible {m : EligibleMarker} : m ∈ keptEligible source ↔ Latest source m := by
  rw [← latestDeadline_eq_some_iff]
  simp only [keptEligible, List.mem_filterMap, Option.map_eq_some_iff]
  constructor
  · rintro ⟨⟨c, j⟩, -, d, hlatest, rfl⟩
    exact hlatest
  · intro h
    have hthere := (latestDeadline_eq_some_iff.mp h).1
    refine ⟨(m.clientId, m.jobId), ?_, m.expiresAt, h, rfl⟩
    rw [List.mem_dedup, List.mem_map]
    exact ⟨m, FileTree.mem_keys_iff.mpr hthere, rfl⟩

def EligibleEqual (source t : Store) : Prop := ∀ m, (t.eligible.lookup m).isSome ↔ Latest source m

def BesideEligible (s t : Store) : Prop :=
  t.queue = s.queue ∧ t.denied = s.denied ∧ t.lost = s.lost

theorem eligible_runs {done : Bool}
    (h : Runs (Call.step backend) (eligible source target) target t done) :
    BesideEligible target t ∧ (done = true → EligibleEqual source t) := by
  have hruns := tree_runs Store.eligible BesideEligible (fun x k => k = x) id (fun _ => ())
    (fun s => ⟨rfl, rfl, rfl⟩)
    (fun s t u h h' => ⟨h'.1.trans h.1, h'.2.1.trans h.2.1, h'.2.2.trans h.2.2⟩) ?_ ?_ ?_ h
  · refine ⟨hruns.1, ?_⟩
    intro hdone m
    obtain ⟨hwritten, hother⟩ := hruns.2 hdone
    rw [← mem_keptEligible]
    by_cases hwrite : m ∈ keptEligible source ∧ m ∉ target.eligible.keys
    · have hmem : m ∈ (keptEligible source).filter fun marker => marker ∉ target.eligible.keys := by
        simpa using hwrite
      have hthere : t.eligible.lookup m = some () := hwritten m hmem
      simp [hthere, hwrite.1]
    · obtain ⟨hgone, hkept⟩ := hother m (by rintro w hw rfl; simp_all)
      by_cases hm : m ∈ keptEligible source
      · have hheld : m ∈ target.eligible.keys := by simpa [hm] using hwrite
        rw [hkept (by rintro x hx rfl; simp_all)]
        simp [hm, FileTree.mem_keys_iff.mp hheld]
      · by_cases hheld : m ∈ target.eligible.keys
        · rw [hgone ⟨m, by simp [hm, hheld], rfl⟩]
          simp [hm]
        · rw [hkept (by rintro x hx rfl; simp_all)]
          simp [hm, FileTree.mem_keys_iff.not.mp hheld]
  · intro x s s' hstep
    cases hstep
    refine ⟨⟨rfl, rfl, rfl⟩, ?_⟩
    intro k
    simp only [FileTree.lookup_remove]
    exact ⟨fun hk => if_pos hk, fun hk => if_neg hk⟩
  · intro w s s' hstep
    cases hstep
    refine ⟨⟨rfl, rfl, rfl⟩, ?_⟩
    intro k
    simp only [FileTree.lookup_write, id]
  · exact List.pairwise_of_forall fun _ _ _ => rfl

theorem eligible_exists_done (backend : Backend) (source target : Store) :
    ∃ t, Runs (Call.step backend) (eligible source target) target t true :=
  tree_exists_done target (fun _ _ => ⟨_, rfl⟩) (fun _ _ => ⟨_, rfl⟩)

theorem eligible_eq_nil (h : EligibleEqual source target) :
    ∀ phase ∈ eligible source target, phase = [] := by
  have hsame : ∀ m, m ∈ target.eligible.keys ↔ m ∈ keptEligible source := by
    intro m
    rw [FileTree.mem_keys_iff, mem_keptEligible]
    exact h m
  simp [eligible, hsame]

theorem toSecond_toSecond (a : Instant) : toSecond (toSecond a) = toSecond a := by
  simp only [toSecond]
  rw [Int.mul_ediv_cancel _ (by decide)]

theorem Store.mem_lostSet {job : JobId} {x : ClientId × Instant} : x ∈ s.lostSet job ↔
    ∃ m : LostMarker, (s.lost.lookup m).isSome ∧ m.jobId = job ∧
      (m.clientId, toSecond m.leaseExpiry) = x := by
  simp only [Store.lostSet, List.mem_dedup, List.mem_map, List.mem_filter, FileTree.mem_keys_iff,
    decide_eq_true_eq, and_assoc]

theorem mem_lostJobs {job : JobId} : job ∈ lostJobs source target ↔
    ¬ ∀ x, x ∈ source.lostSet job ↔ x ∈ target.lostSet job := by
  have hjobs : ∀ {store : Store} {x}, x ∈ store.lostSet job → job ∈ store.lostJobs := by
    intro store x hx
    obtain ⟨m, hm, rfl, -⟩ := Store.mem_lostSet.mp hx
    simp only [Store.lostJobs, List.mem_dedup, List.mem_map]
    exact ⟨m, FileTree.mem_keys_iff.mpr hm, rfl⟩
  simp only [lostJobs, List.mem_filter, List.mem_dedup, List.mem_append, ne_eq, Finset.ext_iff,
    List.mem_toFinset, decide_eq_true_eq, and_iff_right_iff_imp]
  intro hdiffer
  by_contra hnone
  apply hdiffer
  intro x
  rw [not_or] at hnone
  exact ⟨fun hx => absurd (hjobs hx) hnone.1, fun hx => absurd (hjobs hx) hnone.2⟩

theorem mem_lostDeletes {job : JobId} : job ∈ lostDeletes source target ↔
    job ∈ lostJobs source target ∧ ∃ m : LostMarker, (target.lost.lookup m).isSome ∧ m.jobId = job := by
  have hnonempty : (target.lostSet job).isEmpty = false ↔
      ∃ m : LostMarker, (target.lost.lookup m).isSome ∧ m.jobId = job := by
    rw [List.isEmpty_eq_false_iff_exists_mem]
    simp only [Store.mem_lostSet]
    constructor
    · rintro ⟨_, m, hm, hjob, -⟩
      exact ⟨m, hm, hjob⟩
    · rintro ⟨m, hm, hjob⟩
      exact ⟨_, m, hm, hjob, rfl⟩
  simp [lostDeletes, hnonempty]

theorem mem_lostWrites {m : LostMarker} : m ∈ lostWrites source target ↔
    m.jobId ∈ lostJobs source target ∧ (m.clientId, m.leaseExpiry) ∈ source.lostSet m.jobId := by
  simp only [lostWrites, List.mem_flatMap, List.mem_map]
  constructor
  · rintro ⟨job, hjob, x, hx, rfl⟩
    exact ⟨hjob, hx⟩
  · rintro ⟨hjob, hx⟩
    exact ⟨m.jobId, hjob, _, hx, rfl⟩

def LostEqual (source t : Store) : Prop := ∀ job x, x ∈ t.lostSet job ↔ x ∈ source.lostSet job

def BesideLost (s t : Store) : Prop :=
  t.queue = s.queue ∧ t.denied = s.denied ∧ t.eligible = s.eligible

theorem lost_runs {done : Bool} (h : Runs (Call.step backend) (lost source target) target t done) :
    BesideLost target t ∧ (done = true → LostEqual source t) := by
  have hruns := tree_runs Store.lost BesideLost (fun job m => m.jobId = job) id (fun _ => ())
    (fun s => ⟨rfl, rfl, rfl⟩)
    (fun s t u h h' => ⟨h'.1.trans h.1, h'.2.1.trans h.2.1, h'.2.2.trans h.2.2⟩) ?_ ?_ ?_ h
  · refine ⟨hruns.1, ?_⟩
    intro hdone job x
    obtain ⟨hwritten, hother⟩ := hruns.2 hdone
    by_cases hjob : job ∈ lostJobs source target
    · -- what is left of the job is what was written
      have hmarkers : ∀ m : LostMarker, m.jobId = job →
          ((t.lost.lookup m).isSome ↔ (m.clientId, m.leaseExpiry) ∈ source.lostSet job) := by
        rintro m rfl
        by_cases hwrite : (m.clientId, m.leaseExpiry) ∈ source.lostSet m.jobId
        · have hthere : t.lost.lookup m = some () := hwritten m (mem_lostWrites.mpr ⟨hjob, hwrite⟩)
          simp [hthere, hwrite]
        · obtain ⟨hgone, hkept⟩ := hother m (by
            rintro w hw rfl
            exact hwrite (mem_lostWrites.mp hw).2)
          by_cases hheld : (target.lost.lookup m).isSome
          · simp [hgone ⟨m.jobId, mem_lostDeletes.mpr ⟨hjob, m, hheld, rfl⟩, rfl⟩, hwrite]
          · have hnone : t.lost.lookup m = none := by
              by_cases hdelete : m.jobId ∈ lostDeletes source target
              · exact hgone ⟨m.jobId, hdelete, rfl⟩
              · rw [hkept (by rintro x hx rfl; exact hdelete hx)]
                simpa using hheld
            simp [hnone, hwrite]
      rw [Store.mem_lostSet]
      constructor
      · rintro ⟨m, hm, hm', rfl⟩
        have hsource := (hmarkers m hm').mp hm
        obtain ⟨m', -, -, heq⟩ := Store.mem_lostSet.mp hsource
        obtain ⟨-, htime⟩ := Prod.mk.inj heq
        rw [← htime, toSecond_toSecond, htime]
        exact hsource
      · intro hx
        obtain ⟨m', -, -, rfl⟩ := Store.mem_lostSet.mp hx
        refine ⟨⟨job, m'.clientId, toSecond m'.leaseExpiry⟩, (hmarkers _ rfl).mpr hx, rfl, ?_⟩
        simp [toSecond_toSecond]
    · have hkept : ∀ m : LostMarker, m.jobId = job → t.lost.lookup m = target.lost.lookup m := by
        rintro m rfl
        refine (hother m ?_).2 ?_
        · rintro w hw rfl
          exact hjob (mem_lostWrites.mp hw).1
        · rintro x hx rfl
          exact hjob (mem_lostDeletes.mp hx).1
      have hsame : x ∈ t.lostSet job ↔ x ∈ target.lostSet job := by
        simp only [Store.mem_lostSet]
        constructor
        · rintro ⟨m, hm, hm', hx⟩
          exact ⟨m, by rwa [← hkept m hm'], hm', hx⟩
        · rintro ⟨m, hm, hm', hx⟩
          exact ⟨m, by rwa [hkept m hm'], hm', hx⟩
      rw [mem_lostJobs, not_not] at hjob
      rw [hsame, hjob]
  · intro x s s' hstep
    cases hstep
    refine ⟨⟨rfl, rfl, rfl⟩, ?_⟩
    intro m
    simp only [FileTree.lookup_eraseWhere, decide_eq_true_eq]
    exact ⟨fun hm => if_pos hm, fun hm => if_neg hm⟩
  · intro w s s' hstep
    cases hstep
    refine ⟨⟨rfl, rfl, rfl⟩, ?_⟩
    intro k
    simp only [FileTree.lookup_write, id]
  · exact List.pairwise_of_forall fun _ _ _ => rfl

theorem lost_exists_done (backend : Backend) (source target : Store) :
    ∃ t, Runs (Call.step backend) (lost source target) target t true :=
  tree_exists_done target (fun _ _ => ⟨_, rfl⟩) (fun _ _ => ⟨_, rfl⟩)

theorem lost_eq_nil (h : LostEqual source target) : ∀ phase ∈ lost source target, phase = [] := by
  have hjobs : lostJobs source target = [] := by
    rw [List.eq_nil_iff_forall_not_mem]
    intro job hjob
    exact mem_lostJobs.mp hjob fun x => (h job x).symm
  simp [lost, lostDeletes, lostWrites, hjobs]

/-- The target holds the greatest entry of each source job with the source's body, and the source's
markers up to the ones that were dropped and the precision of the times. -/
structure QueuesEqual (source t : Store) : Prop where
  entries : ∀ j e body, t.read j e = some body ↔ Greatest source j e ∧ source.read j e = some body
  denied : DeniedEqual source t
  eligible : EligibleEqual source t
  lost : LostEqual source t

theorem EntriesEqual.entries (h : EntriesEqual source t) (j : JobId) (e : Entry) (body : Json) :
    t.read j e = some body ↔ Greatest source j e ∧ source.read j e = some body := by
  rw [h, ← Store.winner_eq_some_iff]
  split <;> simp_all

theorem EntriesEqual.of_entries
    (h : ∀ j e body, t.read j e = some body ↔ Greatest source j e ∧ source.read j e = some body) :
    EntriesEqual source t := by
  intro j e
  refine Option.ext fun body => ?_
  rw [h, ← Store.winner_eq_some_iff]
  split <;> simp_all

theorem EntriesEqual.of_queue (h : EntriesEqual source s) (hqueue : t.queue = s.queue) :
    EntriesEqual source t := by
  intro j e
  rw [Store.read, hqueue]
  exact h j e

theorem AtMostOne.of_queue {j : JobId} (h : AtMostOne j s) (hqueue : t.queue = s.queue) :
    AtMostOne j t := by
  intro e e' he he'
  rw [Store.read, hqueue] at he he'
  exact h e e' he he'

theorem copies_spec {done : Bool} (h : Copies backend source keyspaces s t done) :
    (∀ j, AtMostOne j s → AtMostOne j t) ∧ (done = true → QueuesEqual source t) := by
  cases h with
  | stopped h => exact ⟨(jobs_runs h).2.1, by simp⟩
  | @next _ _ _ s₁ _ _ h hrest =>
    obtain ⟨-, hone, hentries⟩ := jobs_runs h
    cases hrest with
    | stopped h' =>
      obtain ⟨⟨hqueue, -⟩, -⟩ := denied_runs h'
      exact ⟨fun j hj => (hone j hj).of_queue hqueue, by simp⟩
    | @next _ _ _ s₂ _ _ h' hrest =>
      obtain ⟨⟨hqueue', -⟩, hdenied⟩ := denied_runs h'
      cases hrest with
      | stopped h'' =>
        obtain ⟨⟨hqueue'', -⟩, -⟩ := eligible_runs h''
        exact ⟨fun j hj => (hone j hj).of_queue (hqueue''.trans hqueue'), by simp⟩
      | @next _ _ _ s₃ _ _ h'' hrest =>
        obtain ⟨⟨hqueue'', hdenied'', -⟩, heligible⟩ := eligible_runs h''
        cases hrest with
        | stopped h₃ =>
          obtain ⟨⟨hqueue₃, -⟩, -⟩ := lost_runs h₃
          exact ⟨fun j hj => (hone j hj).of_queue (hqueue₃.trans (hqueue''.trans hqueue')), by simp⟩
        | next h₃ hrest =>
          obtain ⟨⟨hqueue₃, hdenied₃, heligible₃⟩, hlost⟩ := lost_runs h₃
          cases hrest
          have hqueue := hqueue₃.trans (hqueue''.trans hqueue')
          refine ⟨fun j hj => (hone j hj).of_queue hqueue, fun _ => ?_⟩
          exact
            { entries := ((hentries rfl).of_queue hqueue).entries
              denied := by
                intro k
                rw [hdenied₃, hdenied'']
                exact hdenied rfl k
              eligible := by
                intro m
                rw [heligible₃]
                exact heligible rfl m
              lost := hlost rfl }

theorem copies_exists_done (backend : Backend) (source s : Store) :
    ∃ t, Copies backend source keyspaces s t true := by
  obtain ⟨s₁, h₁⟩ := jobs_exists_done backend source s
  obtain ⟨s₂, h₂⟩ := denied_exists_done backend source s₁
  obtain ⟨s₃, h₃⟩ := eligible_exists_done backend source s₂
  obtain ⟨s₄, h₄⟩ := lost_exists_done backend source s₃
  exact ⟨s₄, .next h₁ (.next h₂ (.next h₃ (.next h₄ .finished)))⟩

theorem QueuesEqual.nothing_left (h : QueuesEqual source t) :
    ∀ keyspace ∈ keyspaces, ∀ phase ∈ keyspace source t, phase = [] := by
  simp only [keyspaces, List.mem_cons, List.not_mem_nil, or_false, forall_eq_or_imp, forall_eq]
  exact ⟨jobs_eq_nil (.of_entries h.entries), denied_eq_nil h.denied, eligible_eq_nil h.eligible,
    lost_eq_nil h.lost⟩

/-- However often a copy was stopped, no job that had at most one entry in the target has two, a copy
can come to its end, and one that does leaves the target equal to the source, with nothing for a
further copy to delete or write. -/
theorem copy_makes_target_equal (backend : Backend) (source target t : Store)
    (h : Retried backend source target t) :
    (∀ j, AtMostOne j target → AtMostOne j t) ∧
      (∃ u, Copies backend source keyspaces t u true) ∧
      ∀ u, Copies backend source keyspaces t u true → QueuesEqual source u ∧
        ∀ keyspace ∈ keyspaces, ∀ phase ∈ keyspace source u, phase = [] := by
  refine ⟨?_, copies_exists_done backend source t, ?_⟩
  · induction h with
    | start => exact fun j hj => hj
    | again _ hcopy ih =>
      intro j hj
      exact (copies_spec hcopy).1 j (ih j hj)
  · intro u hu
    have hequal := (copies_spec hu).2 rfl
    exact ⟨hequal, hequal.nothing_left⟩

def fileSystem : Backend := ⟨id, fun _ => rfl⟩

def doubled : Store where
  queue := ⟨((∅ : FileTree QueuePath Json).insert (.avail ⟨⟨"j"⟩, .never⟩) .null).insert
    (.leased ⟨⟨"j"⟩, .never, ⟨"c"⟩, ⟨9⟩⟩) (.bool true)⟩
  denied := ∅
  eligible := ∅
  lost := ∅

/-- The target has the job under another deadline, and a job that the source lacks. -/
def staleTarget : Store where
  queue := ⟨((∅ : FileTree QueuePath Json).insert (.avail ⟨⟨"j"⟩, .atStamp ⟨5⟩⟩) .null).insert
    (.leased ⟨⟨"old"⟩, .never, ⟨"c"⟩, ⟨9⟩⟩) .null⟩
  denied := ∅
  eligible := (∅ : FileTree _ _).insert ⟨⟨"c"⟩, ⟨"old"⟩, .never⟩ ()
  lost := ∅

/-- A copy has deleted the entry of the job, and was stopped before it deleted the other one. -/
def stoppedTarget : Store :=
  { staleTarget with
    queue := ⟨staleTarget.queue.files.erase (.avail ⟨⟨"j"⟩, .atStamp ⟨5⟩⟩)⟩ }

theorem copies_stopped : Copies fileSystem doubled keyspaces staleTarget stoppedTarget false := by
  have hplan : jobs doubled staleTarget =
      [[[.deleteEntry ⟨"j"⟩ (.avail (.atStamp ⟨5⟩))]],
        [[.deleteEntry ⟨"old"⟩ (.leased ⟨9⟩ ⟨"c"⟩ .never)]], [],
        [(Entry.leased ⟨9⟩ ⟨"c"⟩ .never).write ⟨"j"⟩ (.bool true)]] := by
    rfl
  have hdelete : Phases.Reaches (Call.step fileSystem)
      [[.deleteEntry ⟨"j"⟩ (.avail (.atStamp ⟨5⟩))]] staleTarget [[]] stoppedTarget :=
    .tail .refl (.mk [] [] rfl)
  refine .stopped ?_
  rw [hplan]
  exact .next hdelete (by simp [Phases.Done]) (.stopped .refl)

theorem copy_makes_target_equal_doubled :
    Retried fileSystem doubled staleTarget stoppedTarget ∧ AtMostOne ⟨"j"⟩ stoppedTarget ∧
      ∃ u, Copies fileSystem doubled keyspaces stoppedTarget u true ∧ QueuesEqual doubled u := by
  have hretried : Retried fileSystem doubled staleTarget stoppedTarget := .again .start copies_stopped
  have honly : ∀ e, (staleTarget.read ⟨"j"⟩ e).isSome → e = .avail (.atStamp ⟨5⟩) := by
    intro e he
    have hkeys : staleTarget.queue.files.keys =
        [.leased ⟨⟨"old"⟩, .never, ⟨"c"⟩, ⟨9⟩⟩, .avail ⟨⟨"j"⟩, .atStamp ⟨5⟩⟩] := rfl
    have hpath : e.path ⟨"j"⟩ ∈ staleTarget.queue.files.keys := FileTree.mem_keys_iff.mpr he
    rw [hkeys] at hpath
    cases e with
    | avail d => simpa [Entry.path] using hpath
    | leased s c d => simp [Entry.path] at hpath
  obtain ⟨hone, ⟨u, hu⟩, h⟩ := copy_makes_target_equal fileSystem doubled staleTarget stoppedTarget
    hretried
  exact ⟨hretried, hone ⟨"j"⟩ fun e e' he he' => (honly e he).trans (honly e' he').symm,
    u, hu, (h u hu).1⟩

end Pipette.QueueCopy
