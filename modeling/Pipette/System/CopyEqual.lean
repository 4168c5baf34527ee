import Pipette.Pipeline.QueueCopy

/-! A copy of the queue makes the target equal to the source, however often it was stopped before it
came to its end. -/
namespace Pipette.QueueCopy

open Phases (Reaches Runs Done)

variable {backend : Backend} {source s s' t t' : Store} {job j : JobId} {entry e : Entry} {v : Json}

theorem Entry.path_inj (j j' : JobId) (e e' : Entry) : e.path j = e'.path j' ↔ j = j' ∧ e = e' := by
  cases e <;> cases e' <;> simp [Entry.path]
  tauto

theorem Entry.path_ne_tmp {j j' : JobId} {e : Entry} : e.path j ≠ .tmp j' := by
  cases e <;> simp [Entry.path]

theorem Entry.rank_injective : Function.Injective Entry.rank := by
  intro a b h
  cases a with
  | avail d =>
    cases b with
    | avail d' => simpa [Entry.rank] using h
    | leased x' c' d' => simp [Entry.rank] at h
  | leased x c d =>
    cases b with
    | avail d' => simp [Entry.rank] at h
    | leased x' c' d' =>
      cases c
      cases c'
      simpa [Entry.rank] using h

theorem Store.mem_entriesOf : e ∈ s.entriesOf j ↔ (s.read j e).isSome := by
  simp only [Store.entriesOf, Store.entries, List.mem_map, List.mem_filter, List.mem_append,
    decide_eq_true_eq]
  constructor
  · rintro ⟨_, ⟨⟨key, hkey, rfl⟩ | ⟨lease, hlease, rfl⟩, rfl⟩, rfl⟩
    · exact QueueState.mem_availKeys.mp hkey
    · exact QueueState.mem_leases.mp hlease
  · intro h
    cases e with
    | avail d => exact ⟨(j, _), ⟨.inl ⟨⟨j, d⟩, QueueState.mem_availKeys.mpr h, rfl⟩, rfl⟩, rfl⟩
    | leased x c d =>
      exact ⟨(j, _), ⟨.inr ⟨⟨j, d, c, x⟩, QueueState.mem_leases.mpr h, rfl⟩, rfl⟩, rfl⟩

theorem Store.mem_entries : (j, e) ∈ s.entries ↔ (s.read j e).isSome := by
  rw [← Store.mem_entriesOf]
  simp [Store.entriesOf]

def SameMarkers (s t : Store) : Prop :=
  t.denied = s.denied ∧ t.eligible = s.eligible ∧ t.lost = s.lost

theorem step_deleteEntry (h : (Call.deleteEntry job entry).step backend s = some s') :
    SameMarkers s s' ∧
      ∀ j e, s'.read j e = if j = job ∧ e = entry then none else s.read j e := by
  simp only [Call.step, Option.some.injEq] at h
  subst h
  refine ⟨⟨rfl, rfl, rfl⟩, ?_⟩
  intro j e
  simp only [Store.read, FileTree.lookup_remove, Entry.path_inj]

theorem step_writeTmp (h : (Call.writeTmp job v).step backend s = some s') :
    SameMarkers s s' ∧ s'.queue.files.lookup (.tmp job) = some v ∧
      (∀ j, j ≠ job → s'.queue.files.lookup (.tmp j) = s.queue.files.lookup (.tmp j)) ∧
      ∀ j e, s'.read j e = s.read j e := by
  simp only [Call.step, Option.some.injEq] at h
  subst h
  refine ⟨⟨rfl, rfl, rfl⟩, ?_, ?_, ?_⟩
  · simp
  · intro j hj
    simp [hj]
  · intro j e
    simp [Store.read, Entry.path_ne_tmp]

theorem step_promoteAvail {expiresAt : ExpiresAt}
    (h : (Call.promoteAvail job expiresAt).step backend s = some s') :
    SameMarkers s s' ∧
      (∀ j, j ≠ job → s'.queue.files.lookup (.tmp j) = s.queue.files.lookup (.tmp j)) ∧
      ∀ j e, s'.read j e = if j = job ∧ e = .avail expiresAt then
        s.queue.files.lookup (.tmp job) else s.read j e := by
  obtain ⟨files, hmove, rfl⟩ := Option.map_eq_some_iff.mp h
  refine ⟨⟨rfl, rfl, rfl⟩, ?_, ?_⟩
  · intro j hj
    simp [FileTree.lookup_rename hmove, hj]
  · intro j e
    have hpath : e.path j = .avail ⟨job, expiresAt⟩ ↔ j = job ∧ e = .avail expiresAt :=
      Entry.path_inj j job e (.avail expiresAt)
    simp [Store.read, FileTree.lookup_rename hmove, hpath, Entry.path_ne_tmp]

theorem step_claimJob {lease : Lease} (h : (Call.claimJob lease).step backend s = some s') :
    SameMarkers s s' ∧
      (∀ j, s'.queue.files.lookup (.tmp j) = s.queue.files.lookup (.tmp j)) ∧
      ∀ j e, s'.read j e =
        if j = lease.jobId ∧ e = .ofLease lease then s.read lease.jobId (.avail lease.expiresAt)
        else if j = lease.jobId ∧ e = .avail lease.expiresAt then none else s.read j e := by
  obtain ⟨files, hmove, rfl⟩ := Option.map_eq_some_iff.mp h
  refine ⟨⟨rfl, rfl, rfl⟩, ?_, ?_⟩
  · intro j
    simp [FileTree.lookup_rename hmove]
  · intro j e
    have hleased : e.path j = .leased lease ↔ j = lease.jobId ∧ e = .ofLease lease :=
      Entry.path_inj j lease.jobId e (.ofLease lease)
    have havail : e.path j = .avail lease.availKey ↔ j = lease.jobId ∧ e = .avail lease.expiresAt :=
      Entry.path_inj j lease.jobId e (.avail lease.expiresAt)
    simp only [Store.read, FileTree.lookup_rename hmove, hleased, havail]
    rfl

/-- The greatest of a job's entries: a lease over an `avail/` entry, then the later lease expiry, then
the client and the deadline. -/
def Greatest (s : Store) (j : JobId) (e : Entry) : Prop :=
  (s.read j e).isSome ∧ ∀ e', (s.read j e').isSome → e'.rank ≤ e.rank

theorem getLast?_sortOn {α κ : Type} [LinearOrder κ] {key : α → κ} {l : List α} {a : α}
    (h : (Sorting.sortOn key l).getLast? = some a) : a ∈ l ∧ ∀ b ∈ l, key b ≤ key a := by
  obtain ⟨init, hsorted⟩ := List.getLast?_eq_some_iff.mp h
  have hperm := Sorting.perm_sortOn key l
  have hpairs := Sorting.pairwise_sortOn key l
  rw [hsorted] at hperm hpairs
  refine ⟨hperm.mem_iff.mp (by simp), ?_⟩
  intro b hb
  obtain hb | hb := List.mem_append.mp (hperm.mem_iff.mpr hb)
  · exact (List.pairwise_append.mp hpairs).2.2 b hb a (by simp)
  · rw [List.mem_singleton.mp hb]

theorem getLast?_sortOn_eq_none {α κ : Type} [LinearOrder κ] {key : α → κ} {l : List α} :
    (Sorting.sortOn key l).getLast? = none ↔ l = [] := by
  rw [List.getLast?_eq_none_iff]
  constructor
  · intro h
    have hperm := Sorting.perm_sortOn key l
    rw [h] at hperm
    exact List.nil_perm.mp hperm
  · rintro rfl
    rfl

theorem Store.winner_eq_some_iff : s.winner j = some e ↔ Greatest s j e := by
  constructor
  · intro h
    obtain ⟨hmem, hmax⟩ := getLast?_sortOn h
    refine ⟨Store.mem_entriesOf.mp hmem, ?_⟩
    intro e' he'
    apply hmax e' (Store.mem_entriesOf.mpr he')
  · rintro ⟨hthere, hmax⟩
    have hmem := Store.mem_entriesOf.mpr hthere
    cases hwinner : s.winner j with
    | none =>
      rw [getLast?_sortOn_eq_none.mp hwinner] at hmem
      simp at hmem
    | some w =>
      obtain ⟨hw, hwmax⟩ := getLast?_sortOn hwinner
      have hsame := le_antisymm (hmax w (Store.mem_entriesOf.mp hw)) (hwmax e hmem)
      rw [Entry.rank_injective hsame]

theorem Store.winner_eq_none_iff : s.winner j = none ↔ ∀ e, s.read j e = none := by
  rw [Store.winner, getLast?_sortOn_eq_none, List.eq_nil_iff_forall_not_mem]
  simp [Store.mem_entriesOf]

theorem Store.mem_kept : (j, e) ∈ s.kept ↔ s.winner j = some e := by
  simp only [Store.kept, List.mem_filterMap, Option.map_eq_some_iff]
  constructor
  · rintro ⟨job, -, entry, hwinner, heq⟩
    cases heq
    exact hwinner
  · intro h
    refine ⟨j, ?_, e, h, rfl⟩
    have hthere := (Store.winner_eq_some_iff.mp h).1
    simp only [Store.jobs, List.mem_dedup, List.mem_map]
    exact ⟨(j, e), Store.mem_entries.mpr hthere, rfl⟩

theorem Store.pairwise_kept : s.kept.Pairwise fun a b => a.1 ≠ b.1 := by
  have hnodup : s.jobs.Pairwise fun a b => a ≠ b := List.nodup_dedup _
  refine List.Pairwise.filterMap _ ?_ hnodup
  intro a a' hne b hb b' hb'
  obtain ⟨_, -, rfl⟩ := Option.map_eq_some_iff.mp hb
  obtain ⟨_, -, rfl⟩ := Option.map_eq_some_iff.mp hb'
  exact hne

section Decide

variable {K V : Type} {same : V → V → Bool} {reads : List (Read K V)} {w : Write K V}

theorem decide_stuck (h : ∀ read ∈ reads, read.source.isSome) : (decide same reads).2 = [] := by
  induction reads with
  | nil => rfl
  | cons read rest ih =>
    simp only [List.mem_cons, forall_eq_or_imp] at h
    obtain ⟨value, hvalue⟩ := Option.isSome_iff_exists.mp h.1
    simp only [decide, hvalue]
    split <;> exact ih h.2

theorem mem_decide : w ∈ (decide same reads).1 ↔
    ∃ read ∈ reads, read.source = some w.value ∧ unchanged same read.target w.value = false ∧
      w.key = read.key ∧ w.replaces = read.target.isSome := by
  induction reads with
  | nil => simp [decide]
  | cons read rest ih =>
    simp only [decide, List.mem_cons, exists_eq_or_imp]
    cases hsource : read.source with
    | none => simp [ih]
    | some value =>
      dsimp only
      split
      · next hsame =>
        rw [ih]
        constructor
        · exact .inr
        · rintro (⟨heq, hchanged, -⟩ | h)
          · simp_all
          · exact h
      · next hchanged =>
        simp only [List.mem_cons, ih]
        constructor
        · rintro (rfl | h)
          · exact .inl ⟨rfl, by simpa using hchanged, rfl, rfl⟩
          · exact .inr h
        · rintro (⟨heq, -, hkey, hreplaces⟩ | h)
          · left
            cases w
            simp_all
          · exact .inr h

theorem decide_sublist : ((decide same reads).1.map Write.key).Sublist (reads.map Read.key) := by
  induction reads with
  | nil => exact .slnil
  | cons read rest ih =>
    simp only [decide, List.map_cons]
    split
    · exact ih.cons _
    · split
      · exact ih.cons _
      · exact ih.cons_cons _

end Decide

section Jobs

variable {source target : Store}

theorem source_read {read : Read (JobId × Entry) Json} (h : read ∈ jobReads source target) :
    read.source.isSome := by
  obtain ⟨⟨j, e⟩, hkept, rfl⟩ := List.mem_map.mp h
  exact (Store.winner_eq_some_iff.mp (Store.mem_kept.mp hkept)).1

theorem pinned_eq_nil : pinned source target = [] := by
  rw [pinned, decide_stuck fun read hread => source_read hread, List.map_nil]

theorem mem_jobWrites {w : Write (JobId × Entry) Json} : w ∈ jobWrites source target ↔
    source.winner w.key.1 = some w.key.2 ∧ source.read w.key.1 w.key.2 = some w.value ∧
      target.read w.key.1 w.key.2 ≠ some w.value ∧
      w.replaces = (target.read w.key.1 w.key.2).isSome := by
  obtain ⟨⟨j, e⟩, value, replaces⟩ := w
  have hheld : (if e ∈ target.entriesOf j then some (target.read j e) else none).isSome =
      (target.read j e).isSome := by
    by_cases h : e ∈ target.entriesOf j
    · simp [h, Store.mem_entriesOf.mp h]
    · simp [h, Store.mem_entriesOf.not.mp h]
  have hunchanged : unchanged (fun a b => Decidable.decide (a = b))
      (if e ∈ target.entriesOf j then some (target.read j e) else none) value = false ↔
        target.read j e ≠ some value := by
    by_cases h : e ∈ target.entriesOf j
    · obtain ⟨held, hread⟩ := Option.isSome_iff_exists.mp (Store.mem_entriesOf.mp h)
      simp [h, hread, unchanged]
    · have hread : target.read j e = none := by simpa using Store.mem_entriesOf.not.mp h
      simp [h, hread, unchanged]
  rw [jobWrites, mem_decide]
  constructor
  · rintro ⟨read, hread, hsource, hchanged, hkey, hreplaces⟩
    obtain ⟨⟨j', e'⟩, hkept, rfl⟩ := List.mem_map.mp hread
    cases hkey
    exact ⟨Store.mem_kept.mp hkept, hsource, hunchanged.mp hchanged, hreplaces.trans hheld⟩
  · rintro ⟨hwinner, hsource, hchanged, hreplaces⟩
    refine ⟨_, List.mem_map.mpr ⟨(j, e), Store.mem_kept.mpr hwinner, rfl⟩, hsource, ?_, rfl, ?_⟩
    · exact hunchanged.mpr hchanged
    · exact hreplaces.trans hheld.symm

theorem mem_jobDeletes : (j, e) ∈ jobDeletes source target ↔
    (target.read j e).isSome ∧
      (source.winner j = some e → target.read j e ≠ source.read j e) := by
  have hreplaced : (j, e) ∈ ((jobWrites source target).filter Write.replaces).map Write.key ↔
      (target.read j e).isSome ∧ source.winner j = some e ∧
        target.read j e ≠ source.read j e := by
    simp only [List.mem_map, List.mem_filter, mem_jobWrites]
    constructor
    · rintro ⟨w, ⟨⟨hwinner, hsource, hchanged, hreplaces⟩, hheld⟩, hkey⟩
      rw [hkey] at hwinner hsource hchanged hreplaces
      rw [← hreplaces, hsource]
      exact ⟨hheld, hwinner, hchanged⟩
    · rintro ⟨hheld, hwinner, hchanged⟩
      obtain ⟨value, hsource⟩ :=
        Option.isSome_iff_exists.mp (Store.winner_eq_some_iff.mp hwinner).1
      rw [hsource] at hchanged
      exact ⟨⟨(j, e), value, true⟩, ⟨⟨hwinner, hsource, hchanged, hheld.symm⟩, rfl⟩, rfl⟩
  have hunlisted : source.winner j = none → source.read j e = none :=
    fun h => Store.winner_eq_none_iff.mp h e
  simp only [jobDeletes, gone, pinned_eq_nil, List.mem_append, hreplaced, List.mem_map,
    List.mem_filter]
  cases hwinner : source.winner j with
  | none => simp_all [Store.mem_entries]
  | some w =>
    by_cases hw : w = e
    · simp_all [Store.mem_entries]
    · simp_all [Store.mem_entries]

end Jobs

theorem SameMarkers.refl (s : Store) : SameMarkers s s := ⟨rfl, rfl, rfl⟩

theorem SameMarkers.trans {u : Store} (h : SameMarkers s t) (h' : SameMarkers t u) :
    SameMarkers s u :=
  ⟨h'.1.trans h.1, h'.2.1.trans h.2.1, h'.2.2.trans h.2.2⟩

def Thinned (gone : List (JobId × Entry)) (s t : Store) : Prop :=
  SameMarkers s t ∧ ∀ j e, t.read j e = s.read j e ∨ (j, e) ∈ gone ∧ t.read j e = none

theorem deletes_reach {gone : List (JobId × Entry)} {left : List (List Call)}
    (h : Reaches (Call.step backend) (gone.map fun e => [Call.deleteEntry e.1 e.2]) s left t) :
    Thinned gone s t ∧ (Done left → ∀ e ∈ gone, t.read e.1 e.2 = none) := by
  refine Reaches.singles (fun e s => s.read e.1 e.2 = none) (Thinned gone s) (fun _ _ => True)
    (fun _ _ _ => trivial) (List.pairwise_of_forall fun _ _ => trivial) ?_
    ⟨.refl s, fun _ _ => .inl rfl⟩ h
  rintro ⟨job, entry⟩ hgone u u' ⟨hmarkers, hreads⟩ hstep
  obtain ⟨hsame, hafter⟩ := step_deleteEntry hstep
  refine ⟨by simp [hafter], ⟨hmarkers.trans hsame, ?_⟩, ?_⟩
  · intro j e
    rw [hafter]
    split
    · next heq =>
      obtain ⟨rfl, rfl⟩ := heq
      exact .inr ⟨hgone, rfl⟩
    · exact hreads j e
  · rintro ⟨j, e⟩ - hnone
    simp [hafter, hnone]

def Clear (j : JobId) (s : Store) : Prop := ∀ e, s.read j e = none

def Only (j : JobId) (entry : Entry) (v : Json) (s : Store) : Prop :=
  ∀ e, s.read j e = if e = entry then some v else none

def AtMostOne (j : JobId) (s : Store) : Prop :=
  ∀ e e', (s.read j e).isSome → (s.read j e').isSome → e = e'

theorem Clear.atMostOne (h : Clear j s) : AtMostOne j s := by
  intro e e' he
  simp [h e] at he

theorem Only.atMostOne (h : Only j entry v s) : AtMostOne j s := by
  intro e e' he he'
  by_cases h1 : e = entry
  · by_cases h2 : e' = entry
    · rw [h1, h2]
    · simp [h e', h2] at he'
  · simp [h e, h1] at he

theorem Thinned.atMostOne {gone : List (JobId × Entry)} (h : Thinned gone s t)
    (hone : AtMostOne j s) : AtMostOne j t := by
  have hthere : ∀ e, (t.read j e).isSome → (s.read j e).isSome := by
    intro e he
    obtain hsame | ⟨-, hnone⟩ := h.2 j e
    · rwa [hsame] at he
    · simp [hnone] at he
  intro e e' he he'
  exact hone e e' (hthere e he) (hthere e' he')

inductive WriteAt (w : Write (JobId × Entry) Json) : List Call → Store → Prop
  | start {s : Store} (h : Clear w.key.1 s) : WriteAt w (w.key.2.write w.key.1 w.value) s
  | staged {s : Store} {rest : List Call} (h : Clear w.key.1 s)
      (htmp : s.queue.files.lookup (.tmp w.key.1) = some w.value)
      (hrest : w.key.2.write w.key.1 w.value = .writeTmp w.key.1 w.value :: rest) :
      WriteAt w rest s
  | queued {s : Store} {x : Stamp} {c : ClientId} {d : ExpiresAt} (hentry : w.key.2 = .leased x c d)
      (h : Only w.key.1 (.avail d) w.value s) : WriteAt w [.claimJob ⟨w.key.1, d, c, x⟩] s
  | done {s : Store} (h : Only w.key.1 w.key.2 w.value s) : WriteAt w [] s

theorem WriteAt.atMostOne {w : Write (JobId × Entry) Json} {left : List Call}
    (h : WriteAt w left s) : AtMostOne w.key.1 s := by
  cases h with
  | start h => exact h.atMostOne
  | staged h => exact h.atMostOne
  | queued _ h => exact h.atMostOne
  | done h => exact h.atMostOne

theorem WriteAt.only_of_nil {w : Write (JobId × Entry) Json} (h : WriteAt w [] s) :
    Only w.key.1 w.key.2 w.value s := by
  generalize hleft : ([] : List Call) = left at h
  cases h with
  | start h => cases hentry : w.key.2 <;> simp [hentry, Entry.write] at hleft
  | staged h htmp hrest =>
    subst hleft
    cases hentry : w.key.2 <;> simp [hentry, Entry.write] at hrest
  | queued => cases hleft
  | done h => exact h

def OtherJobs (job : JobId) (s t : Store) : Prop :=
  SameMarkers s t ∧ ∀ j, j ≠ job → (∀ e, t.read j e = s.read j e) ∧
    t.queue.files.lookup (.tmp j) = s.queue.files.lookup (.tmp j)

theorem WriteAt.other {w : Write (JobId × Entry) Json} {left : List Call}
    (hother : OtherJobs job s t) (hne : w.key.1 ≠ job) (h : WriteAt w left s) : WriteAt w left t := by
  obtain ⟨hreads, htmp⟩ := hother.2 _ hne
  cases h with
  | start h =>
    apply WriteAt.start
    intro e
    rw [hreads, h]
  | staged h hstaged hrest =>
    refine WriteAt.staged ?_ (htmp.trans hstaged) hrest
    intro e
    rw [hreads, h]
  | queued hentry h =>
    apply WriteAt.queued hentry
    intro e
    rw [hreads, h]
  | done h =>
    apply WriteAt.done
    intro e
    rw [hreads, h]

theorem Clear.writeTmp (backend : Backend) (h : Clear job s) (v : Json) :
    ∃ s', (Call.writeTmp job v).step backend s = some s' ∧ OtherJobs job s s' ∧ Clear job s' ∧
      s'.queue.files.lookup (.tmp job) = some v := by
  obtain ⟨s', hstep⟩ : ∃ s', (Call.writeTmp job v).step backend s = some s' := ⟨_, rfl⟩
  obtain ⟨hmarkers, htmp, htmps, hreads⟩ := step_writeTmp hstep
  refine ⟨s', hstep, ⟨hmarkers, ?_⟩, ?_, htmp⟩
  · intro j hj
    exact ⟨hreads j, htmps j hj⟩
  · intro e
    rw [hreads, h]

theorem Clear.promoteAvail (backend : Backend) (h : Clear job s) (htmp : s.queue.files.lookup (.tmp job) = some v)
    (d : ExpiresAt) :
    ∃ s', (Call.promoteAvail job d).step backend s = some s' ∧ OtherJobs job s s' ∧
      Only job (.avail d) v s' := by
  obtain ⟨s', hstep⟩ : ∃ s', (Call.promoteAvail job d).step backend s = some s' := by
    simp [Call.step, FileTree.rename, htmp]
  obtain ⟨hmarkers, htmps, hreads⟩ := step_promoteAvail hstep
  refine ⟨s', hstep, ⟨hmarkers, ?_⟩, ?_⟩
  · intro j hj
    refine ⟨?_, htmps j hj⟩
    intro e
    simp [hreads, hj]
  · intro e
    simp [hreads, htmp, h e]

theorem Only.claimJob (backend : Backend) {d : ExpiresAt} (h : Only job (.avail d) v s) (c : ClientId) (x : Stamp) :
    ∃ s', (Call.claimJob ⟨job, d, c, x⟩).step backend s = some s' ∧ OtherJobs job s s' ∧
      Only job (.leased x c d) v s' := by
  have havail : s.read job (.avail d) = some v := by simp [h (.avail d)]
  have hfile : s.queue.files.lookup (.avail ⟨job, d⟩) = some v := havail
  obtain ⟨s', hstep⟩ : ∃ s', (Call.claimJob ⟨job, d, c, x⟩).step backend s = some s' := by
    simp [Call.step, FileTree.rename, Lease.availKey, hfile]
  obtain ⟨hmarkers, htmps, hreads⟩ := step_claimJob hstep
  refine ⟨s', hstep, ⟨hmarkers, ?_⟩, ?_⟩
  · intro j hj
    refine ⟨?_, htmps j⟩
    intro e
    simp [hreads, hj]
  · intro e
    simp only [hreads, Entry.ofLease, havail, true_and]
    split
    · rfl
    · split
      · rfl
      · next hne => simp [h e, hne]

theorem WriteAt.step (backend : Backend) {w : Write (JobId × Entry) Json} {c : Call} {rest : List Call}
    (h : WriteAt w (c :: rest) s) :
    ∃ s', c.step backend s = some s' ∧ WriteAt w rest s' ∧ OtherJobs w.key.1 s s' := by
  obtain ⟨⟨job, entry⟩, value, replaces⟩ := w
  generalize hleft : c :: rest = left at h
  cases h with
  | start h =>
    obtain ⟨s', hstep, hother, hclear, htmp⟩ := h.writeTmp backend value
    obtain ⟨rfl, hrest⟩ : c = .writeTmp job value ∧
        entry.write job value = .writeTmp job value :: rest := by
      cases entry <;> simp_all [Entry.write]
    exact ⟨s', hstep, .staged hclear htmp hrest, hother⟩
  | staged h htmp hrest =>
    obtain ⟨s', hstep, hother, honly⟩ :=
      h.promoteAvail backend htmp entry.expiresAt
    subst hleft
    cases entry with
    | avail d =>
      obtain ⟨rfl, rfl⟩ : .promoteAvail job d = c ∧ [] = rest := by simpa [Entry.write] using hrest
      exact ⟨s', hstep, .done honly, hother⟩
    | leased x client d =>
      obtain ⟨rfl, rfl⟩ : .promoteAvail job d = c ∧ [.claimJob ⟨job, d, client, x⟩] = rest := by
        simpa [Entry.write] using hrest
      exact ⟨s', hstep, .queued rfl honly, hother⟩
  | @queued _ x client d hentry h =>
    obtain ⟨s', hstep, hother, honly⟩ := h.claimJob backend client x
    obtain ⟨rfl, rfl⟩ : c = .claimJob ⟨job, d, client, x⟩ ∧ rest = [] := by simpa using hleft
    cases hentry
    exact ⟨s', hstep, .done honly, hother⟩
  | done h => cases hleft

def Untouched (ws : List (Write (JobId × Entry) Json)) (s t : Store) : Prop :=
  SameMarkers s t ∧ ∀ j, (∀ w ∈ ws, w.key.1 ≠ j) → ∀ e, t.read j e = s.read j e

section Writes

variable {ws : List (Write (JobId × Entry) Json)}

theorem writes_start (hclear : ∀ w ∈ ws, Clear w.key.1 s) :
    List.Forall₂ (fun w left => w ∈ ws ∧ WriteAt w left s) ws
      (ws.map fun w => w.key.2.write w.key.1 w.value) := by
  rw [List.forall₂_map_right_iff]
  apply List.forall₂_same.mpr
  intro w hw
  exact ⟨hw, .start (hclear w hw)⟩

theorem writes_call {u u' : Store} {w : Write (JobId × Entry) Json} {c : Call} {rest : List Call}
    (hat : w ∈ ws ∧ WriteAt w (c :: rest) u) (hwhole : Untouched ws s u)
    (hstep : c.step backend u = some u') :
    (w ∈ ws ∧ WriteAt w rest u') ∧ Untouched ws s u' ∧
      ∀ y left, w.key.1 ≠ y.key.1 → y ∈ ws ∧ WriteAt y left u → y ∈ ws ∧ WriteAt y left u' := by
  obtain ⟨hw, hwrite⟩ := hat
  obtain ⟨u'', hstep', hnext, hother⟩ := hwrite.step backend
  obtain rfl : u' = u'' := Option.some.inj (hstep.symm.trans hstep')
  refine ⟨⟨hw, hnext⟩, ⟨hwhole.1.trans hother.1, ?_⟩, ?_⟩
  · intro j hj e
    rw [(hother.2 j (hj w hw).symm).1 e, hwhole.2 j hj e]
  · rintro y left hne ⟨hy, hat⟩
    exact ⟨hy, hat.other hother hne.symm⟩

theorem writes_reach (hws : ws.Pairwise fun a b => a.key.1 ≠ b.key.1)
    (hclear : ∀ w ∈ ws, Clear w.key.1 s) {left : List (List Call)}
    (h : Reaches (Call.step backend) (ws.map fun w => w.key.2.write w.key.1 w.value) s left t) :
    Untouched ws s t ∧ (∀ w ∈ ws, AtMostOne w.key.1 t) ∧
      (Done left → ∀ w ∈ ws, Only w.key.1 w.key.2 w.value t) := by
  obtain ⟨hat, hwhole⟩ := h.tasks_at (fun w left u => w ∈ ws ∧ WriteAt w left u) (Untouched ws s)
    (fun a b => a.key.1 ≠ b.key.1) (fun _ _ h => h.symm) (fun _ _ _ _ _ => writes_call) hws
    (writes_start hclear) ⟨.refl s, fun _ _ _ => rfl⟩
  refine ⟨hwhole, ?_, ?_⟩
  · intro w hw
    obtain ⟨task, -, -, hwrite⟩ := Result.forall₂_mem hat w hw
    exact hwrite.atMostOne
  · intro hdone w hw
    obtain ⟨task, htask, -, hwrite⟩ := Result.forall₂_mem hat w hw
    rw [hdone task htask] at hwrite
    exact hwrite.only_of_nil

theorem writes_exists_done (backend : Backend) (hws : ws.Pairwise fun a b => a.key.1 ≠ b.key.1)
    (hclear : ∀ w ∈ ws, Clear w.key.1 s) :
    ∃ left t, Reaches (Call.step backend) (ws.map fun w => w.key.2.write w.key.1 w.value) s left t ∧
      Done left := by
  refine Reaches.exists_done (fun w left u => w ∈ ws ∧ WriteAt w left u) (Untouched ws s)
    (fun a b => a.key.1 ≠ b.key.1) (fun _ _ h => h.symm) (fun _ _ _ _ _ => writes_call) ?_ hws
    (writes_start hclear) ⟨.refl s, fun _ _ _ => rfl⟩
  rintro w c rest u ⟨-, hwrite⟩ -
  obtain ⟨u', hstep, -⟩ := hwrite.step backend
  exact ⟨u', hstep⟩

end Writes

def EntriesEqual (source t : Store) : Prop :=
  ∀ j e, t.read j e = if source.winner j = some e then source.read j e else none

section Jobs

variable {target : Store}

theorem pairwise_jobWrites (source target : Store) :
    (jobWrites source target).Pairwise fun a b => a.key.1 ≠ b.key.1 := by
  have hreads : (jobReads source target).map Read.key = source.kept := by
    simp [jobReads, Function.comp_def]
  have hkeys : ((jobWrites source target).map Write.key).Pairwise fun a b => a.1 ≠ b.1 := by
    refine List.Pairwise.sublist decide_sublist ?_
    rw [hreads]
    exact Store.pairwise_kept
  simpa [List.pairwise_map] using hkeys

theorem clear_of_deleted {u : Store} (hthin : Thinned (jobDeletes source target) target u)
    (hgone : ∀ e ∈ jobDeletes source target, u.read e.1 e.2 = none)
    {w : Write (JobId × Entry) Json} (hw : w ∈ jobWrites source target) : Clear w.key.1 u := by
  obtain ⟨hwinner, hsource, hchanged, -⟩ := mem_jobWrites.mp hw
  intro e
  by_cases hdelete : (w.key.1, e) ∈ jobDeletes source target
  · exact hgone _ hdelete
  · obtain hsame | ⟨hdelete', -⟩ := hthin.2 w.key.1 e
    · rw [hsame]
      simp only [mem_jobDeletes, not_and, not_forall, not_not] at hdelete
      by_contra hheld
      obtain ⟨hkept, heq⟩ := hdelete (Option.isSome_iff_ne_none.mpr hheld)
      obtain rfl : w.key.2 = e := Option.some.inj (hwinner.symm.trans hkept)
      exact hchanged (heq.trans hsource)
    · exact absurd hdelete' hdelete

theorem entriesEqual_of_done {u : Store} (hthin : Thinned (jobDeletes source target) target u)
    (hgone : ∀ e ∈ jobDeletes source target, u.read e.1 e.2 = none)
    (hother : ∀ j, (∀ w ∈ jobWrites source target, w.key.1 ≠ j) → ∀ e, t.read j e = u.read j e)
    (honly : ∀ w ∈ jobWrites source target, Only w.key.1 w.key.2 w.value t) :
    EntriesEqual source t := by
  intro j e
  by_cases hwritten : ∃ w ∈ jobWrites source target, w.key.1 = j
  · obtain ⟨w, hw, rfl⟩ := hwritten
    obtain ⟨hwinner, hsource, -, -⟩ := mem_jobWrites.mp hw
    rw [honly w hw e, hwinner]
    by_cases he : e = w.key.2
    · subst he
      simp [hsource]
    · have hne : w.key.2 ≠ e := fun h => he h.symm
      simp [he, hne]
  · have hnone : ∀ w ∈ jobWrites source target, w.key.1 ≠ j := by
      intro w hw hj
      exact hwritten ⟨w, hw, hj⟩
    rw [hother j hnone e]
    -- without a write, what the source keeps is in the target already
    have hheld : source.winner j = some e → target.read j e = source.read j e := by
      intro hwinner
      obtain ⟨value, hsource⟩ := Option.isSome_iff_exists.mp (Store.winner_eq_some_iff.mp hwinner).1
      by_contra hchanged
      rw [hsource] at hchanged
      exact hnone ⟨(j, e), value, (target.read j e).isSome⟩
        (mem_jobWrites.mpr ⟨hwinner, hsource, hchanged, rfl⟩) rfl
    by_cases hdelete : (j, e) ∈ jobDeletes source target
    · have hlost : source.winner j ≠ some e := fun h => (mem_jobDeletes.mp hdelete).2 h (hheld h)
      simp [hgone _ hdelete, hlost]
    · obtain hsame | ⟨hdelete', -⟩ := hthin.2 j e
      · rw [hsame]
        split
        · next hwinner => exact hheld hwinner
        · next hwinner =>
          by_contra hthere
          exact hdelete (mem_jobDeletes.mpr ⟨Option.isSome_iff_ne_none.mpr hthere,
            fun h => absurd h hwinner⟩)
      · exact absurd hdelete' hdelete

theorem Thinned.trans {gone gone' all : List (JobId × Entry)} {u : Store} (h : Thinned gone s t)
    (h' : Thinned gone' t u) (hgone : gone ⊆ all) (hgone' : gone' ⊆ all) : Thinned all s u := by
  refine ⟨h.1.trans h'.1, ?_⟩
  intro j e
  obtain hsame' | ⟨hmem, hnone⟩ := h'.2 j e
  · obtain hsame | ⟨hmem, hnone⟩ := h.2 j e
    · exact .inl (hsame'.trans hsame)
    · exact .inr ⟨hgone hmem, hsame'.trans hnone⟩
  · exact .inr ⟨hgone' hmem, hnone⟩

theorem Thinned.none {gone : List (JobId × Entry)} (h : Thinned gone s t) (hnone : s.read j e = none) :
    t.read j e = none := by
  obtain hsame | ⟨-, hgone⟩ := h.2 j e
  · exact hsame.trans hnone
  · exact hgone

theorem Untouched.atMostOne {ws : List (Write (JobId × Entry) Json)} (h : Untouched ws s t)
    (hone : ∀ w ∈ ws, AtMostOne w.key.1 t) (hj : AtMostOne j s) : AtMostOne j t := by
  by_cases hwritten : ∃ w ∈ ws, w.key.1 = j
  · obtain ⟨w, hw, rfl⟩ := hwritten
    exact hone w hw
  · have hreads := h.2 j fun w hw hjob => hwritten ⟨w, hw, hjob⟩
    intro e e' he he'
    rw [hreads] at he he'
    exact hj e e' he he'

theorem deletes_run {gone : List (JobId × Entry)} {phases : Plan} {done : Bool}
    (h : Runs (Call.step backend)
      (((gone.filter fun e => e.2.kind = .avail).map fun e => [Call.deleteEntry e.1 e.2]) ::
        ((gone.filter fun e => e.2.kind = .leased).map fun e => [Call.deleteEntry e.1 e.2]) ::
          phases) s t done) :
    (done = false ∧ Thinned gone s t) ∨
      ∃ u, Thinned gone s u ∧ (∀ e ∈ gone, u.read e.1 e.2 = none) ∧
        Runs (Call.step backend) phases u t done := by
  cases h with
  | stopped hreach =>
    have hthin := (deletes_reach hreach).1
    refine .inl ⟨rfl, hthin.1, ?_⟩
    intro j e
    obtain hsame | ⟨hmem, hnone⟩ := hthin.2 j e
    · exact .inl hsame
    · exact .inr ⟨List.mem_of_mem_filter hmem, hnone⟩
  | next hreach hdone hrest =>
    obtain ⟨hthin, hgone⟩ := deletes_reach hreach
    cases hrest with
    | stopped hreach' =>
      have hthin' := (deletes_reach hreach').1
      exact .inl ⟨rfl, hthin.trans hthin' (List.filter_subset_self _) (List.filter_subset_self _)⟩
    | next hreach' hdone' hrest' =>
      obtain ⟨hthin', hgone'⟩ := deletes_reach hreach'
      refine .inr ⟨_, hthin.trans hthin' (List.filter_subset_self _) (List.filter_subset_self _), ?_, hrest'⟩
      intro e he
      cases hkind : e.2.kind with
      | avail => exact hthin'.none (hgone hdone e (List.mem_filter.mpr ⟨he, by simpa using hkind⟩))
      | leased => exact hgone' hdone' e (List.mem_filter.mpr ⟨he, by simpa using hkind⟩)

theorem kinds_apart {ws : List (Write (JobId × Entry) Json)} {w : Write (JobId × Entry) Json}
    {kind kind' : Kind} (hws : ws.Pairwise fun a b => a.key.1 ≠ b.key.1) (hw : w ∈ ws)
    (hkind : w.key.2.kind = kind) (hne : kind' ≠ kind) :
    ∀ w' ∈ ws.filter fun w => w.key.2.kind = kind', w'.key.1 ≠ w.key.1 := by
  have hsymm : Std.Symm fun a b : Write (JobId × Entry) Json => a.key.1 ≠ b.key.1 :=
    ⟨fun _ _ h => h.symm⟩
  intro w' hw'
  obtain ⟨hw', hkind'⟩ := List.mem_filter.mp hw'
  have hsame : w'.key.2.kind = kind' := by simpa using hkind'
  apply hws.forall hw' hw
  rintro rfl
  exact hne (hsame.symm.trans hkind)

theorem clear_leased {ws : List (Write (JobId × Entry) Json)}
    (hws : ws.Pairwise fun a b => a.key.1 ≠ b.key.1) (hclear : ∀ w ∈ ws, Clear w.key.1 s)
    (hwhole : Untouched (ws.filter fun w => w.key.2.kind = .avail) s t) :
    ∀ w ∈ ws.filter fun w => w.key.2.kind = .leased, Clear w.key.1 t := by
  intro w hw e
  obtain ⟨hw, hkind⟩ := List.mem_filter.mp hw
  rw [hwhole.2 w.key.1 (kinds_apart hws hw (by simpa using hkind) (by simp)) e, hclear w hw]

theorem writes_run {ws : List (Write (JobId × Entry) Json)} {done : Bool}
    (hws : ws.Pairwise fun a b => a.key.1 ≠ b.key.1) (hclear : ∀ w ∈ ws, Clear w.key.1 s)
    (h : Runs (Call.step backend)
      [((ws.filter fun w => w.key.2.kind = .avail).map fun w => w.key.2.write w.key.1 w.value),
        ((ws.filter fun w => w.key.2.kind = .leased).map fun w => w.key.2.write w.key.1 w.value)]
      s t done) :
    SameMarkers s t ∧ (∀ j, AtMostOne j s → AtMostOne j t) ∧
      (done = true → (∀ j, (∀ w ∈ ws, w.key.1 ≠ j) → ∀ e, t.read j e = s.read j e) ∧
        ∀ w ∈ ws, Only w.key.1 w.key.2 w.value t) := by
  have hclearAvail : ∀ w ∈ ws.filter fun w => w.key.2.kind = .avail, Clear w.key.1 s :=
    fun w hw => hclear w (List.mem_of_mem_filter hw)
  cases h with
  | stopped hreach =>
    obtain ⟨hwhole, hone, -⟩ := writes_reach (hws.filter _) hclearAvail hreach
    exact ⟨hwhole.1, fun j => hwhole.atMostOne hone, by simp⟩
  | @next _ _ _ _ u _ _ hreach hdone hrest =>
    obtain ⟨hwhole, hone, honly⟩ := writes_reach (hws.filter _) hclearAvail hreach
    have hclearLeased := clear_leased hws hclear hwhole
    cases hrest with
    | stopped hreach' =>
      obtain ⟨hwhole', hone', -⟩ := writes_reach (hws.filter _) hclearLeased hreach'
      refine ⟨hwhole.1.trans hwhole'.1, ?_, by simp⟩
      intro j hj
      exact hwhole'.atMostOne hone' (hwhole.atMostOne hone hj)
    | next hreach' hdone' hrest' =>
      obtain ⟨hwhole', hone', honly'⟩ := writes_reach (hws.filter _) hclearLeased hreach'
      cases hrest'
      refine ⟨hwhole.1.trans hwhole'.1, ?_, ?_⟩
      · intro j hj
        exact hwhole'.atMostOne hone' (hwhole.atMostOne hone hj)
      · intro _
        constructor
        · intro j hj e
          rw [hwhole'.2 j (fun w hw => hj w (List.mem_of_mem_filter hw)) e,
            hwhole.2 j (fun w hw => hj w (List.mem_of_mem_filter hw)) e]
        · intro w hw
          cases hkind : w.key.2.kind with
          | avail =>
            have hfirst := honly hdone w (List.mem_filter.mpr ⟨hw, by simpa using hkind⟩)
            intro e
            rw [hwhole'.2 w.key.1 (kinds_apart hws hw hkind (by simp)) e, hfirst e]
          | leased => exact honly' hdone' w (List.mem_filter.mpr ⟨hw, by simpa using hkind⟩)

theorem jobs_runs {done : Bool}
    (h : Runs (Call.step backend) (jobs source target) target t done) :
    SameMarkers target t ∧ (∀ j, AtMostOne j target → AtMostOne j t) ∧
      (done = true → EntriesEqual source t) := by
  obtain ⟨rfl, hthin⟩ | ⟨u, hthin, hgone, hrest⟩ := deletes_run h
  · exact ⟨hthin.1, fun j => hthin.atMostOne, by simp⟩
  · obtain ⟨hmarkers, hone, hwritten⟩ := writes_run (pairwise_jobWrites source target)
      (fun w => clear_of_deleted hthin hgone) hrest
    refine ⟨hthin.1.trans hmarkers, ?_, ?_⟩
    · intro j hj
      exact hone j (hthin.atMostOne hj)
    · intro hdone
      obtain ⟨hother, honly⟩ := hwritten hdone
      exact entriesEqual_of_done hthin hgone hother honly

theorem jobs_exists_done (backend : Backend) (source target : Store) :
    ∃ t, Runs (Call.step backend) (jobs source target) target t true := by
  have hable : ∀ gone : List (JobId × Entry), ∀ s, ∃ left t,
      Reaches (Call.step backend) (gone.map fun e => [Call.deleteEntry e.1 e.2]) s left t ∧
        Done left := by
    intro gone s
    apply Reaches.exists_done_singles
    intro e _ s
    exact ⟨_, rfl⟩
  obtain ⟨left₁, t₁, h₁, hdone₁⟩ := hable ((jobDeletes source target).filter
    fun e => e.2.kind = .avail) target
  obtain ⟨left₂, t₂, h₂, hdone₂⟩ := hable ((jobDeletes source target).filter
    fun e => e.2.kind = .leased) t₁
  have hdeletes : Runs (Call.step backend)
      [((jobDeletes source target).filter fun e => e.2.kind = .avail).map fun e =>
          [Call.deleteEntry e.1 e.2],
        ((jobDeletes source target).filter fun e => e.2.kind = .leased).map fun e =>
          [Call.deleteEntry e.1 e.2]] target t₂ true :=
    .next h₁ hdone₁ (.next h₂ hdone₂ .finished)
  obtain ⟨hfalse, -⟩ | ⟨u, hthin, hgone, hrest⟩ := deletes_run hdeletes
  · cases hfalse
  · cases hrest
    have hws := pairwise_jobWrites source target
    have hclear : ∀ w ∈ jobWrites source target, Clear w.key.1 t₂ :=
      fun w => clear_of_deleted hthin hgone
    have hclearAvail : ∀ w ∈ (jobWrites source target).filter fun w => w.key.2.kind = .avail,
        Clear w.key.1 t₂ := fun w hw => hclear w (List.mem_of_mem_filter hw)
    obtain ⟨left₃, t₃, h₃, hdone₃⟩ := writes_exists_done backend (hws.filter _) hclearAvail
    obtain ⟨hwhole, -, -⟩ := writes_reach (hws.filter _) hclearAvail h₃
    obtain ⟨left₄, t₄, h₄, hdone₄⟩ :=
      writes_exists_done backend (hws.filter _) (clear_leased hws hclear hwhole)
    exact ⟨t₄, .next h₁ hdone₁ (.next h₂ hdone₂ (.next h₃ hdone₃ (.next h₄ hdone₄ .finished)))⟩

theorem jobs_eq_nil (h : EntriesEqual source target) : ∀ phase ∈ jobs source target, phase = [] := by
  have hwrites : jobWrites source target = [] := by
    rw [List.eq_nil_iff_forall_not_mem]
    intro w hw
    obtain ⟨hwinner, hsource, hchanged, -⟩ := mem_jobWrites.mp hw
    rw [h, if_pos hwinner] at hchanged
    exact hchanged hsource
  have hdeletes : jobDeletes source target = [] := by
    rw [List.eq_nil_iff_forall_not_mem]
    rintro ⟨j, e⟩ he
    obtain ⟨hheld, hother⟩ := mem_jobDeletes.mp he
    rw [h] at hheld hother
    by_cases hwinner : source.winner j = some e
    · exact hother hwinner (if_pos hwinner)
    · simp [hwinner] at hheld
  simp [jobs, hwrites, hdeletes]

end Jobs

end Pipette.QueueCopy
