import Mathlib.Data.List.Chain
import Pipette.Pipeline.Joins
import Pipette.System.OneEntry

/-! A job seen at successive moments of the queue. It is looked up in `avail/`, in `leased/` and in
`avail/` again, so a live job can hide from the three reads only by moving twice. -/
namespace Pipette

inductive QueueStanding
  | avail (d : ExpiresAt)
  | leased (d : ExpiresAt)
deriving DecidableEq

theorem ExpiresAt.isExpired_mono {t t' : Instant} (d : ExpiresAt) (ht : t ≤ t')
    (h : d.isExpired t = true) : d.isExpired t' = true := by
  cases d with
  | never => cases h
  | atStamp s =>
    simp only [isExpired, decide_eq_true_eq] at h ⊢
    exact lt_of_lt_of_le h ht

def QueueStanding.deadline : QueueStanding → ExpiresAt
  | avail d | leased d => d

namespace QueueState

def standing (q : QueueState) (j : JobId) : Option QueueStanding :=
  match (q.availKeys.filter (·.jobId = j)).head? with
  | some k => some (.avail k.expiresAt)
  | none => (leasedExpiry q.leases j).map .leased

def Single (q : QueueState) : Prop :=
  ∀ j d, q.standing j = some (.avail d) → leasedExpiry q.leases j = none

end QueueState

/-- What happens to a job between two moments, the first of them at time `t`. A deadline is moved
only once it has passed. -/
inductive JobMove (t : Instant) : Option QueueStanding → Option QueueStanding → Prop
  | stay (s : Option QueueStanding) : JobMove t s s
  | redate {d : ExpiresAt} (d' : ExpiresAt) (h : d.isExpired t = true) :
      JobMove t (some (.avail d)) (some (.avail d'))
  | claim (d : ExpiresAt) : JobMove t (some (.avail d)) (some (.leased d))
  | recycle (d : ExpiresAt) : JobMove t (some (.leased d)) (some (.avail d))
  | leave (s : QueueStanding) : JobMove t (some s) none
  | arrive (s : QueueStanding) : JobMove t none (some s)

structure Sight where
  queue : QueueState
  time : Instant

namespace Sight

def Missing (s : Sight) (j : JobId) : Prop :=
  ∀ st, s.queue.standing j = some st → st.deadline.isExpired s.time = true

def Carries (s : Sight) (j : JobId) (d : ExpiresAt) : Prop :=
  ∃ st, s.queue.standing j = some st ∧ st.deadline = d

structure Next (s s' : Sight) : Prop where
  later : s.time ≤ s'.time
  moves : ∀ j, JobMove s.time (s.queue.standing j) (s'.queue.standing j)

end Sight

def crosses : Option QueueStanding → Option QueueStanding → Bool
  | some (.avail _), some (.leased _) | some (.leased _), some (.avail _) => true
  | _, _ => false

abbrev Sights := List Sight

namespace Sights

def Gone (sights : Sights) (j : JobId) : Prop := ∃ s ∈ sights, s.Missing j

def Carried (sights : Sights) (j : JobId) (d : ExpiresAt) : Prop := ∃ s ∈ sights, s.Carries j d

def crossings (j : JobId) : Sights → Nat
  | s' :: s :: rest =>
    (if crosses (s.queue.standing j) (s'.queue.standing j) then 1 else 0) + crossings j (s :: rest)
  | _ => 0

/-- A history that the moves of devices, ingests and maintenance can make. -/
structure Legal (sights : Sights) : Prop where
  chain : sights.IsChain fun s' s => s.Next s'
  single : ∀ s ∈ sights, s.queue.Single

section Histories

variable {sights rest : Sights} {s s' : Sight} {j : JobId} {d : ExpiresAt}

theorem Legal.next (h : Legal (s' :: s :: rest)) : s.Next s' :=
  (List.isChain_cons_cons.mp h.chain).1

theorem Legal.tail (h : Legal (s :: rest)) : Legal rest :=
  ⟨h.chain.tail, fun r hr => h.single r (List.mem_cons_of_mem _ hr)⟩

theorem Gone.cons (h : Gone sights j) : Gone (s :: sights) j := by
  obtain ⟨r, hr, hmissing⟩ := h
  exact ⟨r, List.mem_cons_of_mem _ hr, hmissing⟩

theorem Carried.cons (h : Carried sights j d) : Carried (s :: sights) j d := by
  obtain ⟨r, hr, hcarries⟩ := h
  exact ⟨r, List.mem_cons_of_mem _ hr, hcarries⟩

theorem gone_of_none (h : s.queue.standing j = none) : Gone (s :: rest) j :=
  ⟨s, List.mem_cons_self, fun st hst => by rw [h] at hst; cases hst⟩

theorem crossings_le_cons : crossings j sights ≤ crossings j (s :: sights) := by
  cases sights with
  | nil => exact Nat.zero_le _
  | cons r rest => exact Nat.le_add_left _ _

theorem crossings_cons_of_crosses
    (h : crosses (s.queue.standing j) (s'.queue.standing j) = true) :
    crossings j (s' :: s :: rest) = 1 + crossings j (s :: rest) := by
  simp [crossings, h]

theorem Carried.gone_or_carries (hlegal : Legal (s :: rest)) (h : Carried (s :: rest) j d) :
    Gone (s :: rest) j ∨ s.Carries j d := by
  induction rest generalizing s with
  | nil =>
    obtain ⟨r, hr, hcarries⟩ := h
    exact .inr (List.mem_singleton.mp hr ▸ hcarries)
  | cons r rest ih =>
    obtain ⟨t, ht, hcarries⟩ := h
    obtain rfl | ht := List.mem_cons.mp ht
    · exact .inr hcarries
    obtain hgone | ⟨st, hst, hd⟩ := ih hlegal.tail ⟨t, ht, hcarries⟩
    · exact .inl hgone.cons
    have hmove := hlegal.next.moves j
    rw [hst] at hmove
    generalize hst' : s.queue.standing j = st' at hmove
    cases hmove with
    | stay => exact .inr ⟨st, hst', hd⟩
    | redate d' hexpired =>
      refine .inl (Gone.cons ⟨r, List.mem_cons_self, fun st hst₂ => ?_⟩)
      rw [hst] at hst₂
      cases hst₂
      exact hexpired
    | claim d' => exact .inr ⟨_, hst', hd⟩
    | recycle d' => exact .inr ⟨_, hst', hd⟩
    | leave => exact .inl (gone_of_none hst')

theorem Carried.gone_of_isExpired (hlegal : Legal (s :: rest)) (h : Carried (s :: rest) j d)
    (hexpired : d.isExpired s.time = true) : Gone (s :: rest) j := by
  obtain hgone | ⟨st, hst, hd⟩ := h.gone_or_carries hlegal
  · exact hgone
  · refine ⟨s, List.mem_cons_self, fun st' hst' => ?_⟩
    rw [hst] at hst'
    cases hst'
    rwa [hd]

def LeasedNow (j : JobId) : Sights → Prop
  | s :: _ => ∃ d, s.queue.standing j = some (.leased d)
  | [] => False

def AvailNow (j : JobId) : Sights → Prop
  | s :: _ => ∃ d, s.queue.standing j = some (.avail d)
  | [] => False

def MissedOnce (j : JobId) (sights : Sights) : Prop :=
  Gone sights j ∨ 1 ≤ crossings j sights ∨ LeasedNow j sights

def MissedTwice (j : JobId) (sights : Sights) : Prop :=
  Gone sights j ∨ 2 ≤ crossings j sights ∨ 1 ≤ crossings j sights ∧ AvailNow j sights

def Dead (j : JobId) (sights : Sights) : Prop := Gone sights j ∨ 2 ≤ crossings j sights

def Lasting (P : Sights → Prop) : Prop :=
  ∀ s' s rest, Legal (s' :: s :: rest) → P (s :: rest) → P (s' :: s :: rest)

section Lasting

variable {P P' : Sights → Prop}

theorem Lasting.and (h : Lasting P) (h' : Lasting P') : Lasting fun s => P s ∧ P' s :=
  fun _ _ _ hlegal hp => ⟨h _ _ _ hlegal hp.1, h' _ _ _ hlegal hp.2⟩

theorem Lasting.or (h : Lasting P) (h' : Lasting P') : Lasting fun s => P s ∨ P' s :=
  fun _ _ _ hlegal hp => hp.imp (h _ _ _ hlegal) (h' _ _ _ hlegal)

theorem Lasting.imp {A : Prop} (h : Lasting P) : Lasting fun s => A → P s :=
  fun _ _ _ hlegal hp ha => h _ _ _ hlegal (hp ha)

theorem Lasting.all {β : Type} {P : β → Sights → Prop} (h : ∀ b, Lasting (P b)) :
    Lasting fun s => ∀ b, P b s :=
  fun _ _ _ hlegal hp b => h b _ _ _ hlegal (hp b)

theorem Lasting.const {A : Prop} : Lasting fun _ => A := fun _ _ _ _ h => h

end Lasting

theorem MissedOnce.lasting : Lasting (MissedOnce j) := by
  intro s' s rest hlegal h
  obtain hgone | hcrossed | ⟨d, hd⟩ := h
  · exact .inl hgone.cons
  · exact .inr (.inl (hcrossed.trans crossings_le_cons))
  have hmove := hlegal.next.moves j
  rw [hd] at hmove
  generalize hst' : s'.queue.standing j = st' at hmove
  cases hmove with
  | stay => exact .inr (.inr ⟨d, hst'⟩)
  | recycle =>
    have hcrosses : crosses (s.queue.standing j) (s'.queue.standing j) = true := by
      rw [hd, hst']
      rfl
    rw [MissedOnce, crossings_cons_of_crosses hcrosses]
    omega
  | leave => exact .inl (gone_of_none hst')

theorem MissedTwice.lasting : Lasting (MissedTwice j) := by
  intro s' s rest hlegal h
  obtain hgone | hcrossed | ⟨hcrossed, d, hd⟩ := h
  · exact .inl hgone.cons
  · exact .inr (.inl (hcrossed.trans crossings_le_cons))
  have hmove := hlegal.next.moves j
  rw [hd] at hmove
  generalize hst' : s'.queue.standing j = st' at hmove
  have hkept := hcrossed.trans (crossings_le_cons (s := s'))
  cases hmove with
  | stay => exact .inr (.inr ⟨hkept, d, hst'⟩)
  | redate d' => exact .inr (.inr ⟨hkept, d', hst'⟩)
  | claim =>
    have hcrosses : crosses (s.queue.standing j) (s'.queue.standing j) = true := by
      rw [hd, hst']
      rfl
    rw [MissedTwice, crossings_cons_of_crosses hcrosses]
    omega
  | leave => exact .inl (gone_of_none hst')

theorem Dead.lasting : Lasting (Dead j) := by
  rintro s' s rest - (hgone | hcrossed)
  · exact .inl hgone.cons
  · exact .inr (hcrossed.trans crossings_le_cons)

theorem Carried.lasting : Lasting (Carried · j d) := fun _ _ _ _ h => h.cons

theorem missedOnce_of_head (h : (s.queue.availKeys.filter (·.jobId = j)).head? = none) :
    MissedOnce j (s :: rest) := by
  cases hst : s.queue.standing j with
  | none => exact .inl (gone_of_none hst)
  | some st =>
    simp only [QueueState.standing, h] at hst
    obtain ⟨d, -, rfl⟩ := Option.map_eq_some_iff.mp hst
    exact .inr (.inr ⟨d, by simpa only [QueueState.standing, h] using hst⟩)

theorem MissedOnce.twice (hmissed : MissedOnce j (s :: rest))
    (h : leasedExpiry s.queue.leases j = none) : MissedTwice j (s :: rest) := by
  cases hst : s.queue.standing j with
  | none => exact .inl (gone_of_none hst)
  | some st =>
    cases st with
    | leased d =>
      simp only [QueueState.standing, h] at hst
      split at hst <;> simp at hst
    | avail d =>
      obtain hgone | hcrossed | ⟨d', hd'⟩ := hmissed
      · exact .inl hgone
      · exact .inr (.inr ⟨hcrossed, d, hst⟩)
      · rw [hst] at hd'
        cases hd'

theorem MissedTwice.dead (hmissed : MissedTwice j (s :: rest))
    (h : (s.queue.availKeys.filter (·.jobId = j)).head? = none) : Dead j (s :: rest) := by
  obtain hgone | hcrossed | ⟨-, d, hd⟩ := hmissed
  · exact .inl hgone
  · exact .inr hcrossed
  · simp only [QueueState.standing, h] at hd
    obtain ⟨_, -, hd⟩ := Option.map_eq_some_iff.mp hd
    cases hd

theorem carries_of_head {k : AvailKey}
    (h : (s.queue.availKeys.filter (·.jobId = j)).head? = some k) : s.Carries j k.expiresAt :=
  ⟨.avail k.expiresAt, by simp only [QueueState.standing, h], rfl⟩

theorem carries_of_leased (hsingle : s.queue.Single) (h : leasedExpiry s.queue.leases j = some d) :
    s.Carries j d := by
  cases hst : s.queue.standing j with
  | none =>
    simp only [QueueState.standing, h] at hst
    split at hst <;> simp at hst
  | some st =>
    cases st with
    | avail d' => simp [hsingle j d' hst] at h
    | leased d' =>
      refine ⟨_, hst, ?_⟩
      simp only [QueueState.standing, h] at hst
      split at hst
      · cases hst
      · simpa [QueueStanding.deadline, eq_comm] using hst

end Histories

end Sights

def QueuePath.standing : QueuePath → Option QueueStanding
  | avail k => some (.avail k.expiresAt)
  | leased l => some (.leased l.expiresAt)
  | tmp _ => none

namespace QueueState

variable {q : QueueState} {p : QueuePath} {k : AvailKey} {b : Json} {j : JobId}

theorem exists_stands_avail (h : k ∈ q.availKeys) : ∃ b, q.Stands (.avail k) k b := by
  obtain ⟨b, hb⟩ := Option.isSome_iff_exists.mp (mem_availKeys.mp h)
  exact ⟨b, rfl, hb⟩

theorem exists_stands_leased {l : Lease} (h : l ∈ q.leases) :
    ∃ b, q.Stands (.leased l) l.availKey b := by
  obtain ⟨b, hb⟩ := Option.isSome_iff_exists.mp (mem_leases.mp h)
  exact ⟨b, rfl, hb⟩

theorem leasedExpiry_eq_none (h : ∀ l ∈ q.leases, l.jobId ≠ j) : leasedExpiry q.leases j = none := by
  have hnone : q.leases.filter (·.jobId = j) = [] :=
    List.filter_eq_nil_iff.mpr fun l hl => by simpa using h l hl
  rw [leasedExpiry, hnone]
  rfl

theorem standing_eq_none (h : ∀ p k b, q.Stands p k b → k.jobId ≠ j) : q.standing j = none := by
  have havail : q.availKeys.filter (·.jobId = j) = [] := by
    refine List.filter_eq_nil_iff.mpr fun k hk => ?_
    obtain ⟨b, hb⟩ := exists_stands_avail hk
    simpa using h _ k b hb
  have hleased : leasedExpiry q.leases j = none := by
    refine leasedExpiry_eq_none fun l hl => ?_
    obtain ⟨b, hb⟩ := exists_stands_leased hl
    exact h _ _ b hb
  simp [standing, havail, hleased]

/-- A job with one entry stands where its entry is. -/
theorem OneEntry.standing (hone : q.OneEntry) (h : q.Stands p k b) :
    q.standing k.jobId = p.standing := by
  have hsame : ∀ p' k' b', q.Stands p' k' b' → k'.jobId = k.jobId → p' = p :=
    fun p' k' b' hp' hk' => hone p' p k' k b' b hp' h hk'
  have havail : ∀ k' ∈ q.availKeys.filter (·.jobId = k.jobId), .avail k' = p := by
    intro k' hk'
    obtain ⟨hmem, hjob⟩ := List.mem_filter.mp hk'
    obtain ⟨b', hb'⟩ := exists_stands_avail hmem
    exact hsame _ k' b' hb' (by simpa using hjob)
  have hleased : ∀ l ∈ q.leases.filter (·.jobId = k.jobId), .leased l = p := by
    intro l hl
    obtain ⟨hmem, hjob⟩ := List.mem_filter.mp hl
    obtain ⟨b', hb'⟩ := exists_stands_leased hmem
    exact hsame _ _ b' hb' (of_decide_eq_true hjob)
  cases p with
  | tmp j => cases h.1
  | avail k₀ =>
    cases h.1
    have hmem : k ∈ q.availKeys.filter (·.jobId = k.jobId) :=
      List.mem_filter.mpr ⟨mem_availKeys.mpr (h.2 ▸ rfl), by simp⟩
    obtain ⟨k', rest, hlist⟩ := List.exists_cons_of_ne_nil (List.ne_nil_of_mem hmem)
    have hk' : k' = k := QueuePath.avail.inj (havail k' (hlist ▸ List.mem_cons_self))
    rw [QueueState.standing, hlist, hk']
    rfl
  | leased l =>
    cases h.1
    have hnone : q.availKeys.filter (·.jobId = l.jobId) = [] :=
      List.eq_nil_iff_forall_not_mem.mpr fun k' hk' => nomatch havail k' hk'
    have hmem : l ∈ q.leases.filter (·.jobId = l.jobId) :=
      List.mem_filter.mpr ⟨mem_leases.mpr (h.2 ▸ rfl), by simp⟩
    obtain ⟨l', hlast⟩ := Option.isSome_iff_exists.mp
      (List.getLast?_isSome.mpr (List.ne_nil_of_mem hmem))
    have hl' : l' = l := QueuePath.leased.inj (hleased l' (List.mem_of_mem_getLast? hlast))
    change (match (q.availKeys.filter (·.jobId = l.jobId)).head? with
      | some k => some (QueueStanding.avail k.expiresAt)
      | none => (leasedExpiry q.leases l.jobId).map .leased) = _
    rw [hnone, leasedExpiry, hlast, hl']
    rfl

theorem OneEntry.single (hone : q.OneEntry) : q.Single := by
  intro j d hd
  refine leasedExpiry_eq_none fun l hl hj => ?_
  obtain ⟨b, hb⟩ := exists_stands_leased hl
  have hstanding := hone.standing hb
  rw [show l.availKey.jobId = j from hj, hd] at hstanding
  cases hstanding

end QueueState

theorem jobMove_of_queued {p p' : QueuePath} {k : AvailKey} {t : Instant} (hp : p.queued = some k)
    (hp' : p'.queued = some k) : JobMove t p.standing p'.standing := by
  cases p with
  | tmp j => cases hp
  | avail k₀ =>
    cases hp
    cases p' with
    | tmp j => cases hp'
    | avail k' => exact Option.some.inj hp' ▸ .stay _
    | leased l => exact Option.some.inj hp' ▸ .claim _
  | leased l =>
    cases hp
    cases p' with
    | tmp j => cases hp'
    | avail k' => exact Option.some.inj hp' ▸ .recycle _
    | leased l' =>
      have hd : l'.expiresAt = l.expiresAt := congrArg AvailKey.expiresAt (Option.some.inj hp')
      simp only [QueuePath.standing, hd]
      exact .stay _

/-- A queue call of a device, or of a settling pass whose clock has been reached, moves a job as
`JobMove` says. -/
theorem QueueActor.MayCall.jobMove {a : QueueActor} {c : QueueCall} {q : QueueState} {t : Instant}
    (hone : q.OneEntry) (hclock : ∀ catalog now pass, a = .maintain catalog now pass → now ≤ t)
    (h : a.MayCall (.queue c)) (j : JobId) :
    JobMove t (q.standing j) ((c.step q).2.standing j) := by
  have hone' := h.keepsJobs.oneEntry hone
  by_cases hbefore : ∃ p k b, q.Stands p k b ∧ k.jobId = j
  · obtain ⟨p, k, b, hp, rfl⟩ := hbefore
    by_cases hafter : ∃ p' k' b', (c.step q).2.Stands p' k' b' ∧ k'.jobId = k.jobId
    · obtain ⟨p', k', b', hp', hjob⟩ := hafter
      obtain ⟨p₀, k₀, hp₀, hk₀, hmoved, hkey⟩ := h.keepsJobs.origin hp'
      obtain rfl : p₀ = p := hone p₀ p k₀ k b' b hp₀ hp (hk₀.trans hjob)
      obtain rfl : k₀ = k := Option.some.inj (hp₀.1.symm.trans hp.1)
      have hstanding' : (c.step q).2.standing k₀.jobId = p'.standing := hjob ▸ hone'.standing hp'
      rw [hone.standing hp, hstanding']
      by_cases hc : c = .rename p₀ p'
      · subst hc
        obtain rfl | ⟨rfl, rfl, catalog, now, pass, rfl, hexpired⟩ := h.rename hp₀.1 hp'.1
        · exact jobMove_of_queued hp₀.1 hp'.1
        · exact .redate _ (k₀.expiresAt.isExpired_mono (hclock _ _ _ rfl) hexpired)
      · -- any other call leaves the entry where it is
        have hstays : c.moved p₀ = p₀ := by
          cases c with
          | rename src dst =>
            refine if_neg fun hsrc => hc ?_
            rw [← hmoved, ← hsrc, QueueCall.moved, if_pos rfl]
          | _ => rfl
        rw [← hmoved, hstays]
        exact .stay _
    · rw [hone.standing hp, QueueState.standing_eq_none fun p' k' b' hp' hjob =>
        hafter ⟨p', k', b', hp', hjob⟩]
      cases p with
      | tmp j => cases hp.1
      | avail k | leased l => exact .leave _
  · have hnone : ∀ p k b, q.Stands p k b → k.jobId ≠ j :=
      fun p k b hp hjob => hbefore ⟨p, k, b, hp, hjob⟩
    rw [QueueState.standing_eq_none hnone, QueueState.standing_eq_none fun p' k' b' hp' hjob => ?_]
    · exact .stay none
    · obtain ⟨p, k, hp, hk, -⟩ := h.keepsJobs.origin hp'
      exact hnone p k b' hp (hk.trans hjob)

end Pipette
