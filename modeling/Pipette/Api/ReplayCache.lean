import Pipette.Core.Queue
import Pipette.Lib.Tree

/-! The cache of spent signatures. Entries are swept by age, on the clock of whichever request comes
by; a signature is still answered as fresh at most once. -/
namespace Pipette

def timestampToleranceSecs : Int := 300

def sweepIntervalSecs : Int := 60

def numSeconds (span : Int) : Int := span.tdiv nanosPerSec

def withinTolerance (ts now : Instant) : Bool :=
  (numSeconds (now - ts)).natAbs ≤ timestampToleranceSecs

inductive SignatureClaim
  | fresh
  | replayed
  /-- The last sweep aged the timestamp out, so the cache can no longer tell. -/
  | expired
  deriving DecidableEq, Repr

structure Spent (Sig : Type) where
  signatures : FileTree Sig Instant
  lastSweep : Option Instant

/-- What a request brings to the cache: `now` is the reading its own tolerance check used. -/
structure SignedRequest (Sig : Type) where
  signature : Sig
  timestamp : Instant
  now : Instant

section Cache

variable {Sig : Type} [DecidableEq Sig]

def Spent.new : Spent Sig := ⟨∅, none⟩

def Spent.sweep (spent : Spent Sig) (now : Instant) : Instant × Spent Sig :=
  let lastSweep := spent.lastSweep.getD now
  if numSeconds (now - lastSweep) ≥ sweepIntervalSecs then
    (now, ⟨spent.signatures.retain fun ts => withinTolerance ts now, some now⟩)
  else
    (lastSweep, ⟨spent.signatures, some lastSweep⟩)

def Spent.claim (spent : Spent Sig) (signature : Sig) (timestamp now : Instant) :
    SignatureClaim × Spent Sig :=
  let (swept, spent) := spent.sweep now
  -- A sweep on a later clock than this request's tolerance check may have dropped its entry.
  if numSeconds (swept - timestamp) > timestampToleranceSecs then (.expired, spent)
  else
    match spent.signatures.lookup signature with
    | some _ => (.replayed, spent)
    | none => (.fresh, { spent with signatures := spent.signatures.insert signature timestamp })

def Spent.claims : Spent Sig → List (SignedRequest Sig) → List (Sig × SignatureClaim)
  | _, [] => []
  | spent, r :: rest =>
    let (answer, spent) := spent.claim r.signature r.timestamp r.now
    (r.signature, answer) :: spent.claims rest

end Cache

section Spans

variable {n : Int}

theorem numSeconds_le (span : Int) (hn : 0 ≤ n) : numSeconds span ≤ n ↔ span < (n + 1) * nanosPerSec := by
  have hsign : Int.sign 1000000000 = 1 := rfl
  unfold numSeconds nanosPerSec
  rw [Int.tdiv_eq_ediv, hsign]
  split <;> omega

theorem neg_le_numSeconds (span : Int) (hn : 0 ≤ n) :
    -n ≤ numSeconds span ↔ -((n + 1) * nanosPerSec) < span := by
  have hsign : Int.sign 1000000000 = 1 := rfl
  unfold numSeconds nanosPerSec
  rw [Int.tdiv_eq_ediv, hsign]
  split <;> omega

def toleranceEnd : Int := 301 * nanosPerSec

theorem withinTolerance_iff {ts now : Int} :
    withinTolerance ts now = true ↔ now - ts < toleranceEnd ∧ ts - now < toleranceEnd := by
  have hle := numSeconds_le (now - ts) (n := 300) (by decide)
  have hge := neg_le_numSeconds (now - ts) (n := 300) (by decide)
  unfold withinTolerance timestampToleranceSecs
  rw [decide_eq_true_iff]
  unfold toleranceEnd nanosPerSec at *
  omega

end Spans

namespace Spent

variable {Sig : Type} {spent spent' : Spent Sig} {s s' : Sig} {ts ts' now swept : Int}

def AgedOut (spent : Spent Sig) (ts : Int) : Prop :=
  ∃ last : Int, spent.lastSweep = some last ∧ toleranceEnd ≤ last - ts

theorem sweep_cases (h : spent.sweep now = (swept, spent')) :
    spent'.lastSweep = some swept ∧
      ((spent'.signatures = spent.signatures ∧ spent.lastSweep.getD now = swept ∧
          now - swept < sweepIntervalSecs * nanosPerSec) ∨
        (spent'.signatures = spent.signatures.retain (withinTolerance · now) ∧ swept = now ∧
          sweepIntervalSecs * nanosPerSec ≤ now - spent.lastSweep.getD now)) := by
  have hdue : ∀ span, numSeconds span ≥ sweepIntervalSecs ↔
      sweepIntervalSecs * nanosPerSec ≤ span := by
    intro span
    have hle := numSeconds_le span (n := 59) (by decide)
    unfold sweepIntervalSecs
    omega
  unfold sweep at h
  simp only at h
  split at h
  · next hspan =>
    cases h
    exact ⟨rfl, .inr ⟨rfl, rfl, (hdue _).mp hspan⟩⟩
  · next hspan =>
    cases h
    refine ⟨rfl, .inl ⟨rfl, rfl, ?_⟩⟩
    rw [hdue] at hspan
    omega

theorem le_swept (h : spent.sweep now = (swept, spent')) {last : Int}
    (hlast : spent.lastSweep = some last) : last ≤ swept := by
  obtain ⟨-, ⟨-, hgetD, -⟩ | ⟨-, rfl, hspan⟩⟩ := sweep_cases h
  · rw [hlast] at hgetD
    exact hgetD.le
  · rw [hlast] at hspan
    unfold sweepIntervalSecs nanosPerSec at hspan
    simp only [Option.getD_some] at hspan
    omega

theorem AgedOut.sweep (hold : spent.AgedOut ts) (h : spent.sweep now = (swept, spent')) :
    spent'.AgedOut ts := by
  obtain ⟨last, hlast, hts⟩ := hold
  have hle := le_swept h hlast
  exact ⟨swept, (sweep_cases h).1, by omega⟩

variable [DecidableEq Sig]

/-- The entry of a spent signature stands, or no request with its timestamp is let through. -/
def Bars (spent : Spent Sig) (s : Sig) (ts : Int) : Prop :=
  spent.signatures.lookup s = some ts ∨ spent.AgedOut ts

def Bounded (spent : Spent Sig) : Prop :=
  ∀ (s : Sig) (ts : Int), spent.signatures.lookup s = some ts →
    ∃ last : Int, spent.lastSweep = some last ∧ ts - last < toleranceEnd + sweepIntervalSecs * nanosPerSec

theorem Bars.sweep (hb : spent.Bounded) (hold : spent.Bars s ts)
    (h : spent.sweep now = (swept, spent')) : spent'.Bars s ts := by
  obtain hentry | hold := hold
  · obtain ⟨hlast', ⟨hsame, -, -⟩ | ⟨hretain, rfl, hspan⟩⟩ := sweep_cases h
    · exact .inl (hsame ▸ hentry)
    · cases htol : withinTolerance ts swept with
      | true =>
        refine .inl ?_
        rw [hretain, FileTree.lookup_retain, hentry]
        simp [htol]
      | false =>
        obtain ⟨last, hlast, hahead⟩ := hb s ts hentry
        rw [hlast] at hspan
        simp only [Option.getD_some] at hspan
        have hout : ¬ withinTolerance ts swept = true := by simp [htol]
        rw [withinTolerance_iff] at hout
        exact .inr ⟨swept, hlast', by omega⟩
  · exact .inr (hold.sweep h)

theorem Bounded.sweep (hb : spent.Bounded) (h : spent.sweep now = (swept, spent')) :
    spent'.Bounded := by
  intro s ts hentry
  have hold : spent.signatures.lookup s = some ts := by
    obtain ⟨-, ⟨hsame, -, -⟩ | ⟨hretain, -, -⟩⟩ := sweep_cases h
    · exact hsame ▸ hentry
    · rw [hretain, FileTree.lookup_retain] at hentry
      exact (Option.filter_eq_some_iff.mp hentry).1
  obtain ⟨last, hlast, hahead⟩ := hb s ts hold
  have hle := le_swept h hlast
  exact ⟨swept, (sweep_cases h).1, by omega⟩

theorem claim_cases {answer : SignatureClaim} (h : spent.claim s ts now = (answer, spent')) :
    ∃ (swept : Int) (mid : Spent Sig), spent.sweep now = (swept, mid) ∧
      ((answer ≠ .fresh ∧ spent' = mid) ∨
        (answer = .fresh ∧ swept - ts < toleranceEnd ∧ mid.signatures.lookup s = none ∧
          spent' = { mid with signatures := mid.signatures.insert s ts })) := by
  rcases hsweep : spent.sweep now with ⟨swept, mid⟩
  refine ⟨swept, mid, rfl, ?_⟩
  unfold claim at h
  simp only [hsweep] at h
  split at h
  · cases h
    exact .inl ⟨by decide, rfl⟩
  · next hage =>
    split at h
    · cases h
      exact .inl ⟨by decide, rfl⟩
    · next hnone =>
      cases h
      refine .inr ⟨rfl, ?_, hnone, rfl⟩
      have hle := numSeconds_le (swept - ts) (n := 300) (by decide)
      unfold timestampToleranceSecs at hage
      unfold toleranceEnd nanosPerSec at *
      omega

theorem Bars.not_fresh (hb : spent.Bounded) (hold : spent.Bars s ts) :
    (spent.claim s ts now).1 ≠ .fresh := by
  intro hfresh
  rcases hclaim : spent.claim s ts now with ⟨answer, spent'⟩
  obtain ⟨swept, mid, hsweep, ⟨hne, -⟩ | ⟨-, hage, hnone, -⟩⟩ := claim_cases hclaim
  · rw [hclaim] at hfresh
    exact hne hfresh
  · obtain hentry | ⟨last, hlast, hold⟩ := hold.sweep hb hsweep
    · rw [hnone] at hentry
      cases hentry
    · rw [(sweep_cases hsweep).1] at hlast
      cases hlast
      omega

theorem Bars.claim (hb : spent.Bounded) (hold : spent.Bars s ts)
    (hsame : s' = s → ts' = ts) : (spent.claim s' ts' now).2.Bars s ts := by
  rcases hclaim : spent.claim s' ts' now with ⟨answer, spent'⟩
  obtain ⟨swept, mid, hsweep, ⟨-, rfl⟩ | ⟨-, -, -, rfl⟩⟩ := claim_cases hclaim
  · exact hold.sweep hb hsweep
  · obtain hentry | hage := hold.sweep hb hsweep
    · refine .inl ?_
      simp only [FileTree.lookup_write]
      split
      · next heq => rw [hsame heq.symm]
      · exact hentry
    · exact .inr hage

theorem Bars.of_fresh (h : (spent.claim s ts now).1 = .fresh) :
    (spent.claim s ts now).2.Bars s ts := by
  rcases hclaim : spent.claim s ts now with ⟨answer, spent'⟩
  obtain ⟨swept, mid, hsweep, ⟨hne, -⟩ | ⟨-, -, -, rfl⟩⟩ := claim_cases hclaim
  · rw [hclaim] at h
    exact absurd h hne
  · exact .inl (AList.lookup_insert _)

/-- A request enters its timestamp only on a clock the sweep has not left an interval behind. -/
theorem Bounded.claim (hb : spent.Bounded) (htol : withinTolerance ts now = true) :
    (spent.claim s ts now).2.Bounded := by
  rcases hclaim : spent.claim s ts now with ⟨answer, spent'⟩
  obtain ⟨swept, mid, hsweep, ⟨-, rfl⟩ | ⟨-, -, -, rfl⟩⟩ := claim_cases hclaim
  · exact hb.sweep hsweep
  · intro s₁ ts₁ hentry
    simp only [FileTree.lookup_write] at hentry
    split at hentry
    · cases hentry
      obtain ⟨hlast, hcases⟩ := sweep_cases hsweep
      have hnow : now - swept < sweepIntervalSecs * nanosPerSec := by
        obtain ⟨-, -, hnow⟩ | ⟨-, rfl, -⟩ := hcases
        · exact hnow
        · unfold sweepIntervalSecs nanosPerSec
          omega
      have hahead := (withinTolerance_iff.mp htol).2
      exact ⟨swept, hlast, by omega⟩
    · exact hb.sweep hsweep s₁ ts₁ hentry

theorem bounded_new : (new : Spent Sig).Bounded := by
  intro s ts hentry
  cases hentry

theorem Bars.count_claims {requests : List (SignedRequest Sig)} (hb : spent.Bounded)
    (hold : spent.Bars s ts)
    (htol : ∀ r ∈ requests, withinTolerance r.timestamp r.now = true)
    (hsame : ∀ r ∈ requests, r.signature = s → r.timestamp = ts) :
    (spent.claims requests).count (s, .fresh) = 0 := by
  induction requests generalizing spent with
  | nil => rfl
  | cons r rest ih =>
    have hrest := ih (hb.claim (htol r List.mem_cons_self))
      (hold.claim hb (hsame r List.mem_cons_self))
      (fun r' hr => htol r' (List.mem_cons_of_mem r hr))
      (fun r' hr => hsame r' (List.mem_cons_of_mem r hr))
    have hhead : ((r.signature, (spent.claim r.signature r.timestamp r.now).1) ==
        (s, SignatureClaim.fresh)) = false := by
      rw [beq_eq_false_iff_ne]
      intro heq
      obtain ⟨rfl, hfresh⟩ := Prod.mk.inj heq
      have hts := hsame r List.mem_cons_self rfl
      exact hold.not_fresh hb (hts ▸ hfresh)
    unfold claims
    rw [List.count_cons, hrest, hhead]
    rfl

theorem Bounded.count_claims_le {requests : List (SignedRequest Sig)} (hb : spent.Bounded)
    (htol : ∀ r ∈ requests, withinTolerance r.timestamp r.now = true)
    (hsame : ∀ r ∈ requests, ∀ r' ∈ requests, r.signature = r'.signature →
      r.timestamp = r'.timestamp) :
    (spent.claims requests).count (s, .fresh) ≤ 1 := by
  induction requests generalizing spent with
  | nil => exact Nat.zero_le 1
  | cons r rest ih =>
    have htolRest := fun r' hr => htol r' (List.mem_cons_of_mem r hr)
    have hbounded := hb.claim (s := r.signature) (htol r List.mem_cons_self)
    unfold claims
    rw [List.count_cons]
    split
    · next heq =>
      obtain ⟨rfl, hfresh⟩ := Prod.mk.inj (eq_of_beq heq)
      have hzero := (Bars.of_fresh hfresh).count_claims hbounded htolRest fun r' hr heq =>
        hsame r' (List.mem_cons_of_mem r hr) r List.mem_cons_self heq
      rw [hzero]
    · refine ih hbounded htolRest fun r' hr r'' hr' => ?_
      exact hsame r' (List.mem_cons_of_mem r hr) r'' (List.mem_cons_of_mem r hr')

end Spent

/-- A signature is accepted at most once, on whatever clock readings the claims come. -/
theorem signature_fresh_once {Sig : Type} [DecidableEq Sig] (requests : List (SignedRequest Sig))
    (htol : ∀ r ∈ requests, withinTolerance r.timestamp r.now = true)
    (hsame : ∀ r ∈ requests, ∀ r' ∈ requests, r.signature = r'.signature →
      r.timestamp = r'.timestamp) (s : Sig) :
    ((Spent.new : Spent Sig).claims requests).count (s, .fresh) ≤ 1 :=
  Spent.bounded_new.count_claims_le htol hsame

/-- The second copy comes by after a sweep on a later clock has dropped the entry, and with a
reading that goes back: it is told to have expired. -/
def backwardClock : List (SignedRequest Nat) :=
  [⟨1, 0, 0⟩, ⟨2, 400 * nanosPerSec, 400 * nanosPerSec⟩, ⟨1, 0, 200 * nanosPerSec⟩]

theorem signature_fresh_once_backwardClock :
    (Spent.new.claims backwardClock = [(1, .fresh), (2, .fresh), (1, .expired)]) ∧
      (Spent.new.claims backwardClock).count (1, .fresh) ≤ 1 :=
  ⟨by decide, signature_fresh_once backwardClock (by decide) (by decide) 1⟩

end Pipette
