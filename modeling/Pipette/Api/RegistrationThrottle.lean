import Mathlib.Data.BitVec
import Pipette.Core.Queue
import Pipette.Lib.Tree

/-! The ceiling on registrations without a pre-auth key: a fixed window over one process, with a
share for each client address. -/
namespace Pipette.RegistrationThrottle

inductive IpAddr
  | v4 (bits : BitVec 32)
  | v6 (bits : BitVec 128)
deriving DecidableEq

def IpAddr.toCanonical : IpAddr → IpAddr
  | v4 a => v4 a
  | v6 a => if a >>> 32 = 0xffff#128 then v4 (a.setWidth 32) else v6 a

/-- An IPv6 host picks its own address within a `/64`, so the `/64` is one client. -/
def clientKey (ip : IpAddr) : IpAddr :=
  match ip.toCanonical with
  | .v6 a => .v6 (a &&& (BitVec.allOnes 128 <<< 64))
  | .v4 a => .v4 a

def keylessPerWindow : Nat := 20

def keylessPerClient : Nat := 1

def span : Nat := 60 * nanosPerSec.toNat

structure Window where
  start : Nat
  admitted : Nat
  byClient : FileTree IpAddr Nat

def Window.fresh (now : Nat) : Window := ⟨now, 0, ∅⟩

/-- A clock behind the start counts as no time passed, as the subtraction does. -/
def Window.roll (w : Window) (now : Nat) : Window :=
  if span ≤ now - w.start then .fresh now else w

def Window.fromClient (w : Window) (key : IpAddr) : Nat := (w.byClient.lookup key).getD 0

def admitAt (client : Option IpAddr) (now : Nat) (w : Window) : Except Nat Unit × Window :=
  let w := w.roll now
  let key := client.map clientKey
  if keylessPerWindow ≤ w.admitted ∨ keylessPerClient ≤ key.elim 0 w.fromClient then
    (.error ((span - (now - w.start)) / nanosPerSec.toNat + 1), w)
  else
    (.ok (), { w with
      admitted := w.admitted + 1
      byClient := key.elim w.byClient fun key => w.byClient.insert key (w.fromClient key + 1) })

structure Attempt where
  client : Option IpAddr
  now : Nat

def admittedOf : Window → List Attempt → List Attempt
  | _, [] => []
  | w, a :: rest =>
    match admitAt a.client a.now w with
    | (.ok (), w') => a :: admittedOf w' rest
    | (.error _, w') => admittedOf w' rest

section Tally

/-- A count that the window limits and an admission raises, by one for the attempts it is about. -/
structure Tallies (about : Attempt → Bool) (limit : Nat) (tally : Window → Nat) : Prop where
  fresh : ∀ now, tally (.fresh now) = 0
  step : ∀ a w w', admitAt a.client a.now w = (.ok (), w') → w'.start = (w.roll a.now).start ∧
    tally w' = tally (w.roll a.now) + (about a).toNat ∧
      (tally (w.roll a.now) ≤ limit → tally w' ≤ limit)

def tallied (about : Attempt → Bool) (t : Nat) (w : Window) (attempts : List Attempt) : Nat :=
  (admittedOf w attempts).countP fun a => about a && a.now < t

variable {about : Attempt → Bool} {limit t : Nat} {tally : Window → Nat} {w : Window} {a : Attempt}
  {attempts rest : List Attempt}

theorem admitAt_error {w' : Window} {wait : Nat}
    (h : admitAt a.client a.now w = (.error wait, w')) : w' = w.roll a.now := by
  simp only [admitAt] at h
  split at h
  · exact (congrArg Prod.snd h).symm
  · cases h

theorem Tallies.roll_le (h : Tallies about limit tally) (hw : tally w ≤ limit) (now : Nat) :
    tally (w.roll now) ≤ limit := by
  unfold Window.roll
  split
  · exact h.fresh now ▸ Nat.zero_le _
  · exact hw

theorem mem_of_mem_admittedOf (h : a ∈ admittedOf w attempts) : a ∈ attempts := by
  induction attempts generalizing w with
  | nil => simp [admittedOf] at h
  | cons b rest ih =>
    rw [admittedOf] at h
    split at h
    · obtain rfl | h := List.mem_cons.mp h
      · simp
      · simp [ih h]
    · simp [ih h]

theorem tallied_eq_zero (h : ∀ a ∈ attempts, t ≤ a.now) : tallied about t w attempts = 0 := by
  rw [tallied, List.countP_eq_zero]
  intro a ha
  have hlate := h a (mem_of_mem_admittedOf ha)
  simp [hlate]

theorem admittedOf_roll : admittedOf w (a :: rest) = admittedOf (w.roll a.now) (a :: rest) := by
  have hroll : (w.roll a.now).roll a.now = w.roll a.now := by
    unfold Window.roll
    split_ifs <;> simp_all [Window.fresh, span, nanosPerSec]
  simp only [admittedOf, admitAt, hroll]

theorem tallied_cons (htallies : Tallies about limit tally) (hw : tally w ≤ limit)
    (hroll : w.roll a.now = w) (rest : List Attempt) : ∃ w', w'.start = w.start ∧ tally w' ≤ limit ∧
      tally w + tallied about t w (a :: rest) ≤ tally w' + tallied about t w' rest := by
  rw [tallied, admittedOf]
  split
  · next w' hadmit =>
    obtain ⟨hstart, htally, hle⟩ := htallies.step a w w' hadmit
    rw [hroll] at hstart htally
    refine ⟨w', hstart, hle (by rw [hroll]; exact hw), ?_⟩
    rw [List.countP_cons, htally, tallied]
    cases about a <;> simp
    split <;> omega
  · next w' hrefused => exact ⟨w, rfl, hw, by rw [admitAt_error hrefused, hroll, tallied]⟩

theorem roll_eq_self (h : a.now < w.start + span) : w.roll a.now = w := by
  have hspan : 0 < span := by decide
  exact if_neg (by omega)

theorem tallied_le_of_window (htallies : Tallies about limit tally) (hw : tally w ≤ limit)
    (hsorted : attempts.Pairwise (·.now ≤ ·.now)) (ht : t ≤ w.start + span) :
    tally w + tallied about t w attempts ≤ limit := by
  induction attempts generalizing w with
  | nil => simpa [tallied, admittedOf] using hw
  | cons a rest ih =>
    obtain ⟨hfirst, hsorted⟩ := List.pairwise_cons.mp hsorted
    by_cases hlate : t ≤ a.now
    · rw [tallied_eq_zero (List.forall_mem_cons.mpr ⟨hlate, fun b hb => hlate.trans (hfirst b hb)⟩)]
      exact hw
    · obtain ⟨w', hstart, hw', hstep⟩ :=
        tallied_cons (t := t) htallies hw (roll_eq_self (a := a) (by omega)) rest
      exact hstep.trans (ih hw' hsorted (hstart ▸ ht))

theorem tallied_le_of_roll (htallies : Tallies about limit tally)
    (hsorted : (a :: rest).Pairwise (·.now ≤ ·.now)) (hroll : w.start + span ≤ a.now)
    (ht : t ≤ a.now + span) : tallied about t w (a :: rest) ≤ limit := by
  have hfresh : w.roll a.now = .fresh a.now := if_pos (by omega)
  have hbound := tallied_le_of_window (w := .fresh a.now) htallies
    (by rw [htallies.fresh]; exact Nat.zero_le _) hsorted ht
  rw [htallies.fresh, Nat.zero_add] at hbound
  rwa [tallied, admittedOf_roll, hfresh]

theorem tallied_le_of_two (htallies : Tallies about limit tally) (hw : tally w ≤ limit)
    (hsorted : attempts.Pairwise (·.now ≤ ·.now)) (ht : t ≤ w.start + 2 * span) :
    tally w + tallied about t w attempts ≤ 2 * limit := by
  induction attempts generalizing w with
  | nil => simp only [tallied, admittedOf, List.countP_nil]; omega
  | cons a rest ih =>
    by_cases hnext : w.start + span ≤ a.now
    · have hrest := tallied_le_of_roll (t := t) htallies hsorted hnext (by omega)
      omega
    · obtain ⟨w', hstart, hw', hstep⟩ :=
        tallied_cons (t := t) htallies hw (roll_eq_self (a := a) (by omega)) rest
      exact hstep.trans (ih hw' (List.pairwise_cons.mp hsorted).2 (hstart ▸ ht))

theorem countP_span_le (htallies : Tallies about limit tally) (hw : tally w ≤ limit)
    (hsorted : attempts.Pairwise (·.now ≤ ·.now)) :
    ((admittedOf w attempts).countP fun a => about a && (t ≤ a.now && a.now < t + span)) ≤
      2 * limit := by
  induction attempts generalizing w with
  | nil => simp [admittedOf]
  | cons a rest ih =>
    obtain ⟨hfirst, hrest⟩ := List.pairwise_cons.mp hsorted
    by_cases hin : t ≤ a.now
    · -- from here on the lower bound of the span is met
      have hall : ∀ b ∈ a :: rest, t ≤ b.now :=
        List.forall_mem_cons.mpr ⟨hin, fun b hb => hin.trans (hfirst b hb)⟩
      have hsame : ((admittedOf w (a :: rest)).countP fun a =>
          about a && (t ≤ a.now && a.now < t + span)) = tallied about (t + span) w (a :: rest) :=
        List.countP_congr fun b hb => by simp [hall b (mem_of_mem_admittedOf hb)]
      rw [hsame]
      by_cases hroll : w.start + span ≤ a.now
      · have hone := tallied_le_of_roll (t := t + span) htallies hsorted hroll (by omega)
        omega
      · have htwo := tallied_le_of_two (t := t + span) htallies hw hsorted (by omega)
        omega
    · rw [admittedOf]
      split
      · next w' hadmit =>
        rw [List.countP_cons_of_neg (by simp [hin])]
        exact ih ((htallies.step a w w' hadmit).2.2 (htallies.roll_le hw _)) hrest
      · next w' hrefused => exact ih (admitAt_error hrefused ▸ htallies.roll_le hw _) hrest

end Tally

theorem tallies_admitted : Tallies (fun _ => true) keylessPerWindow Window.admitted where
  fresh _ := rfl
  step a w w' h := by
    simp only [admitAt] at h
    split at h
    · cases h
    · next hopen =>
      cases h
      exact ⟨rfl, rfl, fun _ => by simp only; omega⟩

theorem tallies_client (key : IpAddr) :
    Tallies (fun a => a.client.map clientKey = some key) keylessPerClient (·.fromClient key) where
  fresh _ := rfl
  step a w w' h := by
    simp only [admitAt] at h
    split at h
    · cases h
    · next hopen =>
      cases h
      refine ⟨rfl, ?_⟩
      cases hkey : a.client.map clientKey with
      | none => exact ⟨rfl, id⟩
      | some key' =>
        simp only [hkey, Option.elim_some] at hopen ⊢
        simp only [Window.fromClient, FileTree.lookup_write] at hopen ⊢
        obtain rfl | hne := eq_or_ne key key'
        · simp only [if_true, Option.getD_some, decide_true, Bool.toNat_true, true_and]
          omega
        · have hother : ¬ some key' = some key := fun h => hne (Option.some.inj h).symm
          simp [hne, hother]

/-- However the attempts come, a span of a window's length admits at most two windows' worth of them
and two of one client; and after a refusal the next attempt is admitted once the wait it named is
over. -/
theorem keyless_registrations_bounded {start : Nat} {attempts : List Attempt}
    (hsorted : attempts.Pairwise (·.now ≤ ·.now)) (t : Nat) :
    ((admittedOf (.fresh start) attempts).countP fun a => t ≤ a.now && a.now < t + span) ≤
        2 * keylessPerWindow ∧
      (∀ key, ((admittedOf (.fresh start) attempts).countP fun a => a.client.map clientKey = some key
        && (t ≤ a.now && a.now < t + span)) ≤ 2 * keylessPerClient) ∧
      ∀ w client now wait w', w.start ≤ now → admitAt client now w = (.error wait, w') →
        ∀ client' now', now + wait * nanosPerSec.toNat ≤ now' →
          ∃ w'', admitAt client' now' w' = (.ok (), w'') := by
  refine ⟨?_, fun key => countP_span_le (tallies_client key) (Nat.zero_le _) hsorted, ?_⟩
  · simpa using countP_span_le (t := t) tallies_admitted (Nat.zero_le _) hsorted
  · intro w client now wait w' hclock hrefused client' now' hlater
    have hwindow : w' = w.roll now := admitAt_error (a := ⟨client, now⟩) hrefused
    have hwait : wait = (span - (now - w'.start)) / nanosPerSec.toNat + 1 := by
      rw [hwindow]
      simp only [admitAt] at hrefused
      split at hrefused <;> cases hrefused
      rfl
    have hstart : w'.start ≤ now := by
      rw [hwindow, Window.roll]
      split
      · exact le_refl now
      · exact hclock
    have hover : span ≤ now' - w'.start := by
      have hspan := Nat.lt_div_mul_add (a := span - (now - w'.start)) (b := nanosPerSec.toNat) (by decide)
      rw [hwait, Nat.add_mul] at hlater
      omega
    have hfresh : w'.roll now' = .fresh now' := if_pos hover
    simp only [admitAt, hfresh]
    rw [if_neg (by cases client' <;> simp [Window.fresh, Window.fromClient, keylessPerWindow,
      keylessPerClient])]
    exact ⟨_, rfl⟩

/-- Forty attempts without an address around the end of a window. -/
theorem keyless_registrations_bounded_twice :
    let attempts := List.replicate 20 (Attempt.mk none (span - 1)) ++ List.replicate 20 ⟨none, span⟩
    let admitted := (admittedOf (.fresh 0) attempts).countP fun a => 1 ≤ a.now && a.now < 1 + span
    admitted = 40 ∧ admitted ≤ 40 :=
  ⟨by decide +kernel, (keyless_registrations_bounded (by decide +kernel) 1).1⟩

end Pipette.RegistrationThrottle
