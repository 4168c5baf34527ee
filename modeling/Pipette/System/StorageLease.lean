import Mathlib.Data.Fintype.Basic
import Pipette.Store.StorageLock

/-! Commands that take and give back one storage lease, on a common clock. -/
namespace Pipette

open Prog

inductive LockParty
  | session (s : LockSession)
  | passage (nanos : Nat)

def LockParty.prog : LockParty → LockOp Unit
  | session s => s.run
  | passage nanos => LockOp.store (.pass nanos)

def LockParty.token : LockParty → Option String
  | session s => some s.token
  | passage _ => none

abbrev LockPool (ι : Type) : Type := Pool LockStore LockWorld ι fun _ => Unit

def lockPool {ι : Type} (party : ι → LockParty) (clock : Instant) : LockPool ι :=
  ⟨⟨clock, none, 0⟩, fun i => (party i).prog⟩

def LockCall.isUpdate : LockCall → Bool
  | update _ _ => true
  | now | create _ | get | delete | work _ | pass _ => false

/-- No acquire swaps the lock object while a release stands between its look at the token and its
delete. -/
def SparesReleases {ι : Type} (t : LockPool ι) (_ : ι) (c : LockCall) : Prop :=
  c.isUpdate = true → ∀ j, t.next j ≠ some .delete

instance {ι : Type} [Fintype ι] (t : LockPool ι) (i : ι) (c : LockCall) :
    Decidable (SparesReleases t i c) :=
  inferInstanceAs (Decidable (c.isUpdate = true → ∀ j, t.next j ≠ some .delete))

section Session

variable {s : LockSession} {w w' : LockWorld} {p : LockOp Unit}
  {token : Option String}

def LockWorld.Fresh (w : LockWorld) : Prop :=
  ∀ body version, w.object = some (body, version) → version < w.nextVersion

/-- Where a command stands, with what it knows of the lock object. -/
inductive SessionAt (s : LockSession) (w : LockWorld) : LockOp Unit → Prop
  | rounds (n : Nat) : SessionAt s w ((acquireRounds s n).bind underLease)
  | creating (n : Nat) (body : LockBody) (htoken : body.token = s.token) :
    SessionAt s w (((LockOp.store (.create body)).bind fun created =>
      if created then .ret body else contend (acquireRounds s n) body).bind underLease)
  | contending (n : Nat) (body : LockBody) (htoken : body.token = s.token) :
    SessionAt s w ((contend (acquireRounds s n) body).bind underLease)
  | judging (n : Nat) (body : LockBody) (htoken : body.token = s.token) (existing : LockBody)
    (version : Nat) (hold : version < w.nextVersion)
    (hknown : ∀ b, w.object = some (b, version) → b = existing) :
    SessionAt s w ((takeOver (acquireRounds s n) body existing version).bind underLease)
  | swapping (n : Nat) (body : LockBody) (htoken : body.token = s.token) (existing : LockBody)
    (version : Nat) (hold : version < w.nextVersion)
    (hknown : ∀ b, w.object = some (b, version) → b = existing)
    (hexpired : existing.expiresAt ≤ w.clock) :
    SessionAt s w (((LockOp.store (.update body version)).bind fun swapped =>
      if swapped then .ret body else acquireRounds s n).bind underLease)
  | holding (lease : LockBody) (htoken : lease.token = s.token)
    (hheld : w.clock < lease.expiresAt → ∃ version, w.object = some (lease, version)) :
    SessionAt s w (underLease lease)
  | releasing : SessionAt s w (releaseS3 s.token)
  | deleting (body : LockBody) (version : Nat) (htoken : body.token = s.token)
    (hobject : w.object = some (body, version)) :
    SessionAt s w (LockOp.store .delete).attempt.void
  | returned (u : Unit) : SessionAt s w (.ret u)
  | failed (e : LockFault) : SessionAt s w (.fail e)

inductive LockMove (token : Option String) (w : LockWorld) : LockCall → LockWorld → Prop
  | keep (c : LockCall) : LockMove token w c w
  | pass (nanos : Nat) : LockMove token w (.pass nanos) { w with clock := w.clock + nanos }
  | create (body : LockBody) (htoken : some body.token = token) (hnone : w.object = none) :
    LockMove token w (.create body) (w.put body)
  | takeOver (body stale : LockBody) (version : Nat) (htoken : some body.token = token)
    (hobject : w.object = some (stale, version)) (hexpired : stale.expiresAt ≤ w.clock) :
    LockMove token w (.update body version) (w.put body)
  | delete (body : LockBody) (version : Nat) (htoken : some body.token = token)
    (hobject : w.object = some (body, version)) :
    LockMove token w .delete { w with object := none }

namespace LockMove

variable {c : LockCall} {body : LockBody} {version : Nat}

theorem fresh (h : LockMove token w c w') (hw : w.Fresh) : w'.Fresh := by
  cases h with
  | keep => exact hw
  | pass => exact hw
  | create body | takeOver body =>
    intro b v hobject
    cases hobject
    exact Nat.lt_succ_self _
  | delete => exact fun _ _ hobject => nomatch hobject

theorem clock_le (h : LockMove token w c w') : w.clock ≤ w'.clock := by
  cases h with
  | pass nanos => exact Int.le_add_of_nonneg_right (Int.natCast_nonneg nanos)
  | keep | create | takeOver | delete => exact le_refl w.clock

theorem nextVersion_le (h : LockMove token w c w') : w.nextVersion ≤ w'.nextVersion := by
  cases h with
  | create | takeOver => exact Nat.le_succ w.nextVersion
  | keep | pass | delete => exact le_refl w.nextVersion

/-- A version in use is not given out again. -/
theorem object_back (h : LockMove token w c w') (hold : version < w.nextVersion)
    (hobject : w'.object = some (body, version)) : w.object = some (body, version) := by
  cases h with
  | create | takeOver =>
    cases hobject
    exact absurd hold (Nat.lt_irrefl _)
  | delete => cases hobject
  | keep | pass => exact hobject

theorem object_kept (h : LockMove token w c w') (htoken : token ≠ some body.token)
    (hobject : w.object = some (body, version)) :
    w'.object = some (body, version) ∨ (c.isUpdate = true ∧ body.expiresAt ≤ w.clock) := by
  cases h with
  | keep | pass => exact .inl hobject
  | create _ _ hnone =>
    rw [hnone] at hobject
    cases hobject
  | takeOver _ stale _ _ hstale hexpired =>
    rw [hstale] at hobject
    cases hobject
    exact .inr ⟨rfl, hexpired⟩
  | delete _ _ hother hstored =>
    rw [hstored] at hobject
    cases hobject
    exact absurd hother.symm htoken

end LockMove

theorem SessionAt.bear {c : LockCall} (h : SessionAt s w p) (hmove : LockMove token w c w')
    (htoken : token ≠ some s.token)
    (hspares : c.isUpdate = true → ∀ k, p ≠ .call .delete k) : SessionAt s w' p := by
  cases h with
  | rounds n => exact .rounds n
  | creating n body hbody => exact .creating n body hbody
  | contending n body hbody => exact .contending n body hbody
  | judging n body hbody existing version hold hknown =>
    exact .judging n body hbody existing version (hold.trans_le hmove.nextVersion_le)
      fun b hobject => hknown b (hmove.object_back hold hobject)
  | swapping n body hbody existing version hold hknown hexpired =>
    exact .swapping n body hbody existing version (hold.trans_le hmove.nextVersion_le)
      (fun b hobject => hknown b (hmove.object_back hold hobject)) (hexpired.trans hmove.clock_le)
  | holding lease hlease hheld =>
    refine .holding lease hlease fun hlive => ?_
    have hlive' := hmove.clock_le.trans_lt hlive
    obtain ⟨version, hobject⟩ := hheld hlive'
    obtain hsame | ⟨-, hexpired⟩ := hmove.object_kept (hlease ▸ htoken) hobject
    · exact ⟨version, hsame⟩
    · exact absurd hlive' (not_lt.mpr hexpired)
  | releasing => exact .releasing
  | deleting body version hbody hobject =>
    obtain hsame | ⟨hupdate, -⟩ := hmove.object_kept (hbody ▸ htoken) hobject
    · exact .deleting body version hbody hsame
    · exact absurd rfl (hspares hupdate _)
  | returned u => exact .returned u
  | failed e => exact .failed e

section Phases

variable (n : Nat) {body : LockBody} {version : Nat}

theorem SessionAt.created (hbody : body.token = s.token) :
    LockMove (some s.token) w (.create body) (lockMachine (.create body) w).2 ∧
      SessionAt s (lockMachine (.create body) w).2
        ((if (lockMachine (.create body) w).1 then (.ret body : LockOp LockBody)
          else contend (acquireRounds s n) body).bind underLease) := by
  cases hobject : w.object with
  | none =>
    have hcreate : lockMachine (.create body) w = (true, w.put body) := by
      simp only [lockMachine, hobject]
    rw [hcreate]
    exact ⟨.create body (congrArg some hbody) hobject,
      .holding body hbody fun _ => ⟨w.nextVersion, rfl⟩⟩
  | some stored =>
    have hcreate : lockMachine (.create body) w = (false, w) := by
      simp only [lockMachine, hobject]
    rw [hcreate]
    exact ⟨.keep _, .contending n body hbody⟩

theorem SessionAt.contended (hbody : body.token = s.token) (hfresh : w.Fresh) :
    SessionAt s w ((match w.object with
      | none => acquireRounds s n
      | some (existing, version) => takeOver (acquireRounds s n) body existing version).bind
        underLease) := by
  cases hobject : w.object with
  | none => exact .rounds n
  | some stored =>
    obtain ⟨existing, version⟩ := stored
    refine .judging n body hbody existing version (hfresh _ _ hobject) fun b hb => ?_
    rw [hobject] at hb
    cases hb
    rfl

theorem SessionAt.judged {existing : LockBody} (hbody : body.token = s.token)
    (hold : version < w.nextVersion) (hknown : ∀ b, w.object = some (b, version) → b = existing) :
    SessionAt s w ((if existing.expiresAt > w.clock then LockOp.fail (.held existing)
      else (LockOp.store (.update body version)).bind fun swapped =>
        if swapped then .ret body else acquireRounds s n).bind underLease) := by
  split
  · exact .failed _
  · next hexpired =>
    exact .swapping n body hbody existing version hold hknown (not_lt.mp hexpired)

theorem SessionAt.swapped {existing : LockBody} (hbody : body.token = s.token)
    (hknown : ∀ b, w.object = some (b, version) → b = existing)
    (hexpired : existing.expiresAt ≤ w.clock) :
    LockMove (some s.token) w (.update body version) (lockMachine (.update body version) w).2 ∧
      SessionAt s (lockMachine (.update body version) w).2
        ((if (lockMachine (.update body version) w).1 then (.ret body : LockOp LockBody)
          else acquireRounds s n).bind underLease) := by
  by_cases hstands : ∃ b, w.object = some (b, version)
  · obtain ⟨b, hobject⟩ := hstands
    obtain rfl := hknown b hobject
    have hswap : lockMachine (.update body version) w = (true, w.put body) := by
      simp only [lockMachine, hobject, if_true]
    rw [hswap]
    exact ⟨.takeOver body b version (congrArg some hbody) hobject hexpired,
      .holding body hbody fun _ => ⟨w.nextVersion, rfl⟩⟩
  · have hswap : lockMachine (.update body version) w = (false, w) := by
      cases hobject : w.object with
      | none => simp only [lockMachine, hobject]
      | some stored =>
        obtain ⟨b, v⟩ := stored
        have hv : v ≠ version := fun hv => hstands ⟨b, hv ▸ hobject⟩
        simp only [lockMachine, hobject, if_neg hv]
    rw [hswap]
    exact ⟨.keep _, .rounds n⟩

theorem SessionAt.looked : SessionAt s w
    (match (.ok w.object : Except LockFault (Option (LockBody × Nat))) with
    | .error _ | .ok none => .ret ()
    | .ok (some (current, _)) =>
      if current.token = s.token then (LockOp.store .delete).attempt.void else .ret ()) := by
  cases hobject : w.object with
  | none => exact .returned ()
  | some stored =>
    obtain ⟨current, version⟩ := stored
    dsimp only
    split
    · next htoken => exact .deleting current version htoken hobject
    · exact .returned ()

end Phases

/-- A call that is answered moves the session on; one that fails ends it, or its release, whatever
became of the call. -/
theorem SessionAt.call {c : LockCall} {k : Except LockFault c.Answer → LockOp Unit}
    (h : SessionAt s w (.call c k)) (hfresh : w.Fresh) :
    (LockMove (some s.token) w c (lockMachine c w).2 ∧
      SessionAt s (lockMachine c w).2 (k (.ok (lockMachine c w).1))) ∧
    ∀ e v, SessionAt s v (k (.error e)) := by
  generalize hq : (Prog.call c k : LockOp Unit) = q at h
  cases h with
  | rounds n =>
    cases n with
    | zero => cases hq
    | succ n =>
      cases hq
      exact ⟨⟨.keep _, .creating n _ rfl⟩, fun e _ => .failed e⟩
  | creating n body hbody =>
    cases hq
    exact ⟨SessionAt.created n hbody, fun e _ => .failed e⟩
  | contending n body hbody =>
    cases hq
    exact ⟨⟨.keep _, .contended n hbody hfresh⟩, fun e _ => .failed e⟩
  | judging n body hbody existing version hold hknown =>
    cases hq
    exact ⟨⟨.keep _, .judged n hbody hold hknown⟩, fun e _ => .failed e⟩
  | swapping n body hbody existing version hold hknown hexpired =>
    cases hq
    exact ⟨SessionAt.swapped n hbody hknown hexpired, fun e _ => .failed e⟩
  | holding lease hlease hheld =>
    cases hq
    have hrelease : ∀ v, SessionAt s v (releaseS3 lease.token) := fun _ => hlease ▸ .releasing
    exact ⟨⟨.keep _, hrelease _⟩, fun _ v => hrelease v⟩
  | releasing =>
    cases hq
    exact ⟨⟨.keep _, .looked⟩, fun _ _ => .returned ()⟩
  | deleting body version hbody hobject =>
    cases hq
    exact ⟨⟨.delete body version (congrArg some hbody) hobject, .returned ()⟩,
      fun _ _ => .returned ()⟩
  | returned u => cases hq
  | failed e => cases hq

theorem SessionAt.step {c : LockCall} {k : Except LockFault c.Answer → LockOp Unit}
    {r : Except LockFault c.Answer} (h : SessionAt s w (.call c k)) (hfresh : w.Fresh)
    (hout : lockMachine.faulty c w r w') : SessionAt s w' (k r) ∧ LockMove (some s.token) w c w' := by
  obtain ⟨⟨hmove, hanswer⟩, hfault⟩ := h.call hfresh
  obtain ⟨rfl, rfl⟩ | ⟨e, rfl, rfl | rfl⟩ := hout
  · exact ⟨hanswer, hmove⟩
  · exact ⟨hfault e _, .keep _⟩
  · exact ⟨hfault e _, hmove⟩

end Session

section Exclusion

variable {ι : Type} {party : ι → LockParty} {t u : LockPool ι} {i : ι}

variable (party) in
structure LeaseInv (t : LockPool ι) : Prop where
  fresh : t.world.Fresh
  sessions : ∀ i s, party i = .session s → SessionAt s t.world (t.procs i)
  passages : ∀ i n, party i = .passage n →
    (t.procs i).Calls fun c : LockCall => c = .pass n

theorem leaseInv_start {clock : Instant} : LeaseInv party (lockPool party clock) := by
  refine ⟨nofun, fun i s hi => ?_, fun i n hi => ?_⟩
  · simp only [lockPool, hi]
    exact .rounds acquireAttempts
  · simp only [lockPool, hi]
    exact .store rfl

theorem LeaseInv.act [DecidableEq ι] {c : LockCall} (h : LeaseInv party t)
    (hs : Pool.Step lockMachine.faulty t i c u) :
    (∀ s, party i = .session s → SessionAt s u.world (u.procs i)) ∧
      (∀ n, party i = .passage n → (u.procs i).Calls fun c : LockCall => c = .pass n) ∧
      LockMove (party i).token t.world c u.world := by
  obtain ⟨k, r, hcall, hout, hnext⟩ := hs.inv
  rw [hnext]
  cases hparty : party i with
  | session s =>
    have hat := h.sessions i s hparty
    rw [hcall] at hat
    obtain ⟨hafter, hmove⟩ := hat.step h.fresh hout
    refine ⟨fun s' hs' => ?_, nofun, hmove⟩
    cases hs'
    exact hafter
  | passage n =>
    have hcalls := h.passages i n hparty
    rw [hcall] at hcalls
    obtain rfl := hcalls.1
    refine ⟨nofun, fun n' hn' => ?_, ?_⟩
    · cases hn'
      exact hcalls.2 r
    · obtain ⟨-, hw⟩ | ⟨-, -, hw | hw⟩ := hout
      · exact hw ▸ .pass n
      · exact hw ▸ .keep _
      · exact hw ▸ .pass n

theorem LeaseInv.step [DecidableEq ι] {c : LockCall}
    (htokens : ∀ i j, (party i).token.isSome → (party i).token = (party j).token → i = j)
    (h : LeaseInv party t) (hspares : SparesReleases t i c)
    (hs : Pool.Step lockMachine.faulty t i c u) : LeaseInv party u := by
  obtain ⟨hsession, hpassage, hmove⟩ := h.act hs
  refine ⟨hmove.fresh h.fresh, fun j s hj => ?_, fun j n hj => ?_⟩
  · by_cases hji : j = i
    · exact hji ▸ hsession s (hji ▸ hj)
    · rw [hs.frame hji]
      have hmine : (party j).token = some s.token := by rw [hj]; rfl
      refine (h.sessions j s hj).bear hmove (fun htoken => hji ?_) fun hupdate k hdelete => ?_
      · exact htokens j i (by rw [hmine]; rfl) (hmine.trans htoken.symm)
      · exact hspares hupdate j (by simp [Pool.next, hdelete])
  · by_cases hji : j = i
    · exact hji ▸ hpassage n (hji ▸ hj)
    · rw [hs.frame hji]
      exact h.passages j n hj

def Holds (t : LockPool ι) (i : ι) (lease : LockBody) : Prop :=
  t.next i = some (.work lease)

theorem LeaseInv.stands (h : LeaseInv party t) {lease : LockBody} (hi : Holds t i lease)
    (hlive : t.world.clock < lease.expiresAt) :
    (party i).token = some lease.token ∧ ∃ version, t.world.object = some (lease, version) := by
  obtain ⟨k, hcall⟩ : ∃ k, t.procs i = .call (.work lease) k := by
    unfold Holds Pool.next at hi
    split at hi
    · next hcall =>
      cases hi
      exact ⟨_, hcall⟩
    · cases hi
    · cases hi
  cases hparty : party i with
  | session s =>
    have hat := h.sessions i s hparty
    generalize t.procs i = p at hcall hat
    cases hat with
    | holding lease' hlease hheld =>
      cases hcall
      exact ⟨congrArg some hlease.symm, hheld hlive⟩
    | rounds n => cases n <;> cases hcall
    | creating | contending | judging | swapping | releasing | deleting | returned | failed =>
      cases hcall
  | passage n =>
    have hcalls := h.passages i n hparty
    rw [hcall] at hcalls
    cases hcalls.1

/-- One lease in force at a time, in every run whose acquires swap the lock object only while no
release stands before its delete. -/
theorem storage_lease_exclusive [DecidableEq ι] {clock : Instant}
    (htokens : ∀ i j, (party i).token.isSome → (party i).token = (party j).token → i = j)
    (h : Pool.Reach lockMachine.faulty SparesReleases (lockPool party clock) t) {i j : ι}
    {lease lease' : LockBody} (hi : Holds t i lease) (hj : Holds t j lease')
    (hlive : t.world.clock < lease.expiresAt) (hlive' : t.world.clock < lease'.expiresAt) :
    i = j := by
  have hinv : LeaseInv party t :=
    h.invariant (LeaseInv party) leaseInv_start fun _ _ _ _ ht hspares hs => ht.step htokens hspares hs
  obtain ⟨htoken, version, hobject⟩ := hinv.stands hi hlive
  obtain ⟨htoken', version', hobject'⟩ := hinv.stands hj hlive'
  rw [hobject] at hobject'
  cases hobject'
  exact htokens i j (by rw [htoken]; rfl) (htoken.trans htoken'.symm)

end Exclusion

section Race

def commandSession (token : String) (pid : Nat) : LockSession :=
  ⟨token, "score", "host", pid, 60 * nanosPerSec⟩

def raceCommands : Fin 4 → LockParty
  | 0 => .session (commandSession "a" 1)
  | 1 => .session (commandSession "b" 2)
  | 2 => .session (commandSession "c" 3)
  | 3 => .passage 90000000000

/-- The first command's release finds its own token; then the second takes the expired lease over,
the first deletes it, and the third creates its own. -/
theorem storage_lease_twice :
    ∃ t, Pool.Reach lockMachine.faulty (fun _ _ _ => True) (lockPool raceCommands 0) t ∧
      ∃ lease lease', Holds t 1 lease ∧ Holds t 2 lease' ∧
        t.world.clock < lease.expiresAt ∧ t.world.clock < lease'.expiresAt := by
  refine ⟨(lockPool raceCommands 0).play lockMachine
    [0, 0, 3, 0, 0, 1, 1, 1, 1, 1, 0, 2, 2], ?_,
    (commandSession "b" 2).body 90000000000, (commandSession "c" 3).body 90000000000, ?_⟩
  · exact (Pool.Reach.play_next (m := lockMachine) fun _ _ _ _ _ => trivial).mono
      (fun _ _ _ _ h => .inl h) fun _ _ _ h => h
  · unfold Holds
    decide +kernel

/-- The same commands, the takeover before the first one's release: it finds another token and
deletes nothing. -/
theorem storage_lease_exclusive_raced :
    ∃ t, Pool.Reach lockMachine.faulty SparesReleases (lockPool raceCommands 0) t ∧
      ∃ lease, Holds t 1 lease ∧ t.world.clock < lease.expiresAt ∧
        ∀ i lease', Holds t i lease' → t.world.clock < lease'.expiresAt → i = 1 := by
  have hreach : Pool.Reach lockMachine.faulty SparesReleases (lockPool raceCommands 0)
      ((lockPool raceCommands 0).play lockMachine [0, 0, 3, 1, 1, 1, 1, 1, 0, 0, 2, 2, 2, 2]) :=
    (Pool.Reach.play_moves (m := lockMachine) (by decide +kernel)).mono (fun _ _ _ _ h => .inl h)
      fun _ _ _ h => h
  have hholds : Holds ((lockPool raceCommands 0).play lockMachine
      [0, 0, 3, 1, 1, 1, 1, 1, 0, 0, 2, 2, 2, 2]) 1 ((commandSession "b" 2).body 90000000000) := by
    unfold Holds
    decide +kernel
  have hlive : ((lockPool raceCommands 0).play lockMachine
      [0, 0, 3, 1, 1, 1, 1, 1, 0, 0, 2, 2, 2, 2]).world.clock <
        ((commandSession "b" 2).body 90000000000).expiresAt := by
    decide +kernel
  have htokens : ∀ i j, (raceCommands i).token.isSome →
      (raceCommands i).token = (raceCommands j).token → i = j := by
    decide
  exact ⟨_, hreach, _, hholds, hlive,
    fun i lease' hi hlive' => storage_lease_exclusive htokens hreach hi hholds hlive' hlive⟩

end Race

end Pipette
