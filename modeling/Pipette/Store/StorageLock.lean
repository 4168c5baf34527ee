import Pipette.Core.Queue
import Pipette.Lib.Interleave

/-! The lease over a storage root in S3: one object, created if absent, swapped by version once it
has expired, and deleted at release. -/
namespace Pipette

structure LockBody where
  token : String
  holder : String
  hostname : String
  pid : Nat
  acquiredAt : Instant
  expiresAt : Instant
deriving DecidableEq, Repr

structure LockWorld where
  clock : Instant
  object : Option (LockBody × Nat)
  nextVersion : Nat
deriving DecidableEq, Repr

inductive LockCall
  | now
  | create (body : LockBody)
  | get
  | update (body : LockBody) (version : Nat)
  | delete
  | work (lease : LockBody)
  | pass (nanos : Nat)
deriving DecidableEq

abbrev LockCall.Answer : LockCall → Type
  | now => Instant
  | create _ => Bool
  | get => Option (LockBody × Nat)
  | update _ _ => Bool
  | delete => Unit
  | work _ => Unit
  | pass _ => Unit

inductive LockFault
  | store
  | held (existing : LockBody)
  | exhausted
deriving DecidableEq, Repr

abbrev LockStore : Interface where
  Call := LockCall
  Answer := LockCall.Answer
  Fault := LockFault

def LockWorld.put (w : LockWorld) (body : LockBody) : LockWorld :=
  { w with object := some (body, w.nextVersion), nextVersion := w.nextVersion + 1 }

def lockMachine : Prog.Machine LockStore LockWorld
  | .now, w => (w.clock, w)
  | .create body, w =>
    match w.object with
    | some _ => (false, w)
    | none => (true, w.put body)
  | .get, w => (w.object, w)
  | .update body version, w =>
    match w.object with
    | some (_, stored) => if stored = version then (true, w.put body) else (false, w)
    | none => (false, w)
  | .delete, w => ((), { w with object := none })
  | .work _, w => ((), w)
  | .pass nanos, w => ((), { w with clock := w.clock + nanos })

abbrev LockOp (α : Type) : Type := Prog LockStore α

def LockOp.store (c : LockCall) : LockOp c.Answer := Prog.store (I := LockStore) c

def LockOp.fail {α : Type} (e : LockFault) : LockOp α := Prog.fail (I := LockStore) e

structure LockSession where
  token : String
  holder : String
  hostname : String
  pid : Nat
  ttl : Int
deriving DecidableEq, Repr

def LockSession.body (s : LockSession) (now : Instant) : LockBody :=
  ⟨s.token, s.holder, s.hostname, s.pid, now, now + s.ttl⟩

def acquireAttempts : Nat := 4

/-- Take over the lease that stands, once it has expired: a swap on the version it was read at. -/
def takeOver (retry : LockOp LockBody) (body existing : LockBody) (version : Nat) :
    LockOp LockBody := do
  if existing.expiresAt > (← LockOp.store .now) then LockOp.fail (.held existing)
  else if ← LockOp.store (.update body version) then pure body
  else retry

/-- The create found an object: a live lease or a stale one, or one released since. -/
def contend (retry : LockOp LockBody) (body : LockBody) : LockOp LockBody := do
  match ← LockOp.store .get with
  | none => retry
  | some (existing, version) => takeOver retry body existing version

def acquireRounds (s : LockSession) : Nat → LockOp LockBody
  | 0 => LockOp.fail .exhausted
  | rounds + 1 => do
    let body := s.body (← LockOp.store .now)
    if ← LockOp.store (.create body) then pure body else contend (acquireRounds s rounds) body

def acquireS3 (s : LockSession) : LockOp LockBody := acquireRounds s acquireAttempts

def releaseS3 (token : String) : LockOp Unit := do
  match ← (LockOp.store .get).attempt with
  | .error _ | .ok none => pure ()
  | .ok (some (current, _)) =>
    if current.token = token then (LockOp.store .delete).attempt.void else pure ()

def underLease (lease : LockBody) : LockOp Unit := do
  let _ ← (LockOp.store (.work lease)).attempt
  releaseS3 lease.token

def LockSession.run (s : LockSession) : LockOp Unit := do
  underLease (← acquireS3 s)

end Pipette
