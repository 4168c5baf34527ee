import Mathlib.Data.Fintype.Basic
import Pipette.Core.Plan

/-! The submission records: a job's record stands in one of five places while scoring moves it. -/
namespace Pipette

inductive Place
  | incoming
  | toDo
  | parked
  | toFinalize
  | processed
deriving DecidableEq, Repr

instance : Fintype Place :=
  ⟨{.incoming, .toDo, .parked, .toFinalize, .processed}, fun p => by cases p <;> decide⟩

structure RecordState where
  places : FileTree (Place × JobId) Json
  /-- Failed scoring passes of a job, from its `failures/` entry. -/
  failures : FileTree JobId Nat
  unverified : FileTree (ClientId × JobId) Json

def RecordState.Recorded (s : RecordState) (j : JobId) : Prop :=
  ∃ p, (s.places.lookup (p, j)).isSome

instance (s : RecordState) (j : JobId) : Decidable (s.Recorded j) :=
  inferInstanceAs (Decidable (∃ p, (s.places.lookup (p, j)).isSome))

inductive RecordCall
  | tryExists (p : Place) (j : JobId)
  | read (p : Place) (j : JobId)
  | write (p : Place) (j : JobId) (body : Json)
  | create (p : Place) (j : JobId) (body : Json)
  | remove (p : Place) (j : JobId)
  | readFailures (j : JobId)
  | writeFailures (j : JobId) (attempts : Nat)
  | removeFailures (j : JobId)
  | writeUnverified (c : ClientId) (j : JobId) (body : Json)

namespace RecordCall

/-- `create` answers whether it made the file, `remove` whether the file was there. -/
abbrev Answer : RecordCall → Type
  | tryExists _ _ | create _ _ _ | remove _ _ => Bool
  | read _ _ => Option Json
  | readFailures _ => Option Nat
  | write _ _ _ | writeFailures _ _ | removeFailures _ | writeUnverified _ _ _ => Unit

def step : (c : RecordCall) → RecordState → c.Answer × RecordState
  | tryExists p j, s => ((s.places.lookup (p, j)).isSome, s)
  | read p j, s => (s.places.lookup (p, j), s)
  | write p j body, s => ((), { s with places := s.places.insert (p, j) body })
  | create p j body, s =>
    if (s.places.lookup (p, j)).isSome then (false, s)
    else (true, { s with places := s.places.insert (p, j) body })
  | remove p j, s =>
    ((s.places.lookup (p, j)).isSome, { s with places := s.places.erase (p, j) })
  | readFailures j, s => (s.failures.lookup j, s)
  | writeFailures j attempts, s => ((), { s with failures := s.failures.insert j attempts })
  | removeFailures j, s => ((), { s with failures := s.failures.erase j })
  | writeUnverified c j body, s =>
    ((), { s with unverified := s.unverified.insert (c, j) body })

end RecordCall

end Pipette
