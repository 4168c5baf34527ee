import Pipette.Core.Queue
import Pipette.Lib.Tree

/-! The files of the job queue: `tmp/`, `avail/` and `leased/`. A file system gives each call below
whole: a rename moves a file or reports its source gone. -/
namespace Pipette

structure QueueState where
  files : FileTree QueuePath Json

namespace QueueState

def availKeys (s : QueueState) : List AvailKey :=
  s.files.keys.filterMap fun
    | .avail k => some k
    | _ => none

def leases (s : QueueState) : List Lease :=
  s.files.keys.filterMap fun
    | .leased l => some l
    | _ => none

end QueueState

inductive QueueCall
  | listAvail
  | listAvailOf (j : JobId)
  | listLeased
  | listLeasedOf (c : ClientId)
  | read (p : QueuePath)
  | remove (p : QueuePath)
  | rename (src dst : QueuePath)
  | writeTmp (j : JobId) (body : Json)

namespace QueueCall

/-- `remove` and `rename` answer whether the file was there; a job's directory in `avail/` lists
deadlines. -/
abbrev Answer : QueueCall → Type
  | listAvail => List AvailKey
  | listAvailOf _ => List ExpiresAt
  | listLeased | listLeasedOf _ => List Lease
  | read _ => Option Json
  | remove _ | rename _ _ => Bool
  | writeTmp _ _ => Unit

def step : (c : QueueCall) → QueueState → c.Answer × QueueState
  | listAvail, s => (s.availKeys, s)
  | listAvailOf j, s => ((s.availKeys.filter (·.jobId = j)).map (·.expiresAt), s)
  | listLeased, s => (s.leases, s)
  | listLeasedOf c, s => (s.leases.filter (·.clientId = c), s)
  | read p, s => (s.files.lookup p, s)
  | remove p, s => ((s.files.lookup p).isSome, ⟨s.files.erase p⟩)
  | rename src dst, s =>
    match s.files.rename src dst with
    | some files => (true, ⟨files⟩)
    | none => (false, s)
  | writeTmp j body, s => ((), ⟨s.files.insert (.tmp j) body⟩)

end QueueCall

namespace QueueState

variable {s : QueueState}

theorem mem_availKeys {k : AvailKey} :
    k ∈ s.availKeys ↔ (s.files.lookup (.avail k)).isSome := by
  rw [← FileTree.mem_keys_iff, availKeys, List.mem_filterMap]
  constructor
  · rintro ⟨p, hp, h⟩
    cases p <;> simp_all
  · exact fun h => ⟨_, h, rfl⟩

theorem mem_leases {l : Lease} : l ∈ s.leases ↔ (s.files.lookup (.leased l)).isSome := by
  rw [← FileTree.mem_keys_iff, leases, List.mem_filterMap]
  constructor
  · rintro ⟨p, hp, h⟩
    cases p <;> simp_all
  · exact fun h => ⟨_, h, rfl⟩

theorem step_rename {src dst : QueuePath} :
    (QueueCall.rename src dst).step s =
      match s.files.rename src dst with
      | some files => (true, ⟨files⟩)
      | none => (false, s) :=
  rfl

end QueueState

end Pipette
