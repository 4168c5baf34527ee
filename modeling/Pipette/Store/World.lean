import Pipette.Lib.Interleave
import Pipette.Store.Markers
import Pipette.Store.Plans
import Pipette.Store.Queue
import Pipette.Store.Records

/-! All stores as one state, and the calls on them as one interface. -/
namespace Pipette

structure World where
  queue : QueueState
  index : IndexState
  notes : NoteState
  records : RecordState
  plans : PlanState
  fleet : FleetState

def World.empty : World where
  queue := ⟨∅⟩
  index := ⟨∅, ∅, 0, ∅, ∅, []⟩
  notes := ⟨∅, ∅, ∅, ∅, ∅, none⟩
  records := ⟨∅, ∅, ∅⟩
  plans := ⟨∅, ∅, ∅, ∅, fun _ _ h => nomatch h⟩
  fleet := ⟨∅, ∅, ∅, fun _ _ => true, fun _ _ h => nomatch h⟩

inductive StoreCall
  | queue (c : QueueCall)
  | index (c : IndexCall)
  | notes (c : NoteCall)
  | records (c : RecordCall)
  | plans (c : PlanCall)
  | fleet (c : FleetCall)

abbrev StoreCall.Answer : StoreCall → Type
  | queue c => c.Answer
  | index c => c.Answer
  | notes c => c.Answer
  | records c => c.Answer
  | plans c => c.Answer
  | fleet c => c.Answer

inductive Fault
  | store
  | missing
  | unrecordable
  | unknownBenchmark
  | unscorable
  | unreachable (timeout : Bool)
  | badRequest (message : String)
  | forbidden
  | notFound
  | conflict
  | internal (message : String)
  /-- Some items of a run failed and were skipped. -/
  | failedItems (n : Nat)
deriving DecidableEq, Repr

abbrev Stores : Interface where
  Call := StoreCall
  Answer := StoreCall.Answer
  Fault := Fault

abbrev Op (α : Type) : Type := Prog Stores α

def machine : Prog.Machine Stores World
  | .queue c, w => ((c.step w.queue).1, { w with queue := (c.step w.queue).2 })
  | .index c, w => ((c.step w.index).1, { w with index := (c.step w.index).2 })
  | .notes c, w => ((c.step w.notes).1, { w with notes := (c.step w.notes).2 })
  | .records c, w => ((c.step w.records).1, { w with records := (c.step w.records).2 })
  | .plans c, w => ((c.step w.plans).1, { w with plans := (c.step w.plans).2 })
  | .fleet c, w => ((c.step w.fleet).1, { w with fleet := (c.step w.fleet).2 })

section Listings

variable {w : World} {j : JobId}

theorem QueueState.nodup_availKeys : w.queue.availKeys.Nodup := by
  refine (AList.nodupKeys w.queue.files).filterMap ?_
  intro a a' b hb hb'
  cases a <;> cases a' <;> simp_all

theorem nodup_listAvailOf : (machine (.queue (.listAvailOf j)) w).1.Nodup := by
  refine List.Nodup.map_on ?_ (QueueState.nodup_availKeys.filter _)
  intro k hk k' hk' he
  have hj : k.jobId = j := by simpa using (List.mem_filter.mp hk).2
  have hj' : k'.jobId = j := by simpa using (List.mem_filter.mp hk').2
  cases k
  cases k'
  simp_all

theorem mem_listAvailOf {e : ExpiresAt} :
    e ∈ (machine (.queue (.listAvailOf j)) w).1 ↔
      (w.queue.files.lookup (.avail ⟨j, e⟩)).isSome := by
  rw [← QueueState.mem_availKeys]
  simp only [machine, QueueCall.step, List.mem_map, List.mem_filter, decide_eq_true_eq]
  constructor
  · rintro ⟨⟨j', e'⟩, ⟨hk, rfl⟩, rfl⟩
    exact hk
  · exact fun hk => ⟨_, ⟨hk, rfl⟩, rfl⟩

theorem mem_listJobPlanMarkers {p : PlanId} {d : ExpiresAt} :
    (p, d) ∈ (machine (.plans (.listJobPlanMarkers j)) w).1 ↔
      (w.plans.jobPlans.lookup (j, p, d)).isSome := by
  simp only [machine, PlanCall.step, List.mem_map, List.mem_filter, decide_eq_true_eq]
  rw [Option.isSome_iff_exists]
  constructor
  · rintro ⟨m, ⟨hm, rfl⟩, he⟩
    cases he
    exact ⟨m.writtenAt, PlanState.mem_markers.mp hm⟩
  · rintro ⟨writtenAt, h⟩
    exact ⟨⟨j, p, d, writtenAt⟩, ⟨PlanState.mem_markers.mpr h, rfl⟩, rfl⟩

end Listings

namespace Op

def queue (c : QueueCall) : Op c.Answer := Prog.store (I := Stores) (.queue c)

def index (c : IndexCall) : Op c.Answer := Prog.store (I := Stores) (.index c)

def notes (c : NoteCall) : Op c.Answer := Prog.store (I := Stores) (.notes c)

def records (c : RecordCall) : Op c.Answer := Prog.store (I := Stores) (.records c)

def plans (c : PlanCall) : Op c.Answer := Prog.store (I := Stores) (.plans c)

def fleet (c : FleetCall) : Op c.Answer := Prog.store (I := Stores) (.fleet c)

def fail {α : Type} (e : Fault) : Op α := Prog.fail (I := Stores) e

end Op

end Pipette
