import Pipette.Store.Operations

/-! The moves of the scoring passes. Each writes the destination of a record before it removes the
source. -/
namespace Pipette

/-- What scoring says about a body. The catalog, the scoring service and the warehouse are behind
it, so it may differ from pass to pass. -/
structure Scorer where
  isEval : Json → Bool
  score : Json → Except Fault Json
  finalizes : Json → Json → Bool
  rows : Json → Option Nat

def maxScoreAttempts : Nat := 12

def enqueue (stage : Place) (j : JobId) (body : Json) : Op Unit :=
  Op.records (.write stage j body)

def dequeue (stage : Place) (j : JobId) : Op Unit := (Op.records (.remove stage j)).void

def clearFailedAttempts (j : JobId) : Op Unit := (Op.records (.removeFailures j)).attempt.void

/-- Count a failed pass; at the limit move the job from `stage` to `parked/`, where no pass retries
it. Answers whether this call parked it. -/
def recordFailedAttempt (stage : Place) (j : JobId) : Op Bool := do
  let attempts := (← Op.records (.readFailures j)).getD 0 + 1
  Op.records (.writeFailures j attempts)
  if attempts < maxScoreAttempts then pure false
  else
    match ← Op.records (.read stage j) with
    | none => pure false
    | some entry =>
      match submissionIn stage entry with
      | none => Op.fail .unscorable
      | some body =>
        enqueue .parked j body
        dequeue stage j
        pure true

def countFailedAttempt (stage : Place) (j : JobId) : Op Bool := do
  match ← (recordFailedAttempt stage j).attempt with
  | .ok parked => pure parked
  | .error _ => pure false

/-- Score one eval and stage it. One already staged only drops its `to_do/` entry. -/
def scoreEvalOne (scorer : Scorer) (j : JobId) : Op Unit := do
  match ← Op.records (.read .toFinalize j) with
  | some _ => dequeue .toDo j
  | none =>
    match ← Op.records (.read .toDo j) with
    | none => Op.fail .missing
    | some body =>
      match scorer.score body with
      | .error e => Op.fail e
      | .ok score =>
        enqueue .toFinalize j (.obj [("submission", body), ("score", score)])
        dequeue .toDo j

def runScoreEval (scorer : Scorer) : List JobId → Op Unit
  | [] => pure ()
  | j :: rest => do
    match ← (scoreEvalOne scorer j).attempt with
    | .ok _ =>
      clearFailedAttempts j
      runScoreEval scorer rest
    | .error (.unreachable timeout) =>
      -- counted on a timeout, or a job that always times out stays ahead of every other
      if timeout then (countFailedAttempt .toDo j).void else pure ()
    | .error _ => do
      let _ ← countFailedAttempt .toDo j
      runScoreEval scorer rest

/-- Archive before dequeue, so that a crash finalizes again. -/
def finalizeOne (scorer : Scorer) (j : JobId) : Op Unit := do
  match ← Op.records (.read .toFinalize j) with
  | none => Op.fail .missing
  | some payload =>
    match payload.get "submission", payload.get "score" with
    | some submission, some score =>
      if scorer.finalizes submission score then
        Op.records (.write .processed j submission)
        dequeue .toFinalize j
      else Op.fail .unscorable
    | _, _ => Op.fail .unscorable

def finalizeScoredEvals (scorer : Scorer) (jobs : List JobId) : Op Unit :=
  jobs.forM fun j => do
    match ← (finalizeOne scorer j).attempt with
    | .ok _ => clearFailedAttempts j
    | .error _ => (countFailedAttempt .toFinalize j).void

inductive ScoreOutcome
  | scored (j : JobId)
  | rowless (j : JobId)
  | routed (j : JobId)

/-- An eval is never scored here: it moves to `to_do/` and leaves `incoming/`. -/
def readAndScore (scorer : Scorer) (j : JobId) : Op ScoreOutcome := do
  match ← getSubmission j with
  | none => Op.fail .notFound
  | some (state, body) =>
    if scorer.isEval body then
      enqueue .toDo j body
      dequeue .incoming j
      pure (.routed j)
    else if state ≠ .incoming then Op.fail .unscorable
    else
      match scorer.rows body with
      | none => Op.fail .unscorable
      | some 0 => pure (.rowless j)
      | some _ => pure (.scored j)

def scoreChunk (scorer : Scorer) (chunk : List JobId) : Op (List ScoreOutcome) :=
  chunk.foldlM (fun outcomes j => do
    match ← (readAndScore scorer j).attempt with
    | .ok outcome => pure (outcomes ++ [outcome])
    | .error _ => pure outcomes) []

/-- Archive what was scored. All of it failing is an outage, and an error. -/
def commitChunk (outcomes : List ScoreOutcome) : Op (List JobId) := do
  let committing := outcomes.filterMap fun
    | .scored j => some j
    | .rowless _ | .routed _ => none
  let rowless := outcomes.filterMap fun
    | .rowless j => some j
    | .scored _ | .routed _ => none
  let deferred ← committing.foldlM (fun deferred j => do
    match ← (markProcessed j).attempt with
    | .ok _ => pure deferred
    | .error _ => pure (deferred ++ [j])) []
  if committing ≠ [] ∧ deferred.length = committing.length then Op.fail .store
  else pure (deferred ++ rowless)

def processSubmissions (scorer : Scorer) (chunks : List (List JobId)) (staged : List JobId) :
    Op Unit := do
  chunks.forM fun chunk => do
    let outcomes ← scoreChunk scorer chunk
    (commitChunk outcomes).void
  finalizeScoredEvals scorer staged

def ScoringCall : StoreCall → Prop
  | .records (.create _ _ _) => False
  | .records _ => True
  | _ => False

section Calls

open Prog (Calls)

variable {scorer : Scorer} {j : JobId} {stage : Place}

theorem dequeue_scoring : (dequeue stage j).Calls ScoringCall := .void (.store trivial)

theorem enqueue_scoring {body : Json} : (enqueue stage j body).Calls ScoringCall := .store trivial

theorem clearFailedAttempts_scoring : (clearFailedAttempts j).Calls ScoringCall :=
  .void (.attempt (.store trivial))

theorem countFailedAttempt_scoring : (countFailedAttempt stage j).Calls ScoringCall := by
  have hrecord : (recordFailedAttempt stage j).Calls ScoringCall := by
    refine .bind (.store trivial) fun attempts => .bind (.store trivial) fun _ => ?_
    split
    · exact .ret _
    refine .bind (.store trivial) fun entry => ?_
    split
    · exact .ret _
    split
    · exact .fail _
    · exact .bind enqueue_scoring fun _ => .bind dequeue_scoring fun _ => .ret _
  refine .bind (.attempt hrecord) fun r => ?_
  cases r <;> exact .ret _

theorem scoreEvalOne_scoring : (scoreEvalOne scorer j).Calls ScoringCall := by
  refine .bind (.store trivial) fun staged => ?_
  split
  · exact dequeue_scoring
  refine .bind (.store trivial) fun body => ?_
  split
  · exact .fail _
  split
  · exact .fail _
  · exact .bind enqueue_scoring fun _ => dequeue_scoring

theorem runScoreEval_scoring {jobs : List JobId} : (runScoreEval scorer jobs).Calls ScoringCall := by
  induction jobs with
  | nil => exact .ret _
  | cons j rest ih =>
    refine .bind (.attempt scoreEvalOne_scoring) fun r => ?_
    split
    · exact .bind clearFailedAttempts_scoring fun _ => ih
    · split
      · exact .void countFailedAttempt_scoring
      · exact .ret _
    · exact .bind countFailedAttempt_scoring fun _ => ih

theorem finalizeScoredEvals_scoring {jobs : List JobId} :
    (finalizeScoredEvals scorer jobs).Calls ScoringCall := by
  have hfinalize : ∀ j, (finalizeOne scorer j).Calls ScoringCall := by
    intro j
    refine .bind (.store trivial) fun payload => ?_
    split
    · exact .fail _
    split
    · split
      · exact .bind (.store trivial) fun _ => dequeue_scoring
      · exact .fail _
    · exact .fail _
  refine .forM fun j _ => .bind (.attempt (hfinalize j)) fun r => ?_
  split
  · exact clearFailedAttempts_scoring
  · exact .void countFailedAttempt_scoring

theorem readAndScore_scoring : (readAndScore scorer j).Calls ScoringCall := by
  have hget : (getSubmission j).Calls ScoringCall := by
    refine .bind (.store trivial) fun body => ?_
    split
    · exact .ret _
    · exact .bind (.store trivial) fun _ => .ret _
  refine .bind hget fun body => ?_
  split
  · exact .fail _
  split
  · exact .bind enqueue_scoring fun _ => .bind dequeue_scoring fun _ => .ret _
  split
  · exact .fail _
  · split
    · exact .fail _
    · exact .ret _
    · exact .ret _

theorem commitChunk_scoring {outcomes : List ScoreOutcome} :
    (commitChunk outcomes).Calls ScoringCall := by
  have hmark : ∀ j, (markProcessed j).Calls ScoringCall := by
    intro j
    refine .bind (.store trivial) fun body => ?_
    split
    · exact .fail _
    refine .bind (.store trivial) fun _ => .bind (.store trivial) fun removed => ?_
    split
    · exact .ret _
    · exact .fail _
  refine .bind (.foldlM (fun deferred j _ => .bind (.attempt (hmark j)) fun r => ?_) _)
    fun deferred => ?_
  · split <;> exact .ret _
  · split
    · exact .fail _
    · exact .ret _

theorem processSubmissions_scoring {chunks : List (List JobId)} {staged : List JobId} :
    (processSubmissions scorer chunks staged).Calls ScoringCall := by
  refine .bind (.forM fun chunk _ => ?_) fun _ => finalizeScoredEvals_scoring
  refine .bind (.foldlM (fun outcomes j _ => ?_) _) fun _ => .void commitChunk_scoring
  refine .bind (.attempt readAndScore_scoring) fun r => ?_
  split <;> exact .ret _

end Calls

end Pipette
