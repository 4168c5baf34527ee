import Pipette.Core.ContentKey
import Pipette.Core.RunAnswers
import Pipette.Lib.Assoc
import Pipette.Lib.Bins
import Pipette.Store.World

/-! What a campaign revision takes over: the jobs of the plan it supersedes by content digest, then
finished runs of a cell whose clauses changed, then earlier runs of any plan. -/
namespace Pipette

instance : LinearOrder JobId :=
  LinearOrder.lift' JobId.raw fun a b h => by cases a; cases b; exact congrArg _ h

/-- The order in which a hash map or a hash set is gone through. -/
structure HashOrder where
  visit : {α : Type} → List α → List α
  perm : ∀ {α : Type} (l : List α), (visit l).Perm l

def filledOrder : HashOrder := ⟨fun l => l, fun _ => .refl _⟩

/-- What a revision reads of a manifest. Ingestion records a digest for jobs of the plan only. -/
structure RevisedPlan where
  planId : PlanId
  previousPlanId : Option PlanId
  jobIds : List JobId
  contentKeys : FileTree JobId String
  rerunOf : FileTree JobId JobId
  expiredJobs : FileTree JobId ExpiredJob
  listed : ∀ j ∈ contentKeys, j ∈ jobIds

/-- The jobs of the head that a revision runs or scores again: one without a digest is refused. -/
structure Named (previous : RevisedPlan) where
  rerun : Finset JobId
  recalculate : Finset JobId
  held : ∀ j ∈ rerun ∪ recalculate, j ∈ previous.contentKeys

inductive IngestError
  | rerunDrift (cells : Nat)
  | other (e : Fault)
deriving DecidableEq, Repr

structure CellUnit where
  lead : Nat
  horizon : ExpiresAt
  candidate : JobId
  digest : String

inductive Inherited
  | nothing
  | job (j : JobId)
  /-- The cell of a re-run, and the job it runs again; `none` once that plan's runs are used up. -/
  | rerun (j : Option JobId)
  /-- A new job, answered from the record of that plan's job. -/
  | recalculate (j : JobId)
  | answered (j : JobId)
  | satisfied (j : JobId)
deriving DecidableEq, Repr

def Inherited.held : Inherited → Option JobId
  | nothing => none
  | job j | recalculate j | answered j | satisfied j => some j
  | rerun j => j

def heldJobs (slots : List Inherited) : List JobId := slots.filterMap Inherited.held

structure Offered where
  planId : PlanId
  jobId : JobId
  body : Json

structure Offer where
  earlier : Bool
  plans : List RevisedPlan
  /-- The plans filed after a named one: their re-runs and lapses give up its jobs. -/
  later : List RevisedPlan

def Offer.isEmpty (o : Offer) : Bool := !o.earlier && o.plans.isEmpty

theorem unvisited_lt {plans : List PlanId} {visited : List PlanId} {p : PlanId} (hp : p ∈ plans)
    (hnew : p ∉ visited) :
    (plans.filter (· ∉ p :: visited)).length < (plans.filter (· ∉ visited)).length := by
  have hfilter : plans.filter (· ∉ p :: visited) = (plans.filter (· ∉ visited)).filter (· ≠ p) := by
    rw [List.filter_filter]
    refine List.filter_congr fun q _ => ?_
    simp
  rw [hfilter]
  have hmem : p ∈ plans.filter (· ∉ visited) := List.mem_filter.mpr ⟨hp, by simpa using hnew⟩
  exact List.length_filter_lt_length_iff_exists.mpr ⟨p, hmem, by simp⟩

/-- The plans before the head, back along `previous_plan_id`. A read can fail, a plan can be
missing, and a plan met again ends the walk. -/
def earlierPlans (plans : FileTree PlanId (Except Fault RevisedPlan)) (visited : List PlanId) :
    Option PlanId → Except Fault (List RevisedPlan)
  | none => .ok []
  | some p =>
    if p ∈ visited then .ok []
    else
      match hread : plans.lookup p with
      | none => .ok []
      | some read => do
        have : (plans.lookup p).isSome := hread ▸ rfl
        let manifest ← read
        let rest ← earlierPlans plans (p :: visited) manifest.previousPlanId
        pure (manifest :: rest)
termination_by (plans.keys.filter (· ∉ visited)).length
decreasing_by exact unvisited_lt (FileTree.mem_keys_iff.mpr this) ‹_›

def firstOffers (onOffer : JobId → Bool) :
    List JobId → List (PlanId × JobId) → List (PlanId × JobId)
  | _, [] => []
  | seen, (p, j) :: rest =>
    if onOffer j && decide (j ∉ seen) then (p, j) :: firstOffers onOffer (j :: seen) rest
    else firstOffers onOffer seen rest

/-- The jobs of the plans on offer with their bodies: the earlier plans newest first, then the named
ones. Left out are the head's jobs and those a plan re-ran or let lapse. -/
def offeredJobs (plans : FileTree PlanId (Except Fault RevisedPlan))
    (jobSource : JobId → Except Fault (Option Json)) (previous : RevisedPlan) (offer : Offer) :
    Except Fault (List Offered) := do
  if offer.isEmpty then pure []
  else
    let chain ← earlierPlans plans [previous.planId]
      (if offer.earlier then previous.previousPlanId else none)
    let offering := chain ++ offer.plans
    let rerun := (previous :: offering ++ offer.later).flatMap fun m => m.rerunOf.entries.map (·.2)
    let lapsed := (offering ++ offer.later).flatMap fun m => m.expiredJobs.keys
    let jobs := firstOffers (fun j => decide (j ∉ rerun) && decide (j ∉ lapsed)) previous.jobIds
      (offering.flatMap fun m => m.jobIds.map fun j => (m.planId, j))
    let sources ← jobs.mapM fun (p, j) => do
      let source ← jobSource j
      pure (source.map fun body => (⟨p, j, body⟩ : Offered))
    pure sources.reduceOption

structure RerunCell where
  jobs : List JobId
  drawn : Bool
deriving DecidableEq

structure Carryover where
  pool : FileTree String (List JobId)
  rerun : FileTree String RerunCell
  recalculate : FileTree String (List JobId)
  rerunOf : FileTree JobId JobId
  sources : FileTree JobId Json
  offered : List Offered

def Carryover.file {previous : RevisedPlan} (named : Named previous) (carry : Carryover) (j : JobId)
    (digest : String) : Carryover :=
  if j ∈ named.rerun then
    let cell := (carry.rerun.lookup digest).getD ⟨[], false⟩
    { carry with rerun := carry.rerun.insert digest { cell with jobs := cell.jobs ++ [j] } }
  else if j ∈ named.recalculate then
    { carry with recalculate := carry.recalculate.pushBack digest j }
  else if (previous.expiredJobs.lookup j).isNone then
    { carry with pool := carry.pool.pushBack digest j }
  else carry

def Carryover.fromManifest (previous : RevisedPlan) (named : Named previous) : Carryover :=
  previous.contentKeys.entries.foldl (fun carry e => carry.file named e.1 e.2)
    ⟨∅, ∅, ∅, previous.rerunOf, ∅, []⟩

namespace Carryover

def withSources (carry : Carryover) (sources : FileTree JobId Json) : Carryover :=
  { carry with sources }

def withOffered (carry : Carryover) (offered : List Offered) : Carryover := { carry with offered }

def ofRevision (previous : RevisedPlan) (named : Named previous) (sources : FileTree JobId Json)
    (offered : List Offered) : Carryover :=
  ((fromManifest previous named).withSources sources).withOffered offered

def take (carry : Carryover) (digest : String) : Inherited × Carryover :=
  match carry.pool.popFront digest with
  | some (j, pool) => (.job j, { carry with pool })
  | none =>
    match carry.recalculate.popFront digest with
    | some (j, recalculate) => (.recalculate j, { carry with recalculate })
    | none =>
      match carry.rerun.lookup digest with
      | some cell => (.rerun cell.jobs.head?,
          { carry with rerun := carry.rerun.insert digest ⟨cell.jobs.tail, true⟩ })
      | none => (.nothing, carry)

def takeAll : Carryover → List CellUnit → List Inherited × Carryover
  | carry, [] => ([], carry)
  | carry, unit :: rest =>
    let (slot, carry) := carry.take unit.digest
    let (slots, carry) := carry.takeAll rest
    (slot :: slots, carry)

def left (carry : Carryover) : Nat :=
  (FileTree.items id carry.pool).length + (FileTree.items id carry.recalculate).length +
    (carry.rerun.entries.filter fun e => !e.2.drawn).length

/-- A re-run or a recalculation places every cell of its plan again. -/
def requireNamedPlaced (carry : Carryover) : Except IngestError Unit :=
  if carry.rerun.entries.isEmpty && carry.recalculate.entries.isEmpty then .ok ()
  else
    match carry.left with
    | 0 => .ok ()
    | cells => .error (.rerunDrift cells)

end Carryover

structure Revision where
  previous : RevisedPlan
  named : Named previous
  offer : Offer
  /-- The bodies that the head's document expands to; `none` once it no longer expands. -/
  headBodies : Option (List Json)

structure CampaignMembership where
  previous : RevisedPlan
  named : Named previous
  sources : FileTree JobId Json
  offered : List Offered

def CampaignMembership.carry (membership : CampaignMembership) : Carryover :=
  .ofRevision membership.previous membership.named membership.sources membership.offered

section Rekeying

variable {Text : Type} (toText : Json → Text) (sha256 : Text → String)

/-- One more body: a v1 digest that two different bodies share cannot say which one a job was. -/
def rekeyBody (byLegacy : FileTree String (Option String)) (body : Json) :
    FileTree String (Option String) :=
  let digest := contentDigest toText sha256 body
  let legacy := legacyContentDigest toText sha256 body
  match byLegacy.lookup legacy with
  | none => byLegacy.insert legacy (some digest)
  | some known =>
    if known = some digest then byLegacy else byLegacy.insert legacy none

def rekeyed (bodies : List Json) (legacy : String) : Option String :=
  ((bodies.foldl (rekeyBody toText sha256) ∅).lookup legacy).join

/-- A digest that is no v1 digest of the job's body, such as a drift marker, stays. -/
def rekeyDigest (fromDocument : String → Option String) (recorded : String) :
    Option Json → String
  | some body =>
    if legacyContentDigest toText sha256 body = recorded then contentDigest toText sha256 body
    else recorded
  | none => (fromDocument recorded).getD recorded

def RevisedPlan.rekey (previous : RevisedPlan) (digest : JobId → String → String) : RevisedPlan :=
  { previous with
    contentKeys := previous.contentKeys.mapContents digest
    listed := fun j hj => previous.listed j (FileTree.mem_mapContents.mp hj) }

def Named.rekey {previous : RevisedPlan} (named : Named previous)
    (digest : JobId → String → String) : Named (previous.rekey digest) :=
  { named with held := fun j hj => FileTree.mem_mapContents.mpr (named.held j hj) }

/-- The document stands in for the sources that were never stored. -/
def Revision.membership (plans : FileTree PlanId (Except Fault RevisedPlan))
    (jobSource : JobId → Except Fault (Option Json)) (revision : Revision) :
    Except Fault CampaignMembership := do
  let read ← revision.previous.contentKeys.entries.mapM fun e => do
    let source ← jobSource e.1
    pure (e.1, source)
  let fromDocument := if read.any (·.2.isNone) then
      rekeyed toText sha256 (revision.headBodies.getD [])
    else fun _ => none
  let sources : FileTree JobId Json := read.foldl (fun sources (j, source) =>
    match source with
    | some body => sources.insert j body
    | none => sources) ∅
  let digest := fun j recorded => rekeyDigest toText sha256 fromDocument recorded (sources.lookup j)
  let offered ← offeredJobs plans jobSource revision.previous revision.offer
  pure ⟨revision.previous.rekey digest, revision.named.rekey digest, sources, offered⟩

end Rekeying

structure Candidate where
  jobId : JobId
  body : Json
  origin : Option PlanId

structure Unclaimed where
  cells : FileTree String (List Candidate)
  offers : Bool

structure Draw where
  inherited : List Inherited
  rerunOf : FileTree JobId JobId
  unclaimed : Unclaimed

/-- The jobs whose body was read, each with its body; a body is given out once. -/
def claimSources : FileTree JobId Json → List JobId → List (JobId × Json)
  | _, [] => []
  | sources, j :: rest =>
    match sources.lookup j with
    | some body => (j, body) :: claimSources (sources.erase j) rest
    | none => claimSources sources rest

section Cells

variable {Text : Type} (toText : Json → Text) (sha256 : Text → String)

/-- The superseded plan's jobs that no unit drew, by job id, then the other plans' in the order
offered. -/
def Unclaimed.of (order : HashOrder) (pool : FileTree String (List JobId))
    (sources : FileTree JobId Json) (offered : List Offered) : Unclaimed :=
  let head := Assoc.sortByKey
    (claimSources sources (order.visit (pool.entries.map (·.2))).flatten)
  let candidates := head.map (fun (j, body) => (⟨j, body, none⟩ : Candidate)) ++
    offered.map fun o => ⟨o.jobId, o.body, some o.planId⟩
  { cells := candidates.foldl
      (fun cells candidate => cells.pushBack (cellDigest toText sha256 candidate.body) candidate) ∅
    offers := !offered.isEmpty }

def Carryover.draw (order : HashOrder) (carry : Carryover) (units : List CellUnit) :
    Except IngestError Draw :=
  let (inherited, carry) := carry.takeAll units
  match carry.requireNamedPlaced with
  | .ok () => .ok ⟨inherited, carry.rerunOf,
      .of toText sha256 order carry.pool carry.sources carry.offered⟩
  | .error e => .error e

inductive RecordedRun
  | finished (flags : Finset String)
  | failed

structure CellResult where
  cellDigest : String
  jobId : JobId
  body : Json
  runFlags : Finset String

/-- What the stores answer while a revision is drawn. -/
structure CarryReads where
  drawnOutcomes : Finset JobId → Except Fault (JobId → Option SettledOutcome)
  findRuns : Finset JobId → Except Fault (JobId → Option RecordedRun)
  findCellResults : Finset String → Except Fault (List CellResult)
  openOutcomes : Finset JobId → Except Fault (JobId → Option SettledOutcome)

def ofStore {α : Type} : Except Fault α → Except IngestError α
  | .ok a => .ok a
  | .error e => .error (.other e)

structure Answers where
  /-- The units that drew nothing, had a recorded run of their cell, and took none. -/
  requirementsRerun : Finset Nat
  offered : FileTree JobId PlanId

def drawnJobs (slots : List Inherited) : List JobId :=
  slots.filterMap fun
    | .job j => some j
    | .nothing | .rerun _ | .recalculate _ | .answered _ | .satisfied _ => none

structure Wanted where
  index : Nat
  body : Json
  cell : String
  drewNothing : Bool

/-- The units that may take a candidate: those that drew nothing, or a job that is still queued. -/
def Unclaimed.wanted (unclaimed : Unclaimed) (units : List CellUnit)
    (bodyOf : CellUnit → Option Json) (inherited : List Inherited) (queued : List JobId) :
    List Wanted :=
  units.zipIdx.filterMap fun (unit, index) => do
    let drewNothing ← match ← inherited[index]? with
      | .nothing => some true
      | .job j => if j ∈ queued then some false else none
      | .rerun _ | .recalculate _ | .answered _ | .satisfied _ => none
    let body ← bodyOf unit
    let cell := cellDigest toText sha256 body
    if (unclaimed.cells.lookup cell).isSome then some ⟨index, body, cell, drewNothing⟩ else none

structure Answering where
  cells : FileTree String (List Candidate)
  answers : Answers
  inherited : List Inherited

def Candidate.answers (runs : JobId → Option RecordedRun) (body : Json) (candidate : Candidate) :
    Bool :=
  match runs candidate.jobId with
  | some (.finished flags) => runAnswers candidate.body body flags
  | some .failed | none => false

def Answering.answerUnit (runs : JobId → Option RecordedRun) (s : Answering) (w : Wanted) :
    Answering :=
  match s.cells.lookup w.cell with
  | none => s
  | some candidates =>
    match candidates.findIdx? (·.answers runs w.body) with
    | none =>
      -- the superseded plan's own run: another plan's is not it
      let ran := candidates.any fun c => c.origin.isNone && (runs c.jobId).isSome
      if w.drewNothing && ran then
        { s with answers.requirementsRerun := insert w.index s.answers.requirementsRerun }
      else s
    | some at_ =>
      match candidates[at_]? with
      | none => s
      | some taken =>
        { cells := s.cells.insert w.cell (candidates.eraseIdx at_)
          answers := match taken.origin with
            | some p => { s.answers with offered := s.answers.offered.insert taken.jobId p }
            | none => s.answers
          inherited := s.inherited.set w.index (.answered taken.jobId) }

/-- The drawn jobs that have no record, read only where other plans are on offer. -/
def Unclaimed.queued (unclaimed : Unclaimed) (inherited : List Inherited) (reads : CarryReads) :
    Except IngestError (List JobId) :=
  if unclaimed.offers then do
    let drawn := drawnJobs inherited
    let settled ← ofStore (reads.drawnOutcomes drawn.toFinset)
    pure (drawn.filter fun j => (settled j).isNone)
  else pure []

/-- Give each unit that drew nothing a finished job of its cell whose run still answers it; with
other plans on offer, also a unit that drew a queued job. -/
def Unclaimed.answer (unclaimed : Unclaimed) (order : HashOrder) (units : List CellUnit)
    (bodyOf : CellUnit → Option Json) (inherited : List Inherited) (reads : CarryReads) :
    Except IngestError (Answers × List Inherited) := do
  let queued ← unclaimed.queued inherited reads
  let wanted := unclaimed.wanted toText sha256 units bodyOf inherited queued
  let jobIds := (order.visit (wanted.map (·.cell)).dedup).flatMap fun cell =>
    ((unclaimed.cells.lookup cell).getD []).map (·.jobId)
  let runs ← ofStore (reads.findRuns jobIds.toFinset)
  let answering := wanted.foldl (Answering.answerUnit runs) ⟨unclaimed.cells, ⟨∅, ∅⟩, inherited⟩
  pure (answering.answers, answering.inherited)

structure Satisfaction where
  unit : Nat
  cell : String
  jobId : JobId
  carried : Option JobId

structure Eligible where
  index : Nat
  body : Json
  cell : String

def eligibleUnits (units : List CellUnit) (bodyOf : CellUnit → Option Json)
    (inherited : List Inherited) : List Eligible :=
  units.zipIdx.filterMap fun (unit, index) => do
    let body ← bodyOf unit
    let isOpen := match ← inherited[index]? with
      | .nothing | .job _ => true
      | .rerun _ | .recalculate _ | .answered _ | .satisfied _ => false
    if isOpen && mergeable body then some ⟨index, body, cellDigest toText sha256 body⟩ else none

structure Satisfying where
  held : Finset JobId
  satisfied : List Satisfaction
  inherited : List Inherited

def Satisfying.satisfyUnit (recorded : JobId → Option SettledOutcome) (results : List CellResult)
    (s : Satisfying) (e : Eligible) : Satisfying :=
  let carried := match s.inherited[e.index]? with
    | some (.job j) => some j
    | _ => none
  -- a carried job that has a record is the run of the campaign
  if carried.any fun j => (recorded j).isSome then s
  else
    match (results.filter (·.cellDigest = e.cell)).find? fun run =>
      decide (run.jobId ∉ s.held) && runAnswers run.body e.body run.runFlags with
    | none => s
    | some run =>
      { held := insert run.jobId s.held
        satisfied := s.satisfied ++ [⟨e.index, e.cell, run.jobId, carried⟩]
        inherited := s.inherited.set e.index (.satisfied run.jobId) }

def recordedDraws (eligible : List Eligible) (results : List CellResult)
    (inherited : List Inherited) (reads : CarryReads) :
    Except IngestError (JobId → Option SettledOutcome) :=
  let drawn := drawnJobs ((eligible.filter fun e =>
    results.any (·.cellDigest = e.cell)).filterMap fun e => inherited[e.index]?)
  if drawn.isEmpty then pure fun _ => none
  else ofStore (reads.openOutcomes drawn.toFinset)

/-- Give a unit that would mint, or carry a queued job, an earlier finished job of its cell whose run
answers it. -/
def satisfyFromEarlierRuns (units : List CellUnit) (bodyOf : CellUnit → Option Json)
    (inherited : List Inherited) (reads : CarryReads) :
    Except IngestError (List Satisfaction × List Inherited) := do
  let eligible := eligibleUnits toText sha256 units bodyOf inherited
  if eligible.isEmpty then pure ([], inherited)
  else
    let results ← ofStore (reads.findCellResults (eligible.map (·.cell)).toFinset)
    let recorded ← recordedDraws eligible results inherited reads
    -- a job this plan already holds answers no other unit
    let s := eligible.foldl (Satisfying.satisfyUnit recorded results)
      ⟨(heldJobs inherited).toFinset, [], inherited⟩
    pure (s.satisfied, s.inherited)

structure CarryOutcome where
  inherited : List Inherited
  rerunOf : FileTree JobId JobId
  answers : Answers
  satisfied : List Satisfaction

def Carryover.carry (order : HashOrder) (carry : Carryover) (reads : CarryReads)
    (units : List CellUnit) (bodyOf : CellUnit → Option Json) : Except IngestError CarryOutcome := do
  let draw ← carry.draw toText sha256 order units
  let (answers, inherited) ← draw.unclaimed.answer toText sha256 order units bodyOf draw.inherited
    reads
  let (satisfied, inherited) ← satisfyFromEarlierRuns toText sha256 units bodyOf inherited reads
  pure ⟨inherited, draw.rerunOf, answers, satisfied⟩

end Cells

end Pipette
