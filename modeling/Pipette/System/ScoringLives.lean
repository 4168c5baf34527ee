import Pipette.Pipeline.RecordCheck

/-! The two scoring crons over their whole life: runs that overlap, fail, crash at any call and are
started again never leave a job without its record. -/
namespace Pipette

open Prog Prog.Pool RecordState

inductive ScoringCron
  | processSubmissions
  | scoreEval
deriving DecidableEq

/-- The runs of a cron: the scorer may answer otherwise in each of them, and the jobs are those the
run lists. -/
def ScoringCron.Runs : ScoringCron → Op Unit → Prop
  | processSubmissions, p => ∃ scorer chunks staged, p = Pipette.processSubmissions scorer chunks staged
  | scoreEval, p => ∃ scorer jobs, p = runScoreEval scorer jobs

theorem ScoringCron.Runs.careful {cron : ScoringCron} {p : Op Unit} (h : cron.Runs p) (w : World) :
    Careful p (fun _ _ => True) w := by
  cases cron with
  | processSubmissions =>
    obtain ⟨scorer, chunks, staged, rfl⟩ := h
    exact careful_processSubmissions
  | scoreEval =>
    obtain ⟨scorer, jobs, rfl⟩ := h
    exact careful_runScoreEval

def scoringPool (w : World) : Pool Stores World ScoringCron fun _ => Unit := ⟨w, fun _ => .ret ()⟩

theorem scoringPool_kept {w : World} {s : Pool Stores World ScoringCron fun _ => Unit}
    (h : Lives machine.faulty ScoringCron.Runs (scoringPool w) s) :
    ∀ i, Careful (s.procs i) (fun _ _ => True) s.world := by
  refine (h.sat (R := KeptWorld) (G := Covering) (fun c w r w' hcov => hcov.kept) ?_ ?_).2
  · exact fun i p hp => hp.careful
  · exact fun i => careful_ret ()

theorem RecordState.recorded_iff_past {s : RecordState} {j : JobId} :
    s.Recorded j ↔ s.Past j 0 :=
  ⟨fun ⟨p, hp⟩ => ⟨p, Nat.zero_le _, hp⟩, fun ⟨p, _, hp⟩ => ⟨p, hp⟩⟩

/-- One `process-submissions` and one `score-eval` run at a time, any call failing, any run stopped
at any of its calls and any number of runs started after it: a job that has a record in one of the
five places at some moment has one at every later moment. -/
theorem scoring_keeps_record {w : World} {s t : Pool Stores World ScoringCron fun _ => Unit}
    (hbefore : Lives machine.faulty ScoringCron.Runs (scoringPool w) s) {j : JobId}
    (hrec : s.world.records.Recorded j) (hafter : Lives machine.faulty ScoringCron.Runs s t) :
    t.world.records.Recorded j := by
  have hkept : KeptWorld s.world t.world := by
    refine (hafter.sat (G := Covering) (fun c w r w' hcov => hcov.kept) ?_ (scoringPool_kept hbefore)).1
    exact fun i p hp => hp.careful
  rw [recorded_iff_past] at hrec ⊢
  exact hkept.past j 0 (by omega) hrec

def incomingEval (j : JobId) : World :=
  { World.empty with records := ⟨(∅ : FileTree _ _).insert (.incoming, j) (.obj []), ∅, ∅⟩ }

def startRun (s : Pool Stores World ScoringCron fun _ => Unit) (i : ScoringCron) (p : Op Unit) :
    Pool Stores World ScoringCron fun _ => Unit :=
  ⟨s.world, Function.update s.procs i p⟩

theorem lives_startRun {s : Pool Stores World ScoringCron fun _ => Unit} {i : ScoringCron}
    {p : Op Unit} (h : i.Runs p) : Lives machine.faulty ScoringCron.Runs s (startRun s i p) :=
  .restart .refl h

/-- `process-submissions` routes the eval and crashes before it clears `incoming/`; `score-eval`
stages it meanwhile; the next `process-submissions` archives it and crashes again. -/
theorem scoring_keeps_record_crashed :
    let j : JobId := ⟨"job"⟩
    let scorer : Scorer := ⟨fun _ => true, fun _ => .ok .null, fun _ _ => true, fun _ => none⟩
    let routing := processSubmissions scorer [[j]] []
    let s := startRun (startRun (scoringPool (incomingEval j)) .processSubmissions routing) .scoreEval
      (runScoreEval scorer [j])
    let t := s.play machine [.processSubmissions, .processSubmissions, .scoreEval, .scoreEval,
      .scoreEval, .scoreEval]
    let u := (startRun t .processSubmissions (processSubmissions scorer [] [j])).play machine
      [.processSubmissions, .processSubmissions, .processSubmissions]
    (∀ p, u.world.records.Holds j p ↔ p = .incoming ∨ p = .processed) ∧
      u.world.records.Recorded j := by
  intro j scorer routing s t u
  have hroute : ScoringCron.processSubmissions.Runs routing := ⟨scorer, _, _, rfl⟩
  have hstage : ScoringCron.scoreEval.Runs (runScoreEval scorer [j]) := ⟨scorer, _, rfl⟩
  have harchive : ScoringCron.processSubmissions.Runs (processSubmissions scorer [] [j]) :=
    ⟨scorer, _, _, rfl⟩
  have hstart : Lives machine.faulty ScoringCron.Runs (scoringPool (incomingEval j)) s :=
    .trans (lives_startRun hroute) (lives_startRun hstage)
  have hclean : ∀ {s t : Pool Stores World ScoringCron fun _ => Unit},
      Reach machine.clean (fun _ _ _ => True) s t → Lives machine.faulty ScoringCron.Runs s t := by
    intro s t h
    have hfaulty : Reach machine.faulty (fun _ _ _ => True) s t :=
      h.mono (fun _ _ _ _ h => .inl h) fun _ _ _ h => h
    exact hfaulty.lives
  have ht : Lives machine.faulty ScoringCron.Runs s t := hclean (.play fun _ _ => trivial)
  have hu : Lives machine.faulty ScoringCron.Runs t u :=
    .trans (lives_startRun harchive) (hclean (.play fun _ _ => trivial))
  refine ⟨by decide +kernel, scoring_keeps_record hstart (j := j) ?_ (ht.trans hu)⟩
  decide +kernel

end Pipette
