import Pipette.Api.Plans

/-! Results a device submits: a terminal one becomes the job's record, a retriable failure sends
the job back to the queue. -/
namespace Pipette

inductive SubmissionKind
  | success
  | failure (retriable : Bool)
deriving DecidableEq

structure Submission where
  jobId : JobId
  kind : SubmissionKind
  body : Json

/-- The lease is renewed, not read, so that no recycle can take it while the result is written. -/
def verifyClaim (j : JobId) (c : ClientId) (newExpiry : Stamp) : Op ExpiresAt := do
  if ← Op.index (.hasPendingReindex c) then Op.fail .notFound
  else
    match ← renewLease j c newExpiry with
    | .renewed expiresAt => pure expiresAt
    | .wrongClient => Op.fail .conflict
    | .notFound => Op.fail .notFound

def claimedBody (c : ClientId) (j : JobId) (kind : SubmissionKind) : Op (Option Json) := do
  match ← (ownLeasedBody c j).attempt with
  | .ok leased => pure (leased.map Prod.snd)
  | .error e => if kind = .success then Op.fail e else pure none

def bindClaim (cfg : Config) (now : Instant) (c : ClientId) (s : Submission) : Op Unit := do
  let body ← claimedBody c s.jobId s.kind
  if s.kind = .success then
    match body with
    | some body =>
      if ← Op.fleet (.clientMayFetchJob c body) then pure () else Op.fail .forbidden
    | none => pure ()
  let _ ← verifyClaim s.jobId c (cfg.leaseExpiryFrom now)
  -- a lease that appeared after the read skipped the vault check
  if s.kind = .success ∧ body = none then Op.fail .notFound else pure ()

/-- The denial is durable before the recycle, which destroys the lease a retry needs. -/
def handleRetriableFailure (sched : List Bool) (c : ClientId) (j : JobId) : Op Unit := do
  let (denied, leased) ←
    Prog.par sched (Op.notes (.writeDenied j c)).attempt (ownLease c j).attempt
  match denied, leased with
  | .error e, _ => Op.fail e
  | .ok _, .error e => Op.fail e
  | .ok _, .ok none => pure ()
  | .ok _, .ok (some l) =>
    let _ ← Op.queue (.read (.leased l))
    let _ ← recycleLease l

def recordSubmission (c : ClientId) (s : Submission) (held : Bool) : Op Unit :=
  if held then Op.records (.writeUnverified c s.jobId s.body)
  else Op.records (.write .incoming s.jobId s.body)

def dropLease (c : ClientId) (j : JobId) : Op Unit := do
  match ← (ownLease c j).attempt with
  | .ok (some l) => (deleteLease l).attempt.void
  | .ok none | .error _ => pure ()

def dropAvail (j : JobId) : Op Unit := (deleteAvailByJob j).attempt.void

def teardownCompletedJob (sched : List Bool) (c : ClientId) (j : JobId) : Op Unit :=
  (Prog.par sched (dropLease c j) (dropAvail j)).void

/-- `POST /benchmarks`: `held` for a client not yet approved, `claimed` for a submission that
names a job of the queue. -/
def submitBenchmark (cfg : Config) (now : Instant) (sched : List Bool) (c : ClientId)
    (s : Submission) (held claimed : Bool) : Op Unit := do
  let bound := !held && claimed
  if bound then bindClaim cfg now c s
  if bound && decide (s.kind = .failure true) then handleRetriableFailure sched c s.jobId
  else
    recordSubmission c s held
    if bound then teardownCompletedJob sched c s.jobId

end Pipette
