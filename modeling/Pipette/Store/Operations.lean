import Pipette.Store.World

/-! The store operations that take several calls: another process can act between two of them. -/
namespace Pipette

def deleteAvail (k : AvailKey) : Op Unit := (Op.queue (.remove (.avail k))).void

/-- Remove every entry of the job's `avail/` directory; one that vanished since the listing fails
the rest. -/
def deleteAvailByJob (j : JobId) : Op Unit := do
  let deadlines ← Op.queue (.listAvailOf j)
  deadlines.forM fun d => do
    if ← Op.queue (.remove (.avail ⟨j, d⟩)) then pure () else Op.fail .missing

def availKeyForJob (j : JobId) : Op (Option AvailKey) := do
  let deadlines ← Op.queue (.listAvailOf j)
  pure (deadlines.head?.map fun d => ⟨j, d⟩)

def redateAvail (k : AvailKey) (horizon : ExpiresAt) : Op Bool :=
  Op.queue (.rename (.avail k) (.avail ⟨k.jobId, horizon⟩))

inductive RenewLeaseResult
  | renewed (expiresAt : ExpiresAt)
  | wrongClient
  | notFound

/-- Renewal needs the lease to exist, not to be unexpired: only a recycle ends a lease. -/
def renewLease (j : JobId) (c : ClientId) (newExpiry : Stamp) : Op RenewLeaseResult := do
  let own ← Op.queue (.listLeasedOf c)
  match own.find? (·.jobId = j) with
  | some lease =>
    if ← Op.queue (.rename (.leased lease) (.leased { lease with leaseExpiry := newExpiry })) then
      pure (.renewed lease.expiresAt)
    else elsewhere
  | none => elsewhere
where
  /-- No lease of ours: is the job in another client's partition? -/
  elsewhere : Op RenewLeaseResult := do
    let leases ← Op.queue .listLeased
    if leases.any fun l => l.clientId ≠ c && l.jobId = j then pure .wrongClient
    else pure .notFound

def deleteLease (l : Lease) : Op Unit := (Op.queue (.remove (.leased l))).void

/-- The body of the claimed job; `none` when another process took the entry first. -/
def claimJob (k : AvailKey) (c : ClientId) (leaseExpiry : Stamp) : Op (Option Json) := do
  let lease : Lease := ⟨k.jobId, k.expiresAt, c, leaseExpiry⟩
  if ← Op.queue (.rename (.avail k) (.leased lease)) then
    match ← Op.queue (.read (.leased lease)) with
    | some body => pure (some body)
    | none => Op.fail .missing
  else pure none

def recycleLease (l : Lease) : Op Bool :=
  Op.queue (.rename (.leased l) (.avail l.availKey))

def promoteAvail (k : AvailKey) : Op Unit := do
  if ← Op.queue (.rename (.tmp k.jobId) (.avail k)) then pure () else Op.fail .missing

def hasRecordFrom : List Place → JobId → Op Bool
  | [], _ => pure false
  | p :: rest, j => do
    if ← Op.records (.tryExists p j) then pure true else hasRecordFrom rest j

def recordPlaces : List Place := [.incoming, .toDo, .parked, .toFinalize, .processed]

def hasRecord (j : JobId) : Op Bool := hasRecordFrom recordPlaces j

/-- The submission with its state, the place it was found in. -/
def getSubmission (j : JobId) : Op (Option (Place × Json)) := do
  match ← Op.records (.read .incoming j) with
  | some body => pure (some (.incoming, body))
  | none => pure ((← Op.records (.read .processed j)).map fun body => (.processed, body))

def markProcessed (j : JobId) : Op Unit := do
  match ← Op.records (.read .incoming j) with
  | none => Op.fail .missing
  | some body =>
    Op.records (.write .processed j body)
    if ← Op.records (.remove .incoming j) then pure () else Op.fail .missing

def submissionIn : Place → Json → Option Json
  | .toFinalize, entry => entry.get "submission"
  | .incoming, entry | .toDo, entry | .parked, entry | .processed, entry => some entry

def findBody : List Place → JobId → Op (Option Json)
  | [], _ => pure none
  | p :: rest, j => do
    match ← Op.records (.read p j) with
    | none => findBody rest j
    | some entry =>
      match submissionIn p entry with
      | some body => pure (some body)
      | none => Op.fail .unscorable

def findJob (j : JobId) : Op (Option Json) :=
  findBody [.incoming, .processed, .toDo, .parked, .toFinalize] j

/-- The archive is read first and last, so that a record archived meanwhile is still found. -/
def findOutcome (j : JobId) : Op (Option SettledOutcome) := do
  let body ← findBody [.processed, .incoming, .toDo, .parked, .toFinalize, .processed] j
  pure (body.map SettledOutcome.ofRecord)

def findOutcomes (jobs : List JobId) : Op (List (JobId × SettledOutcome)) :=
  jobs.foldlM (fun found j => do
    match ← findOutcome j with
    | some outcome => pure (found ++ [(j, outcome)])
    | none => pure found) []

end Pipette
