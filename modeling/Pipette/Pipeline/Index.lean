import Pipette.Pipeline.Teardown

/-! The passes that keep the eligible index: for each working client, the jobs it may claim. -/
namespace Pipette

/-- Clear the partition of each client that left the workers. Answers those that joined, which get
a full rebuild. -/
def trackWorkerChanges (indexed workers : List ClientId) : Op (List ClientId) := do
  if indexed.toFinset = workers.toFinset then pure []
  else
    (indexed.filter (· ∉ workers)).forM fun c => Op.index (.deleteEligibleForClient c)
    pure (workers.filter (· ∉ indexed))

def committedPlan (manifests : List PlanManifest) (p : PlanId) : Bool :=
  manifests.any fun m => m.planId = p && decide (m.status ≠ .creating)

/-- The jobs whose memberships all point at plans that are creating or missing. A job without a
membership is not among them. -/
def uncommittedJobs (jobs : List JobId) (markers : List JobPlanMarker)
    (manifests : List PlanManifest) : List JobId :=
  jobs.filter fun j =>
    markers.any (·.jobId = j) &&
      !markers.any fun m => decide (m.jobId = j) && committedPlan manifests m.planId

def markWorkers (workers : List Client) (tags : FleetTags) (k : AvailKey) (body : Json) :
    Op Unit :=
  workers.forM fun c =>
    if jobMatchesClient body c tags then Op.index (.writeEligible ⟨c.clientId, k.jobId, k.expiresAt⟩)
    else pure ()

def indexNewJob (workers : List Client) (tags : FleetTags) (bodies : Bodies) (k : AvailKey) :
    Op Bodies := do
  let (body, bodies) ← cachedBody k bodies
  match body with
  | none => pure bodies
  | some body =>
    markWorkers workers tags k body
    pure bodies

/-- Index the keys absent from the persisted set, then write the set: the listed keys, and those
the leased jobs come back under, so that a recycled job is not indexed again. -/
def indexNewJobs (workers : List Client) (tags : FleetTags) (keys : List AvailKey)
    (leasedAvailKeys : Finset AvailKey) (bodies : Bodies) : Op Bodies := do
  let indexed ← Op.index .readEligibleIndexed
  let bodies ← (keys.filter (· ∉ indexed)).foldlM (indexNewJob workers tags) bodies
  let retained := keys.toFinset ∪ leasedAvailKeys
  if retained = indexed then pure bodies
  else
    Op.index (.writeEligibleIndexed retained)
    pure bodies

def remarkClient (client : Client) (tags : FleetTags) (bodies : Bodies) (k : AvailKey) :
    Op Bodies := do
  let (body, bodies) ← cachedBody k bodies
  match body with
  | none =>
    Op.index (.writePendingReindexJob k.jobId)
    pure bodies
  | some body =>
    if jobMatchesClient body client tags then
      Op.index (.writeEligible ⟨client.clientId, k.jobId, k.expiresAt⟩)
    pure bodies

def freshCapabilities (c : ClientId) : Op (Option (Finset String)) := do
  let record ← Op.fleet (.getClient c)
  let tags ← Op.fleet (.clientTags c)
  pure (record.map fun r => tags.capabilitiesOf r)

def dropFlags (flags : List ReindexFlag) : Op Unit :=
  flags.forM fun f => Op.index (.deletePendingReindex f)

/-- A record changed during the rebuild keeps its flags, and so does a failed look. -/
def dropFlagsIfUnchanged (c : ClientId) (evaluated : Finset String) (flags : List ReindexFlag) :
    Op Unit := do
  match ← (freshCapabilities c).attempt with
  | .ok (some fresh) => if fresh = evaluated then dropFlags flags else pure ()
  | .ok none | .error _ => pure ()

def workerRecord (workers : List ClientId) (c : ClientId) : Op (Option Client) :=
  if c ∈ workers then Op.fleet (.getClient c) else pure none

/-- Rebuild one client's partition from its record as it is now; a client that is no worker, or has
no record, only loses its partition. -/
def reindexClient (workers : List ClientId) (keys : List AvailKey) (flags : List ReindexFlag)
    (bodies : Bodies) (c : ClientId) : Op Bodies := do
  let own := flags.filter (·.clientId = c)
  match ← workerRecord workers c with
  | none =>
    Op.index (.deleteEligibleForClient c)
    dropFlags own
    pure bodies
  | some client =>
    let tags ← Op.fleet (.clientTags c)
    Op.index (.deleteEligibleForClient c)
    let bodies ← keys.foldlM (remarkClient client tags) bodies
    dropFlagsIfUnchanged c (tags.capabilitiesOf client) own
    pure bodies

/-- Re-evaluate each flagged client and each joiner against all listed keys. The leased jobs, which
the rebuild does not see, are flagged first. -/
def reindexFlaggedClients (workers joined : List ClientId) (keys : List AvailKey)
    (leased : List JobId) (bodies : Bodies) : Op Bodies := do
  let flags ← Op.index .listPendingReindex
  let clients := (joined ++ flags.map (·.clientId)).dedup
  if clients.any (· ∈ workers) then
    leased.forM fun j => Op.index (.writePendingReindexJob j)
  clients.foldlM (reindexClient workers keys flags) bodies

def settleMarker (workers : List ClientId) (tags : FleetTags) (k : AvailKey) (body : Json)
    (client : Client) : Op Unit :=
  if client.clientId ∈ workers ∧ jobMatchesClient body client tags then
    Op.index (.writeEligible ⟨client.clientId, k.jobId, k.expiresAt⟩)
  else Op.index (.deleteEligible ⟨client.clientId, k.jobId, k.expiresAt⟩)

def settlePendingReindexJob (workers : List ClientId) (clients : List Client) (tags : FleetTags)
    (keys : List AvailKey) (bodies : Bodies) (j : JobId) : Op Bodies := do
  match availByJob keys j with
  | none =>
    if ← hasRecord j then Op.index (.deletePendingReindexJob j)
    pure bodies
  | some k =>
    let (body, bodies) ← cachedBody k bodies
    match body with
    | none => pure bodies
    | some body =>
      clients.forM (settleMarker workers tags k body)
      Op.index (.deletePendingReindexJob j)
      pure bodies

/-- Clients are read again: the rebuild may have consumed the flag that would repair a marker
written from an older record. -/
def settlePendingReindexJobs (workers : List ClientId) (keys : List AvailKey) (bodies : Bodies) :
    Op Bodies := do
  let flags ← Op.index .listPendingReindexJobs
  if flags.isEmpty then pure bodies
  else
    let clients ← Op.fleet .drainClients
    let tags ← Op.fleet .listForwardTagMarkers
    flags.foldlM (settlePendingReindexJob workers clients tags keys) bodies

end Pipette
