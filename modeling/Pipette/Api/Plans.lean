import Mathlib.Data.List.Sort
import Pipette.Pipeline.Settle

/-! The work queue a device drives: claim, heartbeat and reclaim. -/
namespace Pipette

structure Config where
  planLeaseDurationSecs : Nat
  planLostLeaseLimit : Nat

def Config.leaseExpiryFrom (cfg : Config) (now : Instant) : Stamp :=
  .ofInstant (now + cfg.planLeaseDurationSecs * nanosPerSec)

structure ClaimAnswer where
  jobId : Option Json
  benchmarkId : Option Json
  timeWindow : String
  expiresAt : Option Stamp
  clientVersions : Finset String
  spec : Option Json

inductive Response
  | ok
  | noContent
  | notFound
  | conflict
  | claimed (answer : ClaimAnswer)

/-- Every grant and renewal renames before it lists, so the later of two racing ones sees both
leases. Answers the other job the client was suspended over. -/
def suspendIfHoldingAnotherLease (c : ClientId) (j : JobId) (now : Instant) :
    Op (Option JobId) := do
  let leases ← Op.queue (.listLeasedOf c)
  match leases.find? fun l => l.jobId ≠ j && now < l.leaseExpiry.instant with
  | none => pure none
  | some other =>
    Op.notes (.writeSuspension c other.jobId)
    pure (some other.jobId)

inductive Reverted
  | pendingReindex
  | secondLease (conflicting : JobId)

def revertClaimIfVoid (l : Lease) (now : Instant) : Op (Option Reverted) := do
  if ← Op.index (.hasPendingReindex l.clientId) then
    let _ ← resolveOrRecycleLease l
    pure (some .pendingReindex)
  else
    match ← suspendIfHoldingAnotherLease l.clientId l.jobId now with
    | none => pure none
    | some other =>
      let _ ← resolveOrRecycleLease l
      pure (some (.secondLease other))

/-- A denial, when given, keeps the client's later polls off the job; it is durable before the
recycle. -/
def putBackOutOfVaultReach (l : Lease) (denied : Bool) : Op Unit := do
  if denied then Op.notes (.writeDenied l.jobId l.clientId)
  let _ ← resolveOrRecycleLease l

/-- A failed check reverts without a denial: the fault may be the store's. -/
def revertClaimIfOutOfVaultReach (l : Lease) (body : Json) : Op Bool := do
  match ← (Op.fleet (.clientMayFetchJob l.clientId body)).attempt with
  | .ok true => pure false
  | .ok false =>
    putBackOutOfVaultReach l true
    pure true
  | .error _ =>
    putBackOutOfVaultReach l false
    pure true

def ownLease (c : ClientId) (j : JobId) : Op (Option Lease) := do
  let leases ← Op.queue (.listLeasedOf c)
  pure (leases.find? (·.jobId = j))

/-- The lease and its body. A renewal renames the key, so a miss looks the lease up once more. -/
def ownLeasedBody (c : ClientId) (j : JobId) : Op (Option (Lease × Json)) := do
  match ← ownLease c j with
  | none => pure none
  | some l =>
    match ← Op.queue (.read (.leased l)) with
    | some body => pure (some (l, body))
    | none =>
      match ← ownLease c j with
      | none => pure none
      | some current =>
        let body ← Op.queue (.read (.leased current))
        pure (body.map fun body => (current, body))

def refuseRenewalOutOfVaultReach (c : ClientId) (j : JobId) : Op Unit := do
  match ← ownLeasedBody c j with
  | none => pure ()
  | some (l, body) =>
    if ← Op.fleet (.clientMayFetchJob c body) then pure ()
    else
      putBackOutOfVaultReach l true
      Op.fail .forbidden

def iso8601Duration (secs : Nat) : String :=
  if secs % 60 = 0 then "PT" ++ toString (secs / 60) ++ "M" else "PT" ++ toString secs ++ "S"

/-- The builds the client may run the job on: each reported version the job admits when it is the
client's only one. -/
def admittedClientVersions (body : Json) (client : Client) (tags : FleetTags) : Finset String :=
  match Clauses.parse body with
  | none => ∅
  | some clauses =>
    let flags := tags.capabilitiesOf client
    let versions := flags.filter fun flag => (clientVersionOf flag).isSome
    let others := flags.filter fun flag => !(clientVersionOf flag).isSome
    ((versions.filter fun flag => clauses.admits body client.clientId (insert flag others)).image
      fun flag => (clientVersionOf flag).getD "").filter fun version => version ≠ ""

def claimResponse (body : Json) (expiresAt : ExpiresAt) (secs : Nat)
    (clientVersions : Finset String) : ClaimAnswer :=
  let spec := (body.get "spec").filter fun s => !s.isNull
  { jobId := body.get "job_id"
    benchmarkId := (spec.bind fun s => s.get "benchmark").filter Json.isString
    timeWindow := iso8601Duration secs
    expiresAt := match expiresAt with
      | .atStamp s => some s
      | .never => none
    clientVersions, spec }

/-- A client's live leases by job: a listing can show both keys of a renewal, so the later one
counts. -/
def ownLive (c : ClientId) (live : List Lease) : FileTree JobId Lease :=
  (live.filter (·.clientId = c)).foldl (fun own l =>
    match own.lookup l.jobId with
    | some held => if held.leaseExpiry < l.leaseExpiry then own.insert l.jobId l else own
    | none => own.insert l.jobId l) ∅

def rankCandidates (tiebreak : EligibleMarker → Nat) (markers : List EligibleMarker) :
    List EligibleMarker :=
  markers.insertionSort fun a b =>
    a.expiresAt < b.expiresAt ∨ a.expiresAt = b.expiresAt ∧ tiebreak a ≤ tiebreak b

/-- A re-date may have moved the entry since the marker was written: a miss tries once more, under
the key the job has now. -/
def claimAtCurrentKey (c : ClientId) (j : JobId) (markerExpiresAt : ExpiresAt)
    (leaseExpiry : Stamp) (now : Instant) : Op (Option (ExpiresAt × Json)) := do
  match ← claimJob ⟨j, markerExpiresAt⟩ c leaseExpiry with
  | some body => pure (some (markerExpiresAt, body))
  | none =>
    match ← availKeyForJob j with
    | none => pure none
    | some current =>
      if current.expiresAt = markerExpiresAt || current.expiresAt.isExpired now then pure none
      else
        let body ← claimJob ⟨j, current.expiresAt⟩ c leaseExpiry
        pure (body.map fun body => (current.expiresAt, body))

/-- Hand a live lease back to the client that holds it, without renewing it. The lease counts as
lost; a job out of losses is withheld. `none` when the lease is no longer there. -/
def handBackLease (cfg : Config) (now : Instant) (client : Client) (l : Lease) :
    Op (Option Response) := do
  match ← Op.queue (.read (.leased l)) with
  | none => pure none
  | some body =>
    if ← Op.index (.hasPendingReindex client.clientId) then pure (some .noContent)
    else if ← revertClaimIfOutOfVaultReach l body then pure (some .noContent)
    else if ← outOfLosses then pure (some .noContent)
    else
      let remaining := ((l.leaseExpiry.instant - now) / nanosPerSec).toNat
      let tags ← Op.fleet (.clientTags client.clientId)
      let versions := admittedClientVersions body client tags
      pure (some (.claimed (claimResponse body l.expiresAt remaining versions)))
where
  outOfLosses : Op Bool := do
    if 0 < cfg.planLostLeaseLimit then
      Op.notes (.writeLostLease ⟨l.jobId, client.clientId, l.leaseExpiry⟩)
      let losses ← Op.notes (.listLostLeases l.jobId)
      pure (decide (cfg.planLostLeaseLimit ≤ losses.length))
    else pure false

def claimFirst (cfg : Config) (now : Instant) (client : Client) (tags : FleetTags) :
    List EligibleMarker → Op Response
  | [] => pure .noContent
  | m :: rest => do
    let leaseExpiry := cfg.leaseExpiryFrom now
    if ← Op.notes (.isDenied m.jobId client.clientId) then claimFirst cfg now client tags rest
    else
      match ← claimAtCurrentKey client.clientId m.jobId m.expiresAt leaseExpiry now with
      | none => claimFirst cfg now client tags rest
      | some (granted, body) =>
        let lease : Lease := ⟨m.jobId, granted, client.clientId, leaseExpiry⟩
        match ← revertClaimIfVoid lease now with
        | some _ => pure .noContent
        | none =>
          if ← revertClaimIfOutOfVaultReach lease body then claimFirst cfg now client tags rest
          else
            let versions := admittedClientVersions body client tags
            pure (.claimed (claimResponse body granted cfg.planLeaseDurationSecs versions))

def claimNew (cfg : Config) (now : Instant) (client : Client) (tiebreak : EligibleMarker → Nat)
    (taken : List JobId) : Op Response := do
  let candidates ← Op.index (.listEligibleForClient client.clientId)
  if candidates.isEmpty then pure .noContent
  else
    let tags ← Op.fleet (.clientTags client.clientId)
    let open_ := candidates.filter fun m => !taken.contains m.jobId && !m.expiresAt.isExpired now
    claimFirst cfg now client tags (rankCandidates tiebreak open_)

def claim (cfg : Config) (now : Instant) (client : Client) (tiebreak : EligibleMarker → Nat) :
    Op Response := do
  if (← Op.notes (.readSuspension client.clientId)).isSome then pure .noContent
  else if ← Op.index (.hasPendingReindex client.clientId) then pure .noContent
  else
    let leases ← Op.queue .listLeased
    let live := leases.filter fun l => now < l.leaseExpiry.instant
    let taken := (live.filter (·.clientId ≠ client.clientId)).map (·.jobId)
    match (ownLive client.clientId live).entries with
    | conflicting :: _ :: _ =>
      -- a client holds at most one lease
      Op.notes (.writeSuspension client.clientId conflicting.1)
      pure .noContent
    | [held] =>
      match ← handBackLease cfg now client held.2 with
      | some response => pure response
      | none => claimNew cfg now client tiebreak taken
    | [] => claimNew cfg now client tiebreak taken

def refuseRenewal (c : ClientId) (j : JobId) : Op (Option Response) := do
  if (← Op.notes (.readSuspension c)).isSome then Op.fail .forbidden
  else if ← Op.index (.hasPendingReindex c) then pure (some .notFound)
  else
    refuseRenewalOutOfVaultReach c j
    pure none

/-- Renewing a lapsed lease can leave the client a second live one. -/
def renewed (c : ClientId) (j : JobId) (now : Instant) : Op Response := do
  if (← suspendIfHoldingAnotherLease c j now).isSome then Op.fail .forbidden else pure .ok

def heartbeat (cfg : Config) (now : Instant) (c : ClientId) (j : JobId) : Op Response := do
  match ← refuseRenewal c j with
  | some response => pure response
  | none =>
    match ← renewLease j c (cfg.leaseExpiryFrom now) with
    | .renewed _ => renewed c j now
    | .notFound => pure .notFound
    | .wrongClient => pure .conflict

def reacquire (cfg : Config) (now : Instant) (c : ClientId) (j : JobId) : Op Response := do
  let candidates ← Op.index (.listEligibleForClient c)
  match candidates.find? (·.jobId = j) with
  | none => pure .notFound
  | some m =>
    if m.expiresAt.isExpired now then pure .notFound
    else if ← Op.notes (.isDenied j c) then pure .notFound
    else
      match ← claimJob ⟨j, m.expiresAt⟩ c (cfg.leaseExpiryFrom now) with
      | none => pure .notFound
      | some body =>
        let lease : Lease := ⟨j, m.expiresAt, c, cfg.leaseExpiryFrom now⟩
        if (← revertClaimIfVoid lease now).isSome then pure .notFound
        else if ← revertClaimIfOutOfVaultReach lease body then Op.fail .forbidden
        else pure .ok

/-- `POST /plans/{job_id}/reclaim`: a held job may finish past its deadline, so the renewal comes
first. -/
def reclaim (cfg : Config) (now : Instant) (c : ClientId) (j : JobId) : Op Response := do
  match ← refuseRenewal c j with
  | some response => pure response
  | none =>
    match ← renewLease j c (cfg.leaseExpiryFrom now) with
    | .renewed _ => renewed c j now
    | .wrongClient => pure .conflict
    | .notFound => reacquire cfg now c j

end Pipette
