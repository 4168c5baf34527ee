import Pipette.Core.Plan

/-! The markers beside the queue: the eligible index with the flags that ask for its repair, and
the notes requests and runs leave about jobs and clients. -/
namespace Pipette

/-- `eligible/clients/{client_id}/{job_id}.{expires_at}` -/
structure EligibleMarker where
  clientId : ClientId
  jobId : JobId
  expiresAt : ExpiresAt
deriving DecidableEq, Repr

/-- `pending-reindex/{client_id}.{nonce}`: each write is a key of its own. -/
structure ReindexFlag where
  clientId : ClientId
  nonce : Nat
deriving DecidableEq, Repr

structure IndexState where
  eligible : FileTree EligibleMarker Unit
  flags : FileTree ReindexFlag Unit
  nextNonce : Nat
  jobFlags : FileTree JobId Unit
  indexed : Finset AvailKey
  workers : List ClientId

inductive IndexCall
  | listEligibleForClient (c : ClientId)
  | listAllEligible
  | writeEligible (m : EligibleMarker)
  | deleteEligible (m : EligibleMarker)
  | deleteEligibleForClient (c : ClientId)
  | writePendingReindex (c : ClientId)
  | listPendingReindex
  | hasPendingReindex (c : ClientId)
  | deletePendingReindex (f : ReindexFlag)
  | writePendingReindexJob (j : JobId)
  | listPendingReindexJobs
  | deletePendingReindexJob (j : JobId)
  | readEligibleIndexed
  | writeEligibleIndexed (keys : Finset AvailKey)
  | readEligibleWorkers
  | writeEligibleWorkers (workers : List ClientId)

namespace IndexCall

abbrev Answer : IndexCall → Type
  | listEligibleForClient _ | listAllEligible => List EligibleMarker
  | listPendingReindex => List ReindexFlag
  | hasPendingReindex _ => Bool
  | listPendingReindexJobs => List JobId
  | readEligibleIndexed => Finset AvailKey
  | readEligibleWorkers => List ClientId
  | writeEligible _ | deleteEligible _ | deleteEligibleForClient _ | writePendingReindex _
  | deletePendingReindex _ | writePendingReindexJob _ | deletePendingReindexJob _
  | writeEligibleIndexed _ | writeEligibleWorkers _ => Unit

def step : (c : IndexCall) → IndexState → c.Answer × IndexState
  | listEligibleForClient c, s => (s.eligible.keys.filter (·.clientId = c), s)
  | listAllEligible, s => (s.eligible.keys, s)
  | writeEligible m, s => ((), { s with eligible := s.eligible.insert m () })
  | deleteEligible m, s => ((), { s with eligible := s.eligible.erase m })
  | deleteEligibleForClient c, s =>
    ((), { s with eligible := s.eligible.eraseWhere (·.clientId = c) })
  | writePendingReindex c, s =>
    ((), { s with flags := s.flags.insert ⟨c, s.nextNonce⟩ (), nextNonce := s.nextNonce + 1 })
  | listPendingReindex, s => (s.flags.keys, s)
  | hasPendingReindex c, s => (s.flags.keys.any (·.clientId = c), s)
  | deletePendingReindex f, s => ((), { s with flags := s.flags.erase f })
  | writePendingReindexJob j, s => ((), { s with jobFlags := s.jobFlags.insert j () })
  | listPendingReindexJobs, s => (s.jobFlags.keys, s)
  | deletePendingReindexJob j, s => ((), { s with jobFlags := s.jobFlags.erase j })
  | readEligibleIndexed, s => (s.indexed, s)
  | writeEligibleIndexed keys, s => ((), { s with indexed := keys })
  | readEligibleWorkers, s => (s.workers, s)
  | writeEligibleWorkers workers, s => ((), { s with workers := workers })

end IndexCall

/-- `lost/{job_id}/{client_id}.{lease_expiry}` -/
structure LostLease where
  jobId : JobId
  clientId : ClientId
  leaseExpiry : Stamp
deriving DecidableEq, Repr

/-- A key a sweep saw orphaned, kept for the next run to confirm. -/
inductive GcKey
  | eligible (m : EligibleMarker)
  | denied (j : JobId) (c : ClientId)
  | suspended (c : ClientId)
  | liveness (c : ClientId)
  | pendingReindex (f : ReindexFlag)
  | pendingReindexJob (j : JobId)
  | lost (j : JobId)
  | leased (l : Lease)
  | contentKey (digest : String)
  | jobPlan (j : JobId) (p : PlanId) (d : ExpiresAt)
deriving DecidableEq, Repr

structure BacklogSnapshot where
  countedAt : Instant
  jobs : List (ClientId × Nat)

structure NoteState where
  denied : FileTree (JobId × ClientId) Unit
  lost : FileTree LostLease Unit
  suspended : FileTree ClientId JobId
  liveness : FileTree ClientId Instant
  gcCandidates : Finset GcKey
  backlog : Option BacklogSnapshot

inductive NoteCall
  | writeDenied (j : JobId) (c : ClientId)
  | isDenied (j : JobId) (c : ClientId)
  | deleteDenied (j : JobId) (c : ClientId)
  | deleteDeniedForJob (j : JobId)
  | listAllDenied
  | writeLostLease (l : LostLease)
  | listLostLeases (j : JobId)
  | listLostLeaseJobs
  | deleteLostLeasesForJob (j : JobId)
  | writeSuspension (c : ClientId) (conflicting : JobId)
  | readSuspension (c : ClientId)
  | listSuspensions
  | deleteSuspension (c : ClientId)
  | listLiveness
  | deleteLiveness (c : ClientId)
  | readGcCandidates
  | writeGcCandidates (keys : Finset GcKey)
  | writeBacklog (snapshot : BacklogSnapshot)

namespace NoteCall

abbrev Answer : NoteCall → Type
  | isDenied _ _ => Bool
  | listAllDenied => List (JobId × ClientId)
  | listLostLeases _ => List LostLease
  | listLostLeaseJobs => List JobId
  | readSuspension _ => Option JobId
  | listSuspensions | listLiveness => List ClientId
  | readGcCandidates => Finset GcKey
  | writeDenied _ _ | deleteDenied _ _ | deleteDeniedForJob _ | writeLostLease _
  | deleteLostLeasesForJob _ | writeSuspension _ _ | deleteSuspension _ | deleteLiveness _
  | writeGcCandidates _ | writeBacklog _ => Unit

def step : (c : NoteCall) → NoteState → c.Answer × NoteState
  | writeDenied j c, s => ((), { s with denied := s.denied.insert (j, c) () })
  | isDenied j c, s => ((s.denied.lookup (j, c)).isSome, s)
  | deleteDenied j c, s => ((), { s with denied := s.denied.erase (j, c) })
  | deleteDeniedForJob j, s => ((), { s with denied := s.denied.eraseWhere (·.1 = j) })
  | listAllDenied, s => (s.denied.keys, s)
  | writeLostLease l, s => ((), { s with lost := s.lost.insert l () })
  | listLostLeases j, s => (s.lost.keys.filter (·.jobId = j), s)
  | listLostLeaseJobs, s => ((s.lost.keys.map (·.jobId)).dedup, s)
  | deleteLostLeasesForJob j, s => ((), { s with lost := s.lost.eraseWhere (·.jobId = j) })
  | writeSuspension c j, s => ((), { s with suspended := s.suspended.insert c j })
  | readSuspension c, s => (s.suspended.lookup c, s)
  | listSuspensions, s => (s.suspended.keys, s)
  | deleteSuspension c, s => ((), { s with suspended := s.suspended.erase c })
  | listLiveness, s => (s.liveness.keys, s)
  | deleteLiveness c, s => ((), { s with liveness := s.liveness.erase c })
  | readGcCandidates, s => (s.gcCandidates, s)
  | writeGcCandidates keys, s => ((), { s with gcCandidates := keys })
  | writeBacklog snapshot, s => ((), { s with backlog := some snapshot })

end NoteCall

end Pipette
