import Mathlib.Data.Prod.Lex
import Mathlib.Data.Sum.Order
import Pipette.Lib.Phases
import Pipette.Lib.Sorting
import Pipette.Store.Markers
import Pipette.Store.Queue

/-! The copy of the job queue from one store to another: what it deletes and writes in the target's
`avail/`, `leased/`, `denied/`, `eligible/` and `lost/`, and in which order. -/
namespace Pipette.QueueCopy

structure DenialRecord where
  deniedAt : Option Instant
  failureReason : Option String
  clientVersion : Option String
  runtimeVersion : Option String
deriving DecidableEq

structure LostMarker where
  jobId : JobId
  clientId : ClientId
  leaseExpiry : Instant
deriving DecidableEq

structure Store where
  queue : QueueState
  denied : FileTree (JobId × ClientId) DenialRecord
  eligible : FileTree EligibleMarker Unit
  lost : FileTree LostMarker Unit

inductive Entry
  | avail (expiresAt : ExpiresAt)
  | leased (leaseExpiry : Stamp) (clientId : ClientId) (expiresAt : ExpiresAt)
deriving DecidableEq

inductive Kind
  | avail
  | leased
deriving DecidableEq

namespace Entry

def kind : Entry → Kind
  | avail _ => .avail
  | leased .. => .leased

def expiresAt : Entry → ExpiresAt
  | avail expiresAt | leased _ _ expiresAt => expiresAt

/-- The derived order ranks last the entry that the copy keeps. -/
def rank : Entry → ExpiresAt ⊕ₗ (Stamp ×ₗ String ×ₗ ExpiresAt)
  | avail expiresAt => Sum.inlₗ expiresAt
  | leased leaseExpiry clientId expiresAt =>
    Sum.inrₗ (toLex (leaseExpiry, toLex (clientId.raw, expiresAt)))

def path (job : JobId) : Entry → QueuePath
  | avail expiresAt => .avail ⟨job, expiresAt⟩
  | leased leaseExpiry clientId expiresAt => .leased ⟨job, expiresAt, clientId, leaseExpiry⟩

def ofLease (lease : Lease) : Entry := leased lease.leaseExpiry lease.clientId lease.expiresAt

end Entry

namespace Store

def read (store : Store) (job : JobId) (entry : Entry) : Option Json :=
  store.queue.files.lookup (entry.path job)

def entries (store : Store) : List (JobId × Entry) :=
  store.queue.availKeys.map (fun key => (key.jobId, Entry.avail key.expiresAt)) ++
    store.queue.leases.map fun lease => (lease.jobId, Entry.ofLease lease)

def entriesOf (store : Store) (job : JobId) : List Entry :=
  (store.entries.filter fun e => e.1 = job).map Prod.snd

def jobs (store : Store) : List JobId := (store.entries.map Prod.fst).dedup

def winner (store : Store) (job : JobId) : Option Entry :=
  (Sorting.sortOn Entry.rank (store.entriesOf job)).getLast?

def kept (store : Store) : List (JobId × Entry) :=
  store.jobs.filterMap fun job => (store.winner job).map fun entry => (job, entry)

end Store

def nanosPerMicro : Int := 1000

/-- A database keeps microseconds; a file can hold nanoseconds. -/
def toMicros (t : Instant) : Instant := t / nanosPerMicro * nanosPerMicro

def toSecond (t : Instant) : Instant := t / nanosPerSec * nanosPerSec

def DenialRecord.normal (r : DenialRecord) : DenialRecord :=
  { r with deniedAt := r.deniedAt.map toMicros }

def sameDenial (a b : DenialRecord) : Bool := a.normal = b.normal

structure Backend where
  spell : Instant → Instant
  toMicros_spell : ∀ t, toMicros (spell t) = toMicros t

def Backend.keep (backend : Backend) (r : DenialRecord) : DenialRecord :=
  { r with deniedAt := r.deniedAt.map backend.spell }

inductive Call
  | deleteEntry (job : JobId) (entry : Entry)
  | writeTmp (job : JobId) (body : Json)
  | promoteAvail (job : JobId) (expiresAt : ExpiresAt)
  | claimJob (lease : Lease)
  | deleteDenied (job : JobId) (client : ClientId)
  | writeDenied (job : JobId) (client : ClientId) (record : DenialRecord)
  | deleteEligible (marker : EligibleMarker)
  | writeEligible (marker : EligibleMarker)
  | deleteLostLeasesForJob (job : JobId)
  | writeLostLease (marker : LostMarker)

/-- The target after a call, or `none` where the call fails: there is nothing to promote, or the
claim finds the job gone. -/
def Call.step (backend : Backend) : Call → Store → Option Store
  | deleteEntry job entry, s => some { s with queue := ⟨s.queue.files.erase (entry.path job)⟩ }
  | writeTmp job body, s => some { s with queue := ⟨s.queue.files.insert (.tmp job) body⟩ }
  | promoteAvail job expiresAt, s =>
    (s.queue.files.rename (.tmp job) (.avail ⟨job, expiresAt⟩)).map fun files =>
      { s with queue := ⟨files⟩ }
  | claimJob lease, s =>
    (s.queue.files.rename (.avail lease.availKey) (.leased lease)).map fun files =>
      { s with queue := ⟨files⟩ }
  | deleteDenied job client, s => some { s with denied := s.denied.erase (job, client) }
  | writeDenied job client record, s =>
    some { s with denied := s.denied.insert (job, client) (backend.keep record) }
  | deleteEligible marker, s => some { s with eligible := s.eligible.erase marker }
  | writeEligible marker, s => some { s with eligible := s.eligible.insert marker () }
  | deleteLostLeasesForJob job, s =>
    some { s with lost := s.lost.eraseWhere fun marker => marker.jobId = job }
  | writeLostLease marker, s => some { s with lost := s.lost.insert marker () }

def Entry.write (job : JobId) (body : Json) : Entry → List Call
  | avail expiresAt => [.writeTmp job body, .promoteAvail job expiresAt]
  | leased leaseExpiry clientId expiresAt =>
    [.writeTmp job body, .promoteAvail job expiresAt,
      .claimJob ⟨job, expiresAt, clientId, leaseExpiry⟩]

structure Read (K V : Type) where
  key : K
  source : Option V
  target : Option (Option V)

structure Write (K V : Type) where
  key : K
  value : V
  replaces : Bool

section Decide

variable {K V : Type}

def unchanged (same : V → V → Bool) (target : Option (Option V)) (value : V) : Bool :=
  match target with
  | some (some held) => same held value
  | _ => false

def decide (same : V → V → Bool) : List (Read K V) → List (Write K V) × List K
  | [] => ([], [])
  | read :: rest =>
    match read.source with
    | none => ((decide same rest).1, read.key :: (decide same rest).2)
    | some value =>
      if unchanged same read.target value then decide same rest
      else (⟨read.key, value, read.target.isSome⟩ :: (decide same rest).1, (decide same rest).2)

def gone (reads : List (K × Bool)) : List K :=
  (reads.filter fun read => !read.2).map Prod.fst

end Decide

/-- The phases of one keyspace, from the source and the target as they stand when it starts. -/
abbrev Plan : Type := List (List (List Call))

variable (source target : Store)

def jobReads : List (Read (JobId × Entry) Json) :=
  source.kept.map fun e =>
    { key := e
      source := source.read e.1 e.2
      target := if e.2 ∈ target.entriesOf e.1 then some (target.read e.1 e.2) else none }

def jobWrites : List (Write (JobId × Entry) Json) :=
  (decide (fun a b => a = b) (jobReads source target)).1

def pinned : List JobId :=
  (decide (fun a b => a = b) (jobReads source target)).2.map Prod.fst

/-- The target entries that go: one that is written anew, one of a job that the source keeps
differently, and one of a job that the source's listing lacks, once a read confirms it. -/
def jobDeletes : List (JobId × Entry) :=
  let held := target.entries.filter fun e => e.1 ∉ pinned source target
  ((jobWrites source target).filter Write.replaces).map Write.key ++
    (held.filter fun e => (source.winner e.1).any fun winner => winner ≠ e.2) ++
    gone ((held.filter fun e => (source.winner e.1).isNone).map fun e =>
      (e, (source.read e.1 e.2).isSome))

def jobs : Plan :=
  let deletes (kind : Kind) := ((jobDeletes source target).filter fun e => e.2.kind = kind).map
    fun e => [Call.deleteEntry e.1 e.2]
  let writes (kind : Kind) := ((jobWrites source target).filter fun w => w.key.2.kind = kind).map
    fun w => w.key.2.write w.key.1 w.value
  [deletes .avail, deletes .leased, writes .avail, writes .leased]

def deniedReads : List (Read (JobId × ClientId) DenialRecord) :=
  source.denied.keys.map fun key =>
    { key
      source := source.denied.lookup key
      target := if key ∈ target.denied.keys then some (target.denied.lookup key) else none }

def deniedWrites : List (Write (JobId × ClientId) DenialRecord) :=
  (decide sameDenial (deniedReads source target)).1

def deniedDeletes : List (JobId × ClientId) :=
  gone ((target.denied.keys.filter fun key => key ∉ source.denied.keys).map
    fun key => (key, (source.denied.lookup key).isSome))

def denied : Plan :=
  [(deniedDeletes source target).map fun key => [.deleteDenied key.1 key.2],
    (deniedWrites source target).map fun w => [.writeDenied w.key.1 w.key.2 w.value]]

def latestDeadline (client : ClientId) (job : JobId) : Option ExpiresAt :=
  (Sorting.sortOn id ((source.eligible.keys.filter fun marker =>
    marker.clientId = client && marker.jobId = job).map EligibleMarker.expiresAt)).getLast?

def keptEligible : List EligibleMarker :=
  ((source.eligible.keys.map fun marker => (marker.clientId, marker.jobId)).dedup).filterMap
    fun key => (latestDeadline source key.1 key.2).map fun expiresAt => ⟨key.1, key.2, expiresAt⟩

def eligible : Plan :=
  let kept := keptEligible source
  [(target.eligible.keys.filter fun marker => marker ∉ kept).map fun marker =>
      [.deleteEligible marker],
    (kept.filter fun marker => marker ∉ target.eligible.keys).map fun marker =>
      [.writeEligible marker]]

def Store.lostSet (store : Store) (job : JobId) : List (ClientId × Instant) :=
  ((store.lost.keys.filter fun marker => marker.jobId = job).map fun marker =>
    (marker.clientId, toSecond marker.leaseExpiry)).dedup

def Store.lostJobs (store : Store) : List JobId :=
  (store.lost.keys.map LostMarker.jobId).dedup

def lostJobs : List JobId :=
  ((source.lostJobs ++ target.lostJobs).dedup).filter fun job =>
    (source.lostSet job).toFinset ≠ (target.lostSet job).toFinset

def lostDeletes : List JobId :=
  (lostJobs source target).filter fun job => !(target.lostSet job).isEmpty

def lostWrites : List LostMarker :=
  (lostJobs source target).flatMap fun job =>
    (source.lostSet job).map fun x => ⟨job, x.1, x.2⟩

/-- Markers are deleted by job alone, so a job whose markers differ loses them all first. -/
def lost : Plan :=
  [(lostDeletes source target).map fun job => [.deleteLostLeasesForJob job],
    (lostWrites source target).map fun marker => [.writeLostLease marker]]

def keyspaces : List (Store → Store → Plan) := [jobs, denied, eligible, lost]

/-- The targets that a copy passes through, with whether it came to its end. A keyspace is planned
when the ones before it are done; a call that fails stops the copy. -/
inductive Copies (backend : Backend) (source : Store) :
    List (Store → Store → Plan) → Store → Store → Bool → Prop
  | finished {s : Store} : Copies backend source [] s s true
  | stopped {keyspace : Store → Store → Plan} {rest : List (Store → Store → Plan)} {s t : Store}
      (h : Phases.Runs (Call.step backend) (keyspace source s) s t false) :
      Copies backend source (keyspace :: rest) s t false
  | next {keyspace : Store → Store → Plan} {rest : List (Store → Store → Plan)} {s t u : Store}
      {done : Bool} (h : Phases.Runs (Call.step backend) (keyspace source s) s t true)
      (hrest : Copies backend source rest t u done) :
      Copies backend source (keyspace :: rest) s u done

/-- The targets that copies of one source pass through, each started where the last one stopped. -/
inductive Retried (backend : Backend) (source s : Store) : Store → Prop
  | start : Retried backend source s s
  | again {t u : Store} {done : Bool} (h : Retried backend source s t)
      (hcopy : Copies backend source keyspaces t u done) : Retried backend source s u

end Pipette.QueueCopy
