import Mathlib.Order.WithBot
import Pipette.Core.Client
import Pipette.Core.Json

/-! The names a queue entry is filed under, and the clock they are read against. -/
namespace Pipette

structure JobId where
  raw : String
deriving DecidableEq, Repr

/-- Nanoseconds since the epoch: what a process reads off its clock. -/
abbrev Instant : Type := Int

/-- Whole seconds since the epoch: all that a key can spell. -/
structure Stamp where
  secs : Int
deriving DecidableEq, Repr

instance : LinearOrder Stamp :=
  LinearOrder.lift' Stamp.secs fun a b h => by cases a; cases b; exact congrArg _ h

def nanosPerSec : Int := 1000000000

def Stamp.instant (s : Stamp) : Instant := s.secs * nanosPerSec

/-- The stamp a key gets for an instant: the fraction of a second is cut. -/
def Stamp.ofInstant (t : Instant) : Stamp := ⟨t / nanosPerSec⟩

inductive ExpiresAt
  | atStamp (s : Stamp)
  | never
deriving DecidableEq, Repr

namespace ExpiresAt

def toWithTop : ExpiresAt → WithTop Stamp
  | atStamp s => s
  | never => ⊤

instance : LinearOrder ExpiresAt :=
  LinearOrder.lift' toWithTop fun a b h => by
    cases a <;> cases b <;> first | rfl | exact congrArg _ (WithTop.coe_injective h) | cases h

/-- Strictly before `now`, so that a claim refuses exactly what the sweep expires. -/
def isExpired (now : Instant) : ExpiresAt → Bool
  | atStamp s => s.instant < now
  | never => false

end ExpiresAt

/-- `avail/{job_id}/{expires_at}.json` -/
structure AvailKey where
  jobId : JobId
  expiresAt : ExpiresAt
deriving DecidableEq, Repr

/-- `leased/{client_id}/{job_id}.{expires_at}.{lease_expiry}.json` -/
structure Lease where
  jobId : JobId
  expiresAt : ExpiresAt
  clientId : ClientId
  leaseExpiry : Stamp
deriving DecidableEq, Repr

def Lease.availKey (l : Lease) : AvailKey := ⟨l.jobId, l.expiresAt⟩

inductive QueuePath
  | avail (k : AvailKey)
  | leased (l : Lease)
  | tmp (j : JobId)
deriving DecidableEq, Repr

def QueuePath.queued : QueuePath → Option AvailKey
  | avail k => some k
  | leased l => some l.availKey
  | tmp _ => none

def bodyJobId (body : Json) : Option JobId :=
  (body.get "job_id").bind fun v => v.asStr.map JobId.mk

end Pipette
