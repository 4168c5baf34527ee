import Pipette.Core.ContentKey
import Pipette.Pipeline.Grouping
import Pipette.Pipeline.Joins

/-! One placement of an ingest: the content-key index says whether a job already runs the cell. A
record whose job is provably gone is replaced, on the condition that it still is the record that
was read. -/
namespace Pipette

open Prog

inductive PlaceCall
  | store (c : StoreCall)
  /-- `Utc::now()` -/
  | clock
  | getContentKey (digest : String)
  /-- `hard_link`: whether the digest was free. -/
  | linkContentKey (digest : String) (record : ContentKeyRecord)
  /-- The read of a swap: whether the digest still holds `read`. -/
  | checkContentKey (digest : String) (read : ContentKeyRecord)
  /-- The write of a swap, whose check found `read`. -/
  | renameContentKey (digest : String) (read record : ContentKeyRecord)

abbrev PlaceCall.Answer : PlaceCall → Type
  | store c => c.Answer
  | clock => Instant
  | getContentKey _ => Option ContentKeyRecord
  | linkContentKey _ _ | checkContentKey _ _ => Bool
  | renameContentKey _ _ _ => Unit

abbrev PlaceCalls : Interface where
  Call := PlaceCall
  Answer := PlaceCall.Answer
  Fault := Fault

abbrev PlaceOp (α : Type) : Type := Prog PlaceCalls α

def Op.placing {α : Type} : Op α → PlaceOp α
  | .ret a => .ret a
  | .fail e => .fail e
  | .call c k => .call (.store c) fun r => Op.placing (k r)

namespace PlaceOp

def clock : PlaceOp Instant := store (I := PlaceCalls) .clock

def getContentKey (digest : String) : PlaceOp (Option ContentKeyRecord) :=
  store (I := PlaceCalls) (.getContentKey digest)

def linkContentKey (digest : String) (record : ContentKeyRecord) : PlaceOp Bool :=
  store (I := PlaceCalls) (.linkContentKey digest record)

def checkContentKey (digest : String) (read : ContentKeyRecord) : PlaceOp Bool :=
  store (I := PlaceCalls) (.checkContentKey digest read)

def renameContentKey (digest : String) (read record : ContentKeyRecord) : PlaceOp Unit :=
  store (I := PlaceCalls) (.renameContentKey digest read record)

end PlaceOp

inductive ContentKeyClaim
  | created
  | alreadyExists (record : ContentKeyRecord)

inductive ContentKeyCas
  | applied
  | lost

/-- Create-if-absent. The record of a refused create may be collected before it is read, so there
are `tries`; a digest that vanishes every time is an error. -/
def createContentKeyWithin (digest : String) (record : ContentKeyRecord) :
    Nat → PlaceOp ContentKeyClaim
  | 0 => .fail .store
  | tries + 1 => do
    if ← PlaceOp.linkContentKey digest record then pure .created
    else
      match ← PlaceOp.getContentKey digest with
      | some incumbent => pure (.alreadyExists incumbent)
      | none => createContentKeyWithin digest record tries

def createContentKey (digest : String) (record : ContentKeyRecord) : PlaceOp ContentKeyClaim :=
  createContentKeyWithin digest record 2

/-- Read, check, write: a record changed since the caller read it is refused. Not atomic. -/
def replaceContentKey (digest : String) (read record : ContentKeyRecord) :
    PlaceOp ContentKeyCas := do
  if ← PlaceOp.checkContentKey digest read then
    PlaceOp.renameContentKey digest read record
    pure .applied
  else pure .lost

namespace MergeContext

variable (ctx : MergeContext)

def tryJoinNow : Option (List Lease) → ContentKeyRecord → ExpiresAt →
    PlaceOp (JoinAttempt × Option (List Lease)) :=
  ctx.tryJoin Op.placing PlaceOp.clock

def carryNow : Option (List Lease) → JobId → ExpiresAt →
    PlaceOp (Option JoinTarget × Option (List Lease)) :=
  ctx.carry Op.placing PlaceOp.clock

def recordFor (unit : CellUnit) (version : Nat) : ContentKeyRecord :=
  ⟨unit.candidate, ctx.planId, ctx.now, version⟩

variable (version : Nat)

/-- Take a provably orphaned digest over. A lost swap reads again and retries the join once, then
mints unmerged. -/
def replaceStale (snapshot : Option (List Lease)) (unit : CellUnit) (read : ContentKeyRecord) :
    PlaceOp (Placed × Option (List Lease)) := do
  match ← replaceContentKey unit.digest read (ctx.recordFor unit version) with
  | .applied => pure (.fresh, snapshot)
  | .lost =>
    match ← PlaceOp.getContentKey unit.digest with
    | none => pure (.fresh, snapshot)
    | some record =>
      match ← ctx.tryJoinNow snapshot record unit.horizon with
      | (.joined target, snapshot) => pure (.join target, snapshot)
      | (.declined, snapshot) | (.stale, snapshot) => pure (.fresh, snapshot)

def resolve (snapshot : Option (List Lease)) (unit : CellUnit) (record : ContentKeyRecord) :
    PlaceOp (Placed × Option (List Lease)) := do
  match ← ctx.tryJoinNow snapshot record unit.horizon with
  | (.joined target, snapshot) => pure (.join target, snapshot)
  | (.declined, snapshot) => pure (.fresh, snapshot)
  | (.stale, snapshot) => ctx.replaceStale version snapshot unit record

def claim (snapshot : Option (List Lease)) (unit : CellUnit) :
    PlaceOp (Placed × Option (List Lease)) := do
  match ← createContentKey unit.digest (ctx.recordFor unit version) with
  | .created => pure (.fresh, snapshot)
  | .alreadyExists record => ctx.resolve version snapshot unit record

/-- Publish the key of a job minted without reading the index; an incumbent keeps the digest. -/
def claimUnmerged (snapshot : Option (List Lease)) (unit : CellUnit) :
    PlaceOp (Placed × Option (List Lease)) := do
  let _ ← createContentKey unit.digest (ctx.recordFor unit version)
  pure (.fresh, snapshot)

def placeByKey (snapshot : Option (List Lease)) (unit : CellUnit) (body : Json) :
    PlaceOp (Placed × Option (List Lease)) := do
  if mergeable body then
    match ← PlaceOp.getContentKey unit.digest with
    | none => ctx.claim version snapshot unit
    | some record => ctx.resolve version snapshot unit record
  else ctx.claimUnmerged version snapshot unit

/-- Place one unit: what the superseded plan left for the cell comes ahead of the index and of the
opt-out. -/
def place (snapshot : Option (List Lease)) (unit : CellUnit) (body : Json) :
    Inherited → PlaceOp (Placed × Option (List Lease))
  | .job j => do
    match ← ctx.carryNow snapshot j unit.horizon with
    | (some target, snapshot) => pure (.join target, snapshot)
    | (none, snapshot) => ctx.placeByKey version snapshot unit body
  | .rerun _ => ctx.claimUnmerged version snapshot unit
  | .recalculate _ => pure (.fresh, snapshot)
  | .answered j => pure (.join ⟨j, unit.horizon, .carried, true⟩, snapshot)
  | .satisfied j => pure (.join ⟨j, unit.horizon, .satisfied, true⟩, snapshot)
  | .nothing => ctx.placeByKey version snapshot unit body

end MergeContext

end Pipette
