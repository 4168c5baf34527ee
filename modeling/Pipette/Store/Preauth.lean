import Pipette.Core.Principal
import Pipette.Core.Queue
import Pipette.Lib.Interleave
import Pipette.Lib.Tree

/-! Pre-auth keys of clients: the records, the markers that retire single-use ones, and what
consumes, revokes and prunes them. -/
namespace Pipette

structure ClientPreauthKeyId where
  raw : String
deriving DecidableEq, Repr

inductive ClientPreauthUsage
  | singleUse
  | multiUse
deriving DecidableEq, Repr

structure ClientPreauthGrant where
  defaultTags : List Tag := []
  defaultOrganization : Option String := none
  defaultOwner : Option ClientOwner := none
  defaultPermissions : Option (List ClientPermission) := none
deriving DecidableEq, Repr

structure ClientPreauthKey extends ClientPreauthGrant where
  keyId : ClientPreauthKeyId
  secretHash : List UInt8
  usage : ClientPreauthUsage
  expiresAt : Option Instant := none
deriving DecidableEq, Repr

def ClientPreauthKey.isExpired (key : ClientPreauthKey) (now : Instant) : Bool :=
  key.expiresAt.any fun at_ => at_ < now

def ClientPreauthKey.grant (key : ClientPreauthKey) : ClientPreauthGrant := key.toClientPreauthGrant

structure ClientPreauthSecret where
  hash : List UInt8
deriving DecidableEq, Repr

def ClientPreauthSecret.matches (secret : ClientPreauthSecret) (storedHash : List UInt8) : Bool :=
  if secret.hash.length ≠ storedHash.length then false
  else (secret.hash.zip storedHash).foldl (fun acc x => acc ||| (x.1 ^^^ x.2)) 0 = 0

inductive ClientPreauthRejection
  | notFound
  | badSecret
  | expired
deriving DecidableEq, Repr

inductive ClientPreauthConsumeOutcome
  | granted (grant : ClientPreauthGrant)
  | rejected (rejection : ClientPreauthRejection)
deriving DecidableEq, Repr

/-- The secret is checked first, so that no status shows without it. -/
def validatePreauth (key : ClientPreauthKey) (secret : ClientPreauthSecret) (now : Instant) :
    Except ClientPreauthRejection ClientPreauthGrant :=
  if !secret.matches key.secretHash then .error .badSecret
  else if key.isExpired now then .error .expired
  else .ok key.grant

inductive Spend
  | claimed
  | alreadySpent
deriving DecidableEq, Repr

structure PreauthState where
  records : FileTree ClientPreauthKeyId ClientPreauthKey
  spent : FileTree ClientPreauthKeyId Instant
  named : ∀ k key, records.lookup k = some key → key.keyId = k

inductive PreauthCall
  | load (k : ClientPreauthKeyId)
  | listRecords
  | deleteRecord (k : ClientPreauthKeyId)
  | claimSpent (k : ClientPreauthKeyId) (now : Instant)
  | listSpent
  | deleteSpent (k : ClientPreauthKeyId)
deriving DecidableEq

abbrev PreauthCall.Answer : PreauthCall → Type
  | load _ => Option ClientPreauthKey
  | listRecords => List ClientPreauthKeyId
  | deleteRecord _ => Unit
  | claimSpent _ _ => Spend
  | listSpent => List ClientPreauthKeyId
  | deleteSpent _ => Unit

inductive PreauthFault
  | store
  | missing
deriving DecidableEq, Repr

abbrev Preauths : Interface where
  Call := PreauthCall
  Answer := PreauthCall.Answer
  Fault := PreauthFault

def PreauthState.deleteRecord (w : PreauthState) (k : ClientPreauthKeyId) : PreauthState where
  records := w.records.erase k
  spent := w.spent
  named := by
    intro k' key h
    rw [FileTree.lookup_remove] at h
    split at h
    · cases h
    · exact w.named k' key h

def preauthMachine : Prog.Machine Preauths PreauthState
  | .load k, w => (w.records.lookup k, w)
  | .listRecords, w => (w.records.keys, w)
  | .deleteRecord k, w => ((), w.deleteRecord k)
  | .claimSpent k now, w =>
    match w.spent.lookup k with
    | some _ => (.alreadySpent, w)
    | none => (.claimed, { w with spent := w.spent.insert k now })
  | .listSpent, w => (w.spent.keys, w)
  | .deleteSpent k, w => ((), { w with spent := w.spent.erase k })

abbrev PreauthOp (α : Type) : Type := Prog Preauths α

namespace PreauthOp

def load (k : ClientPreauthKeyId) : PreauthOp (Option ClientPreauthKey) :=
  Prog.store (I := Preauths) (.load k)

def listRecords : PreauthOp (List ClientPreauthKeyId) := Prog.store (I := Preauths) .listRecords

def deleteRecord (k : ClientPreauthKeyId) : PreauthOp Unit :=
  Prog.store (I := Preauths) (.deleteRecord k)

def claimSpent (k : ClientPreauthKeyId) (now : Instant) : PreauthOp Spend :=
  Prog.store (I := Preauths) (.claimSpent k now)

def listSpent : PreauthOp (List ClientPreauthKeyId) := Prog.store (I := Preauths) .listSpent

def deleteSpent (k : ClientPreauthKeyId) : PreauthOp Unit :=
  Prog.store (I := Preauths) (.deleteSpent k)

end PreauthOp

/-- Spend a single-use key: whoever creates the marker has it, and deletes the record. -/
def spendPreauthKey (k : ClientPreauthKeyId) (now : Instant) (grant : ClientPreauthGrant) :
    PreauthOp ClientPreauthConsumeOutcome := do
  match ← PreauthOp.claimSpent k now with
  | .alreadySpent => pure (.rejected .notFound)
  | .claimed =>
    PreauthOp.deleteRecord k
    pure (.granted grant)

def consumeRecord (k : ClientPreauthKeyId) (secret : ClientPreauthSecret) (now : Instant) :
    Option ClientPreauthKey → PreauthOp ClientPreauthConsumeOutcome
  | none => pure (.rejected .notFound)
  | some key =>
    match validatePreauth key secret now with
    | .error rejection => pure (.rejected rejection)
    | .ok grant =>
      match key.usage with
      | .singleUse => spendPreauthKey k now grant
      | .multiUse => pure (.granted grant)

def consumeClientPreauthKey (k : ClientPreauthKeyId) (secret : ClientPreauthSecret)
    (now : Instant) : PreauthOp ClientPreauthConsumeOutcome := do
  consumeRecord k secret now (← PreauthOp.load k)

def loadListed : List ClientPreauthKeyId → PreauthOp (List ClientPreauthKey)
  | [] => pure []
  | k :: rest => do
    match ← PreauthOp.load k with
    | none => Prog.fail (I := Preauths) .missing
    | some key =>
      let keys ← loadListed rest
      pure (key :: keys)

def listClientPreauthKeys : PreauthOp (List ClientPreauthKey) := do
  loadListed (← PreauthOp.listRecords)

structure PruneTargets where
  expired : List ClientPreauthKeyId
  orphaned : List ClientPreauthKeyId
deriving DecidableEq, Repr

/-- A marker goes only once no record that could still be consumed is left. -/
def pruneTargets (keys : List (ClientPreauthKeyId × Bool)) (markers : List ClientPreauthKeyId) :
    PruneTargets :=
  let expired := (keys.filter (·.2)).map (·.1)
  let held := (keys.filter (!·.2)).map (·.1)
  ⟨expired, markers.filter (· ∉ held)⟩

/-- Delete what is to go, the records before the markers; several deletions run at once. -/
def deletePruned (expiredTurns orphanedTurns : List (List Bool)) (targets : PruneTargets) :
    PreauthOp Unit := do
  let _ ← Prog.parAll expiredTurns (targets.expired.map PreauthOp.deleteRecord)
  let _ ← Prog.parAll orphanedTurns (targets.orphaned.map PreauthOp.deleteSpent)

def prunePreauthKeys (now : Instant) (dryRun : Bool) (expiredTurns orphanedTurns : List (List Bool)) :
    PreauthOp Unit := do
  let keys ← listClientPreauthKeys
  let markers ← PreauthOp.listSpent
  let targets := pruneTargets (keys.map fun key => (key.keyId, key.isExpired now)) markers
  if dryRun then pure () else deletePruned expiredTurns orphanedTurns targets

def revokePreauthKey (k : ClientPreauthKeyId) : PreauthOp Unit := PreauthOp.deleteRecord k

end Pipette
