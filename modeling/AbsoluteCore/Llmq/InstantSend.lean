/-
InstantSend locks and the check of a block against them.

The database keeps each lock under its hash, and two indexes from the transaction and from the
inputs of a lock to that hash.  The caches in front of it answer as the database does and are
left out, and so are the records of mined and of archived locks, which no function here reads.

`::SerializeHash` of a lock, the sporks, the locks of the older InstantSend and the ChainLocks
are given from outside.
-/
import AbsoluteCore.Evo.Environment
import AbsoluteCore.Lib.MapBatch
import AbsoluteCore.Lib.Worklist

namespace Absolute

open Std

structure CInstantSendLock where
  inputs : List COutPoint
  txid : Uint256
  sig : CBLSSignature
deriving DecidableEq, Repr

/-! ### The database -/

structure CInstantSendDb where
  /-- The entries `"is_i"`. -/
  islocks : ExtTreeMap Uint256 CInstantSendLock
  /-- The entries `"is_tx"`. -/
  txids : ExtTreeMap Uint256 Uint256
  /-- The entries `"is_in"`. -/
  inputs : ExtTreeMap COutPoint Uint256 COutPoint.cmp

namespace CInstantSendDb

def empty : CInstantSendDb := ⟨∅, ∅, ∅⟩

variable (db : CInstantSendDb)

def writeNewInstantSendLock (hash : Uint256) (islock : CInstantSendLock) : CInstantSendDb where
  islocks := db.islocks.insert hash islock
  txids := db.txids.insert islock.txid hash
  inputs := MapBatch.write db.inputs (islock.inputs.map fun i => (i, some hash))

def getInstantSendLockByHash (hash : Uint256) : Option CInstantSendLock :=
  db.islocks[hash]?

def getInstantSendLockByInput (outpoint : COutPoint) : Option CInstantSendLock := do
  let islockHash ← db.inputs[outpoint]?
  db.getInstantSendLockByHash islockHash

/-- The iterator starts at the first output of the parent and stops at the next transaction. -/
def getInstantSendLocksByParent (parent : Uint256) : List Uint256 :=
  (db.inputs.toList.filter fun entry => entry.1.hash = parent).map Prod.snd

/-- The removals that a `CDBBatch` holds. -/
abbrev Removals := List (Uint256 × CInstantSendLock)

/-- `islock` is null where the caller has only the hash. -/
def removeInstantSendLock (batch : Removals) (hash : Uint256)
    (islock : Option CInstantSendLock) : Removals :=
  match islock.or (db.getInstantSendLockByHash hash) with
  | none => batch
  | some islock => batch ++ [(hash, islock)]

def writeBatch (batch : Removals) : CInstantSendDb where
  islocks := MapBatch.write db.islocks (MapBatch.erasing _ (batch.map Prod.fst))
  txids := MapBatch.write db.txids (MapBatch.erasing _ (batch.map (·.2.txid)))
  inputs := MapBatch.write db.inputs (MapBatch.erasing _ (batch.flatMap (·.2.inputs)))

/-- The stored locks that spend an output of the parent, each with the transaction at which the
search goes on. -/
def childLocks (parent : Uint256) : List ((Uint256 × CInstantSendLock) × Uint256) :=
  (db.getInstantSendLocksByParent parent).filterMap fun childIslockHash =>
    (db.getInstantSendLockByHash childIslockHash).map fun childIsLock =>
      ((childIslockHash, childIsLock), childIsLock.txid)

/-- The search reads the database as it was, since the batch is written at its end.  It takes
the start and each locked transaction off the stack at most once. -/
def removeChainedInstantSendLocks (islockHash txid : Uint256) : CInstantSendDb × List Uint256 :=
  let batch := Worklist.walkFrom db.childLocks (db.islocks.size + 1) txid
  (db.writeBatch (db.removeInstantSendLock batch islockHash none),
    batch.map Prod.fst ++ [islockHash])

end CInstantSendDb

/-! ### The check of a block -/

inductive InstantSendSpork where
  /-- `SPORK_2_INSTANTSEND_ENABLED`. -/
  | enabled
  /-- `SPORK_3_INSTANTSEND_BLOCK_FILTERING`. -/
  | blockFiltering
  /-- `SPORK_20_INSTANTSEND_LLMQ_BASED`. -/
  | llmqBased
deriving DecidableEq, Repr

structure InstantSendEnv where
  /-- `tx.GetHash()`. -/
  txHash : CTransaction → Uint256
  /-- `::SerializeHash(islock)`. -/
  serializeHash : CInstantSendLock → Uint256
  isSporkActive : InstantSendSpork → Bool
  /-- `instantsend.GetLockedOutPointTxHash(outpoint, hash)`. -/
  getLockedOutPointTxHash : COutPoint → Option Uint256
  /-- `chainLocksHandler->HasChainLock(nHeight, blockHash)`. -/
  hasChainLock : Int → Uint256 → Bool

section Manager

variable (env : InstantSendEnv)

def isNewInstantSendEnabled : Bool :=
  env.isSporkActive .enabled && env.isSporkActive .llmqBased

/-- The lock of an input, if it is for another transaction than `txid`. -/
def otherIsLock (db : CInstantSendDb) (txid : Uint256) (txin : CTxIn) : Option CInstantSendLock :=
  (db.getInstantSendLockByInput txin.prevout).filter (·.txid ≠ txid)

def getConflictingLock (db : CInstantSendDb) (tx : CTransaction) : Option CInstantSendLock :=
  if isNewInstantSendEnabled env = true then tx.vin.findSome? (otherIsLock db (env.txHash tx))
  else none

def removeChainLockConflictingLock (db : CInstantSendDb) (islockHash : Uint256)
    (islock : CInstantSendLock) : CInstantSendDb :=
  (db.removeChainedInstantSendLocks islockHash islock.txid).1

variable (nHeight : Int) (blockHash : Uint256)

/-- One pass of the loop over the transactions in `ConnectBlock`. -/
def checkInstantSendTx (db : CInstantSendDb) (tx : CTransaction) : Except Fail CInstantSendDb := do
  if tx.vin = [] then return db
  rejectIf (tx.vin.any fun txin =>
      (env.getLockedOutPointTxHash txin.prevout).any (· ≠ env.txHash tx))
    10 .invalid "conflict-tx-lock"
  match getConflictingLock env db tx with
  | none => return db
  | some conflictLock =>
    if env.hasChainLock nHeight blockHash = true then
      let db := removeChainLockConflictingLock db (env.serializeHash conflictLock) conflictLock
      assertThat (getConflictingLock env db tx = none)
      return db
    else dos 10 .invalid "conflict-tx-lock"

/-- The InstantSend part of `ConnectBlock`. -/
def checkInstantSend (db : CInstantSendDb) (vtx : List CTransaction) : Except Fail CInstantSendDb :=
  if env.isSporkActive .blockFiltering = true then
    vtx.foldlM (checkInstantSendTx env nHeight blockHash) db
  else .ok db

end Manager

end Absolute
