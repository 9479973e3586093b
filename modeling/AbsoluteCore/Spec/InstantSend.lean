/-
Which locks go when a lock is removed, and when that is enough.

A lock is removed with all its descendants, the stored locks that spend an output of its
transaction or of a descendant's.  A transaction of a ChainLocked block can conflict with
several locks.  The node removes the first of them.
-/
import AbsoluteCore.Llmq.InstantSend

namespace Absolute

/-- The lock is stored under the hash and spends an output of the transaction. -/
def ChildOf (db : CInstantSendDb) (parent hash : Uint256) (islock : CInstantSendLock) : Prop :=
  ∃ o : COutPoint, o.hash = parent ∧ db.inputs[o]? = some hash ∧ db.islocks[hash]? = some islock

inductive Chained (db : CInstantSendDb) (txid : Uint256) : Uint256 → CInstantSendLock → Prop
  | child {hash : Uint256} {islock : CInstantSendLock} :
      ChildOf db txid hash islock → Chained db txid hash islock
  | next {hash hash' : Uint256} {islock islock' : CInstantSendLock} :
      Chained db txid hash islock → ChildOf db islock.txid hash' islock' →
      Chained db txid hash' islock'

/-- An input has a lock that is for another transaction. -/
structure LockConflict (db : CInstantSendDb) (txid : Uint256) (txin : CTxIn) (hash : Uint256)
    (islock : CInstantSendLock) : Prop where
  input : db.inputs[txin.prevout]? = some hash
  stored : db.islocks[hash]? = some islock
  other : islock.txid ≠ txid

/-- The conflicting lock of the first input that has one. -/
def FirstConflict (db : CInstantSendDb) (txid : Uint256) (vin : List CTxIn)
    (islock : CInstantSendLock) : Prop :=
  ∃ before txin after hash, vin = before ++ txin :: after ∧ LockConflict db txid txin hash islock ∧
    ∀ i ∈ before, ∀ h l, ¬ LockConflict db txid i h l

section

variable (env : InstantSendEnv)

def RemovedWith (db : CInstantSendDb) (islock : CInstantSendLock) (hash : Uint256)
    (removed : CInstantSendLock) : Prop :=
  Chained db islock.txid hash removed ∨
    hash = env.serializeHash islock ∧ db.islocks[hash]? = some removed

/-- Every conflicting lock of the transaction is removed with the first one, or loses the input
to a lock that is. -/
def RemovalCoversConflicts (db : CInstantSendDb) (tx : CTransaction) : Prop :=
  ∀ first, FirstConflict db (env.txHash tx) tx.vin first →
    ∀ txin ∈ tx.vin, ∀ hash islock, LockConflict db (env.txHash tx) txin hash islock →
      ∃ hash' removed, RemovedWith env db first hash' removed ∧
        (hash' = hash ∨ txin.prevout ∈ removed.inputs)

/-- No input is locked by the older InstantSend for another transaction. -/
def NoOldLock (tx : CTransaction) : Prop :=
  ∀ txin ∈ tx.vin, ∀ hash, env.getLockedOutPointTxHash txin.prevout = some hash →
    hash = env.txHash tx

/-- Blocks are checked against the locks. -/
structure FiltersBlocks : Prop where
  enabled : env.isSporkActive .enabled = true
  blockFiltering : env.isSporkActive .blockFiltering = true
  llmqBased : env.isSporkActive .llmqBased = true

end

end Absolute
