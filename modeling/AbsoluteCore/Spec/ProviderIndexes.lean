/-
What the indexes of the provider transactions should hold.

Each provider transaction of the pool gives rise to its entries: an address, an owner key, the hash
of an operator key, an external collateral and a reference.  The indexes are exact if they hold the
entries of the transactions in the pool and nothing else.
-/
import AbsoluteCore.Evo.ProviderTx
import AbsoluteCore.Mempool.TxMemPool
import AbsoluteCore.Lib.KeyIndex
import AbsoluteCore.Lib.Run

namespace Absolute

open Std

/-! ### The entries of a transaction -/

namespace ProTx

def addr : ProTx → Option CService
  | .reg p => some p.addr
  | .upServ p => some p.addr
  | _ => none

def keyIDOwner : ProTx → Option CKeyID
  | .reg p => some p.keyIDOwner
  | _ => none

def pubKeyHash (env : Env) : ProTx → Option Uint256
  | .reg p => some (env.pubKeyHash p.pubKeyOperator)
  | .upReg p => some (env.pubKeyHash p.pubKeyOperator)
  | _ => none

def collateralOutpoint : ProTx → Option COutPoint
  | .reg p => some p.collateralOutpoint
  | _ => none

/-- The collateral, if it is an output of another transaction. -/
def externalCollateral (x : ProTx) : Option COutPoint := x.collateralOutpoint.filter (·.hash ≠ 0)

def updates : ProTx → Option Uint256
  | .upServ p => some p.proTxHash
  | .upReg p => some p.proTxHash
  | .upRev p => some p.proTxHash
  | _ => none

/-- The reference, for a transaction with the hash: an update refers to its masternode, and a
registration to the transaction of its collateral. -/
def ref (hash : Uint256) : ProTx → Option (Uint256 × Uint256)
  | .other => none
  | .reg p => if p.collateralOutpoint.hash ≠ 0 then some (hash, p.collateralOutpoint.hash) else none
  | .upServ p => some (p.proTxHash, hash)
  | .upReg p => some (p.proTxHash, hash)
  | .upRev p => some (p.proTxHash, hash)

/-- The reference that goes when the transaction is removed. -/
def erasedRef (hash : Uint256) : ProTx → Option (Uint256 × Uint256)
  | .reg p => if p.collateralOutpoint ≠ .null then some (hash, p.collateralOutpoint.hash) else none
  | x => x.ref hash

end ProTx

namespace CTxMemPool

variable (env : Env) (pool : CTxMemPool)

def txs (hash : Uint256) : Option CTransaction := pool.mapTx[hash]?.map (·.tx)

def proTxs (hash : Uint256) : Option ProTx := pool.mapTx[hash]?.map (·.proTx)

structure IndexesExact (pool : CTxMemPool) : Prop where
  addresses : KeyIndex.Exact pool.proTxs ProTx.addr pool.mapProTxAddresses
  pubKeyIDs : KeyIndex.Exact pool.proTxs ProTx.keyIDOwner pool.mapProTxPubKeyIDs
  blsPubKeyHashes : KeyIndex.Exact pool.proTxs (ProTx.pubKeyHash env) pool.mapProTxBlsPubKeyHashes
  collaterals : KeyIndex.Exact pool.proTxs ProTx.externalCollateral pool.mapProTxCollaterals
  refs : ∀ r, r ∈ pool.mapProTxRefs ↔ ∃ hash x, pool.proTxs hash = some x ∧ x.ref hash = some r

/-! ### Conflicts -/

/-- A key change of the masternode is in the pool, and this entry is the one that refers to the
masternode. -/
def ChangesKey (proTxHash hash : Uint256) (entry : CTxMemPoolEntry) : Prop :=
  ∃ r, entry.proTx.ref hash = some r ∧ r.1 = proTxHash ∧
    ∃ other, pool.mapTx[r.2]? = some other ∧ other.isKeyChangeProTx = true

/-- Why a provider transaction cannot be in the pool together with an entry of it. -/
def ConflictsWith (hash : Uint256) (entry : CTxMemPoolEntry) : ProTx → Prop
  | .other => False
  | .reg p =>
    entry.proTx.addr = some p.addr ∨ entry.proTx.keyIDOwner = some p.keyIDOwner ∨
      entry.proTx.pubKeyHash env = some (env.pubKeyHash p.pubKeyOperator) ∨
      p.collateralOutpoint.hash ≠ 0 ∧
        (entry.proTx.externalCollateral = some p.collateralOutpoint ∨
          p.collateralOutpoint ∈ entry.tx.vin.map (·.prevout))
  | .upServ p => entry.proTx.addr = some p.addr ∧ hash ≠ p.proTxHash
  | .upReg p =>
    pool.ChangesKey p.proTxHash hash entry ∨
      entry.proTx.pubKeyHash env = some (env.pubKeyHash p.pubKeyOperator) ∧ hash ≠ p.proTxHash
  | .upRev p => pool.ChangesKey p.proTxHash hash entry

/-- The payload does not decode, or updates a masternode that is not in the list. -/
def Unchecked (mnList : CDeterministicMNList) (tx : CTransaction) : Prop :=
  tx.decodeProTx = none ∨
    ∃ x proTxHash, tx.decodeProTx = some x ∧ x.updates = some proTxHash ∧
      mnList.getMN proTxHash = none

/-- Conflicts of checked transactions are reported with entries of the pool only. -/
def ConflictsInPool : Prop :=
  ∀ mnList tx, pool.existsProviderTxConflict env mnList tx = true →
    Unchecked mnList tx ∨
      ∃ x hash entry, tx.decodeProTx = some x ∧ pool.mapTx[hash]? = some entry ∧
        pool.ConflictsWith env hash entry x

/-! ### Runs -/

/-- What happens to the pool.  `relink` is a change of the links, which the removal of several
transactions makes first, and `dropRef` the erasure of a reference to a transaction outside the
pool, in `removeProTxSpentCollateralConflicts`. -/
inductive Op where
  | add (mnList : CDeterministicMNList) (entry : CTxMemPoolEntry)
  | remove (hash : Uint256)
  | relink (mapLinks : ExtTreeMap Uint256 TxLinks)
  | dropRef (ref : Uint256 × Uint256)
  | clear

def Step (op : Op) (pool' : CTxMemPool) : Prop :=
  match op with
  | .add mnList entry =>
    pool.existsProviderTxConflict env mnList entry.tx = false ∧
      pool.addUnchecked env mnList entry = .ok pool'
  | .remove hash => hash ∈ pool.mapTx ∧ pool' = pool.removeUnchecked env hash
  | .relink mapLinks => pool' = { pool with mapLinks := mapLinks }
  | .dropRef ref =>
    ref ∈ pool.mapProTxRefs ∧ ref.2 ∉ pool.mapTx ∧
      pool' = { pool with mapProTxRefs := pool.mapProTxRefs.erase ref }
  | .clear => pool' = pool.clear

/-- The second transaction has an entry that goes when the first is removed. -/
def LosesEntry (hash : Uint256) (x : ProTx) (hash' : Uint256) (x' : ProTx) : Prop :=
  (∃ a, x.addr = some a ∧ x'.addr = some a) ∨
    (∃ k, x.pubKeyHash env = some k ∧ x'.pubKeyHash env = some k) ∨
    (∃ r, x.erasedRef hash = some r ∧ x'.ref hash' = some r)

/-- When an operation keeps the indexes exact. -/
def Keeps : Op → Prop
  | .add _ _ => True
  | .remove hash =>
    ∀ x hash' x', pool.proTxs hash = some x → hash' ≠ hash → pool.proTxs hash' = some x' →
      ¬ LosesEntry env hash x hash' x'
  | .relink _ => True
  | .dropRef ref => 2 ≤ pool.mapProTxRefs.count ref
  | .clear => ∀ hash x, pool.proTxs hash = some x → x = .other

/-! ### Spent collaterals -/

/-- A transaction of the block spends the outpoint. -/
def Spends (vtx : List CTransaction) (o : COutPoint) : Prop :=
  ∃ tx ∈ vtx, o ∈ tx.vin.map (·.prevout)

def NoUpdates (proTxHash : Uint256) (pool : CTxMemPool) : Prop :=
  ∀ h x, pool.proTxs h = some x → x.updates ≠ some proTxHash

/-- No registration of the pool has the outpoint for its external collateral. -/
def NoRegistration (o : COutPoint) (pool : CTxMemPool) : Prop :=
  ∀ h x, pool.proTxs h = some x → x.externalCollateral ≠ some o

/-- The pool in which `removeForBlock` looks for the conflicts of provider transactions with `tx`:
the mined transaction and what spends its inputs are gone. -/
def beforeProTxConflicts (tx : CTransaction) : CTxMemPool :=
  let pool := if env.txHash tx ∈ pool.mapTx then pool.removeStaged env [env.txHash tx] else pool
  pool.removeConflicts env tx

/-- No transaction of the block finds a registration there whose external collateral it spends. -/
def SpendsUnregistered (mnList : CDeterministicMNList) : CTxMemPool → List CTransaction → Prop
  | _, [] => True
  | pool, tx :: vtx =>
    (∀ o ∈ tx.vin.map (·.prevout), NoRegistration o (pool.beforeProTxConflicts env tx)) ∧
      SpendsUnregistered mnList (pool.removeForBlockTx env mnList tx) vtx

/-! ### Two registrations -/

/-- The registrations have different keys and collaterals and no service address in common. -/
structure Unrelated (env : Env) (tx₁ tx₂ : CTransaction) (p₁ p₂ : CProRegTx) : Prop where
  owner : p₁.keyIDOwner ≠ p₂.keyIDOwner
  operator : p₁.pubKeyOperator ≠ p₂.pubKeyOperator
  collateral : proRegCollateral env tx₁ p₁ ≠ proRegCollateral env tx₂ p₂
  service : p₁.addr = p₂.addr → p₁.addr = .null

/-- Adding the first transaction to some pool makes the second one conflict with the pool. -/
def Blocks (e₁ e₂ : CTxMemPoolEntry) : Prop :=
  ∃ (pool : CTxMemPool) (mnList : CDeterministicMNList) (pool' : CTxMemPool),
    pool.mapTx[env.txHash e₁.tx]? = none ∧
    pool.existsProviderTxConflict env mnList e₂.tx = false ∧
    pool.addUnchecked env mnList e₁ = .ok pool' ∧
    pool'.existsProviderTxConflict env mnList e₂.tx = true

/-- The transaction of the pool has an address, a key or a collateral in common with the payload. -/
def SharesEntry (x : ProTx) (hash : Uint256) : Prop :=
  ∃ x', pool.proTxs hash = some x' ∧
    ((∃ a, x'.addr = some a ∧ x.addr = some a) ∨
      (∃ k, x'.keyIDOwner = some k ∧ x.keyIDOwner = some k) ∨
      (∃ k, x'.pubKeyHash env = some k ∧ x.pubKeyHash env = some k) ∨
      ∃ o, x'.externalCollateral = some o ∧ x.externalCollateral = some o)

/-- A reference to the transaction belongs to a masternode or a registration whose collateral `tx`
spends. -/
def RefersToSpent (mnList : CDeterministicMNList) (tx : CTransaction) (hash : Uint256) : Prop :=
  ∃ h x r o, pool.proTxs h = some x ∧ x.ref h = some (r, hash) ∧ o ∈ tx.vin.map (·.prevout) ∧
    ((∃ x', pool.proTxs r = some x' ∧ x'.externalCollateral = some o) ∨
      ∃ dmn, mnList.getMNByCollateral env.serializeHash o = some dmn ∧ dmn.proTxHash = r)

/-- The second entry is in a pool with exact indexes, and no other transaction that it descends from
there gives a reason for a removal when the first is mined. -/
structure Sits (mnList : CDeterministicMNList) (e₁ e₂ : CTxMemPoolEntry) : Prop where
  exact : IndexesExact env pool
  keyed : ∀ h tx, pool.txs h = some tx → env.txHash tx = h
  mem : pool.txs (env.txHash e₂.tx) = some e₂.tx
  unreferenced : ¬ pool.RefersToSpent env mnList e₁.tx (env.txHash e₂.tx)
  ancestors : ∀ h, Relation.TransGen (fun a b => b ∈ pool.getMemPoolChildren a) h
    (env.txHash e₂.tx) → ¬ pool.SharesEntry env e₁.proTx h ∧ ¬ pool.RefersToSpent env mnList e₁.tx h

/-- Mining the first transaction removes the second one from some pool. -/
def Evicts (e₁ e₂ : CTxMemPoolEntry) : Prop :=
  ∃ pool mnList, Sits env pool mnList e₁ e₂ ∧
    (pool.removeProTxConflicts env mnList e₁.tx).txs (env.txHash e₂.tx) ≠ some e₂.tx

/-- The first transaction spends the external collateral of the second. -/
def SpendsCollateral (e₁ e₂ : CTxMemPoolEntry) : Prop :=
  ∃ o, e₂.proTx.externalCollateral = some o ∧ o ∈ e₁.tx.vin.map (·.prevout)

end CTxMemPool

end Absolute
