/-
The memory pool: its transactions, the links between them and the indexes of the provider
transactions.

An entry holds its payload decoded, as `addUnchecked` asserts that it decodes.  Iterators into
`mapTx` are the hashes they stand at, and the pointers of `mapNextTx` are the hashes of the
transactions they point to.  Fees, sizes and the package totals are left out here.
-/
import AbsoluteCore.Evo.Environment
import AbsoluteCore.Lib.Worklist

namespace Absolute

open Std

/-! ### Provider transactions -/

/-- A provider transaction with its payload, or a transaction of another type. -/
inductive ProTx where
  | other
  | reg (p : CProRegTx)
  | upServ (p : CProUpServTx)
  | upReg (p : CProUpRegTx)
  | upRev (p : CProUpRevTx)
deriving DecidableEq, Repr

/-- `GetTxPayload` for the type that `nType` names; nothing where the payload does not decode. -/
def CTransaction.decodeProTx (tx : CTransaction) : Option ProTx :=
  match tx.nType with
  | .providerRegister => tx.getProRegTx.map .reg
  | .providerUpdateService => tx.getProUpServTx.map .upServ
  | .providerUpdateRegistrar => tx.getProUpRegTx.map .upReg
  | .providerUpdateRevoke => tx.getProUpRevTx.map .upRev
  | _ => some .other

/-- `pubKey.GetHash()` and `::SerializeHash(pubKey)`. -/
def Env.pubKeyHash (env : Env) (pubKey : CBLSPublicKey) : Uint256 := env.serializeHash (.pubKey pubKey)

/-- Services as the keys of a map: by address, then by port. -/
def CService.cmp : CService → CService → Ordering :=
  compareLex (compareOn CService.ip) (compareOn CService.port)

instance : TransCmp CService.cmp :=
  inferInstanceAs (TransCmp (compareLex (compareOn CService.ip) (compareOn CService.port)))

instance : LawfulEqCmp CService.cmp where
  eq_of_compare := by
    intro a b h
    rw [CService.cmp, compareLex_eq_eq] at h
    obtain ⟨hip, hport⟩ := h
    have hip : a.ip = b.ip := Nat.compare_eq_eq.mp hip
    have hport : a.port = b.port := Nat.compare_eq_eq.mp hport
    cases a
    cases b
    congr

/-! ### The state -/

structure CTxMemPoolEntry where
  tx : CTransaction
  proTx : ProTx
  decoded : tx.decodeProTx = some proTx
  /-- The hash of the operator key that the transaction was valid for. -/
  validForProTxKey : Uint256 := 0
  isKeyChangeProTx : Bool := false
deriving DecidableEq, Repr

structure TxLinks where
  parents : List Uint256
  children : List Uint256
deriving DecidableEq, Repr

structure CTxMemPool where
  mapTx : ExtTreeMap Uint256 CTxMemPoolEntry
  mapLinks : ExtTreeMap Uint256 TxLinks
  mapNextTx : ExtTreeMap COutPoint Uint256 COutPoint.cmp
  /-- A multimap, with the entries in the order in which they were put in. -/
  mapProTxRefs : List (Uint256 × Uint256)
  mapProTxAddresses : ExtTreeMap CService Uint256 CService.cmp
  mapProTxPubKeyIDs : ExtTreeMap CKeyID Uint256
  mapProTxBlsPubKeyHashes : ExtTreeMap Uint256 Uint256
  mapProTxCollaterals : ExtTreeMap COutPoint Uint256 COutPoint.cmp

namespace CTxMemPool

def empty : CTxMemPool := ⟨∅, ∅, ∅, [], ∅, ∅, ∅, ∅⟩

/-! ### Links -/

variable (pool : CTxMemPool)

def getMemPoolParents (entry : Uint256) : List Uint256 :=
  (pool.mapLinks[entry]?.map (·.parents)).getD []

def getMemPoolChildren (entry : Uint256) : List Uint256 :=
  (pool.mapLinks[entry]?.map (·.children)).getD []

def updateParent (entry parent : Uint256) (add : Bool) : CTxMemPool :=
  { pool with
    mapLinks := pool.mapLinks.modify entry fun links =>
      { links with
        parents := if add then links.parents.insert parent else links.parents.erase parent } }

def updateChild (entry child : Uint256) (add : Bool) : CTxMemPool :=
  { pool with
    mapLinks := pool.mapLinks.modify entry fun links =>
      { links with
        children := if add then links.children.insert child else links.children.erase child } }

/-- Enough steps for a walk over all links. -/
def linkFuel : Nat :=
  (pool.mapLinks.toList.flatMap fun link => link.2.children).length + 1

/-- `CalculateDescendants`: the entry and what can be reached from it over children. -/
def calculateDescendants (entry : Uint256) : List Uint256 :=
  (entry :: Worklist.walkFrom
    (fun hash => (pool.getMemPoolChildren hash).map fun child => (child, child))
    pool.linkFuel entry).dedup

/-! ### Adding a transaction -/

section

variable (env : Env) (mnList : CDeterministicMNList) (pool : CTxMemPool)

/-- The part of `addUnchecked` before the provider transactions, for the entry that `mapTx` then
holds. -/
def insertEntry (hash : Uint256) (newit : CTxMemPoolEntry) : CTxMemPool :=
  let pool := { pool with
    mapTx := pool.mapTx.insertIfNew hash newit
    mapLinks := pool.mapLinks.insertIfNew hash ⟨[], []⟩
    mapNextTx := newit.tx.vin.foldl (fun m (txin : CTxIn) => m.insertIfNew txin.prevout hash)
      pool.mapNextTx }
  let setParentTransactions := (newit.tx.vin.map (·.prevout.hash)).dedup
  let pool := (setParentTransactions.filter (· ∈ pool.mapTx)).foldl
    (fun pool parent => pool.updateParent hash parent true) pool
  (pool.getMemPoolParents hash).foldl (fun pool parent => pool.updateChild parent hash true) pool

/-- The mutable members that `addUnchecked` sets for an update of the operator key. -/
def setProTxKey (hash : Uint256) (current new : CBLSPublicKey) : CTxMemPool :=
  { pool with
    mapTx := pool.mapTx.modify hash fun entry =>
      { entry with
        validForProTxKey := env.pubKeyHash current
        isKeyChangeProTx := entry.isKeyChangeProTx || current != new } }

/-- The provider transactions of `addUnchecked`. -/
def addProTx (hash : Uint256) : ProTx → Except Fail CTxMemPool
  | .other => .ok pool
  | .reg proTx =>
    .ok { pool with
      mapProTxRefs := if proTx.collateralOutpoint.hash ≠ 0 then
          pool.mapProTxRefs ++ [(hash, proTx.collateralOutpoint.hash)]
        else pool.mapProTxRefs
      mapProTxAddresses := pool.mapProTxAddresses.insertIfNew proTx.addr hash
      mapProTxPubKeyIDs := pool.mapProTxPubKeyIDs.insertIfNew proTx.keyIDOwner hash
      mapProTxBlsPubKeyHashes :=
        pool.mapProTxBlsPubKeyHashes.insertIfNew (env.pubKeyHash proTx.pubKeyOperator) hash
      mapProTxCollaterals := if proTx.collateralOutpoint.hash ≠ 0 then
          pool.mapProTxCollaterals.insertIfNew proTx.collateralOutpoint hash
        else pool.mapProTxCollaterals }
  | .upServ proTx =>
    .ok { pool with
      mapProTxRefs := pool.mapProTxRefs ++ [(proTx.proTxHash, hash)]
      mapProTxAddresses := pool.mapProTxAddresses.insertIfNew proTx.addr hash }
  | .upReg proTx => do
    let pool := { pool with
      mapProTxRefs := pool.mapProTxRefs ++ [(proTx.proTxHash, hash)]
      mapProTxBlsPubKeyHashes :=
        pool.mapProTxBlsPubKeyHashes.insertIfNew (env.pubKeyHash proTx.pubKeyOperator) hash }
    let dmn ← deref (mnList.getMN proTx.proTxHash)
    return pool.setProTxKey env hash dmn.pdmnState.pubKeyOperator proTx.pubKeyOperator
  | .upRev proTx => do
    let pool := { pool with mapProTxRefs := pool.mapProTxRefs ++ [(proTx.proTxHash, hash)] }
    let dmn ← deref (mnList.getMN proTx.proTxHash)
    return pool.setProTxKey env hash dmn.pdmnState.pubKeyOperator .null

/-- `addUnchecked`.  Where the pool has the hash already, it goes on with the entry it has. -/
def addUnchecked (entry : CTxMemPoolEntry) : Except Fail CTxMemPool :=
  let hash := env.txHash entry.tx
  let newit := pool.mapTx[hash]?.getD entry
  (pool.insertEntry hash newit).addProTx env mnList hash newit.proTx

/-! ### Removing transactions -/

def eraseProTxRef (refs : List (Uint256 × Uint256)) (proTxHash txHash : Uint256) :
    List (Uint256 × Uint256) :=
  refs.filter fun ref => !(ref.1 == proTxHash && ref.2 == txHash)

/-- The provider transactions of `removeUnchecked`. -/
def removeProTx (hash : Uint256) : ProTx → CTxMemPool
  | .other => pool
  | .reg proTx =>
    { pool with
      mapProTxRefs := if proTx.collateralOutpoint ≠ .null then
          eraseProTxRef pool.mapProTxRefs hash proTx.collateralOutpoint.hash
        else pool.mapProTxRefs
      mapProTxAddresses := pool.mapProTxAddresses.erase proTx.addr
      mapProTxPubKeyIDs := pool.mapProTxPubKeyIDs.erase proTx.keyIDOwner
      mapProTxBlsPubKeyHashes :=
        pool.mapProTxBlsPubKeyHashes.erase (env.pubKeyHash proTx.pubKeyOperator)
      mapProTxCollaterals := pool.mapProTxCollaterals.erase proTx.collateralOutpoint }
  | .upServ proTx =>
    { pool with
      mapProTxRefs := eraseProTxRef pool.mapProTxRefs proTx.proTxHash hash
      mapProTxAddresses := pool.mapProTxAddresses.erase proTx.addr }
  | .upReg proTx =>
    { pool with
      mapProTxRefs := eraseProTxRef pool.mapProTxRefs proTx.proTxHash hash
      mapProTxBlsPubKeyHashes :=
        pool.mapProTxBlsPubKeyHashes.erase (env.pubKeyHash proTx.pubKeyOperator) }
  | .upRev proTx =>
    { pool with mapProTxRefs := eraseProTxRef pool.mapProTxRefs proTx.proTxHash hash }

/-- `removeUnchecked`, for an entry of the pool. -/
def removeUnchecked (hash : Uint256) : CTxMemPool :=
  match pool.mapTx[hash]? with
  | none => pool
  | some it =>
    let pool := { pool with
      mapNextTx := it.tx.vin.foldl (fun m (txin : CTxIn) => m.erase txin.prevout) pool.mapNextTx }
    let pool := pool.removeProTx env hash it.proTx
    { pool with mapLinks := pool.mapLinks.erase hash, mapTx := pool.mapTx.erase hash }

/-- What `UpdateForRemoveFromMempool` does to the links. -/
def severLinks (stage : List Uint256) : CTxMemPool :=
  let pool := stage.foldl (fun pool entry =>
    (pool.getMemPoolParents entry).foldl (fun pool parent => pool.updateChild parent entry false)
      pool) pool
  stage.foldl (fun pool entry =>
    (pool.getMemPoolChildren entry).foldl (fun pool child => pool.updateParent child entry false)
      pool) pool

def removeStaged (stage : List Uint256) : CTxMemPool :=
  stage.foldl (fun pool hash => pool.removeUnchecked env hash) (pool.severLinks stage)

/-- `removeRecursive`.  If the transaction is not in the pool, its children are removed. -/
def removeRecursive (origTx : CTransaction) : CTxMemPool :=
  let hash := env.txHash origTx
  let txToRemove := if hash ∈ pool.mapTx then [hash]
    else (List.range origTx.vout.length).filterMap fun i => pool.mapNextTx[(⟨hash, i⟩ : COutPoint)]?
  pool.removeStaged env (txToRemove.flatMap pool.calculateDescendants).dedup

def removeConflicts (tx : CTransaction) : CTxMemPool :=
  tx.vin.foldl (fun pool txin =>
    match pool.mapNextTx[txin.prevout]?.bind (pool.mapTx[·]?) with
    | some txConflict =>
      if env.txHash txConflict.tx ≠ env.txHash tx then pool.removeRecursive env txConflict.tx
      else pool
    | none => pool) pool

/-- Removes the transaction that an index names, unless it is `tx` itself.  The four provider
indexes are used in this way. -/
def removeIndexed (tx : CTransaction) (conflictHash : Option Uint256) : CTxMemPool :=
  match conflictHash with
  | none => pool
  | some conflictHash =>
    if conflictHash ≠ env.txHash tx then
      match pool.mapTx[conflictHash]? with
      | some conflict => pool.removeRecursive env conflict.tx
      | none => pool
    else pool

/-- `removeProTxPubKeyConflicts` for an owner key. -/
def removeProTxOwnerKeyConflicts (tx : CTransaction) (keyId : CKeyID) : CTxMemPool :=
  pool.removeIndexed env tx pool.mapProTxPubKeyIDs[keyId]?

/-- `removeProTxPubKeyConflicts` for an operator key. -/
def removeProTxPubKeyConflicts (tx : CTransaction) (pubKey : CBLSPublicKey) : CTxMemPool :=
  pool.removeIndexed env tx pool.mapProTxBlsPubKeyHashes[env.pubKeyHash pubKey]?

def removeProTxCollateralConflicts (tx : CTransaction)
    (collateralOutpoint : COutPoint) : CTxMemPool :=
  pool.removeIndexed env tx pool.mapProTxCollaterals[collateralOutpoint]?

/-- The same for service addresses, where the source has no function of its own. -/
def removeProTxAddressConflicts (tx : CTransaction) (addr : CService) : CTxMemPool :=
  pool.removeIndexed env tx pool.mapProTxAddresses[addr]?

/-- `removeSpentCollateralConflict`, for at most `fuel` references. -/
def removeSpentCollateralConflict (proTxHash : Uint256) : Nat → CTxMemPool → CTxMemPool
  | 0, pool => pool
  | fuel + 1, pool =>
    match pool.mapProTxRefs.find? (·.1 == proTxHash) with
    | none => pool
    | some ref =>
      match pool.mapTx[ref.2]? with
      | some conflict =>
        removeSpentCollateralConflict proTxHash fuel (pool.removeRecursive env conflict.tx)
      | none =>
        removeSpentCollateralConflict proTxHash fuel
          { pool with mapProTxRefs := pool.mapProTxRefs.erase ref }

/-- A bound on the passes of `removeSpentCollateralConflict`: each removes a transaction or a
reference. -/
def refFuel : Nat := pool.mapTx.size + pool.mapProTxRefs.length

def removeProTxSpentCollateralConflicts (tx : CTransaction) : CTxMemPool :=
  tx.vin.foldl (fun pool txin =>
    let pool := match pool.mapProTxCollaterals[txin.prevout]? with
      | some proTxHash => removeSpentCollateralConflict env proTxHash pool.refFuel pool
      | none => pool
    match mnList.getMNByCollateral env.serializeHash txin.prevout with
    | some dmn => removeSpentCollateralConflict env dmn.proTxHash pool.refFuel pool
    | none => pool) pool

def removeProTxKeyChangedConflicts (proTxHash newKeyHash : Uint256) : CTxMemPool :=
  let conflictingTxs := (pool.mapProTxRefs.filter (·.1 == proTxHash)).filterMap fun ref =>
    (pool.mapTx[ref.2]?.filter (·.validForProTxKey ≠ newKeyHash)).map (env.txHash ·.tx)
  conflictingTxs.dedup.foldl (fun pool txHash =>
    match pool.mapTx[txHash]? with
    | some entry => pool.removeRecursive env entry.tx
    | none => pool) pool

def removeProTxConflicts (tx : CTransaction) : CTxMemPool :=
  let pool := pool.removeProTxSpentCollateralConflicts env mnList tx
  match tx.decodeProTx with
  | some (.reg proTx) =>
    let pool := pool.removeProTxAddressConflicts env tx proTx.addr
    let pool := pool.removeProTxOwnerKeyConflicts env tx proTx.keyIDOwner
    let pool := pool.removeProTxPubKeyConflicts env tx proTx.pubKeyOperator
    if proTx.collateralOutpoint.hash ≠ 0 then
      pool.removeProTxCollateralConflicts env tx proTx.collateralOutpoint
    else pool
  | some (.upServ proTx) => pool.removeProTxAddressConflicts env tx proTx.addr
  | some (.upReg proTx) =>
    let pool := pool.removeProTxPubKeyConflicts env tx proTx.pubKeyOperator
    pool.removeProTxKeyChangedConflicts env proTx.proTxHash (env.pubKeyHash proTx.pubKeyOperator)
  | some (.upRev proTx) =>
    pool.removeProTxKeyChangedConflicts env proTx.proTxHash (env.pubKeyHash .null)
  | some .other => pool
  | none => pool

def removeForBlockTx (tx : CTransaction) : CTxMemPool :=
  let hash := env.txHash tx
  let pool := if hash ∈ pool.mapTx then pool.removeStaged env [hash] else pool
  let pool := pool.removeConflicts env tx
  pool.removeProTxConflicts env mnList tx

def removeForBlock (vtx : List CTransaction) : CTxMemPool :=
  vtx.foldl (fun pool tx => pool.removeForBlockTx env mnList tx) pool

def clear : CTxMemPool :=
  { pool with
    mapLinks := ∅
    mapTx := ∅
    mapNextTx := ∅
    mapProTxAddresses := ∅
    mapProTxPubKeyIDs := ∅ }

/-! ### Conflicts between provider transactions -/

def hasKeyChangeInMempool (proTxHash : Uint256) : Bool :=
  (pool.mapProTxRefs.filter (·.1 == proTxHash)).any fun ref =>
    pool.mapTx[ref.2]?.any (·.isKeyChangeProTx)

def existsProviderTxConflict (tx : CTransaction) : Bool :=
  match tx.decodeProTx with
  | none => true
  | some (.reg proTx) =>
    if proTx.addr ∈ pool.mapProTxAddresses ∨ proTx.keyIDOwner ∈ pool.mapProTxPubKeyIDs ∨
        env.pubKeyHash proTx.pubKeyOperator ∈ pool.mapProTxBlsPubKeyHashes then true
    else if proTx.collateralOutpoint.hash ≠ 0 then
      proTx.collateralOutpoint ∈ pool.mapProTxCollaterals ∨
        proTx.collateralOutpoint ∈ pool.mapNextTx
    else false
  | some (.upServ proTx) => pool.mapProTxAddresses[proTx.addr]?.any (· ≠ proTx.proTxHash)
  | some (.upReg proTx) =>
    match mnList.getMN proTx.proTxHash with
    | none => true
    | some dmn =>
      if dmn.pdmnState.pubKeyOperator ≠ proTx.pubKeyOperator ∧
          pool.hasKeyChangeInMempool proTx.proTxHash = true then true
      else
        pool.mapProTxBlsPubKeyHashes[env.pubKeyHash proTx.pubKeyOperator]?.any
          (· ≠ proTx.proTxHash)
  | some (.upRev proTx) =>
    match mnList.getMN proTx.proTxHash with
    | none => true
    | some dmn =>
      dmn.pdmnState.pubKeyOperator ≠ .null ∧ pool.hasKeyChangeInMempool proTx.proTxHash = true
  | some .other => false

end

end CTxMemPool

end Absolute
