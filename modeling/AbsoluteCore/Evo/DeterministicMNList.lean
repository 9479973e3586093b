/-
The deterministic masternode list: a map of masternodes, the map of their internal
ids, and the reference-counted map of the properties only one of them may own.

`immer::map` is a persistent map whose order of iteration is not specified; here
every map is iterated in the order of its keys.
-/
import AbsoluteCore.Evo.DeterministicMNState

namespace Absolute

/-- `immer::map` and `std::map` with hashes or ids as keys. -/
abbrev HashMap (V : Type) := Std.ExtTreeMap Nat V compare

structure CDeterministicMN where
  proTxHash : Uint256
  internalId : Nat
  collateralOutpoint : COutPoint
  nOperatorReward : Nat
  pdmnState : CDeterministicMNState
deriving DecidableEq, Repr

/-- What `AddUniqueProperty<T>` and its siblings are instantiated with. -/
inductive UniqueProperty where
  | outpoint (v : COutPoint)
  | service (v : CService)
  | keyID (v : CKeyID)
  | pubKey (v : CBLSPublicKey)
deriving DecidableEq, Repr

/-- `v == nullValue`, the default-constructed value of the type. -/
def UniqueProperty.isNull : UniqueProperty → Bool
  | outpoint v => v == COutPoint.null
  | service v => v == CService.null
  | keyID v => v == 0
  | pubKey v => v == CBLSPublicKey.null

/-- `CDeterministicMNListDiff`; the keys of the last two are internal ids. -/
structure CDeterministicMNListDiff where
  addedMNs : List CDeterministicMN := []
  updatedMNs : HashMap CDeterministicMNStateDiff := ∅
  removedMns : Std.ExtTreeSet Nat compare := ∅

def CDeterministicMNListDiff.hasChanges (d : CDeterministicMNListDiff) : Bool :=
  !d.addedMNs.isEmpty || !d.updatedMNs.isEmpty || !d.removedMns.isEmpty

structure CDeterministicMNList where
  blockHash : Uint256 := 0
  nHeight : Int := -1
  nTotalRegisteredCount : Nat := 0
  mnMap : HashMap CDeterministicMN := ∅
  mnInternalIdMap : HashMap Uint256 := ∅
  mnUniquePropertyMap : HashMap (Uint256 × Nat) := ∅

namespace CDeterministicMNList

def isMNPoSeBanned (dmn : CDeterministicMN) : Bool := dmn.pdmnState.nPoSeBanHeight != -1

def isMNValid (dmn : CDeterministicMN) : Bool := !isMNPoSeBanned dmn

variable (l : CDeterministicMNList)

/-- The masternodes `ForEachMN(onlyValid, cb)` calls back with, in order. -/
def forEachMN (onlyValid : Bool) : List CDeterministicMN :=
  (l.mnMap.toList.map Prod.snd).filter fun dmn => !onlyValid || isMNValid dmn

def getAllMNsCount : Nat := l.mnMap.size

def getValidMNsCount : Nat := (l.forEachMN true).length

def getMN (proTxHash : Uint256) : Option CDeterministicMN :=
  l.mnMap[proTxHash]?

def hasMN (proTxHash : Uint256) : Bool := (l.getMN proTxHash).isSome

def getMNByInternalId (internalId : Nat) : Option CDeterministicMN :=
  l.mnInternalIdMap[internalId]?.bind l.getMN

/-- `SetTotalRegisteredCount`, of a `uint32_t`. -/
def setTotalRegisteredCount (count : Nat) : CDeterministicMNList :=
  { l with nTotalRegisteredCount := count % 2 ^ 32 }

/-! ### Payees -/

def compareByLastPaidGetHeight (dmn : CDeterministicMN) : Int :=
  let s := dmn.pdmnState
  if s.nPoSeRevivedHeight ≠ -1 ∧ s.nPoSeRevivedHeight > s.nLastPaidHeight then
    s.nPoSeRevivedHeight
  else if s.nLastPaidHeight = 0 then s.nRegisteredHeight
  else s.nLastPaidHeight

def compareByLastPaid (a b : CDeterministicMN) : Bool :=
  let ah := compareByLastPaidGetHeight a
  let bh := compareByLastPaidGetHeight b
  if ah = bh then a.proTxHash < b.proTxHash else ah < bh

/-- The body of `GetMNPayee`'s loop: `if (!best || CompareByLastPaid(dmn, best)) best = dmn`. -/
def betterPayee (best : Option CDeterministicMN) (dmn : CDeterministicMN) :
    Option CDeterministicMN :=
  match best with
  | none => some dmn
  | some b => if compareByLastPaid dmn b then some dmn else some b

def getMNPayee : Option CDeterministicMN :=
  if l.mnMap.size = 0 then none else (l.forEachMN true).foldl betterPayee none

def getProjectedMNPayees (nCount : Nat) : List CDeterministicMN :=
  ((l.forEachMN true).insertionSort fun a b => !compareByLastPaid b a).take
    (min nCount l.getValidMNsCount)

/-! ### Quorum members -/

/-- `CalculateScores`: unconfirmed masternodes have none. -/
def calculateScores (sha256 : Uint256 → Uint256 → Uint256) (l : CDeterministicMNList)
    (modifier : Uint256) : List (Uint256 × CDeterministicMN) :=
  ((l.forEachMN true).filter fun dmn => dmn.pdmnState.confirmedHash != 0).map fun dmn =>
    (sha256 dmn.pdmnState.confirmedHashWithProRegTxHash modifier, dmn)

/-- The order of `CalculateQuorum`'s sort, on scores and, for equal ones, on collaterals. -/
def scoreLt (a b : Uint256 × CDeterministicMN) : Bool :=
  if a.1 = b.1 then a.2.collateralOutpoint.lt b.2.collateralOutpoint else a.1 < b.1

def calculateQuorum (sha256 : Uint256 → Uint256 → Uint256) (l : CDeterministicMNList)
    (maxSize : Nat) (modifier : Uint256) : List CDeterministicMN :=
  (((l.calculateScores sha256 modifier).insertionSort fun a b => !scoreLt a b).map Prod.snd).take
    maxSize

/-! ### Unique properties

`serializeHash` is `::SerializeHash` on the four property types, whose serializations
have different lengths.
-/

section UniqueProperties

variable (serializeHash : UniqueProperty → Uint256) (l : CDeterministicMNList)

def hasUniqueProperty (v : UniqueProperty) : Bool :=
  (l.mnUniquePropertyMap[serializeHash v]?).isSome

def getUniquePropertyMN (v : UniqueProperty) : Option CDeterministicMN :=
  (l.mnUniquePropertyMap[serializeHash v]?).bind fun p => l.getMN p.1

def getMNByCollateral (collateralOutpoint : COutPoint) : Option CDeterministicMN :=
  l.getUniquePropertyMN serializeHash (.outpoint collateralOutpoint)

def addUniqueProperty (dmn : CDeterministicMN) (l : CDeterministicMNList) (v : UniqueProperty) :
    Except Fail CDeterministicMNList := do
  assertThat (v.isNull = false)
  let hash := serializeHash v
  let oldEntry := l.mnUniquePropertyMap[hash]?
  assertThat (∀ e ∈ oldEntry, e.1 = dmn.proTxHash)
  let newEntry := (dmn.proTxHash, oldEntry.elim 1 fun e => e.2 + 1)
  return { l with mnUniquePropertyMap := l.mnUniquePropertyMap.insert hash newEntry }

def deleteUniqueProperty (dmn : CDeterministicMN) (l : CDeterministicMNList)
    (oldValue : UniqueProperty) : Except Fail CDeterministicMNList := do
  assertThat (oldValue.isNull = false)
  let oldHash := serializeHash oldValue
  match l.mnUniquePropertyMap[oldHash]? with
  | none => .error .assert
  | some p =>
    assertThat (p.1 = dmn.proTxHash)
    if p.2 = 1 then
      return { l with mnUniquePropertyMap := l.mnUniquePropertyMap.erase oldHash }
    else
      return { l with
        mnUniquePropertyMap := l.mnUniquePropertyMap.insert oldHash (dmn.proTxHash, p.2 - 1) }

def updateUniqueProperty (dmn : CDeterministicMN) (l : CDeterministicMNList)
    (oldValue newValue : UniqueProperty) : Except Fail CDeterministicMNList := do
  if oldValue = newValue then
    return l
  let l ← (if oldValue.isNull then pure l else l.deleteUniqueProperty serializeHash dmn oldValue)
  if newValue.isNull then pure l else l.addUniqueProperty serializeHash dmn newValue

/-! ### Adding, updating, removing

`AddMN` and `RemoveMN` ask an operator key for its point, and the comparisons above are of its bytes.
A `CBLSLazyPublicKey` that was read from a stream may have bytes of no point, so that what
`Get().IsValid()` answers is left open here.
-/

section

variable (serializeHash : UniqueProperty → Uint256) (isValid : CBLSPublicKey → Bool)
  (l : CDeterministicMNList)

def addMNWith (dmn : CDeterministicMN) : Except Fail CDeterministicMNList := do
  assertThat (l.mnMap[dmn.proTxHash]? = none)
  let l := { l with
    mnMap := l.mnMap.insert dmn.proTxHash dmn
    mnInternalIdMap := l.mnInternalIdMap.insert dmn.internalId dmn.proTxHash }
  let l ← l.addUniqueProperty serializeHash dmn (.outpoint dmn.collateralOutpoint)
  let l ← (if dmn.pdmnState.addr ≠ .null then
      l.addUniqueProperty serializeHash dmn (.service dmn.pdmnState.addr)
    else pure l)
  let l ← l.addUniqueProperty serializeHash dmn (.keyID dmn.pdmnState.keyIDOwner)
  if isValid dmn.pdmnState.pubKeyOperator then
    l.addUniqueProperty serializeHash dmn (.pubKey dmn.pdmnState.pubKeyOperator)
  else pure l

def removeMNWith (proTxHash : Uint256) : Except Fail CDeterministicMNList :=
  match l.getMN proTxHash with
  | none => .error .assert
  | some dmn => do
    let l ← l.deleteUniqueProperty serializeHash dmn (.outpoint dmn.collateralOutpoint)
    let l ← (if dmn.pdmnState.addr ≠ .null then
        l.deleteUniqueProperty serializeHash dmn (.service dmn.pdmnState.addr)
      else pure l)
    let l ← l.deleteUniqueProperty serializeHash dmn (.keyID dmn.pdmnState.keyIDOwner)
    let l ← (if isValid dmn.pdmnState.pubKeyOperator then
        l.deleteUniqueProperty serializeHash dmn (.pubKey dmn.pdmnState.pubKeyOperator)
      else pure l)
    return { l with
      mnMap := l.mnMap.erase proTxHash
      mnInternalIdMap := l.mnInternalIdMap.erase dmn.internalId }

/-- `Unserialize`, after the header and the masternodes have been read from the stream. -/
def unserializeWith (blockHash : Uint256) (nHeight : Int) (nTotalRegisteredCount : Nat)
    (mns : List CDeterministicMN) : Except Fail CDeterministicMNList :=
  mns.foldlM (addMNWith serializeHash isValid)
    { blockHash := blockHash, nHeight := nHeight, nTotalRegisteredCount := nTotalRegisteredCount }

end

/-! The same for keys that are null or points. -/

def addMN (dmn : CDeterministicMN) : Except Fail CDeterministicMNList :=
  addMNWith serializeHash CBLSPublicKey.isValid l dmn

def removeMN (proTxHash : Uint256) : Except Fail CDeterministicMNList :=
  removeMNWith serializeHash CBLSPublicKey.isValid l proTxHash

def unserialize (blockHash : Uint256) (nHeight : Int) (nTotalRegisteredCount : Nat)
    (mns : List CDeterministicMN) : Except Fail CDeterministicMNList :=
  unserializeWith serializeHash CBLSPublicKey.isValid blockHash nHeight nTotalRegisteredCount mns

/-- `UpdateMN(oldDmn, pdmnState)`, for a pointer the caller has checked. -/
def updateMNState (oldDmn : CDeterministicMN)
    (pdmnState : CDeterministicMNState) : Except Fail CDeterministicMNList := do
  let oldState := oldDmn.pdmnState
  let dmn := { oldDmn with pdmnState := pdmnState }
  let l := { l with mnMap := l.mnMap.insert oldDmn.proTxHash dmn }
  let l ← l.updateUniqueProperty serializeHash dmn (.service oldState.addr)
    (.service pdmnState.addr)
  let l ← l.updateUniqueProperty serializeHash dmn (.keyID oldState.keyIDOwner)
    (.keyID pdmnState.keyIDOwner)
  l.updateUniqueProperty serializeHash dmn (.pubKey oldState.pubKeyOperator)
    (.pubKey pdmnState.pubKeyOperator)

def updateMN (proTxHash : Uint256) (pdmnState : CDeterministicMNState) :
    Except Fail CDeterministicMNList :=
  match l.mnMap[proTxHash]? with
  | none => .error .assert
  | some oldDmn => l.updateMNState serializeHash oldDmn pdmnState

/-- `UpdateMN(oldDmn, stateDiff)`; the pointer may be null. -/
def updateMNDiff (oldDmn : Option CDeterministicMN)
    (stateDiff : CDeterministicMNStateDiff) : Except Fail CDeterministicMNList :=
  match oldDmn with
  | none => .error .assert
  | some oldDmn => l.updateMNState serializeHash oldDmn (stateDiff.applyToState oldDmn.pdmnState)

/-! ### Proof of service -/

def calcMaxPoSePenalty : Int := max 100 (l.getAllMNsCount : Int)

def calcPenalty (percent : Int) : Except Fail Int := do
  assertThat (0 < percent)
  return (l.calcMaxPoSePenalty * percent).tdiv 100

/-- The state `PoSePunish` writes. -/
def punishedState (s : CDeterministicMNState) (penalty : Int) : CDeterministicMNState :=
  let maxPenalty := l.calcMaxPoSePenalty
  let s := { s with nPoSePenalty := min maxPenalty (s.nPoSePenalty + penalty) }
  if s.nPoSePenalty ≥ maxPenalty ∧ s.nPoSeBanHeight = -1 then
    { s with nPoSeBanHeight := l.nHeight }
  else s

def poSePunish (proTxHash : Uint256) (penalty : Int) : Except Fail CDeterministicMNList := do
  assertThat (0 < penalty)
  match l.getMN proTxHash with
  | none => .error .assert
  | some dmn => l.updateMN serializeHash proTxHash (l.punishedState dmn.pdmnState penalty)

def poSeDecrease (proTxHash : Uint256) : Except Fail CDeterministicMNList :=
  match l.getMN proTxHash with
  | none => .error .assert
  | some dmn => do
    assertThat (0 < dmn.pdmnState.nPoSePenalty ∧ dmn.pdmnState.nPoSeBanHeight = -1)
    l.updateMN serializeHash proTxHash
      { dmn.pdmnState with nPoSePenalty := dmn.pdmnState.nPoSePenalty - 1 }

/-! ### Differences -/

/--
The first callback of `BuildDiff`.  The source compares pointers before it compares
states; equal pointers have equal states, whose diff has no fields.
-/
def diffTo (diff : CDeterministicMNListDiff) (toMN : CDeterministicMN) : CDeterministicMNListDiff :=
  match l.getMN toMN.proTxHash with
  | none => { diff with addedMNs := diff.addedMNs ++ [toMN] }
  | some fromMN =>
    let stateDiff := CDeterministicMNStateDiff.between fromMN.pdmnState toMN.pdmnState
    if stateDiff.fields ≠ 0 then
      { diff with updatedMNs := diff.updatedMNs.insertIfNew toMN.internalId stateDiff }
    else diff

/-- The second callback of `BuildDiff`. -/
def diffFrom (target : CDeterministicMNList) (diff : CDeterministicMNListDiff)
    (fromMN : CDeterministicMN) : CDeterministicMNListDiff :=
  match target.getMN fromMN.proTxHash with
  | none => { diff with removedMns := diff.removedMns.insert fromMN.internalId }
  | some _ => diff

def buildDiff (target : CDeterministicMNList) : CDeterministicMNListDiff :=
  let diff := (target.forEachMN false).foldl l.diffTo {}
  let diff := (l.forEachMN false).foldl target.diffFrom diff
  -- sorted, so that they are added in the order of their ids when the diff is applied
  { diff with addedMNs := diff.addedMNs.insertionSort fun a b => a.internalId ≤ b.internalId }

/-! `ApplyDiff`, one definition for each of its three loops. -/

def applyRemoved (id : Nat) : Except Fail CDeterministicMNList :=
  match l.getMNByInternalId id with
  | none => .error .assert
  | some dmn => l.removeMN serializeHash dmn.proTxHash

def applyAdded (dmn : CDeterministicMN) : Except Fail CDeterministicMNList := do
  assertThat (dmn.internalId = l.nTotalRegisteredCount)
  let l ← l.addMN serializeHash dmn
  return l.setTotalRegisteredCount (l.nTotalRegisteredCount + 1)

def applyUpdated (p : Nat × CDeterministicMNStateDiff) : Except Fail CDeterministicMNList :=
  l.updateMNDiff serializeHash (l.getMNByInternalId p.1) p.2

def applyDiff (pindex : CBlockIndex) (diff : CDeterministicMNListDiff) :
    Except Fail CDeterministicMNList := do
  let result := { l with blockHash := pindex.getBlockHash, nHeight := pindex.nHeight }
  let result ← diff.removedMns.toList.foldlM (applyRemoved serializeHash) result
  let result ← diff.addedMNs.foldlM (applyAdded serializeHash) result
  diff.updatedMNs.toList.foldlM (applyUpdated serializeHash) result

end UniqueProperties

end CDeterministicMNList

end Absolute
