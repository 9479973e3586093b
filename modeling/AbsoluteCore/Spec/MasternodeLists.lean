/-
The calls that build a masternode list, and the clients that follow it.

A list is built from the empty one by calls of `AddMN`, `UpdateMN` in its three forms, `RemoveMN`,
`PoSePunish`, `PoSeDecrease` and `Unserialize`.  No assert of the source checks that the internal id of
an added masternode is not in use, that the masternode handed to `UpdateMN` is the one in the list,
and that the bytes of an operator key are those of a point.
-/
import AbsoluteCore.Evo.SimplifiedMNs
import AbsoluteCore.Lib.KeyedRows

namespace Absolute

open UniqueProperty

/-- The entry a property has in the index: none when it is null. -/
def UniqueProperty.entry (serializeHash : UniqueProperty → Uint256) (v : UniqueProperty) :
    Multiset Uint256 :=
  if v.isNull then 0 else {serializeHash v}

/-- The hashes of a masternode's unique properties, with their multiplicities. -/
def CDeterministicMN.properties (serializeHash : UniqueProperty → Uint256)
    (dmn : CDeterministicMN) : Multiset Uint256 :=
  (outpoint dmn.collateralOutpoint).entry serializeHash +
    (service dmn.pdmnState.addr).entry serializeHash +
    (keyID dmn.pdmnState.keyIDOwner).entry serializeHash +
    (pubKey dmn.pdmnState.pubKeyOperator).entry serializeHash

/-- No member has this internal id. -/
def CDeterministicMNList.IdUnused (l : CDeterministicMNList) (id : Nat) : Prop :=
  ∀ (h : Uint256) (dmn : CDeterministicMN), l.mnMap[h]? = some dmn → dmn.internalId ≠ id

/-- What `Get().IsValid()` of an operator key answers when its bytes are compared without it, and
`decodes` says which bytes are those of a point. -/
def CBLSPublicKey.isValidBytes (decodes : Nat → Bool) (key : CBLSPublicKey) : Bool :=
  key.impl.any decodes

/-- The key is null or a point. -/
def CBLSPublicKey.Decodes (decodes : Nat → Bool) (key : CBLSPublicKey) : Prop :=
  ∀ bytes ∈ key.impl, decodes bytes = true

instance (decodes : Nat → Bool) (key : CBLSPublicKey) : Decidable (key.Decodes decodes) :=
  inferInstanceAs (Decidable (∀ bytes ∈ key.impl, decodes bytes = true))

inductive ListCall where
  | addMN (dmn : CDeterministicMN)
  /-- `UpdateMN(oldDmn, pdmnState)`. -/
  | updateMNState (oldDmn : CDeterministicMN) (pdmnState : CDeterministicMNState)
  /-- `UpdateMN(proTxHash, pdmnState)`. -/
  | updateMN (proTxHash : Uint256) (pdmnState : CDeterministicMNState)
  /-- `UpdateMN(oldDmn, stateDiff)`. -/
  | updateMNDiff (oldDmn : Option CDeterministicMN) (stateDiff : CDeterministicMNStateDiff)
  | removeMN (proTxHash : Uint256)
  | poSePunish (proTxHash : Uint256) (penalty : Int)
  | poSeDecrease (proTxHash : Uint256)
  | unserialize (blockHash : Uint256) (nHeight : Int) (nTotalRegisteredCount : Nat)
      (mns : List CDeterministicMN)

namespace ListCall

variable (serializeHash : UniqueProperty → Uint256) (decodes : Nat → Bool) (l : CDeterministicMNList)

def runWith (isValid : CBLSPublicKey → Bool) : ListCall → Except Fail CDeterministicMNList
  | addMN dmn => l.addMNWith serializeHash isValid dmn
  | updateMNState oldDmn pdmnState => l.updateMNState serializeHash oldDmn pdmnState
  | updateMN proTxHash pdmnState => l.updateMN serializeHash proTxHash pdmnState
  | updateMNDiff oldDmn stateDiff => l.updateMNDiff serializeHash oldDmn stateDiff
  | removeMN proTxHash => l.removeMNWith serializeHash isValid proTxHash
  | poSePunish proTxHash penalty => l.poSePunish serializeHash proTxHash penalty
  | poSeDecrease proTxHash => l.poSeDecrease serializeHash proTxHash
  | unserialize blockHash nHeight nTotalRegisteredCount mns =>
    CDeterministicMNList.unserializeWith serializeHash isValid blockHash nHeight
      nTotalRegisteredCount mns

/-- The call, where every key is null or a point. -/
def run (c : ListCall) : Except Fail CDeterministicMNList :=
  c.runWith serializeHash l CBLSPublicKey.isValid

/-- What the caller has to see to, because no assert does. -/
def Proper : ListCall → Prop
  | addMN dmn => l.IdUnused dmn.internalId ∧ dmn.pdmnState.pubKeyOperator.Decodes decodes
  | updateMNState oldDmn pdmnState =>
    l.mnMap[oldDmn.proTxHash]? = some oldDmn ∧ pdmnState.pubKeyOperator.Decodes decodes
  | updateMN _ pdmnState => pdmnState.pubKeyOperator.Decodes decodes
  | updateMNDiff (some oldDmn) stateDiff => l.mnMap[oldDmn.proTxHash]? = some oldDmn ∧
      (stateDiff.applyToState oldDmn.pdmnState).pubKeyOperator.Decodes decodes
  | unserialize _ _ _ mns => (mns.map CDeterministicMN.internalId).Nodup ∧
      ∀ dmn ∈ mns, dmn.pdmnState.pubKeyOperator.Decodes decodes
  | _ => True

/-- A proper call whose asserts hold. -/
def Step (c : ListCall) (l' : CDeterministicMNList) : Prop :=
  c.Proper decodes l ∧ c.runWith serializeHash l (CBLSPublicKey.isValidBytes decodes) = .ok l'

end ListCall

/-- How a light client brings its list up to date: the deleted masternodes are removed, the others are
inserted or replace those with the same hash, and the client sorts by the hashes. -/
def CSimplifiedMNList.applyDiff (sml : CSimplifiedMNList) (diff : CSimplifiedMNListDiff) :
    CSimplifiedMNList where
  mnList := (diff.mnList.foldl
      (fun entries e => KeyedRows.upsert CSimplifiedMNListEntry.proRegTxHash e entries)
      (sml.mnList.filter fun e => e.proRegTxHash ∉ diff.deletedMNs)).mergeSort
    fun a b => a.proRegTxHash ≤ b.proRegTxHash

end Absolute
