/-
The masternode list as light clients have it, and the differences that are sent to them.

Operator keys are the keys that their bytes stand for.  The differences in quorums and the proof of
the coinbase are left out.
-/
import AbsoluteCore.Evo.DeterministicMNList

namespace Absolute

structure CSimplifiedMNListEntry where
  proRegTxHash : Uint256
  confirmedHash : Uint256
  service : CService
  pubKeyOperator : CBLSPublicKey
  keyIDVoting : CKeyID
  isValid : Bool
deriving DecidableEq, Repr

/-- `CSimplifiedMNListEntry(dmn)`. -/
def CSimplifiedMNListEntry.ofDMN (dmn : CDeterministicMN) : CSimplifiedMNListEntry where
  proRegTxHash := dmn.proTxHash
  confirmedHash := dmn.pdmnState.confirmedHash
  service := dmn.pdmnState.addr
  pubKeyOperator := dmn.pdmnState.pubKeyOperator
  keyIDVoting := dmn.pdmnState.keyIDVoting
  isValid := dmn.pdmnState.nPoSeBanHeight = -1

structure CSimplifiedMNList where
  mnList : List CSimplifiedMNListEntry := []
deriving DecidableEq, Repr

namespace CSimplifiedMNList

/-- `CSimplifiedMNList(smlEntries)`. -/
def ofEntries (smlEntries : List CSimplifiedMNListEntry) : CSimplifiedMNList where
  mnList := smlEntries.insertionSort fun a b => a.proRegTxHash ≤ b.proRegTxHash

/-- `CSimplifiedMNList(dmnList)`. -/
def ofDMNList (dmnList : CDeterministicMNList) : CSimplifiedMNList :=
  ofEntries ((dmnList.forEachMN false).map .ofDMN)

/-- `CalcMerkleRoot`, and whether the tree was mutated. -/
def calcMerkleRoot (calcHash : CSimplifiedMNListEntry → Uint256)
    (computeMerkleRoot : List Uint256 → Uint256 × Bool) (sml : CSimplifiedMNList) :
    Uint256 × Bool :=
  computeMerkleRoot (sml.mnList.map calcHash)

end CSimplifiedMNList

structure CSimplifiedMNListDiff where
  baseBlockHash : Uint256
  blockHash : Uint256
  deletedMNs : List Uint256
  mnList : List CSimplifiedMNListEntry
deriving DecidableEq, Repr

def CDeterministicMNList.buildSimplifiedDiff (l target : CDeterministicMNList) :
    CSimplifiedMNListDiff where
  baseBlockHash := l.blockHash
  blockHash := target.blockHash
  mnList := (target.forEachMN false).filterMap fun toPtr =>
    match l.getMN toPtr.proTxHash with
    | none => some (.ofDMN toPtr)
    | some fromPtr =>
      let sme1 := CSimplifiedMNListEntry.ofDMN toPtr
      let sme2 := CSimplifiedMNListEntry.ofDMN fromPtr
      if sme1 ≠ sme2 then some sme1 else none
  deletedMNs := (l.forEachMN false).filterMap fun fromPtr =>
    match target.getMN fromPtr.proTxHash with
    | none => some fromPtr.proTxHash
    | some _ => none

end Absolute
