/-
The queue of the payees.

`GetMNPayee` picks the valid masternode that comes first in the order of `CompareByLastPaid`.
Abstractly the masternodes wait in a queue: each valid one under its hash, with the height
and the hash that the comparison reads as its key.
-/
import AbsoluteCore.Spec.Chain
import AbsoluteCore.Lib.LeastFirst

namespace Absolute

open CDeterministicMNList

/-- What `CompareByLastPaid` compares: the height, and the hash where heights are equal. -/
def payKey (dmn : CDeterministicMN) : Int ×ₗ Nat :=
  toLex (compareByLastPaidGetHeight dmn, dmn.proTxHash)

/-- The valid masternodes of a list, with their keys. -/
def payQueue (l : CDeterministicMNList) (h : Uint256) : Option (Int ×ₗ Nat) :=
  ((l.mnMap[h]?).filter isMNValid).map payKey

/-- The masternode is in the list, and is not PoSe banned. -/
def HasValidMN (l : CDeterministicMNList) (h : Uint256) : Prop :=
  ∃ dmn : CDeterministicMN, l.mnMap[h]? = some dmn ∧ isMNValid dmn = true

/--
The masternode is in the list and not banned before each transaction of the block, after the
last one, and when the block is done.
-/
structure StaysValid (env : Env) (x : Chain × CBlock × Chain) (h : Uint256) : Prop where
  during : ∀ k l, listAfter env x.1.lists x.1.tip (x.2.1.vtx.tail.take k) = .ok l → HasValidMN l h
  after : HasValidMN x.2.2.list h

/-- The masternodes that `GetMNPayee` chose for the blocks of a run. -/
def payees (tr : List (Chain × CBlock × Chain)) : List CDeterministicMN :=
  tr.filterMap fun x => x.1.list.getMNPayee

/-- Whether a masternode is valid, and when it was registered and revived. -/
def standing (dmn : CDeterministicMN) : Bool × Int × Int :=
  (isMNValid dmn, dmn.pdmnState.nRegisteredHeight, dmn.pdmnState.nPoSeRevivedHeight)

/-- No masternode is added, removed, banned or revived between the two lists. -/
def Steady (l l' : CDeterministicMNList) : Prop :=
  ∀ h : Uint256, (l'.mnMap[h]?).map standing = (l.mnMap[h]?).map standing

end Absolute
