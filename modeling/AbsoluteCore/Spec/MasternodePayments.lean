/-
What the payments of a coinbase promise.

A masternode gets its whole share, in an output of its own for each part of it.  A miner who
fills a coinbase by the rules has a coinbase that passes them.
-/
import AbsoluteCore.Spec.Superblock
import AbsoluteCore.Validation.MasternodePayments

namespace Absolute

/-! ### Payments to a masternode -/

/-- What the outputs pay to the scripts of a masternode. -/
def paidTo (dmn : CDeterministicMN) (vout : List CTxOut) : Int :=
  ((vout.filter fun out => out.scriptPubKey = dmn.pdmnState.scriptPayout ∨
    out.scriptPubKey = dmn.pdmnState.scriptOperatorPayout).map (·.nValue)).sum

/-- The outputs have one of their own for each expected payment, and pay the masternode no less
than its share. -/
structure PaysMasternode (dmn : CDeterministicMN) (share : Int) (expected vout : List CTxOut) :
    Prop where
  distinct : ∃ f : Fin expected.length → Fin vout.length,
    Function.Injective f ∧ ∀ i, vout.get (f i) = expected.get i
  total : (∀ out ∈ vout, 0 ≤ out.nValue) → share ≤ paidTo dmn vout

/-- The masternode and its operator expect the same output: one script, and half of the share
for each of them. -/
structure EqualShares (dmn : CDeterministicMN) (share : Int) : Prop where
  script : dmn.pdmnState.scriptOperatorPayout = dmn.pdmnState.scriptPayout
  nonempty : dmn.pdmnState.scriptOperatorPayout ≠ []
  fits : FitsAmount (share * dmn.nOperatorReward)
  pos : 0 < share * dmn.nOperatorReward / 10000
  half : 2 * (share * dmn.nOperatorReward / 10000) = share

/-! ### The coinbase of a miner -/

/-- A payment takes up a byte of a governance object, which comes in one message of the network
(`MAX_PROTOCOL_MESSAGE_LENGTH`). -/
def maxPayments : Nat := 3 * 1024 * 1024

/-- What the payments of a trigger add up to. -/
def CSuperblock.totalPayments (sb : CSuperblock) : Int := (sb.vecPayments.map (·.nAmount)).sum

/-- The payments of the superblock in the coinbase of a miner. -/
def superblockTotal (params : RewardParams) (gov : GovernanceState) (nBlockHeight : Int) : Int :=
  if gov.superblocksEnabled = true ∧ isSuperblockTriggered params gov nBlockHeight = true then
    ((getBestSuperblock params gov nBlockHeight).map CSuperblock.totalPayments).getD 0
  else 0

/-- The payee of the block, if there is one, has an operator reward of at most a hundred
percent. -/
def ProperPayee (mp : MNPaymentsEnv) (nBlockHeight : Int) : Prop :=
  ∀ dmn, (mp.getListBefore nBlockHeight).getMNPayee = some dmn → dmn.nOperatorReward ≤ 10000

/-- The coinbase that a miner fills in passes both checks of a node in the same state, its outputs
are worth the reward and the superblock, and the miner does not pay in. -/
def MinerCoinbaseValid (params : RewardParams) (gov : GovernanceState) (mp : MNPaymentsEnv)
    (script : CScript) (nBlockHeight blockReward : Int) : Prop :=
  ∃ coinbase : CTransaction,
    fillBlockPayments params gov mp [⟨blockReward, script⟩] nBlockHeight blockReward =
      .ok coinbase.vout ∧
    isBlockValueValid params (mp.govern gov) coinbase nBlockHeight blockReward = .ok none ∧
    isBlockPayeeValid params (mp.govern gov) coinbase nBlockHeight blockReward = .ok true ∧
    (coinbase.vout.map (·.nValue)).sum =
      blockReward + superblockTotal params gov nBlockHeight ∧
    ∃ out, coinbase.vout.head? = some out ∧ 0 ≤ out.nValue

/-- The state of the node lets a miner build on it: the trigger with the most votes can be paid out
of the budget, and the amounts are in their ranges. -/
structure MinerPayable (params : RewardParams) (gov : GovernanceState) (mp : MNPaymentsEnv)
    (nBlockHeight blockReward : Int) : Prop where
  reward : moneyRange blockReward = true
  /-- The product for the share of the operator fits. -/
  operator : ∀ dmn, (mp.getListBefore nBlockHeight).getMNPayee = some dmn →
    dmn.nOperatorReward ≠ 0 → dmn.pdmnState.scriptOperatorPayout ≠ [] →
    FitsAmount (mp.getMasternodePayment nBlockHeight blockReward * dmn.nOperatorReward)
  /-- The largest value of a superblock fits. -/
  fits : params.nSuperblockStartBlock ≤ nBlockHeight →
    FitsAmount (blockReward + getPaymentsLimit params nBlockHeight)
  /-- A funded superblock has a winner, which keeps to the budget. -/
  budget : gov.superblocksEnabled = true →
    isSuperblockTriggered params gov nBlockHeight = true →
    ∃ sb, getBestSuperblock params gov nBlockHeight = some sb ∧
      (∀ p ∈ sb.vecPayments, moneyRange p.nAmount = true) ∧
      sb.totalPayments ≤ getPaymentsLimit params nBlockHeight ∧
      blockReward + sb.totalPayments ≤ maxMoney

end Absolute
