/-
What a valid superblock should pay, what the schedule creates, and which trigger should be marked.

Each payment of the trigger gets an output of its own, in the order of the list, and the outputs
that are left for the miner and the masternode are worth at most the ordinary reward.
-/
import AbsoluteCore.Governance.Triggers

namespace Absolute

/-- The output that makes a payment. -/
def CGovernancePayment.out (p : CGovernancePayment) : CTxOut := ⟨p.nAmount, p.script⟩

def PaysEveryPayee (sb : CSuperblock) (txNew : CTransaction) (blockReward : Int) : Prop :=
  ∃ f : Fin sb.vecPayments.length → Fin txNew.vout.length, StrictMono f ∧
    (∀ i, txNew.vout.get (f i) = (sb.vecPayments.get i).out) ∧
    ∑ j ∈ (Finset.univ.image f)ᶜ, (txNew.vout.get j).nValue ≤ blockReward

/-- The payments without those that repeat the one before them. -/
def withoutRepeats (payments : List CGovernancePayment) : List CGovernancePayment :=
  payments.destutter (· ≠ ·)

def NoRepeats (payments : List CGovernancePayment) : Prop := payments.IsChain (· ≠ ·)

/-- The value of the payments, each run of equal ones counted once. -/
def valueWithoutRepeats (sb : CSuperblock) : Int :=
  ((withoutRepeats sb.vecPayments).map (·.nAmount)).sum

/-- The trigger can be paid at the height: its payments are amounts of money, their total is under
the limit, they fit a transaction, and there is a reward that covers the rest. -/
structure Payable (params : RewardParams) (sb : CSuperblock) (nBlockHeight : Int) : Prop where
  height : isValidBlockHeight params nBlockHeight = true
  limit : sb.getPaymentsTotalAmount ≤ getPaymentsLimit params nBlockHeight
  amounts : ∀ p ∈ sb.vecPayments, moneyRange p.nAmount = true
  value : valueWithoutRepeats sb ≤ maxMoney
  size : sb.vecPayments.length ≤ maxSize
  reward : FitsAmount (valueWithoutRepeats sb - sb.getPaymentsTotalAmount)

/-! ### The schedule -/

/-- What the schedule has created up to a height: the subsidies of the heights below it, and the
limits of the superblocks. -/
def created (params : RewardParams) (H : Nat) : Int :=
  ∑ h ∈ Finset.range H, getBlockSubsidy params h false +
    ∑ h ∈ Finset.range (H + 1), getPaymentsLimit params h

/-- The parameters of the main network, with the height where the divisor changes. -/
def divideParams (divideHeight : Int) : RewardParams :=
  { mainRewardParams with subsidyDivideHeight := divideHeight }

/-! ### What should be marked -/

namespace TriggerState

variable (params : RewardParams) (s : TriggerState) (nBlockHeight : Int)

/-- Validation asks for the payments of this superblock. -/
def Requires (sb : CSuperblock) : Prop :=
  s.gov.fLiteMode = false ∧ s.gov.superblocksEnabled = true ∧
    isSuperblockTriggered params s.gov nBlockHeight = true ∧
    getBestSuperblock params s.gov nBlockHeight = some sb

/-- Some trigger has the votes for funding. -/
def Funded : Prop :=
  ∃ p ∈ s.mapTrigger, p.2.nBlockHeight = nBlockHeight ∧ s.nAbsVoteReq ≤ p.2.nAbsoluteYesCount

/-- What is marked is what validation has asked for, and it was funded. -/
def MarksRequired : Prop :=
  ∀ hash, s.executeBestSuperblock params nBlockHeight = some hash →
    s.Funded nBlockHeight ∧
      ∃ t, (hash, t) ∈ s.mapTrigger ∧ s.Requires params nBlockHeight (s.superblock t)

/-- Where a trigger has more votes for it than against it, superblocks are enabled and one has those for
funding.  Without masternodes the flags stay as they are, and one must be set. -/
def Settled : Prop :=
  isValidBlockHeight params nBlockHeight = true →
    (∃ p ∈ s.mapTrigger, p.2.nBlockHeight = nBlockHeight ∧ 0 < p.2.nAbsoluteYesCount) →
    s.others.fLiteMode = false ∧ s.others.superblocksEnabled = true ∧ s.Funded nBlockHeight ∧
      (s.nMnCount = 0 → ∃ p ∈ s.mapTrigger, p.2.nBlockHeight = nBlockHeight ∧ p.2.fCachedFunding = true)

end TriggerState

end Absolute
