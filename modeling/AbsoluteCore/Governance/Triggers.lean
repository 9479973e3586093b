/-
Which trigger is marked as executed.

Validation looks at the funding flags of the triggers, which `UpdateSentinelVariables` sets from the
votes.  When the block has become the tip, the trigger with the most votes is marked.
-/
import AbsoluteCore.Validation.BlockReward

namespace Absolute

/-- An entry of `mapTrigger` whose object is known, with the votes of that object. -/
structure GovernanceTrigger where
  nBlockHeight : Int
  vecPayments : List CGovernancePayment
  fCachedFunding : Bool
  /-- `pObj->GetAbsoluteYesCount(VOTE_SIGNAL_FUNDING)`. -/
  nAbsoluteYesCount : Int

/-- The triggers in the order of their hashes, and what else validation looks at. -/
structure TriggerState where
  mapTrigger : List (Uint256 × GovernanceTrigger)
  nGovernanceMinQuorum : Int
  /-- `GetListAtChainTip().GetValidMNsCount()`. -/
  nMnCount : Nat
  others : GovernanceState

namespace TriggerState

variable (params : RewardParams) (s : TriggerState) (nBlockHeight : Int)

def nAbsVoteReq : Int := max s.nGovernanceMinQuorum (s.nMnCount / 10 : Nat)

/-- The funding flag that `UpdateSentinelVariables` leaves. -/
def updateSentinelVariables (t : GovernanceTrigger) : Bool :=
  if s.nMnCount = 0 then t.fCachedFunding else s.nAbsVoteReq ≤ t.nAbsoluteYesCount

def superblock (t : GovernanceTrigger) : CSuperblock :=
  ⟨t.nBlockHeight, t.vecPayments, s.updateSentinelVariables t, t.nAbsoluteYesCount⟩

/-- What validation sees. -/
def gov : GovernanceState :=
  { s.others with activeTriggers := s.mapTrigger.map fun p => s.superblock p.2 }

/-- `GetBestSuperblock`, with the hash of the trigger. -/
def getBestTrigger : Option (Uint256 × GovernanceTrigger) :=
  if isValidBlockHeight params nBlockHeight = false then none
  else
    s.mapTrigger.foldl (fun best p =>
      if p.2.nBlockHeight = nBlockHeight ∧
          p.2.nAbsoluteYesCount > (best.map (·.2.nAbsoluteYesCount)).getD 0 then some p
      else best) none

/-- The trigger that `ExecuteBestSuperblock` calls `SetExecuted` of. -/
def executeBestSuperblock : Option Uint256 :=
  (s.getBestTrigger params nBlockHeight).map Prod.fst

end TriggerState

end Absolute
