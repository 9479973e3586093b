/-
Whom the coinbase of a block pays: the miner, a masternode with its operator, and the payees of a
superblock.

The share of the masternodes starts from `blockValue/2.5`, a `double`.  For amounts of money it
is the quotient rounded down, which is what stands here.
-/
import AbsoluteCore.Evo.Environment
import AbsoluteCore.Validation.BlockReward

namespace Absolute

/-- What `CMasternodePayments` is given from outside. -/
structure MNPaymentsEnv where
  env : Env
  nMasternodePaymentsIncreaseBlock : Int
  nMasternodePaymentsIncreasePeriod : Int
  /-- `deterministicMNManager->GetListForBlock(chainActive[nBlockHeight - 1])`. -/
  getListBefore : Int → CDeterministicMNList

namespace MNPaymentsEnv

variable (mp : MNPaymentsEnv)

def getMasternodePayment (nHeight blockValue : Int) : Int :=
  let increase (n : Int) : Int :=
    if nHeight > mp.nMasternodePaymentsIncreaseBlock + mp.nMasternodePaymentsIncreasePeriod * n then
      blockValue.tdiv 10
    else 0
  (2 * blockValue).tdiv 5 + increase 0 + increase 1 + increase 2 + increase 3

/-- The part of the reward that goes to the operator. -/
def operatorReward (dmnPayee : CDeterministicMN) (masternodeReward : Int) : Except Fail Int :=
  if dmnPayee.nOperatorReward ≠ 0 ∧ dmnPayee.pdmnState.scriptOperatorPayout ≠ [] then do
    let product ← amount (masternodeReward * dmnPayee.nOperatorReward)
    return product.tdiv 10000
  else return 0

/-- `voutMasternodePaymentsRet.emplace_back(nValue, script)`, where there is something to pay. -/
def payment (nValue : Int) (script : CScript) : List CTxOut :=
  if nValue > 0 then [⟨nValue, script⟩] else []

/-- `CMasternodePayments::GetBlockTxOuts`, with nothing where it returns false.
`GetMasternodeTxOuts` only adds messages to it. -/
def getBlockTxOuts (nBlockHeight blockReward : Int) : Except Fail (Option (List CTxOut)) :=
  let masternodeReward := mp.getMasternodePayment nBlockHeight blockReward
  match (mp.getListBefore nBlockHeight).getMNPayee with
  | none => .ok none
  | some dmnPayee => do
    let operatorReward ← operatorReward dmnPayee masternodeReward
    return some (payment (masternodeReward - operatorReward) dmnPayee.pdmnState.scriptPayout ++
      payment operatorReward dmnPayee.pdmnState.scriptOperatorPayout)

/-- The loop over the expected payments.  Each is looked up among all outputs. -/
def findPayees (vout : List CTxOut) : List CTxOut → Except Fail Bool
  | [] => .ok true
  | txout :: rest =>
    if txout ∈ vout then findPayees vout rest
    else do
      let _ ← deref (mp.env.extractDestination txout.scriptPubKey)
      return false

def isTransactionValid (txNew : CTransaction) (nBlockHeight blockReward : Int) :
    Except Fail Bool := do
  if mp.env.isDIP3Enforced nBlockHeight = false then return true
  match ← mp.getBlockTxOuts nBlockHeight blockReward with
  | none => return true
  | some voutMasternodePayments => mp.findPayees txNew.vout voutMasternodePayments

/-- The node as it checks payees: one that stops at the assertion accepts nothing. -/
def govern (gov : GovernanceState) : GovernanceState :=
  { gov with
    isTransactionValid := fun txNew nBlockHeight blockReward =>
      match mp.isTransactionValid txNew nBlockHeight blockReward with
      | .ok valid => valid
      | .error _ => false }

end MNPaymentsEnv

/-- `CSuperblockManager::GetSuperblockPayments`, with nothing where it returns false. -/
def getSuperblockPayments (params : RewardParams) (gov : GovernanceState) (nBlockHeight : Int) :
    Option (List CTxOut) :=
  (getBestSuperblock params gov nBlockHeight).map fun sb =>
    sb.vecPayments.map fun payment => ⟨payment.nAmount, payment.script⟩

/-- `FillBlockPayments` on the outputs of the coinbase. -/
def fillBlockPayments (params : RewardParams) (gov : GovernanceState) (mp : MNPaymentsEnv)
    (vout : List CTxOut) (nBlockHeight blockReward : Int) : Except Fail (List CTxOut) := do
  let voutSuperblockPayments :=
    if gov.superblocksEnabled = true ∧ isSuperblockTriggered params gov nBlockHeight = true then
      (getSuperblockPayments params gov nBlockHeight).getD []
    else []
  let voutMasternodePayments := (← mp.getBlockTxOuts nBlockHeight blockReward).getD []
  let vout := vout ++ voutMasternodePayments ++ voutSuperblockPayments
  -- subtract MN payment from miner reward
  return vout.modifyHead fun out => { out with
    nValue := voutMasternodePayments.foldl (fun nValue txout => nValue - txout.nValue) out.nValue }

end Absolute
