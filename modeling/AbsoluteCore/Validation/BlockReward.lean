/-
How much the coinbase of a block may pay.

`CAmount` is `int64_t`.  Sums of amounts that validation forms are taken in `amount`, which fails
where the result does not fit.  The only other sum is the total of a trigger's payments, which
comes from the network and wraps around.
-/
import AbsoluteCore.Evo.Payloads

namespace Absolute

/-! ### Amounts -/

/-- The value fits a `CAmount`. -/
def FitsAmount (x : Int) : Prop := -(2 ^ 63) ≤ x ∧ x < 2 ^ 63

instance (x : Int) : Decidable (FitsAmount x) := inferInstanceAs (Decidable (_ ∧ _))

def amount (x : Int) : Except Fail Int := if FitsAmount x then .ok x else .error .overflow

def maxMoney : Int := 21000000 * coin

def moneyRange (nValue : Int) : Bool := 0 ≤ nValue ∧ nValue ≤ maxMoney

def CTransaction.getValueOut (tx : CTransaction) : Except Fail Int :=
  tx.vout.foldlM (fun nValueOut out => do
    let nValueOut ← amount (nValueOut + out.nValue)
    if moneyRange out.nValue = false ∨ moneyRange nValueOut = false then
      .error (.throws "GetValueOut: value out of range")
    else .ok nValueOut) 0

/-- `CheckTxInputs`, the loop over the values of the coins that are spent: `nValueIn`, unless a
value is out of range. -/
def valueIn (values : List Int) : Option Int :=
  values.foldlM (fun nValueIn nValue =>
    if moneyRange nValue = false ∨ moneyRange (nValueIn + nValue) = false then none
    else some (nValueIn + nValue)) 0

/-! ### Parameters -/

/-- `Consensus::Params`, the part that block rewards depend on. -/
structure RewardParams where
  nSubsidyHalvingInterval : Int
  /-- The first height that is not below `nSubsidyHalvingInterval * 1.1`, a `double`. -/
  subsidyDivideHeight : Int
  nBudgetPaymentsStartBlock : Int
  nBudgetPaymentsCycleBlocks : Int
  nBudgetPaymentsWindowBlocks : Int
  nSuperblockStartBlock : Int
  nSuperblockCycle : Int
deriving DecidableEq, Repr

/-- `CMainParams`.  In doubles, `350400 * 1.1` is a little more than 385440. -/
def mainRewardParams : RewardParams where
  nSubsidyHalvingInterval := 350400
  subsidyDivideHeight := 385441
  nBudgetPaymentsStartBlock := 98800
  nBudgetPaymentsCycleBlocks := 7300
  nBudgetPaymentsWindowBlocks := 100
  nSuperblockStartBlock := 98800
  nSuperblockCycle := 7300

section

variable (params : RewardParams) (gov : GovernanceState) (nBlockHeight : Int)

/-! ### The subsidy -/

/-- The loop of `GetBlockSubsidy`, once for each interval up to the height. -/
def decreasedSubsidy (nSubsidyDivide : Int) (nSubsidy : Int) : Nat → Int
  | 0 => nSubsidy
  | n + 1 =>
    decreasedSubsidy nSubsidyDivide (nSubsidy - nSubsidy / nSubsidyDivide) n

/-- `GetBlockSubsidy`.  The bits of the previous block do not matter. -/
def getBlockSubsidy (nPrevHeight : Int) (fSuperblockPartOnly : Bool) : Int :=
  if nPrevHeight = 0 then 525000 * coin
  else
    let nSubsidyBase : Int := if nPrevHeight < 250 then 1 else 30
    let nSubsidyDivide : Int := if nPrevHeight < params.subsidyDivideHeight then 5 else 2
    let nSubsidy := decreasedSubsidy nSubsidyDivide (nSubsidyBase * coin)
      (nPrevHeight / params.nSubsidyHalvingInterval).toNat
    let nSuperblockPart :=
      if nPrevHeight > params.nBudgetPaymentsStartBlock then nSubsidy / 10 else 0
    let nSubsidy := nSubsidy + nSuperblockPart
    if fSuperblockPartOnly then nSuperblockPart else nSubsidy - nSuperblockPart

/-! ### Superblocks -/

structure CGovernancePayment where
  script : CScript
  nAmount : Int
deriving DecidableEq, Repr

/-- An active trigger, with the votes of its governance object. -/
structure CSuperblock where
  nBlockHeight : Int
  vecPayments : List CGovernancePayment
  /-- `pObj->IsSetCachedFunding()` after `UpdateSentinelVariables`. -/
  fCachedFunding : Bool
  /-- `pObj->GetAbsoluteYesCount(VOTE_SIGNAL_FUNDING)`. -/
  nAbsoluteYesCount : Int
deriving DecidableEq, Repr

/-- What the node knows about masternodes, sporks and governance when it looks at a block. -/
structure GovernanceState where
  /-- `masternodeSync.IsSynced()`. -/
  isSynced : Bool
  fLiteMode : Bool
  /-- `SPORK_9_SUPERBLOCKS_ENABLED`. -/
  superblocksEnabled : Bool
  /-- `triggerman.GetActiveTriggers()`. -/
  activeTriggers : List CSuperblock
  /-- `mnpayments.IsTransactionValid(txNew, nBlockHeight, blockReward)`. -/
  isTransactionValid : CTransaction → Int → Int → Bool

def isValidBlockHeight : Bool :=
  nBlockHeight ≥ params.nSuperblockStartBlock ∧ nBlockHeight % params.nSuperblockCycle = 0

def getPaymentsLimit : Int :=
  if isValidBlockHeight params nBlockHeight = false then 0
  else getBlockSubsidy params (nBlockHeight - 1) true * params.nSuperblockCycle

def CSuperblock.getPaymentsTotalAmount (sb : CSuperblock) : Int :=
  sb.vecPayments.foldl (fun total payment => (total + payment.nAmount).bmod (2 ^ 64)) 0

/-- The search for the payments among the outputs.  The next search starts at the output just
found, which can therefore match again. -/
def findPayments : List CGovernancePayment → List CTxOut → Bool
  | [], _ => true
  | payment :: payments, vout =>
    match vout.dropWhile fun out =>
      !(payment.script == out.scriptPubKey && payment.nAmount == out.nValue) with
    | [] => false
    | found :: rest => findPayments payments (found :: rest)

def CSuperblock.isValid (sb : CSuperblock) (txNew : CTransaction) (nBlockHeight blockReward : Int) :
    Except Fail Bool := do
  if isValidBlockHeight params nBlockHeight = false then return false
  if txNew.vout.length < sb.vecPayments.length then return false
  let nPaymentsTotalAmount := sb.getPaymentsTotalAmount
  if nPaymentsTotalAmount > getPaymentsLimit params nBlockHeight then return false
  let nBlockValue ← txNew.getValueOut
  let limit ← amount (blockReward + nPaymentsTotalAmount)
  if nBlockValue > limit then return false
  return findPayments sb.vecPayments txNew.vout

def isSuperblockTriggered : Bool :=
  isValidBlockHeight params nBlockHeight &&
    gov.activeTriggers.any fun sb => sb.nBlockHeight == nBlockHeight && sb.fCachedFunding

/-- `CSuperblockManager::GetBestSuperblock`: the first of those with the most votes, if they have
any. -/
def getBestSuperblock : Option CSuperblock :=
  if isValidBlockHeight params nBlockHeight = false then none
  else
    gov.activeTriggers.foldl (fun best sb =>
      if sb.nBlockHeight = nBlockHeight ∧
          sb.nAbsoluteYesCount > (best.map (·.nAbsoluteYesCount)).getD 0 then some sb
      else best) none

/-- `CSuperblockManager::IsValid`. -/
def isSuperblockValid (txNew : CTransaction) (nBlockHeight blockReward : Int) : Except Fail Bool :=
  match getBestSuperblock params gov nBlockHeight with
  | some sb => sb.isValid params txNew nBlockHeight blockReward
  | none => .ok false

/-! ### The value of the coinbase -/

/-- The text that `strprintf` makes, for all the messages that start alike. -/
def paysTooMuch (actual limit : Int) (why : String) : String :=
  s!"coinbase pays too much at height {nBlockHeight} (actual={actual} vs limit={limit}), {why}"

/-- A verdict on a value: nothing, or the error text. -/
def valueVerdict (actual limit : Int) (why : String) : Option String :=
  if actual ≤ limit then none else some (paysTooMuch nBlockHeight actual limit why)

/-- `IsOldBudgetBlockValueValid`, with `strErrorRet` where it returns false. -/
def isOldBudgetBlockValueValid (nValueOut nBlockHeight blockReward : Int) : Option String :=
  if nBlockHeight < params.nBudgetPaymentsStartBlock then
    some s!"Incorrect block {nBlockHeight}, old budgets are not activated yet"
  else if nBlockHeight ≥ params.nSuperblockStartBlock then
    some s!"Incorrect block {nBlockHeight}, old budgets are no longer active"
  else if nBlockHeight % params.nBudgetPaymentsCycleBlocks <
      params.nBudgetPaymentsWindowBlocks then
    if gov.isSynced = true then
      valueVerdict nBlockHeight nValueOut blockReward
        "exceeded block reward, old budgets are disabled"
    else none
  else
    valueVerdict nBlockHeight nValueOut blockReward
      "exceeded block reward, block is not in old budget cycle window"

/-- `IsBlockValueValid`, with `strErrorRet` where it returns false. -/
def isBlockValueValid (coinbase : CTransaction)
    (nBlockHeight blockReward : Int) : Except Fail (Option String) := do
  let nValueOut ← coinbase.getValueOut
  if nBlockHeight < params.nBudgetPaymentsStartBlock then
    return valueVerdict nBlockHeight nValueOut blockReward
      "exceeded block reward, old budgets are not activated yet"
  if nBlockHeight < params.nSuperblockStartBlock then
    return isOldBudgetBlockValueValid params gov nValueOut nBlockHeight blockReward
  let nSuperblockMaxValue ← amount (blockReward + getPaymentsLimit params nBlockHeight)
  if isValidBlockHeight params nBlockHeight = false then
    return valueVerdict nBlockHeight nValueOut blockReward
      "exceeded block reward, only regular blocks are allowed at this height"
  if nValueOut > nSuperblockMaxValue then
    return some (paysTooMuch nBlockHeight nValueOut nSuperblockMaxValue
      "exceeded superblock max value")
  if gov.isSynced = false ∨ gov.fLiteMode = true then return none
  if gov.superblocksEnabled = false then
    return valueVerdict nBlockHeight nValueOut blockReward
      "exceeded block reward, superblocks are disabled"
  if isSuperblockTriggered params gov nBlockHeight = false then
    return valueVerdict nBlockHeight nValueOut blockReward
      "exceeded block reward, no triggered superblock detected"
  let valid ← isSuperblockValid params gov coinbase nBlockHeight blockReward
  if valid = true then return none
  else return some s!"invalid superblock detected at height {nBlockHeight}"

def isBlockPayeeValid (txNew : CTransaction)
    (nBlockHeight blockReward : Int) : Except Fail Bool := do
  if gov.fLiteMode = true then return true
  if nBlockHeight < params.nSuperblockStartBlock then return true
  if gov.superblocksEnabled = true ∧ isSuperblockTriggered params gov nBlockHeight = true then
    let valid ← isSuperblockValid params gov txNew nBlockHeight blockReward
    if valid = false then return false
    else return gov.isTransactionValid txNew nBlockHeight blockReward
  else return gov.isTransactionValid txNew nBlockHeight blockReward

end

end Absolute
