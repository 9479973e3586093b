/-
`CDeterministicMNManager`: the list of a block from the list of the block before it.

`BuildNewListFromBlock` is cut along its own seams: the confirmation pass over the old
list, `DecreasePoSePenalties`, one definition for each kind of transaction, the pass over
spent collaterals, and the payee.
-/
import AbsoluteCore.Evo.SpecialTx

namespace Absolute

open CDeterministicMNList

variable (env : Env) (lists : CBlockIndex → CDeterministicMNList) (pindexPrev : CBlockIndex)
  (nHeight : Int) (newList : CDeterministicMNList)

/-! ### Before the transactions -/

/-- Whether the confirmation pass sets the confirmed hash of a masternode. -/
def isConfirmedBy (dmn : CDeterministicMN) (pindexPrev : CBlockIndex) : Bool :=
  dmn.pdmnState.confirmedHash == 0 &&
    pindexPrev.nHeight - dmn.pdmnState.nRegisteredHeight ≥ env.nMasternodeMinimumConfirmations

/-- The callback of the confirmation pass. -/
def confirmMN (dmn : CDeterministicMN) : Except Fail CDeterministicMNList :=
  if isConfirmedBy env dmn pindexPrev then
    newList.updateMN env.serializeHash dmn.proTxHash
      (dmn.pdmnState.updateConfirmedHash env.sha256 dmn.proTxHash pindexPrev.getBlockHash)
  else .ok newList

def decreasePoSePenalties (mnList : CDeterministicMNList) : Except Fail CDeterministicMNList :=
  let toDecrease := ((mnList.forEachMN true).filter fun dmn =>
    dmn.pdmnState.nPoSePenalty > 0 && dmn.pdmnState.nPoSeBanHeight == -1).map (·.proTxHash)
  toDecrease.foldlM (poSeDecrease env.serializeHash) mnList

/-! ### Transactions -/

def newMN (tx : CTransaction) (proTx : CProRegTx) (internalId : Nat) (nHeight : Int) :
    CDeterministicMN where
  proTxHash := env.txHash tx
  internalId := internalId
  collateralOutpoint := proRegCollateral env tx proTx
  nOperatorReward := proTx.nOperatorReward
  pdmnState :=
    { CDeterministicMNState.ofProRegTx proTx with
      nRegisteredHeight := nHeight
      -- without an address it starts banned and waits for a `ProUpServTx`
      nPoSeBanHeight := if proTx.addr = .null then nHeight else -1 }

/-- `RemoveMN` of the masternode whose collateral a new `ProRegTx` takes over. -/
def removeReplaced (collateral : COutPoint) : Except Fail CDeterministicMNList :=
  match newList.getMNByCollateral env.serializeHash collateral with
  | some replacedDmn => newList.removeMN env.serializeHash replacedDmn.proTxHash
  | none => .ok newList

def processProRegTx (tx : CTransaction) : Except Fail CDeterministicMNList := do
  let proTx ← deref tx.getProRegTx
  let internalId := newList.nTotalRegisteredCount
  let newList := newList.setTotalRegisteredCount (newList.nTotalRegisteredCount + 1)
  let collateral := proRegCollateral env tx proTx
  rejectIf (proTx.collateralOutpoint.hash ≠ 0 ∧
    ((env.getUTXOCoin pindexPrev collateral).all fun c => c.out.nValue != 2500 * coin) = true) 100
    .invalid "bad-protx-collateral"
  let newList ← removeReplaced env newList collateral
  rejectIf (newList.hasUniqueProperty env.serializeHash (.service proTx.addr) = true) 100 .conflict
    "bad-protx-dup-addr"
  rejectIf (newList.hasUniqueProperty env.serializeHash (.keyID proTx.keyIDOwner) = true ∨
    newList.hasUniqueProperty env.serializeHash (.pubKey proTx.pubKeyOperator) = true) 100 .conflict
    "bad-protx-dup-key"
  newList.addMN env.serializeHash (newMN env tx proTx internalId nHeight)

def updServState (proTx : CProUpServTx) (s : CDeterministicMNState) : CDeterministicMNState :=
  let s := { s with addr := proTx.addr, scriptOperatorPayout := proTx.scriptOperatorPayout }
  -- only revive when all keys are set
  if s.nPoSeBanHeight ≠ -1 ∧ s.pubKeyOperator.isValid = true ∧ s.keyIDVoting ≠ 0 ∧
      s.keyIDOwner ≠ 0 then
    { s with nPoSePenalty := 0, nPoSeBanHeight := -1, nPoSeRevivedHeight := nHeight }
  else s

def processProUpServTx (tx : CTransaction) : Except Fail CDeterministicMNList := do
  let proTx ← deref tx.getProUpServTx
  (if newList.hasUniqueProperty env.serializeHash (.service proTx.addr) then do
    let other ← deref (newList.getUniquePropertyMN env.serializeHash (.service proTx.addr))
    rejectIf (other.proTxHash ≠ proTx.proTxHash) 100 .conflict "bad-protx-dup-addr"
  else pure ())
  let dmn ← orReject (newList.getMN proTx.proTxHash) 100 .invalid "bad-protx-hash"
  newList.updateMN env.serializeHash proTx.proTxHash (updServState nHeight proTx dmn.pdmnState)

/-- The state a `ProUpRegTx` writes; a new operator key bans the masternode. -/
def updRegState (proTx : CProUpRegTx) (s : CDeterministicMNState) : CDeterministicMNState :=
  let s := if s.pubKeyOperator ≠ proTx.pubKeyOperator then
      s.resetOperatorFields.banIfNotBanned nHeight
    else s
  { s with
    pubKeyOperator := proTx.pubKeyOperator
    keyIDVoting := proTx.keyIDVoting
    scriptPayout := proTx.scriptPayout }

def processProUpRegTx (tx : CTransaction) : Except Fail CDeterministicMNList := do
  let proTx ← deref tx.getProUpRegTx
  let dmn ← orReject (newList.getMN proTx.proTxHash) 100 .invalid "bad-protx-hash"
  newList.updateMN env.serializeHash proTx.proTxHash (updRegState nHeight proTx dmn.pdmnState)

def updRevState (proTx : CProUpRevTx) (s : CDeterministicMNState) : CDeterministicMNState :=
  { s.resetOperatorFields.banIfNotBanned nHeight with nRevocationReason := proTx.nReason }

def processProUpRevTx (tx : CTransaction) : Except Fail CDeterministicMNList := do
  let proTx ← deref tx.getProUpRevTx
  let dmn ← orReject (newList.getMN proTx.proTxHash) 100 .invalid "bad-protx-hash"
  newList.updateMN env.serializeHash proTx.proTxHash (updRevState nHeight proTx dmn.pdmnState)

/-- The body of `HandleQuorumCommitment`'s loop, for a member and its bit in `validMembers`. -/
def punishMember (mnList : CDeterministicMNList) (p : CDeterministicMN × Bool) :
    Except Fail CDeterministicMNList :=
  if mnList.hasMN p.1.proTxHash ∧ p.2 = false then do
    let penalty ← mnList.calcPenalty 66
    mnList.poSePunish env.serializeHash p.1.proTxHash penalty
  else .ok mnList

/-- `HandleQuorumCommitment`; indexing `validMembers` past its end is undefined behaviour. -/
def handleQuorumCommitment (qc : CFinalCommitment) (pindexQuorum : CBlockIndex)
    (mnList : CDeterministicMNList) : Except Fail CDeterministicMNList := do
  let members ← getAllQuorumMembers env lists qc.llmqType pindexQuorum
  assertThat (members.length ≤ qc.validMembers.length)
  (members.zip qc.validMembers).foldlM (punishMember env) mnList

def processCommitment (tx : CTransaction) : Except Fail CDeterministicMNList := do
  let qc ← deref tx.getCommitment
  if qc.commitment.isNull then
    return newList
  else do
    let params ← deref (env.llmqs qc.commitment.llmqType)
    let quorumHeight := qc.nHeight - qc.nHeight % params.dkgInterval
    let quorumIndex ← orReject (pindexPrev.getAncestor quorumHeight) 100 .invalid
      "bad-qc-quorum-hash"
    rejectIf (quorumIndex.getBlockHash ≠ qc.commitment.quorumHash) 100 .invalid
      "bad-qc-quorum-hash"
    handleQuorumCommitment env lists qc.commitment quorumIndex newList

/-- One pass through the loop over the block's transactions. -/
def processTx (tx : CTransaction) : Except Fail CDeterministicMNList :=
  let nHeight := pindexPrev.nHeight + 1
  if tx.nVersion ≠ 3 then .ok newList
  else
    match tx.nType with
    | .providerRegister => processProRegTx env pindexPrev nHeight newList tx
    | .providerUpdateService => processProUpServTx env nHeight newList tx
    | .providerUpdateRegistrar => processProUpRegTx env nHeight newList tx
    | .providerUpdateRevoke => processProUpRevTx env nHeight newList tx
    | .quorumCommitment => processCommitment env lists pindexPrev newList tx
    | _ => .ok newList

/-! ### After the transactions -/

/-- Removes the masternode whose collateral an input spends. -/
def spendCollateral (prevout : COutPoint) : Except Fail CDeterministicMNList :=
  match newList.getMNByCollateral env.serializeHash prevout with
  | some dmn =>
    if dmn.collateralOutpoint = prevout then newList.removeMN env.serializeHash dmn.proTxHash
    else .ok newList
  | none => .ok newList

/-- The inputs of the transactions after the coinbase, in block order. -/
def spentOutpoints (txs : List CTransaction) : List COutPoint :=
  txs.flatMap fun tx => tx.vin.map (·.prevout)

/-- Writes the height at which the payee of the block was paid, if it is still there. -/
def payMN (payee : Option CDeterministicMN) (newList : CDeterministicMNList) :
    Except Fail CDeterministicMNList :=
  match payee with
  | none => .ok newList
  | some payee =>
    match newList.getMN payee.proTxHash with
    | none => .ok newList
    | some dmn =>
      newList.updateMN env.serializeHash payee.proTxHash
        { dmn.pdmnState with nLastPaidHeight := nHeight }

/-! ### The whole block -/

/-- The new list before the first transaction is applied. -/
def prepareList : Except Fail CDeterministicMNList := do
  let oldList := lists pindexPrev
  let newList := { oldList with blockHash := 0, nHeight := pindexPrev.nHeight + 1 }
  let newList ← (oldList.forEachMN false).foldlM (confirmMN env pindexPrev) newList
  decreasePoSePenalties env newList

/-- The evolving list after the given transactions. -/
def listAfter (txs : List CTransaction) : Except Fail CDeterministicMNList := do
  let newList ← prepareList env lists pindexPrev
  txs.foldlM (processTx env lists pindexPrev) newList

/-- `BuildNewListFromBlock`; the coinbase is skipped. -/
def buildNewListFromBlock (block : CBlock) (pindexPrev : CBlockIndex) :
    Except Fail CDeterministicMNList := do
  let payee := (lists pindexPrev).getMNPayee
  let newList ← listAfter env lists pindexPrev block.vtx.tail
  let newList ← (spentOutpoints block.vtx.tail).foldlM (spendCollateral env) newList
  payMN env (pindexPrev.nHeight + 1) payee newList

end Absolute
