/-
The checks of the four provider transactions against the list of the previous block.

`lists` is `deterministicMNManager->GetListForBlock`, and the previous block exists.
-/
import AbsoluteCore.Evo.Environment

namespace Absolute

variable (env : Env) (lists : CBlockIndex → CDeterministicMNList)

def checkService (addr : CService) : Except Fail Unit := do
  rejectIf (addr.isValid = false) 10 .invalid "bad-protx-addr"
  rejectIf (env.network ≠ .regtest ∧ addr.isRoutable env.fAllowPrivateNet = false) 10 .invalid
    "bad-protx-addr"
  rejectIf (env.network = .main ∧ addr.port ≠ mainnetDefaultPort) 10 .invalid
    "bad-protx-addr-port"
  rejectIf (env.network ≠ .main ∧ addr.port = mainnetDefaultPort) 10 .invalid
    "bad-protx-addr-port"
  rejectIf (addr.isIPv4 = false ∧ addr.isIPv6 = false) 10 .invalid "bad-protx-addr"

/-- `CheckHashSig` with an operator key. -/
def checkHashSigBLS (payload : TxPayload) (sig : CBLSSignature) (pubKey : CBLSPublicKey) :
    Except Fail Unit :=
  rejectIf (env.verifyInsecure sig pubKey (env.payloadHash payload) = false) 100 .invalid
    "bad-protx-sig"

/-- `CheckHashSig` with an owner key. -/
def checkHashSig (payload : TxPayload) (vchSig : List UInt8) (keyID : CKeyID) : Except Fail Unit :=
  rejectIf (env.verifyHash (env.payloadHash payload) keyID vchSig = false) 100 .invalid
    "bad-protx-sig"

def checkStringSig (ptx : CProRegTx) (keyID : CKeyID) : Except Fail Unit :=
  rejectIf (env.verifyMessage keyID ptx.vchSig ptx = false) 100 .invalid "bad-protx-sig"

def checkInputsHash (tx : CTransaction) (inputsHash : Uint256) : Except Fail Unit :=
  rejectIf (env.calcTxInputsHash tx ≠ inputsHash) 100 .invalid "bad-protx-inputs-hash"

/-- A present value, or a rejection: `if (!get(x)) return state.DoS(...)`. -/
def orReject {α : Type} (x : Option α) (level : Nat) (code : RejectCode) (reason : String) :
    Except Fail α :=
  match x with
  | some a => .ok a
  | none => dos level code reason

/-- `collateralOutpoint`: the external one, or the output of the transaction itself. -/
def proRegCollateral (tx : CTransaction) (ptx : CProRegTx) : COutPoint :=
  if ptx.collateralOutpoint.hash = 0 then ⟨env.txHash tx, ptx.collateralOutpoint.n⟩
  else ptx.collateralOutpoint

/--
The part of `CheckProRegTx` that looks at the collateral: its destination, and the key
that has to sign the payload (null when the collateral is the transaction's own).
-/
def checkCollateral (tx : CTransaction) (ptx : CProRegTx) (pindexPrev : CBlockIndex) :
    Except Fail (CTxDestination × CKeyID) :=
  if ptx.collateralOutpoint.hash ≠ 0 then do
    let coin' ← orReject (env.getUTXOCoin pindexPrev ptx.collateralOutpoint) 10 .invalid
      "bad-protx-collateral"
    rejectIf (coin'.out.nValue ≠ 2500 * coin) 10 .invalid "bad-protx-collateral"
    let dest ← orReject (env.extractDestination coin'.out.scriptPubKey) 10 .invalid
      "bad-protx-collateral-dest"
    let keyForPayloadSig ← orReject dest.getKeyID 10 .invalid "bad-protx-collateral-pkh"
    return (dest, keyForPayloadSig)
  else do
    let out ← orReject tx.vout[ptx.collateralOutpoint.n]? 10 .invalid "bad-protx-collateral-index"
    rejectIf (out.nValue ≠ 2500 * coin) 10 .invalid "bad-protx-collateral"
    let dest ← orReject (env.extractDestination out.scriptPubKey) 10 .invalid
      "bad-protx-collateral-dest"
    return (dest, 0)

/-- The part of `CheckProRegTx` that looks at the previous block's list. -/
def checkProRegList (tx : CTransaction) (ptx : CProRegTx) (pindexPrev : CBlockIndex) :
    Except Fail Unit := do
  let mnList := lists pindexPrev
  (if mnList.hasUniqueProperty env.serializeHash (.service ptx.addr) then do
    let dmn ← deref (mnList.getUniquePropertyMN env.serializeHash (.service ptx.addr))
    -- addresses may be reused for the same collateral, which replaces the old masternode
    rejectIf (dmn.collateralOutpoint ≠ proRegCollateral env tx ptx) 10 .duplicate
      "bad-protx-dup-addr"
  else pure ())
  rejectIf (mnList.hasUniqueProperty env.serializeHash (.keyID ptx.keyIDOwner) = true ∨
    mnList.hasUniqueProperty env.serializeHash (.pubKey ptx.pubKeyOperator) = true) 10 .duplicate
    "bad-protx-dup-key"
  rejectIf (env.isDIP3Enforced pindexPrev.nHeight = false ∧ ptx.keyIDOwner ≠ ptx.keyIDVoting) 10
    .invalid "bad-protx-key-not-same"

def checkProRegTx (tx : CTransaction) (pindexPrev : CBlockIndex) : Except Fail Unit := do
  rejectIf (tx.nType ≠ .providerRegister) 100 .invalid "bad-protx-type"
  let ptx ← orReject tx.getProRegTx 100 .invalid "bad-protx-payload"
  rejectIf (ptx.nVersion = 0 ∨ ptx.nVersion > CProRegTx.currentVersion) 100 .invalid
    "bad-protx-version"
  rejectIf (ptx.nType ≠ 0) 100 .invalid "bad-protx-type"
  rejectIf (ptx.nMode ≠ 0) 100 .invalid "bad-protx-mode"
  rejectIf (ptx.keyIDOwner = 0 ∨ ptx.pubKeyOperator.isValid = false ∨ ptx.keyIDVoting = 0) 10
    .invalid "bad-protx-key-null"
  rejectIf (isPayToPublicKeyHash ptx.scriptPayout = false ∧
    isPayToScriptHash ptx.scriptPayout = false) 10 .invalid "bad-protx-payee"
  let payoutDest ← orReject (env.extractDestination ptx.scriptPayout) 10 .invalid
    "bad-protx-payee-dest"
  rejectIf (payoutDest = .keyID ptx.keyIDOwner ∨ payoutDest = .keyID ptx.keyIDVoting) 10 .invalid
    "bad-protx-payee-reuse"
  (if ptx.addr ≠ .null then checkService env ptx.addr else pure ())
  rejectIf (ptx.nOperatorReward > 10000) 10 .invalid "bad-protx-operator-reward"
  let collateral ← checkCollateral env tx ptx pindexPrev
  rejectIf (collateral.1 = .keyID ptx.keyIDOwner ∨ collateral.1 = .keyID ptx.keyIDVoting)
    10 .invalid "bad-protx-collateral-reuse"
  checkProRegList env lists tx ptx pindexPrev
  checkInputsHash env tx ptx.inputsHash
  if collateral.2 ≠ 0 then
    checkStringSig env ptx collateral.2
  else
    rejectIf (ptx.vchSig ≠ []) 100 .invalid "bad-protx-sig"

def checkProUpServTx (tx : CTransaction) (pindexPrev : CBlockIndex) : Except Fail Unit := do
  rejectIf (tx.nType ≠ .providerUpdateService) 100 .invalid "bad-protx-type"
  let ptx ← orReject tx.getProUpServTx 100 .invalid "bad-protx-payload"
  rejectIf (ptx.nVersion = 0 ∨ ptx.nVersion > CProRegTx.currentVersion) 100 .invalid
    "bad-protx-version"
  checkService env ptx.addr
  let mnList := lists pindexPrev
  let mn ← orReject (mnList.getMN ptx.proTxHash) 100 .invalid "bad-protx-hash"
  (if mnList.hasUniqueProperty env.serializeHash (.service ptx.addr) then do
    let dmn ← deref (mnList.getUniquePropertyMN env.serializeHash (.service ptx.addr))
    rejectIf (dmn.proTxHash ≠ ptx.proTxHash) 10 .duplicate "bad-protx-dup-addr"
  else pure ())
  rejectIf (ptx.scriptOperatorPayout ≠ [] ∧ mn.nOperatorReward = 0) 10 .invalid
    "bad-protx-operator-payee"
  rejectIf (ptx.scriptOperatorPayout ≠ [] ∧ isPayToPublicKeyHash ptx.scriptOperatorPayout = false ∧
    isPayToScriptHash ptx.scriptOperatorPayout = false) 10 .invalid "bad-protx-operator-payee"
  checkInputsHash env tx ptx.inputsHash
  checkHashSigBLS env (.proUpServ ptx) ptx.sig mn.pdmnState.pubKeyOperator

def checkProUpRegTx (tx : CTransaction) (pindexPrev : CBlockIndex) : Except Fail Unit := do
  rejectIf (tx.nType ≠ .providerUpdateRegistrar) 100 .invalid "bad-protx-type"
  let ptx ← orReject tx.getProUpRegTx 100 .invalid "bad-protx-payload"
  rejectIf (ptx.nVersion = 0 ∨ ptx.nVersion > CProRegTx.currentVersion) 100 .invalid
    "bad-protx-version"
  rejectIf (ptx.nMode ≠ 0) 100 .invalid "bad-protx-mode"
  rejectIf (ptx.pubKeyOperator.isValid = false ∨ ptx.keyIDVoting = 0) 10 .invalid
    "bad-protx-key-null"
  rejectIf (isPayToPublicKeyHash ptx.scriptPayout = false ∧
    isPayToScriptHash ptx.scriptPayout = false) 10 .invalid "bad-protx-payee"
  let payoutDest ← orReject (env.extractDestination ptx.scriptPayout) 10 .invalid
    "bad-protx-payee-dest"
  let mnList := lists pindexPrev
  let dmn ← orReject (mnList.getMN ptx.proTxHash) 100 .invalid "bad-protx-hash"
  rejectIf (payoutDest = .keyID dmn.pdmnState.keyIDOwner ∨ payoutDest = .keyID ptx.keyIDVoting) 10
    .invalid "bad-protx-payee-reuse"
  let coin' ← orReject (env.getUTXOCoin pindexPrev dmn.collateralOutpoint) 100 .invalid
    "bad-protx-collateral"
  let collateralTxDest ← orReject (env.extractDestination coin'.out.scriptPubKey) 100 .invalid
    "bad-protx-collateral-dest"
  rejectIf (collateralTxDest = .keyID dmn.pdmnState.keyIDOwner ∨
    collateralTxDest = .keyID ptx.keyIDVoting) 10 .invalid "bad-protx-collateral-reuse"
  (if mnList.hasUniqueProperty env.serializeHash (.pubKey ptx.pubKeyOperator) then do
    let otherDmn ← deref (mnList.getUniquePropertyMN env.serializeHash (.pubKey ptx.pubKeyOperator))
    rejectIf (ptx.proTxHash ≠ otherDmn.proTxHash) 10 .duplicate "bad-protx-dup-key"
  else pure ())
  rejectIf (env.isDIP3Enforced pindexPrev.nHeight = false ∧
    dmn.pdmnState.keyIDOwner ≠ ptx.keyIDVoting) 10 .invalid "bad-protx-key-not-same"
  checkInputsHash env tx ptx.inputsHash
  checkHashSig env (.proUpReg ptx) ptx.vchSig dmn.pdmnState.keyIDOwner

def checkProUpRevTx (tx : CTransaction) (pindexPrev : CBlockIndex) : Except Fail Unit := do
  rejectIf (tx.nType ≠ .providerUpdateRevoke) 100 .invalid "bad-protx-type"
  let ptx ← orReject tx.getProUpRevTx 100 .invalid "bad-protx-payload"
  rejectIf (ptx.nVersion = 0 ∨ ptx.nVersion > CProRegTx.currentVersion) 100 .invalid
    "bad-protx-version"
  rejectIf (ptx.nReason > CProUpRevTx.reasonLast) 100 .invalid "bad-protx-reason"
  let mnList := lists pindexPrev
  let dmn ← orReject (mnList.getMN ptx.proTxHash) 100 .invalid "bad-protx-hash"
  checkInputsHash env tx ptx.inputsHash
  checkHashSigBLS env (.proUpRev ptx) ptx.sig dmn.pdmnState.pubKeyOperator

end Absolute
