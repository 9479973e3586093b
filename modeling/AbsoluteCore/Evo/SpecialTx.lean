/-
`CheckSpecialTx`: one transaction against the state of the previous block.
-/
import AbsoluteCore.Llmq.Commitment

namespace Absolute

variable (env : Env) (lists : CBlockIndex → CDeterministicMNList)

def CCbTx.currentVersion : Nat := 2

def checkCbTx (tx : CTransaction) (pindexPrev : CBlockIndex) : Except Fail Unit := do
  rejectIf (tx.nType ≠ .coinbase) 100 .invalid "bad-cbtx-type"
  rejectIf (tx.isCoinBase = false) 100 .invalid "bad-cbtx-invalid"
  let cbTx ← orReject tx.getCbTx 100 .invalid "bad-cbtx-payload"
  rejectIf (cbTx.nVersion = 0 ∨ cbTx.nVersion > CCbTx.currentVersion) 100 .invalid
    "bad-cbtx-version"
  rejectIf (pindexPrev.nHeight + 1 ≠ cbTx.nHeight) 100 .invalid "bad-cbtx-height"
  rejectIf (env.dip0008Active pindexPrev = true ∧ cbTx.nVersion < 2) 100 .invalid
    "bad-cbtx-version"

def checkSpecialTx (tx : CTransaction) (pindexPrev : CBlockIndex) : Except Fail Unit :=
  if tx.nVersion ≠ 3 ∨ tx.nType = .normal then
    .ok ()
  else if pindexPrev.nHeight + 1 < env.dip0003Height then
    dos 10 .invalid "bad-tx-type"
  else
    match tx.nType with
    | .providerRegister => checkProRegTx env lists tx pindexPrev
    | .providerUpdateService => checkProUpServTx env lists tx pindexPrev
    | .providerUpdateRegistrar => checkProUpRegTx env lists tx pindexPrev
    | .providerUpdateRevoke => checkProUpRevTx env lists tx pindexPrev
    | .coinbase => checkCbTx env tx pindexPrev
    | .quorumCommitment => checkLLMQCommitment env lists tx pindexPrev
    | _ => dos 10 .invalid "bad-tx-type-check"

end Absolute
