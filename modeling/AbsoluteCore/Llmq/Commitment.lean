/-
Final commitments of quorums, as block validation checks them.
-/
import AbsoluteCore.Evo.ProviderTx
import Mathlib.Data.Finset.Option

namespace Absolute

variable (env : Env) (lists : CBlockIndex → CDeterministicMNList)

/-- `CLLMQUtils::GetAllQuorumMembers`; `llmqs.at` throws for an unknown type. -/
def getAllQuorumMembers (llmqType : Nat) (pindexQuorum : CBlockIndex) :
    Except Fail (List CDeterministicMN) := do
  let params ← deref (env.llmqs llmqType)
  let allMns := lists pindexQuorum
  let modifier := env.quorumModifier llmqType pindexQuorum.getBlockHash
  return allMns.calculateQuorum env.sha256 params.size modifier

/--
The `while` loop of `GetQuorumConnections` for the member at position `i`.  `continue` leaves `gap`
and `k` as they are.  There is no result if the fuel does not suffice.
-/
def connectionsLoop (mns : List CDeterministicMN) (i : Nat) :
    Nat → Nat → Nat → Nat → Finset Uint256 → Option (Finset Uint256)
  | 0, _, _, _, _ => none
  | fuel + 1, gap, gapMax, k, result =>
    let gapMax := gapMax / 2
    if gapMax ≠ 0 ∨ k ≤ 1 then
      let idx := (i + gap) % mns.length
      -- the members are compared as pointers
      if idx = i then connectionsLoop mns i fuel gap gapMax k result
      else connectionsLoop mns i fuel (gap * 2) gapMax (k + 1)
        (result ∪ (mns[idx]?.map CDeterministicMN.proTxHash).toFinset)
    else some result

/-- `CLLMQUtils::GetQuorumConnections`, for the members that `GetAllQuorumMembers` returns. -/
def getQuorumConnections (fuel : Nat) (mns : List CDeterministicMN) (forMember : Uint256) :
    Option (Finset Uint256) :=
  match mns.findIdx? (·.proTxHash == forMember) with
  | none => some ∅
  | some i => connectionsLoop mns i fuel 1 (mns.length - 1) 0 ∅

namespace CFinalCommitment

/-- `CFinalCommitment::CURRENT_VERSION`, also of the payload around it. -/
def currentVersion : Nat := 1

variable (qc : CFinalCommitment)

def countSigners : Nat := qc.signers.count true

def countValidMembers : Nat := qc.validMembers.count true

def isNull : Bool :=
  qc.countSigners == 0 && qc.countValidMembers == 0 && !qc.quorumPublicKey.isValid &&
    qc.quorumVvecHash == 0 && !qc.membersSig.isValid && !qc.quorumSig.isValid

def verifySizes (params : LLMQParams) : Bool :=
  qc.signers.length == params.size && qc.validMembers.length == params.size

/-- `Verify(members, false)`: the signatures are checked when the block is processed. -/
def verify (params : LLMQParams) (members : List CDeterministicMN) : Bool :=
  !(qc.nVersion == 0 || qc.nVersion > currentVersion) && qc.verifySizes params &&
    !(qc.countValidMembers < params.minSize) && !(qc.countSigners < params.minSize) &&
    qc.quorumPublicKey.isValid && qc.quorumVvecHash != 0 && qc.membersSig.isValid &&
    qc.quorumSig.isValid &&
    -- no bit may be set beyond the members
    (qc.validMembers.drop members.length).all (!·) && (qc.signers.drop members.length).all (!·)

end CFinalCommitment

def checkLLMQCommitment (tx : CTransaction) (pindexPrev : CBlockIndex) : Except Fail Unit := do
  let qcTx ← orReject tx.getCommitment 100 .invalid "bad-qc-payload"
  rejectIf (qcTx.nVersion = 0 ∨ qcTx.nVersion > CFinalCommitment.currentVersion) 100 .invalid
    "bad-qc-version"
  rejectIf ((qcTx.nHeight : Int) ≠ pindexPrev.nHeight + 1) 100 .invalid "bad-qc-height"
  let pindexQuorum ← orReject (env.mapBlockIndex qcTx.commitment.quorumHash) 100 .invalid
    "bad-qc-quorum-hash"
  -- not part of the active chain
  rejectIf (pindexPrev.getAncestor pindexQuorum.nHeight ≠ some pindexQuorum) 100 .invalid
    "bad-qc-quorum-hash"
  let params ← orReject (env.llmqs qcTx.commitment.llmqType) 100 .invalid "bad-qc-type"
  if qcTx.commitment.isNull then
    rejectIf (qcTx.commitment.verifySizes params = false) 100 .invalid "bad-qc-invalid-null"
  else do
    let members ← getAllQuorumMembers env lists qcTx.commitment.llmqType pindexQuorum
    rejectIf (qcTx.commitment.verify params members = false) 100 .invalid "bad-qc-invalid"

/-- One transaction in `GetCommitmentsFromBlock`, with the commitments found so far. -/
def collectBlockCommitment (ret : List CFinalCommitment) (tx : CTransaction) :
    Except Fail (List CFinalCommitment) := do
  if tx.nType = .quorumCommitment then
    match tx.getCommitment with
    | none => dos 100 .invalid "bad-tx-payload"
    | some qc =>
      rejectIf (ret.any fun c => c.llmqType = qc.commitment.llmqType) 100 .invalid "bad-qc-dup"
      return ret ++ [qc.commitment]
  else return ret

end Absolute
