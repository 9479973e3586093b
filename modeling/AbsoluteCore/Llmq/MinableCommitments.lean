/-
Commitments that can be mined.

The block processor keeps commitments that were received from peers, or made by the node itself, and
offers the one of a session for the next block.
-/
import AbsoluteCore.Llmq.BlockProcessor

namespace Absolute

open CQuorumBlockProcessor

/-- `std::map::emplace`, which leaves an entry alone that is there. -/
def emplace {κ ν : Type} [DecidableEq κ] (m : κ → Option ν) (k : κ) (v : ν) : κ → Option ν :=
  match m k with
  | some _ => m
  | none => Function.update m k (some v)

theorem emplace_apply {κ ν : Type} [DecidableEq κ] (m : κ → Option ν) (k : κ) (v : ν) (j : κ) :
    emplace m k v j = if j = k then some ((m k).getD v) else m j := by
  unfold emplace
  cases hk : m k with
  | some w =>
    dsimp only
    split_ifs with hj
    · rw [hj, hk]
      rfl
    · rfl
  | none =>
    dsimp only
    rw [Function.update_apply]
    rfl

/-- The part of `CQuorumBlockProcessor` that keeps commitments to be mined. -/
structure MinableCommitments where
  minableCommitmentsByQuorum : Nat × Uint256 → Option Uint256 := fun _ => none
  minableCommitments : Uint256 → Option CFinalCommitment := fun _ => none

namespace MinableCommitments

variable (qe : QuorumEnv)

/-- The commitments after the call, and whether the new one is relayed. -/
def addMinableCommitment (fqc : CFinalCommitment) (m : MinableCommitments) :
    Except Fail (MinableCommitments × Bool) :=
  let commitmentHash := qe.commitmentHash fqc
  let k := (fqc.llmqType, fqc.quorumHash)
  match m.minableCommitmentsByQuorum k with
  | none =>
    .ok ({ minableCommitmentsByQuorum :=
             Function.update m.minableCommitmentsByQuorum k (some commitmentHash)
           minableCommitments := emplace m.minableCommitments commitmentHash fqc }, true)
  | some oldHash =>
    match m.minableCommitments oldHash with
    | none => .error (.throws "map::at")
    | some oldFqc =>
      if fqc.countSigners > oldFqc.countSigners then
        -- the hash is replaced first, so what is erased is not the old commitment
        .ok ({ minableCommitmentsByQuorum :=
                 Function.update m.minableCommitmentsByQuorum k (some commitmentHash)
               minableCommitments :=
                 emplace (Function.update m.minableCommitments commitmentHash none)
                   commitmentHash fqc }, true)
      else .ok (m, false)

/-- The commitment that is known for a quorum. -/
def find (m : MinableCommitments) (k : Nat × Uint256) : Option CFinalCommitment :=
  (m.minableCommitmentsByQuorum k).bind m.minableCommitments

/-- `QFCOMMITMENT` in `ProcessMessage`, while the active chain ends with `chainTip`: the commitments
after the message, and the score of the peer. -/
def processMessage (chainTip : CBlockIndex) (qc : CFinalCommitment) (m : MinableCommitments) :
    Except Fail (MinableCommitments × Nat) :=
  if qc.isNull then .ok (m, 100)
  else
    match qe.params qc.llmqType with
    | none => .ok (m, 100)
    | some params =>
      match qe.env.mapBlockIndex qc.quorumHash with
      | none => .ok (m, 0)
      | some pquorumIndex =>
        if chainTip.getAncestor pquorumIndex.nHeight ≠ some pquorumIndex then .ok (m, 0)
        else if pquorumIndex.nHeight - pquorumIndex.nHeight % params.dkgInterval ≠
            pquorumIndex.nHeight then .ok (m, 100)
        -- "check if we already got a better one locally"
        else if (m.find (params.type, qc.quorumHash)).any
            fun known => known.countSigners ≤ qc.countSigners then .ok (m, 0)
        else do
          if ← verifyCommitment qe qc params pquorumIndex then
            let (m, _) ← m.addMinableCommitment qe qc
            return (m, 0)
          else return (m, 100)

/-- `CFinalCommitment(params, quorumHash)`. -/
def nullCommitment (params : LLMQMiningParams) (quorumHash : Uint256) : CFinalCommitment where
  nVersion := CFinalCommitment.currentVersion
  llmqType := params.type
  quorumHash := quorumHash
  signers := List.replicate params.size false
  validMembers := List.replicate params.size false
  quorumPublicKey := ⟨none⟩
  quorumVvecHash := 0
  quorumSig := ⟨none⟩
  membersSig := ⟨none⟩

/-- `GetMinableCommitment`: none where no commitment should be mined, and a null commitment where
none is known.  `s` is the rest of the processor. -/
def getMinableCommitment (chainTip : CBlockIndex) (params : LLMQMiningParams) (nHeight : Int)
    (s : CQuorumBlockProcessor) (m : MinableCommitments) : Except Fail (Option CFinalCommitment) :=
  if !(s.isCommitmentRequired chainTip params nHeight).1 then .ok none
  else
    let quorumHash := getQuorumBlockHash chainTip params nHeight
    if quorumHash = 0 then .ok none
    else
      match m.minableCommitmentsByQuorum (params.type, quorumHash) with
      | none => .ok (some (nullCommitment params quorumHash))
      | some hash =>
        match m.minableCommitments hash with
        | none => .error (.throws "map::at")
        | some ret => .ok (some ret)

end MinableCommitments

end Absolute
