/-
Which commitment a miner should find.

Commitments come in messages of peers, and from the node itself.  For a quorum the best of them is
one with the most signers.
-/
import AbsoluteCore.Llmq.MinableCommitments

namespace Absolute

open CQuorumBlockProcessor

/-- How a commitment comes to the node. -/
inductive MinableOp where
  /-- A `QFCOMMITMENT` message, while the active chain ends with `chainTip`. -/
  | message (chainTip : CBlockIndex) (qc : CFinalCommitment)
  /-- A call of `AddMinableCommitment`. -/
  | add (qc : CFinalCommitment)

namespace MinableOp

variable (qe : QuorumEnv)

def qc : MinableOp → CFinalCommitment
  | .message _ qc => qc
  | .add qc => qc

def quorum (op : MinableOp) : Nat × Uint256 := (op.qc.llmqType, op.qc.quorumHash)

def isAdd : MinableOp → Bool
  | .message _ _ => false
  | .add _ => true

/-- The commitment of a message is for a quorum of the active chain and verifies.  What the node
adds itself has been verified. -/
def isValid : MinableOp → Bool
  | .add _ => true
  | .message chainTip qc =>
    !qc.isNull &&
      match qe.params qc.llmqType, qe.env.mapBlockIndex qc.quorumHash with
      | some params, some pquorumIndex =>
        chainTip.getAncestor pquorumIndex.nHeight = some pquorumIndex &&
          pquorumIndex.nHeight % params.dkgInterval = 0 &&
          (verifyCommitment qe qc params pquorumIndex).toOption = some true
      | _, _ => false

/-- What is received for a quorum. -/
def received (k : Nat × Uint256) (ops : List MinableOp) : List MinableOp :=
  ops.filter fun op => op.isValid qe && op.quorum = k

/-- The commitment has the most signers of all that were received. -/
def IsBest (ops : List MinableOp) (qc : CFinalCommitment) : Prop :=
  (∃ op ∈ ops, op.qc = qc) ∧ ∀ op ∈ ops, op.qc.countSigners ≤ qc.countSigners

end MinableOp

namespace MinableCommitments

variable (qe : QuorumEnv)

def apply (m : MinableCommitments) : MinableOp → Except Fail MinableCommitments
  | .message chainTip qc => do
    let (m, _) ← m.processMessage qe chainTip qc
    return m
  | .add qc => do
    let (m, _) ← m.addMinableCommitment qe qc
    return m

/-- Each quorum has a commitment that is there, and each commitment is there under its hash and for
one quorum. -/
def Bijection (m : MinableCommitments) : Prop :=
  (∀ k hash, m.minableCommitmentsByQuorum k = some hash → ∃ qc, m.minableCommitments hash = some qc) ∧
  ∀ hash qc, m.minableCommitments hash = some qc → qe.commitmentHash qc = hash ∧
    ∃! k, m.minableCommitmentsByQuorum k = some hash

/-- The commitment that came first for a quorum. -/
def firstOf (qcs : List CFinalCommitment) (k : Nat × Uint256) : Option CFinalCommitment :=
  qcs.find? fun qc => (qc.llmqType, qc.quorumHash) = k

end MinableCommitments

end Absolute
