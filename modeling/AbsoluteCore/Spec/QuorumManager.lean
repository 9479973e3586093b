/-
What the quorum manager should answer.

Quorums are those of the active chain: the commitment that it has for a quorum hash, and the block
that mined it.  Beside that stand the runs of a node whose manager is asked between its blocks.
-/
import AbsoluteCore.Llmq.QuorumManager
import AbsoluteCore.Spec.QuorumChain

namespace Absolute

structure ManagedNode where
  node : QuorumNode
  manager : CQuorumManager := {}

inductive ManagerOp where
  | node (op : NodeOp)
  | getQuorum (llmqType : Nat) (quorumHash : Uint256)
  | scanQuorums (params : LLMQMiningParams) (pindexStart : CBlockIndex) (maxCount : Nat)

namespace ManagedNode

-- `blocks` has the block of each hash.
variable (qe : QuorumEnv) (blocks : Uint256 → CBlock) (n : ManagedNode)

def apply : ManagerOp → Except Fail ManagedNode
  | .node op => do
    let node ← n.node.apply qe op
    return { n with node := node }
  | .getQuorum llmqType quorumHash => do
    let (_, s, m) ← n.manager.getQuorum qe llmqType quorumHash n.node.processor
    return ⟨{ n.node with processor := s }, m⟩
  | .scanQuorums params pindexStart maxCount => do
    let (_, s, m) ← n.manager.scanQuorums qe params pindexStart maxCount n.node.processor
    return ⟨{ n.node with processor := s }, m⟩

/-- A hash has one block. -/
def Possible : ManagerOp → Prop
  | .node (.connect block others fScriptChecks verdict) =>
    n.node.Possible qe (.connect block others fScriptChecks verdict) ∧ blocks block.hash = block
  | .node op => n.node.Possible qe op
  | .getQuorum llmqType _ => llmqType < 256
  | .scanQuorums params pindexStart _ => params ∈ qe.llmqs ∧ pindexStart.Known qe.env

def Step (op : ManagerOp) (n' : ManagedNode) : Prop :=
  n.Possible qe blocks op ∧ n.apply qe op = .ok n'

def Starts : Prop := n.node.Starts qe ∧ n.manager = {}

/-- A scan starts from a block of the active chain. -/
def ScansChain : ManagerOp → Prop
  | .scanQuorums _ pindexStart _ => pindexStart.OnChain n.node.tip
  | _ => True

/-- All queries would be answered from the active chain. -/
structure Right (n : ManagedNode) : Prop where
  /-- There is a quorum just where a commitment is mined for it, with that commitment. -/
  getQuorum : ∀ llmqType quorumHash, llmqType < 256 → ∃ ret s m,
    n.manager.getQuorum qe llmqType quorumHash n.node.processor = .ok (ret, s, m) ∧
      ret.map (fun quorum => (quorum.qc, quorum.minedBlockHash)) =
        minedFor qe llmqType quorumHash n.node.chain
  /-- A scan is the list of the quorums whose commitments were mined last. -/
  scanQuorums : ∀ params ∈ qe.llmqs, ∀ pindexStart : CBlockIndex, pindexStart.OnChain n.node.tip →
    ∀ maxCount, ∃ ret s m quorumIndexes,
      n.manager.scanQuorums qe params pindexStart maxCount n.node.processor = .ok (ret, s, m) ∧
      n.node.processor.getMinedCommitmentsUntilBlock params.type pindexStart maxCount =
        .ok quorumIndexes ∧
      List.Forall₂ (fun (quorumIndex : CBlockIndex) quorum => ∃ s m,
        n.manager.getQuorum qe params.type quorumIndex.getBlockHash n.node.processor =
          .ok (some quorum, s, m)) quorumIndexes ret
  /-- A shorter scan is the beginning of a longer one. -/
  shorter : ∀ params ∈ qe.llmqs, ∀ pindexStart : CBlockIndex, pindexStart.OnChain n.node.tip →
    ∀ maxCount maxCount', maxCount ≤ maxCount' → ∀ ret ret' s s' m m',
      n.manager.scanQuorums qe params pindexStart maxCount n.node.processor = .ok (ret, s, m) →
      n.manager.scanQuorums qe params pindexStart maxCount' n.node.processor = .ok (ret', s', m') →
      ret <+: ret'

/-- A block that becomes the tip mines no commitment for a quorum that is kept, unless that quorum
is from the same commitment in the same block. -/
def Fresh (n' : ManagedNode) : Prop :=
  ∀ block, n'.node.chain = block :: n.node.chain → ∀ llmqType qc,
    minedIn qe llmqType (n.node.chain.length + 1) block = some qc →
    ∀ quorum, n.manager.quorumsCache (llmqType, qc.quorumHash) = some quorum →
      (quorum.qc, quorum.minedBlockHash) = (qc, block.hash)

end ManagedNode

end Absolute
