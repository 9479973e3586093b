/-
The block processor and the transactions of its database.

A transaction is begun, blocks are processed or undone in it, and it is committed or given up.  What
the processor remembers of its queries is not part of the transaction, and a query can come at any
time from another thread.
-/
import AbsoluteCore.Spec.QuorumChain

namespace Absolute

open BlockProcessorKeys

namespace CQuorumBlockProcessor

/-- Every query is answered as the database answers it. -/
def Coherent (s : CQuorumBlockProcessor) : Prop :=
  ∀ llmqType quorumHash, llmqType < 256 → quorumHash < 2 ^ 256 →
    (s.hasMinedCommitment llmqType quorumHash).1 =
      s.evoDb.existsKey (minedCommitmentKey llmqType quorumHash)

end CQuorumBlockProcessor

/-- The processor, with the transaction that is going on and how it was when that began. -/
structure ProcessorState where
  processor : CQuorumBlockProcessor
  scope : Option (CScopedDBTransaction × CQuorumBlockProcessor) := none

inductive ProcessorOp where
  | beginTransaction
  /-- While the active chain ends with `chainTip`. -/
  | processBlock (chainTip : CBlockIndex) (block : CBlock) (pindex : CBlockIndex)
  | undoBlock (block : CBlock) (pindex : CBlockIndex)
  /-- What another part of the node writes or erases. -/
  | others (ssKey : CDataStream) (value : Option EvoValue)
  | hasMinedCommitment (llmqType : Nat) (quorumHash : Uint256)
  | commit
  | rollback
  /-- `CommitRootTransaction`. -/
  | flush

namespace ProcessorState

variable (qe : QuorumEnv) (s : ProcessorState)

/-- One operation.  A block that is refused leaves its changes to whoever began the transaction. -/
def apply : ProcessorOp → Except Fail ProcessorState
  | .beginTransaction => do
    let scope ← s.processor.evoDb.beginTransaction
    return { s with scope := some (scope, s.processor) }
  | .processBlock chainTip block pindex =>
    match s.processor.processBlock qe chainTip block pindex with
    | .error (.assert, _) => .error .assert
    | .error (_, processor) => .ok { s with processor := processor }
    | .ok processor => .ok { s with processor := processor }
  | .undoBlock block pindex =>
    .ok { s with processor := (s.processor.undoBlock qe block pindex).getD s.processor }
  | .others ssKey value =>
    .ok { s with
      processor.evoDb := QuorumNode.writeOthers qe [(ssKey, value)] s.processor.evoDb }
  | .hasMinedCommitment llmqType quorumHash =>
    .ok { s with processor := (s.processor.hasMinedCommitment llmqType quorumHash).2 }
  | .commit =>
    match s.scope with
    | none => .error .assert
    | some (scope, _) => do
      let (evoDb, _) ← s.processor.evoDb.commit qe.getSerializeSize scope
      return { processor := { s.processor with evoDb := evoDb } }
  | .rollback =>
    match s.scope with
    | none => .error .assert
    | some (scope, _) => do
      let (evoDb, _) ← s.processor.evoDb.rollback scope
      return { processor := { s.processor with evoDb := evoDb } }
  | .flush => do
    let evoDb ← s.processor.evoDb.commitRootTransaction
    return { s with processor.evoDb := evoDb }

/-- Changes are made within transactions, hashes and types fit their fields, and the tip of the
active chain has its index. -/
def Possible : ProcessorOp → Prop
  | .beginTransaction | .flush => s.scope = none
  | .processBlock chainTip _ _ => s.scope.isSome ∧ chainTip.Known qe.env
  | .undoBlock block _ => s.scope.isSome ∧
      ∀ qc ∈ block.commitments, qc.llmqType < 256 ∧ qc.quorumHash < 2 ^ 256
  | .others ssKey _ => s.scope.isSome ∧ OthersKey ssKey
  | .hasMinedCommitment llmqType quorumHash => llmqType < 256 ∧ quorumHash < 2 ^ 256
  | .commit | .rollback => s.scope.isSome

def Step (op : ProcessorOp) (s' : ProcessorState) : Prop :=
  s.Possible qe op ∧ s.apply qe op = .ok s'

/-- A node that has just been started, with what it has on disk. -/
structure Starts (s : ProcessorState) : Prop where
  evoDb : s.processor.evoDb = { db := s.processor.evoDb.db }
  cache : ∀ k, s.processor.hasMinedCommitmentCache k = none
  scope : s.scope = none

/-- An answer is remembered for a commitment that the transaction has stored or erased. -/
def Exposed : Prop :=
  ∃ began ∈ s.scope, ∃ llmqType quorumHash, llmqType < 256 ∧ quorumHash < 2 ^ 256 ∧
    (s.processor.hasMinedCommitmentCache (llmqType, quorumHash)).isSome ∧
    s.processor.evoDb.existsKey (minedCommitmentKey llmqType quorumHash) ≠
      began.2.evoDb.existsKey (minedCommitmentKey llmqType quorumHash)

/-- What is required is what was required when the transaction began. -/
def RequiredKept (s' : ProcessorState) : Prop :=
  ∀ began ∈ s.scope, ∀ chainTip : CBlockIndex, chainTip.Known qe.env →
    ∀ (params : LLMQMiningParams) (nHeight : Int),
      (s'.processor.isCommitmentRequired chainTip params nHeight).1 =
        (began.2.isCommitmentRequired chainTip params nHeight).1

end ProcessorState

end Absolute
