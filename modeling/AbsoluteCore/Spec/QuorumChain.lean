/-
Quorum commitments on a chain: what blocks may carry and what is stored of it.

The rules are about the active chain alone, the tip first.  Beside them stand the runs of a node:
blocks connected and disconnected, each in a transaction of its own in which other parts of the node
write under their own keys, with queries, new block templates and flushes in between.
-/
import AbsoluteCore.Evo.CbTx
import AbsoluteCore.Spec.StoredLists

namespace Absolute

open BlockProcessorKeys

/-! ### Commitments on a chain -/

/-- The index of the last block of a chain above the genesis block. -/
def indexOf (genesis : Uint256) : List CBlock → CBlockIndex
  | [] => .genesis genesis
  | b :: rest => .next b.hash (indexOf genesis rest)

/-- The block of the chain at a height above 0. -/
def blockAt (height : Nat) : List CBlock → Option CBlock
  | [] => none
  | b :: rest => if height = rest.length + 1 then some b else blockAt height rest

namespace CBlock

def commitments (b : CBlock) : List CFinalCommitment :=
  b.vtx.filterMap fun tx =>
    if tx.nType = .quorumCommitment then tx.getCommitment.map (·.commitment) else none

def carried (llmqType : Nat) (b : CBlock) : List CFinalCommitment :=
  b.commitments.filter fun qc => qc.llmqType = llmqType

end CBlock

variable (qe : QuorumEnv)

/-- The commitment of the type that a block at this height mines: one that is not null, in a block
that the rules apply to. -/
def minedIn (llmqType : Nat) (height : Nat) (b : CBlock) : Option CFinalCommitment :=
  if (height : Int) < qe.env.dip0003Height then none
  else (b.carried llmqType).find? fun qc => !qc.isNull

/-- The commitment that the chain has for a quorum, and the block that mined it. -/
def minedFor (llmqType : Nat) (quorumHash : Uint256) :
    List CBlock → Option (CFinalCommitment × Uint256)
  | [] => none
  | b :: rest =>
    match (minedIn qe llmqType (rest.length + 1) b).filter fun qc => qc.quorumHash = quorumHash with
    | some qc => some (qc, b.hash)
    | none => minedFor llmqType quorumHash rest

/-- The quorums whose commitments the chain has mined, the newest first. -/
def quorumsMined (llmqType : Nat) : List CBlock → List Uint256
  | [] => []
  | b :: rest =>
    ((minedIn qe llmqType (rest.length + 1) b).map (·.quorumHash)).toList ++
      quorumsMined llmqType rest

/-! ### The rule of a session -/

/-- The block belongs to the DKG session with this number, and the rules apply to it. -/
structure InSession (params : LLMQMiningParams) (session : Nat) (chain : List CBlock)
    (height : Nat) (b : CBlock) : Prop where
  blockAt : blockAt height chain = some b
  session : height / params.dkgInterval = session
  active : qe.env.dip0003Height ≤ height

def InWindow (params : LLMQMiningParams) (height : Nat) : Prop :=
  params.dkgMiningWindowStart ≤ height % params.dkgInterval ∧
    height % params.dkgInterval ≤ params.dkgMiningWindowEnd

/-- A block below this height has mined a commitment of the session. -/
def MinedBelow (params : LLMQMiningParams) (session : Nat) (chain : List CBlock) (height : Nat) :
    Prop :=
  ∃ height' b qc, height' < height ∧ InSession qe params session chain height' b ∧
    qc ∈ b.carried params.type ∧ qc.isNull = false

/-- What the blocks of one session carry of a type. -/
structure SessionRule (genesis : Uint256) (chain : List CBlock) (params : LLMQMiningParams)
    (session : Nat) : Prop where
  /-- None outside the mining window. -/
  outside : ∀ height b, InSession qe params session chain height b → ¬ InWindow params height →
    b.carried params.type = []
  /-- One for the session's own quorum in every block of the window, up to the first that is not
  null. -/
  inside : ∀ height b, InSession qe params session chain height b → InWindow params height →
    ¬ MinedBelow qe params session chain height →
    ∃ qc base, b.carried params.type = [qc] ∧
      (indexOf genesis chain).getAncestor (session * params.dkgInterval : Nat) = some base ∧
      qc.quorumHash = base.getBlockHash
  /-- None after that one. -/
  after : ∀ height b, InSession qe params session chain height b →
    MinedBelow qe params session chain height → b.carried params.type = []

/-- What the database has for one session: at most one commitment, from a block of the session. -/
structure StoredOnce (genesis : Uint256) (chain : List CBlock) (params : LLMQMiningParams)
    (session : Nat) (read : CDataStream → Option EvoValue) : Prop where
  /-- The entry of the quorum is what a block of the session carries. -/
  commitment : ∀ base, (indexOf genesis chain).getAncestor (session * params.dkgInterval : Nat) =
      some base →
    ∀ v, read (minedCommitmentKey params.type base.getBlockHash) = some v →
      ∃ height b qc, InSession qe params session chain height b ∧ qc ∈ b.carried params.type ∧
        qc.isNull = false ∧ v = .minedCommitment qc b.hash
  /-- One height of the session has an entry. -/
  height : ∀ height height', height / params.dkgInterval = session →
    height' / params.dkgInterval = session → height < 2 ^ 31 → height' < 2 ^ 31 →
    (read (heightKey.put (buildInversedHeightKey params.type height))).isSome →
    (read (heightKey.put (buildInversedHeightKey params.type height'))).isSome → height = height'

/-! ### Roots of quorums -/

/-- What comes before `ProcessBlock` leaves these blocks for a height: the first transaction is a
coinbase, only those of version 3 have a payload, and none is special before that is allowed. -/
structure Delivered (height : Nat) (b : CBlock) : Prop where
  coinbase : ∀ tx ∈ b.vtx.head?, tx.nType ≠ .quorumCommitment
  payload : ∀ tx ∈ b.vtx, tx.nVersion ≠ 3 → tx.getCommitment = none
  inactive : (height : Int) < qe.env.dip0003Height →
    ∀ tx ∈ b.vtx, tx.nVersion = 3 → tx.nType ≠ .quorumCommitment

/-- The quorum root that the coinbase has is compared. -/
def CBlock.checksQuorumRoot (fScriptChecks : Bool) (b : CBlock) : Bool :=
  fScriptChecks && b.vtx.head?.any fun coinbase =>
    coinbase.nType = .coinbase && coinbase.getCbTx.any fun cbTx => 2 ≤ cbTx.nVersion

/-! ### Runs -/

/-- A node: its active chain above the genesis block, the tip first, and what it keeps. -/
structure QuorumNode where
  processor : CQuorumBlockProcessor
  cache : QuorumRootCache := {}
  genesis : Uint256
  chain : List CBlock := []

/-- What the rest of the validation makes of a block that the processor accepts. -/
inductive Verdict where
  /-- The masternode list or its root is at fault: the quorum root is not looked at. -/
  | listRefused
  /-- A later check fails, or the block is just checked. -/
  | notConnected
  | connected
deriving DecidableEq

/-- Each block has a transaction of its own.  Lookups while one is open, and the one in which
`VerifyDB` undoes blocks, are steps of `Spec/ProcessorTransactions.lean` and not of these. -/
inductive NodeOp where
  /-- A block is validated on top of the tip.  `others` is what the rest of the validation
  writes. -/
  | connect (block : CBlock) (others : List (CDataStream × Option EvoValue))
      (fScriptChecks : Bool) (verdict : Verdict)
  | disconnect (others : List (CDataStream × Option EvoValue))
  /-- `CommitRootTransaction`. -/
  | flush
  | hasMinedCommitment (llmqType : Nat) (quorumHash : Uint256)
  /-- `CreateNewBlock` computes the root for a block on top of the tip. -/
  | createNewBlock (block : CBlock)

/-- The prefixes of the keys that the processor alone writes. -/
def ownPrefixes : List CDataStream :=
  [string.put dbMinedCommitment, string.put dbMinedCommitmentByInversedHeight]

/-- A key of another part of the node. -/
def OthersKey (ssKey : CDataStream) : Prop := ∀ p ∈ ownPrefixes, ¬ p <+: ssKey

instance (ssKey : CDataStream) : Decidable (OthersKey ssKey) :=
  inferInstanceAs (Decidable (∀ p ∈ ownPrefixes, ¬ p <+: ssKey))

namespace QuorumNode

variable (n : QuorumNode)

def tip : CBlockIndex := indexOf n.genesis n.chain

def writeOthers (others : List (CDataStream × Option EvoValue)) (e : CEvoDB EvoValue) :
    CEvoDB EvoValue :=
  others.foldl (fun e w =>
    match w.2 with
    | some v => e.write qe.getSerializeSize w.1 v
    | none => e.erase w.1) e

/-- The transaction is given up: the database is as before it, the rest is not. -/
def giveUp (scope : CScopedDBTransaction) (s : CQuorumBlockProcessor)
    (cache : QuorumRootCache) : Except Fail QuorumNode := do
  let (evoDb, _) ← s.evoDb.rollback scope
  return { n with processor := { s with evoDb := evoDb }, cache := cache }

def keep (scope : CScopedDBTransaction) (s : CQuorumBlockProcessor)
    (cache : QuorumRootCache) (chain : List CBlock) : Except Fail QuorumNode := do
  let (evoDb, _) ← s.evoDb.commit qe.getSerializeSize scope
  return { n with processor := { s with evoDb := evoDb }, cache := cache, chain := chain }

/-- `ProcessSpecialTxsInBlock` checks the roots of the coinbase where scripts are checked. -/
def checkRoots (fScriptChecks : Bool) (s : CQuorumBlockProcessor) (cache : QuorumRootCache)
    (block : CBlock) (pindexPrev : CBlockIndex) : Except Fail (QuorumRootCache × Bool) :=
  if fScriptChecks then checkCbTxMerkleRootQuorums qe s cache block pindexPrev
  else .ok (cache, true)

def connect (block : CBlock) (others : List (CDataStream × Option EvoValue))
    (fScriptChecks : Bool) (verdict : Verdict) (n : QuorumNode) : Except Fail QuorumNode := do
  let scope ← n.processor.evoDb.beginTransaction
  match n.processor.processBlock qe n.tip block (.next block.hash n.tip) with
  | .error (.assert, _) => .error .assert
  | .error (_, s) => n.giveUp scope s n.cache
  | .ok s => do
    let s : CQuorumBlockProcessor := { s with evoDb := writeOthers qe others s.evoDb }
    if verdict = .listRefused then n.giveUp scope s n.cache
    else
      let (cache, ok) ← checkRoots qe fScriptChecks s n.cache block n.tip
      if ok && verdict = .connected then n.keep qe scope s cache (block :: n.chain)
      else n.giveUp scope s cache

def disconnect (others : List (CDataStream × Option EvoValue)) (n : QuorumNode) :
    Except Fail QuorumNode := do
  let scope ← n.processor.evoDb.beginTransaction
  match n.chain with
  | [] => .error .assert
  | block :: rest =>
    let s : CQuorumBlockProcessor :=
      { n.processor with evoDb := writeOthers qe others n.processor.evoDb }
    match s.undoBlock qe block n.tip with
    | none => n.giveUp scope s n.cache
    | some s => n.keep qe scope s n.cache rest

def apply : NodeOp → Except Fail QuorumNode
  | .connect block others fScriptChecks verdict => n.connect qe block others fScriptChecks verdict
  | .disconnect others => n.disconnect qe others
  | .flush => do
    let evoDb ← n.processor.evoDb.commitRootTransaction
    return { n with processor := { n.processor with evoDb := evoDb } }
  | .hasMinedCommitment llmqType quorumHash =>
    .ok { n with processor := (n.processor.hasMinedCommitment llmqType quorumHash).2 }
  | .createNewBlock block => do
    let r ← calcCbTxMerkleRootQuorums qe n.processor n.cache block n.tip
    return { n with cache := r.1 }

/-- What can happen to a node: a connected block has its index, with a height that fits an `int`,
and the other parts of the node write under their own keys. -/
def Possible : NodeOp → Prop
  | .connect block others _ _ =>
    qe.env.mapBlockIndex block.hash = some (.next block.hash n.tip) ∧
      n.chain.length + 1 < 2 ^ 31 ∧ ∀ w ∈ others, OthersKey w.1
  | .disconnect others => ∀ w ∈ others, OthersKey w.1
  | .hasMinedCommitment llmqType quorumHash => llmqType < 256 ∧ quorumHash < 2 ^ 256
  | _ => True

/-- A node that has only the genesis block, whose database has no key of the processor. -/
structure Starts (n : QuorumNode) : Prop where
  known : qe.env.mapBlockIndex n.genesis = some (.genesis n.genesis)
  chain : n.chain = []
  evoDb : n.processor.evoDb = { db := n.processor.evoDb.db }
  others : ∀ k ∈ n.processor.evoDb.db, OthersKey k
  processor : ∀ k, n.processor.hasMinedCommitmentCache k = none
  cache : n.cache = {}

def Step (op : NodeOp) (n' : QuorumNode) : Prop :=
  n.Possible qe op ∧ n.apply qe op = .ok n'

/-- If a block is connected that has a commitment which is not null, its quorum root is
compared. -/
def RootCompared (op : NodeOp) (n' : QuorumNode) : Prop :=
  ∀ block others fScriptChecks verdict, op = .connect block others fScriptChecks verdict →
    n'.chain = block :: n.chain → (∃ qc ∈ block.commitments, qc.isNull = false) →
    block.checksQuorumRoot fScriptChecks = true

end QuorumNode

end Absolute
