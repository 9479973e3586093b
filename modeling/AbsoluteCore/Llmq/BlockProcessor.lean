/-
`CQuorumBlockProcessor`: the commitments that blocks carry, checked and stored.

The checks of a block ask which commitments are stored, and remember the answers, so what a refused
block leaves behind is part of the model: an error comes with the processor as it then is.  The
minable commitments are left out, since nothing here reads them.
-/
import AbsoluteCore.Evo.EvoDb
import AbsoluteCore.Evo.Serialize
import AbsoluteCore.Llmq.Commitment

namespace Absolute

/-! ### Parameters -/

/-- `Consensus::LLMQParams`, with the fields that say when a commitment is mined. -/
structure LLMQMiningParams extends LLMQParams where
  type : Nat
  dkgMiningWindowStart : Nat
  dkgMiningWindowEnd : Nat
  signingActiveQuorumCount : Nat
  /-- `enum LLMQType : uint8_t`. -/
  type_lt : type < 256 := by decide
  dkgInterval_pos : 0 < dkgInterval := by decide
  dkgMiningWindowStart_pos : 0 < dkgMiningWindowStart := by decide
  signingActiveQuorumCount_pos : 0 < signingActiveQuorumCount := by decide
deriving DecidableEq, Repr

def llmq10_60 : LLMQMiningParams where
  type := 100
  size := 10
  minSize := 6
  dkgInterval := 40
  dkgMiningWindowStart := 10
  dkgMiningWindowEnd := 18
  signingActiveQuorumCount := 2

/-- The values under the keys of `evoDb`. -/
inductive EvoValue where
  /-- `std::make_pair(qc, blockHash)`. -/
  | minedCommitment (qc : CFinalCommitment) (minedBlockHash : Uint256)
  | quorumHeight (nHeight : Int)
  | bestBlock (hash : Uint256)
  /-- What the other users of the database write. -/
  | other (bytes : List UInt8)
deriving DecidableEq, Repr

/-- What the processor is given from outside. -/
structure QuorumEnv where
  env : Env
  /-- `Params().GetConsensus().llmqs`, in the order of the map. -/
  llmqs : List LLMQMiningParams
  llmqs_sorted : llmqs.Pairwise fun p q => p.type < q.type
  /-- `deterministicMNManager->GetListForBlock`. -/
  lists : CBlockIndex → CDeterministicMNList
  /-- The signatures in `Verify(members, true)`. -/
  verifySigs : CFinalCommitment → List CDeterministicMN → Bool
  getSerializeSize : EvoValue → Nat
  /-- `::SerializeHash(qc)`. -/
  commitmentHash : CFinalCommitment → Uint256
  /-- `ComputeMerkleRoot(hashes, &mutated)`. -/
  computeMerkleRoot : List Uint256 → Uint256 × Bool
  /-- The hash of a block has 256 bits and is not null. -/
  blockHash_range : ∀ h p, env.mapBlockIndex h = some p → h ≠ 0 ∧ h < 2 ^ 256

namespace QuorumEnv

variable (qe : QuorumEnv)

def params (llmqType : Nat) : Option LLMQMiningParams := qe.llmqs.find? fun p => p.type = llmqType

/-- The parameters of the chain, with these types of quorums. -/
def consensus : Env :=
  { qe.env with llmqs := fun llmqType => (qe.params llmqType).map (·.toLLMQParams) }

end QuorumEnv

/-! ### Keys -/

namespace BlockProcessorKeys

def ascii (text : List Char) : List UInt8 := text.map fun c => UInt8.ofNat c.toNat

def dbMinedCommitment : List UInt8 := ascii ['q', '_', 'm', 'c']

def dbMinedCommitmentByInversedHeight : List UInt8 := ascii ['q', '_', 'm', 'c', 'i', 'h']

def dbBestBlockUpgrade : List UInt8 := ascii ['q', '_', 'b', 'b', 'u', '2']

/-- `std::string` is written like a vector of bytes. -/
def string : Codec (List UInt8) := .vector Format.size .byte

def minedCommitmentKey (llmqType : Nat) (quorumHash : Uint256) : CDataStream :=
  (string.prod ((Codec.uintLE 1).prod Format.uint256)).put
    (dbMinedCommitment, llmqType, quorumHash)

def bestBlockUpgradeKey : CDataStream := string.put dbBestBlockUpgrade

/-- `std::tuple<std::string, uint8_t, uint32_t>`. -/
abbrev HeightKey := List UInt8 × Nat × Nat

def heightKey : Codec HeightKey := string.prod ((Codec.uintLE 1).prod (Codec.uintLE 4))

/-- `htobe32` and `be32toh`, on a host whose numbers start with the lowest byte. -/
def htobe32 (n : Nat) : Nat :=
  n % 256 * 2 ^ 24 + n / 2 ^ 8 % 256 * 2 ^ 16 + n / 2 ^ 16 % 256 * 2 ^ 8 + n / 2 ^ 24 % 256

def uint32Max : Nat := 2 ^ 32 - 1

def buildInversedHeightKey (llmqType : Nat) (nMinedHeight : Int) : HeightKey :=
  (dbMinedCommitmentByInversedHeight, llmqType, htobe32 ((uint32Max - nMinedHeight) % 2 ^ 32).toNat)

/-- `operator<` on the tuples. -/
def HeightKey.lt (a b : HeightKey) : Bool :=
  Overlay.less compare a.1 b.1 ||
    (a.1 = b.1 && (a.2.1 < b.2.1 || (a.2.1 = b.2.1 && a.2.2 < b.2.2)))

end BlockProcessorKeys

open BlockProcessorKeys

/-! ### The processor -/

structure CQuorumBlockProcessor where
  evoDb : CEvoDB EvoValue := {}
  hasMinedCommitmentCache : Nat × Uint256 → Option Bool := fun _ => none

namespace CQuorumBlockProcessor

variable (qe : QuorumEnv)

/-- `GetBlockHash(hash, nBlockHeight)` of `validation.cpp`, where the active chain ends with
`chainTip`. -/
def getBlockHash (chainTip : CBlockIndex) (nBlockHeight : Int) : Option Uint256 :=
  if nBlockHeight < -1 ∨ nBlockHeight > chainTip.nHeight then none
  else
    (chainTip.getAncestor (if nBlockHeight = -1 then chainTip.nHeight else nBlockHeight)).map
      CBlockIndex.getBlockHash

def isMiningPhase (params : LLMQMiningParams) (nHeight : Int) : Bool :=
  let phaseIndex := nHeight % params.dkgInterval
  phaseIndex ≥ params.dkgMiningWindowStart && phaseIndex ≤ params.dkgMiningWindowEnd

/-- Null on the first block of the interval, whose hash is not known yet. -/
def getQuorumBlockHash (chainTip : CBlockIndex) (params : LLMQMiningParams) (nHeight : Int) :
    Uint256 :=
  let quorumStartHeight := nHeight - nHeight % params.dkgInterval
  (getBlockHash chainTip quorumStartHeight).getD 0

def hasMinedCommitment (llmqType : Nat) (quorumHash : Uint256) (s : CQuorumBlockProcessor) :
    Bool × CQuorumBlockProcessor :=
  match s.hasMinedCommitmentCache (llmqType, quorumHash) with
  | some ret => (ret, s)
  | none =>
    let ret := s.evoDb.existsKey (minedCommitmentKey llmqType quorumHash)
    (ret, { s with
      hasMinedCommitmentCache :=
        Function.update s.hasMinedCommitmentCache (llmqType, quorumHash) (some ret) })

def isCommitmentRequired (chainTip : CBlockIndex) (params : LLMQMiningParams) (nHeight : Int)
    (s : CQuorumBlockProcessor) : Bool × CQuorumBlockProcessor :=
  let quorumHash := getQuorumBlockHash chainTip params nHeight
  if quorumHash = 0 then (false, s)
  else
    let mined := s.hasMinedCommitment params.type quorumHash
    (isMiningPhase params nHeight && !mined.1, mined.2)

def getCommitmentsFromBlock (block : CBlock) (pindex : CBlockIndex) :
    Except Fail (List CFinalCommitment) := do
  let ret ← block.vtx.foldlM collectBlockCommitment []
  rejectIf (pindex.nHeight < qe.env.dip0003Height ∧ ret ≠ []) 100 .invalid "bad-qc-premature"
  return ret

/-- The order of `std::map<Consensus::LLMQType, CFinalCommitment>`. -/
def byType (qcs : List CFinalCommitment) : List CFinalCommitment :=
  qcs.insertionSort fun a b => a.llmqType ≤ b.llmqType

/-- `return state.DoS(100, false, REJECT_INVALID, reason)`. -/
def refuse {α : Type} (s : CQuorumBlockProcessor) (reason : String) :
    Except (Fail × CQuorumBlockProcessor) α :=
  .error (.reject 100 .invalid reason, s)

def verifyNull (qc : CFinalCommitment) : Bool :=
  match qe.params qc.llmqType with
  | none => false
  | some params => qc.isNull && qc.verifySizes params.toLLMQParams

/-- `qc.Verify(members, true)`, with the members of the quorum. -/
def verifyCommitment (qc : CFinalCommitment) (params : LLMQMiningParams)
    (quorumIndex : CBlockIndex) : Except Fail Bool := do
  let members ← getAllQuorumMembers qe.consensus qe.lists params.type quorumIndex
  return qc.verify params.toLLMQParams members && qe.verifySigs qc members

def processCommitment (chainTip : CBlockIndex) (nHeight : Int) (blockHash : Uint256)
    (s : CQuorumBlockProcessor) (qc : CFinalCommitment) :
    Except (Fail × CQuorumBlockProcessor) CQuorumBlockProcessor :=
  match qe.params qc.llmqType with
  | none => .error (.throws "map::at", s)
  | some params =>
    let quorumHash := getQuorumBlockHash chainTip params nHeight
    if quorumHash = 0 then s.refuse "bad-qc-block"
    else if quorumHash ≠ qc.quorumHash then s.refuse "bad-qc-block"
    else if qc.isNull then
      if verifyNull qe qc then .ok s else s.refuse "bad-qc-invalid-null"
    else
      let mined := s.hasMinedCommitment params.type quorumHash
      let s := mined.2
      if mined.1 then s.refuse "bad-qc-dup"
      else if !isMiningPhase params nHeight then s.refuse "bad-qc-height"
      else
        match qe.env.mapBlockIndex qc.quorumHash with
        | none => .error (.throws "map::at", s)
        | some quorumIndex =>
          match verifyCommitment qe qc params quorumIndex with
          | .error fail => .error (fail, s)
          | .ok false => s.refuse "bad-qc-invalid"
          | .ok true =>
            .ok
              { evoDb :=
                  (s.evoDb.write qe.getSerializeSize
                    (minedCommitmentKey params.type quorumHash)
                    (.minedCommitment qc blockHash)).write qe.getSerializeSize
                      (heightKey.put (buildInversedHeightKey params.type nHeight))
                      (.quorumHeight quorumIndex.nHeight)
                hasMinedCommitmentCache :=
                  Function.update s.hasMinedCommitmentCache (params.type, quorumHash) none }

/-- One type in the loop of `ProcessBlock` that makes sure there is always a commitment in the
mining phase until one that is not null has been mined, and none after it. -/
def checkRequired (chainTip : CBlockIndex) (nHeight : Int) (qcs : List CFinalCommitment)
    (s : CQuorumBlockProcessor) (params : LLMQMiningParams) :
    Except (Fail × CQuorumBlockProcessor) CQuorumBlockProcessor :=
  let hasCommitmentInNewBlock := qcs.any fun qc => qc.llmqType = params.type
  let required := s.isCommitmentRequired chainTip params nHeight
  if hasCommitmentInNewBlock && !required.1 then required.2.refuse "bad-qc-not-allowed"
  else if !hasCommitmentInNewBlock && required.1 then required.2.refuse "bad-qc-missing"
  else .ok required.2

def writeBestBlockUpgrade (hash : Uint256) (s : CQuorumBlockProcessor) : CQuorumBlockProcessor :=
  { s with evoDb := s.evoDb.write qe.getSerializeSize bestBlockUpgradeKey (.bestBlock hash) }

/-- `ProcessBlock`, while the active chain ends with `chainTip`. -/
def processBlock (chainTip : CBlockIndex) (block : CBlock) (pindex : CBlockIndex)
    (s : CQuorumBlockProcessor) : Except (Fail × CQuorumBlockProcessor) CQuorumBlockProcessor :=
  if pindex.nHeight < qe.env.dip0003Height then .ok (s.writeBestBlockUpgrade qe block.hash)
  else
    match getCommitmentsFromBlock qe block pindex with
    | .error fail => .error (fail, s)
    | .ok qcs => do
      let s ← qe.llmqs.foldlM (checkRequired chainTip pindex.nHeight qcs) s
      let s ← (byType qcs).foldlM (processCommitment qe chainTip pindex.nHeight block.hash) s
      return s.writeBestBlockUpgrade qe block.hash

def undoCommitment (nHeight : Int) (s : CQuorumBlockProcessor) (qc : CFinalCommitment) :
    CQuorumBlockProcessor :=
  if qc.isNull then s
  else
    { evoDb :=
        (s.evoDb.erase (minedCommitmentKey qc.llmqType qc.quorumHash)).erase
          (heightKey.put (buildInversedHeightKey qc.llmqType nHeight))
      hasMinedCommitmentCache :=
        Function.update s.hasMinedCommitmentCache (qc.llmqType, qc.quorumHash) none }

/-- `UndoBlock`, with nothing where it returns false. -/
def undoBlock (block : CBlock) (pindex : CBlockIndex) (s : CQuorumBlockProcessor) :
    Option CQuorumBlockProcessor :=
  match pindex, getCommitmentsFromBlock qe block pindex with
  | .next _ pprev, .ok qcs =>
    some (((byType qcs).foldl (undoCommitment pindex.nHeight) s).writeBestBlockUpgrade qe
      pprev.getBlockHash)
  | _, _ => none

/-! ### Queries -/

def getMinedCommitment (llmqType : Nat) (quorumHash : Uint256) (s : CQuorumBlockProcessor) :
    Option (CFinalCommitment × Uint256) :=
  match s.evoDb.read (minedCommitmentKey llmqType quorumHash) with
  | some (.minedCommitment qc minedBlockHash) => some (qc, minedBlockHash)
  | _ => none

/-- The loop of `GetMinedCommitmentsUntilBlock`, over the keys that the iterator still visits. -/
def minedCommitmentsLoop (llmqType : Nat) (pindex : CBlockIndex) (s : CQuorumBlockProcessor) :
    Nat → List CDataStream → Except Fail (List CBlockIndex)
  | 0, _ => .ok []
  | _ + 1, [] => .ok []
  | count + 1, ssKey :: rest =>
    let lastKey := buildInversedHeightKey llmqType 0
    match heightKey.get ssKey with
    | none => .ok []
    | some (curKey, _) =>
      if !curKey.lt lastKey then .ok []
      else if curKey.1 ≠ dbMinedCommitmentByInversedHeight ∨ curKey.2.1 ≠ llmqType then
        .ok []
      else
        let nMinedHeight := uint32Max - htobe32 curKey.2.2
        if (nMinedHeight : Int) > pindex.nHeight then .ok []
        else
          match s.evoDb.read ssKey with
          | some (.quorumHeight quorumHeight) => do
            let quorumIndex ← deref (pindex.getAncestor quorumHeight)
            let ret ← minedCommitmentsLoop llmqType pindex s count rest
            return quorumIndex :: ret
          | _ => .ok []

def getMinedCommitmentsUntilBlock (llmqType : Nat) (pindex : CBlockIndex) (maxCount : Nat)
    (s : CQuorumBlockProcessor) : Except Fail (List CBlockIndex) :=
  let firstKey := buildInversedHeightKey llmqType pindex.nHeight
  minedCommitmentsLoop llmqType pindex s maxCount (s.evoDb.iterate (heightKey.put firstKey))

/-- The entries of the map in its order. -/
def getMinedAndActiveCommitmentsUntilBlock (pindex : CBlockIndex) (s : CQuorumBlockProcessor) :
    Except Fail (List (Nat × List CBlockIndex)) :=
  qe.llmqs.mapM fun params => do
    let commitments ← s.getMinedCommitmentsUntilBlock params.type pindex
      params.signingActiveQuorumCount
    return (params.type, commitments)

end CQuorumBlockProcessor

end Absolute
