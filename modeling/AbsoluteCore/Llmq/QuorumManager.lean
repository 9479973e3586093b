/-
Quorums that were mined on chain.

The manager builds a quorum from its commitment when it is first asked for, and keeps it.  The quorums
that a scan from a block finds are kept too, under the hash of that block.
-/
import AbsoluteCore.Lib.LruCache
import AbsoluteCore.Llmq.MinableCommitments

namespace Absolute

/-- `CQuorum`, without what the node itself has from the DKG. -/
structure CQuorum where
  params : LLMQMiningParams
  qc : CFinalCommitment
  pindexQuorum : CBlockIndex
  minedBlockHash : Uint256
  members : List CDeterministicMN

structure CQuorumManager where
  quorumsCache : Nat × Uint256 → Option CQuorum := fun _ => none
  scanQuorumsCache : LruCache (Nat × Uint256) (List CQuorum) 32 := {}

namespace CQuorumManager

variable (qe : QuorumEnv)

def buildQuorumFromCommitment (params : LLMQMiningParams) (qc : CFinalCommitment)
    (pindexQuorum : CBlockIndex) (minedBlockHash : Uint256) : Except Fail CQuorum := do
  assertThat (qc.quorumHash = pindexQuorum.getBlockHash)
  let members ← getAllQuorumMembers qe.consensus qe.lists qc.llmqType pindexQuorum
  return ⟨params, qc, pindexQuorum, minedBlockHash, members⟩

/-- `GetQuorum` of the quorum that begins with a block: the quorum, the block processor with what it
remembers of the query, and the manager. -/
def getQuorumAt (llmqType : Nat) (pindexQuorum : CBlockIndex) (s : CQuorumBlockProcessor)
    (m : CQuorumManager) : Except Fail (Option CQuorum × CQuorumBlockProcessor × CQuorumManager) :=
  let quorumHash := pindexQuorum.getBlockHash
  let hasQuorum := s.hasMinedCommitment llmqType quorumHash
  let s := hasQuorum.2
  if !hasQuorum.1 then .ok (none, s, m)
  else
    match m.quorumsCache (llmqType, quorumHash) with
    | some quorum => .ok (some quorum, s, m)
    | none =>
      match s.getMinedCommitment llmqType quorumHash with
      | none => .ok (none, s, m)
      | some (qc, minedBlockHash) => do
        let params ← deref (qe.params llmqType)
        let quorum ← buildQuorumFromCommitment qe params qc pindexQuorum minedBlockHash
        return (some quorum, s,
          { m with quorumsCache := emplace m.quorumsCache (llmqType, quorumHash) quorum })

def getQuorum (llmqType : Nat) (quorumHash : Uint256) (s : CQuorumBlockProcessor)
    (m : CQuorumManager) : Except Fail (Option CQuorum × CQuorumBlockProcessor × CQuorumManager) :=
  match qe.env.mapBlockIndex quorumHash with
  | none => .ok (none, s, m)
  | some pindexQuorum => getQuorumAt qe llmqType pindexQuorum s m

/-- The loop of `ScanQuorums` over the quorums it has found. -/
def scanLoop (llmqType : Nat) : List CBlockIndex → CQuorumBlockProcessor → CQuorumManager →
    Except Fail (List CQuorum × CQuorumBlockProcessor × CQuorumManager)
  | [], s, m => .ok ([], s, m)
  | quorumIndex :: rest, s, m => do
    let (quorum, s, m) ← getQuorumAt qe llmqType quorumIndex s m
    match quorum with
    | none => .error .assert
    | some quorum => do
      let (result, s, m) ← scanLoop llmqType rest s m
      return (quorum :: result, s, m)

def scanQuorums (params : LLMQMiningParams) (pindexStart : CBlockIndex) (maxCount : Nat)
    (s : CQuorumBlockProcessor) (m : CQuorumManager) :
    Except Fail (List CQuorum × CQuorumBlockProcessor × CQuorumManager) :=
  let cacheKey := (params.type, pindexStart.getBlockHash)
  let cacheMaxSize := params.signingActiveQuorumCount + 1
  if maxCount ≤ cacheMaxSize then
    let cached := m.scanQuorumsCache.get cacheKey
    let m := { m with scanQuorumsCache := cached.2 }
    match cached.1 with
    | some result => .ok (result.take maxCount, s, m)
    | none => do
      let quorumIndexes ← s.getMinedCommitmentsUntilBlock params.type pindexStart cacheMaxSize
      let (result, s, m) ← scanLoop qe params.type quorumIndexes s m
      return (result.take maxCount, s,
        { m with scanQuorumsCache := m.scanQuorumsCache.insert cacheKey result })
  else do
    let quorumIndexes ← s.getMinedCommitmentsUntilBlock params.type pindexStart maxCount
    let (result, s, m) ← scanLoop qe params.type quorumIndexes s m
    return (result.take maxCount, s, m)

end CQuorumManager

end Absolute
