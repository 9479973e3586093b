/-
The quorum merkle root of the coinbase payload.

`CalcCbTxMerkleRootQuorums` keeps the hashes of its last call in static variables, so it takes and
returns them here.  The order of hashes is that of numbers.
-/
import AbsoluteCore.Llmq.BlockProcessor

namespace Absolute

/-- The static variables of `CalcCbTxMerkleRootQuorums`.  A map is the list of its entries. -/
structure QuorumRootCache where
  quorumsCached : List (Nat × List CBlockIndex) := []
  qcHashesCached : List (Nat × List Uint256) := []
deriving DecidableEq, Repr

variable (qe : QuorumEnv) (s : CQuorumBlockProcessor)

/-- The hashes of the commitments of these quorums, as they are stored. -/
def hashQuorums (quorums : List (Nat × List CBlockIndex)) :
    Except Fail (List (Nat × List Uint256)) :=
  quorums.mapM fun p => do
    let v ← p.2.mapM fun p2 => do
      -- `assert(found)`
      let qc ← deref (s.getMinedCommitment p.1 p2.getBlockHash)
      return qe.commitmentHash qc.1
    return (p.1, v)

/-- `qcHashes[llmqType]`. -/
def hashesOf (llmqType : Nat) (qcHashes : List (Nat × List Uint256)) : List Uint256 :=
  ((qcHashes.find? fun p => p.1 = llmqType).map Prod.snd).getD []

/-- `qcHashes[llmqType] = v`. -/
def setHashes (llmqType : Nat) (v : List Uint256) :
    List (Nat × List Uint256) → List (Nat × List Uint256)
  | [] => [(llmqType, v)]
  | p :: rest =>
    if p.1 = llmqType then (llmqType, v) :: rest
    else if llmqType < p.1 then (llmqType, v) :: p :: rest
    else p :: setHashes llmqType v rest

/-- One transaction in the loop that adds the commitments of the block. -/
def addBlockCommitment (qcHashes : List (Nat × List Uint256)) (tx : CTransaction) :
    Except Fail (List (Nat × List Uint256)) :=
  if tx.nVersion = 3 ∧ tx.nType = .quorumCommitment then
    match tx.getCommitment with
    | none => .error .assert
    | some qc =>
      if qc.commitment.isNull then .ok qcHashes
      else
        match qe.params qc.commitment.llmqType with
        | none => .error (.throws "map::at")
        | some params => do
          let v := hashesOf params.type qcHashes
          let v := if v.length = params.signingActiveQuorumCount then v.dropLast else v
          let v := v ++ [qe.commitmentHash qc.commitment]
          assertThat (v.length ≤ params.signingActiveQuorumCount)
          return setHashes params.type v qcHashes
  else .ok qcHashes

/-- The root of all hashes in order, and whether the list was mutated. -/
def rootOfHashes (qcHashes : List (Nat × List Uint256)) : Uint256 × Bool :=
  qe.computeMerkleRoot ((qcHashes.flatMap Prod.snd).insertionSort (· ≤ ·))

/-- `CalcCbTxMerkleRootQuorums`: the root, and whether it returns true. -/
def calcCbTxMerkleRootQuorums (cache : QuorumRootCache)
    (block : CBlock) (pindexPrev : CBlockIndex) :
    Except Fail (QuorumRootCache × Uint256 × Bool) := do
  let quorums ← s.getMinedAndActiveCommitmentsUntilBlock qe pindexPrev
  let cache ←
    if quorums = cache.quorumsCached then pure cache
    else do
      let qcHashes ← hashQuorums qe s quorums
      pure ⟨quorums, qcHashes⟩
  let qcHashes ← (block.vtx.drop 1).foldlM (addBlockCommitment qe) cache.qcHashesCached
  let root := rootOfHashes qe qcHashes
  return (cache, root.1, !root.2)

/-- `CheckCbTxMerkleRoots` as far as it is about quorums: whether the block passes. -/
def checkCbTxMerkleRootQuorums (cache : QuorumRootCache)
    (block : CBlock) (pindexPrev : CBlockIndex) : Except Fail (QuorumRootCache × Bool) :=
  match block.vtx with
  | [] => .error .assert
  | coinbase :: _ =>
    if coinbase.nType ≠ .coinbase then .ok (cache, true)
    else
      match coinbase.getCbTx with
      | none => .ok (cache, false)
      | some cbTx =>
        if cbTx.nVersion ≥ 2 then do
          let (cache, root, ok) ← calcCbTxMerkleRootQuorums qe s cache block pindexPrev
          return (cache, ok && root = cbTx.merkleRootQuorums)
        else .ok (cache, true)

end Absolute
