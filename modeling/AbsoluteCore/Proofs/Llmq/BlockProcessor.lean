/-
The block processor keeps the rules and stores what the chain has mined.

The store is read back from the chain: an entry for each quorum and one for each mined height.  What
the processor remembers of its queries stays right because a stored or erased commitment is
forgotten at once, and because a block asks about a quorum only before it stores a commitment for
it, so that what it remembers also holds when the block is refused.
-/
import AbsoluteCore.Proofs.Evo.EvoTransactions
import AbsoluteCore.Proofs.Llmq.CommitmentChain
import AbsoluteCore.Proofs.Llmq.StoredKeys

namespace Absolute

open BlockProcessorKeys List Function Option Except Fallible Overlay CBlockIndex CEvoDB

variable {qe : QuorumEnv} {genesis : Uint256} {chain rest : List CBlock}

/-! ### Parameters and quorum hashes -/

theorem QuorumEnv.params_eq_some {llmqType : Nat} {params : LLMQMiningParams} :
    qe.params llmqType = some params ↔ params ∈ qe.llmqs ∧ llmqType = params.type := by
  constructor
  · intro h
    exact ⟨mem_of_find?_eq_some h, by simpa [eq_comm] using find?_some h⟩
  · intro ⟨hmem, htype⟩
    cases hfind : qe.params llmqType with
    | none =>
      have hnot := find?_eq_none.mp hfind params hmem
      simp [htype] at hnot
    | some q =>
      have hq : q ∈ qe.llmqs := mem_of_find?_eq_some hfind
      have hqtype : q.type = llmqType := by simpa using find?_some hfind
      rw [qe.eq_of_type hq hmem (hqtype.trans htype)]

theorem blockHash_range {chainTip base : CBlockIndex} (hknown : chainTip.Known qe.env)
    {height : Int} (hbase : chainTip.getAncestor height = some base) :
    base.getBlockHash ≠ 0 ∧ base.getBlockHash < 2 ^ 256 :=
  qe.blockHash_range _ base (hknown.onChain (onChain_of_getAncestor hbase)).mapBlockIndex

namespace CQuorumBlockProcessor

variable {blockHash quorumHash : Uint256} {height llmqType height : Nat} {qc : CFinalCommitment}
  {params : LLMQMiningParams} {e : CEvoDB EvoValue} {s' : CQuorumBlockProcessor} {b : CBlock}
  {k : CDataStream}

theorem sessionStart_eq (n interval : Nat) :
    (n : Int) - (n : Int) % (interval : Int) = (n / interval * interval : Nat) := by
  have h := Nat.div_add_mod' n interval
  omega

/-- The hash of the first block of the session, which is not the block on top of the chain. -/
theorem getQuorumBlockHash_eq (params) :
    getQuorumBlockHash (indexOf genesis rest) params (rest.length + 1 : Nat) =
      (((indexOf genesis rest).getAncestor
        ((rest.length + 1) / params.dkgInterval * params.dkgInterval : Nat)).map
          CBlockIndex.getBlockHash).getD 0 := by
  unfold getQuorumBlockHash getBlockHash
  dsimp only
  rw [sessionStart_eq, nHeight_indexOf]
  by_cases habove : (((rest.length + 1) / params.dkgInterval * params.dkgInterval : Nat) : Int) >
      rest.length
  · rw [if_pos (.inr habove),
      getAncestor_eq_none (by rw [nHeight_indexOf]; exact habove)]
    rfl
  · rw [if_neg (by omega), if_neg (by omega)]

theorem getQuorumBlockHash_eq_iff (hne : quorumHash ≠ 0) :
    getQuorumBlockHash (indexOf genesis rest) params (rest.length + 1 : Nat) = quorumHash ↔
      ∃ base, (indexOf genesis rest).getAncestor
          ((rest.length + 1) / params.dkgInterval * params.dkgInterval : Nat) = some base ∧
        quorumHash = base.getBlockHash := by
  rw [getQuorumBlockHash_eq]
  cases hbase : (indexOf genesis rest).getAncestor
      ((rest.length + 1) / params.dkgInterval * params.dkgInterval : Nat) with
  | none => simp [hne.symm]
  | some base => simp [eq_comm]

theorem isMiningPhase_iff : isMiningPhase params height = true ↔ InWindow params height := by
  unfold isMiningPhase InWindow
  rw [Bool.and_eq_true, decide_eq_true_eq, decide_eq_true_eq]
  have hmod : (height : Int) % (params.dkgInterval : Int) = (height % params.dkgInterval : Nat) :=
    rfl
  omega

/-! ### What is stored -/

def heightEntry (qe : QuorumEnv) (llmqType height : Nat) (chain : List CBlock) : Option EvoValue := do
  let b ← blockAt height chain
  let qc ← minedIn qe llmqType height b
  let quorumIndex ← qe.env.mapBlockIndex qc.quorumHash
  return .quorumHeight quorumIndex.nHeight

/-- The database has what the chain has mined. -/
structure Holds (qe : QuorumEnv) (chain : List CBlock) (read : CDataStream → Option EvoValue) :
    Prop where
  mined : ∀ llmqType quorumHash, llmqType < 256 → quorumHash < 2 ^ 256 →
    read (minedCommitmentKey llmqType quorumHash) =
      (minedFor qe llmqType quorumHash chain).map fun r => .minedCommitment r.1 r.2
  height : ∀ llmqType height, llmqType < 256 → height < 2 ^ 31 →
    read (minedHeightKey llmqType height) = heightEntry qe llmqType height chain
  /-- There is no other key that begins like those of heights. -/
  only : ∀ k, string.put dbMinedCommitmentByInversedHeight <+: k → (read k).isSome →
    ∃ llmqType height, llmqType < 256 ∧ height < 2 ^ 31 ∧ k = minedHeightKey llmqType height

/-- What is remembered of queries is right for the database and was so before the transaction. -/
def CacheKept (before : CDataStream → Option EvoValue) (s : CQuorumBlockProcessor) : Prop :=
  ∀ llmqType quorumHash ret, llmqType < 256 → quorumHash < 2 ^ 256 →
    s.hasMinedCommitmentCache (llmqType, quorumHash) = some ret →
    ret = (before (minedCommitmentKey llmqType quorumHash)).isSome ∧
      s.evoDb.read (minedCommitmentKey llmqType quorumHash) =
        before (minedCommitmentKey llmqType quorumHash)

variable {before : CDataStream → Option EvoValue} {s : CQuorumBlockProcessor}
  {entries : List (CDataStream × EvoValue)}

@[simp] theorem evoDb_hasMinedCommitment (s : CQuorumBlockProcessor) (llmqType : Nat)
    (quorumHash : Uint256) : (s.hasMinedCommitment llmqType quorumHash).2.evoDb = s.evoDb := by
  unfold hasMinedCommitment
  cases s.hasMinedCommitmentCache (llmqType, quorumHash) <;> rfl

/-- A query answers from the database as it was before the transaction. -/
theorem hasMinedCommitment_spec (hcache : CacheKept before s)
    (htype : llmqType < 256) (hhash : quorumHash < 2 ^ 256)
    (hread : s.evoDb.read (minedCommitmentKey llmqType quorumHash) =
      before (minedCommitmentKey llmqType quorumHash)) :
    (s.hasMinedCommitment llmqType quorumHash).1 =
        (before (minedCommitmentKey llmqType quorumHash)).isSome ∧
      (s.hasMinedCommitment llmqType quorumHash).2.evoDb = s.evoDb ∧
      CacheKept before (s.hasMinedCommitment llmqType quorumHash).2 := by
  unfold hasMinedCommitment
  cases hcached : s.hasMinedCommitmentCache (llmqType, quorumHash) with
  | some ret => exact ⟨(hcache _ _ ret htype hhash hcached).1, rfl, hcache⟩
  | none =>
    rw [existsKey_eq, hread]
    refine ⟨rfl, rfl, ?_⟩
    intro llmqType' quorumHash' ret htype' hhash' hret
    by_cases hkey : (llmqType', quorumHash') = (llmqType, quorumHash)
    · obtain ⟨rfl, rfl⟩ := Prod.mk.inj hkey
      have hret : update s.hasMinedCommitmentCache (llmqType', quorumHash')
        (some (before (minedCommitmentKey llmqType' quorumHash')).isSome)
          (llmqType', quorumHash') = some ret := hret
      rw [update_self] at hret
      exact ⟨(some.inj hret).symm, hread⟩
    · have hret : update s.hasMinedCommitmentCache (llmqType, quorumHash) _
        (llmqType', quorumHash') = some ret := hret
      rw [update_of_ne hkey] at hret
      exact hcache _ _ ret htype' hhash' hret

theorem isCommitmentRequired_spec (hknown : (indexOf genesis rest).Known qe.env)
    (hholds : Holds qe rest before) (hcache : CacheKept before s) (hread : s.evoDb.read = before)
    (params) :
    ((s.isCommitmentRequired (indexOf genesis rest) params (rest.length + 1 : Nat)).1 = true ↔
        Required qe genesis rest params) ∧
      (s.isCommitmentRequired (indexOf genesis rest) params (rest.length + 1 : Nat)).2.evoDb =
        s.evoDb ∧
      CacheKept before
        (s.isCommitmentRequired (indexOf genesis rest) params (rest.length + 1 : Nat)).2 := by
  unfold isCommitmentRequired
  dsimp only
  rw [getQuorumBlockHash_eq]
  cases hbase : (indexOf genesis rest).getAncestor
      ((rest.length + 1) / params.dkgInterval * params.dkgInterval : Nat) with
  | none =>
    refine ⟨⟨fun h => (by cases h), fun h => ?_⟩, rfl, hcache⟩
    obtain ⟨-, base, hsome, -⟩ := h
    rw [hbase] at hsome
    cases hsome
  | some base =>
    obtain ⟨hne, hrange⟩ := blockHash_range hknown hbase
    have hspec := hasMinedCommitment_spec hcache params.type_lt hrange (by rw [hread])
    rw [map_some, getD_some, if_neg hne]
    refine ⟨?_, hspec.2.1, hspec.2.2⟩
    have hmined := hholds.mined params.type base.getBlockHash params.type_lt hrange
    rw [hspec.1, hmined, isSome_map, Bool.and_eq_true, isMiningPhase_iff, Required, hbase]
    simp

/-! ### Storing commitments -/

/-- What `ProcessCommitment` writes. -/
def storedEntries (qe : QuorumEnv) (height : Nat) (blockHash : Uint256) (qc : CFinalCommitment) :
    List (CDataStream × EvoValue) :=
  if qc.isNull then []
  else
    match qe.env.mapBlockIndex qc.quorumHash with
    | none => []
    | some quorumIndex =>
      [(minedCommitmentKey qc.llmqType qc.quorumHash, .minedCommitment qc blockHash),
        (minedHeightKey qc.llmqType height, .quorumHeight quorumIndex.nHeight)]

def writeEntries (qe : QuorumEnv) (entries : List (CDataStream × EvoValue)) (e : CEvoDB EvoValue) :
    CEvoDB EvoValue :=
  entries.foldl (fun e p => e.write qe.getSerializeSize p.1 p.2) e

theorem read_writeEntries (entries e) :
    (writeEntries qe entries e).read = writeAll e.read entries := by
  induction entries generalizing e with
  | nil => rfl
  | cons p entries ih =>
    show (writeEntries qe entries (e.write qe.getSerializeSize p.1 p.2)).read = _
    rw [ih, read_write]
    rfl

theorem within_writeEntries {e' : CEvoDB EvoValue} (h : e.Within qe.getSerializeSize e') (entries) :
    e.Within qe.getSerializeSize (writeEntries qe entries e') := by
  induction entries generalizing e' with
  | nil => exact h
  | cons p entries ih => exact ih (h.write p.1 p.2)

/-- The commitment is for the quorum of the session, and can be stored. -/
structure Storable (qe : QuorumEnv) (genesis : Uint256) (rest : List CBlock)
    (qc : CFinalCommitment) : Prop where
  quorum : ∃ params ∈ qe.llmqs, qc.llmqType = params.type ∧
    ∃ base, (indexOf genesis rest).getAncestor
        ((rest.length + 1) / params.dkgInterval * params.dkgInterval : Nat) = some base ∧
      qc.quorumHash = base.getBlockHash
  known : qc.isNull = false → ∃ quorumIndex, qe.env.mapBlockIndex qc.quorumHash = some quorumIndex

theorem Storable.type_lt (h : Storable qe genesis rest qc) : qc.llmqType < 256 := by
  obtain ⟨params, -, htype, -⟩ := h.quorum
  rw [htype]
  exact params.type_lt

theorem Storable.hash_lt (hknown : (indexOf genesis rest).Known qe.env)
    (h : Storable qe genesis rest qc) : qc.quorumHash < 2 ^ 256 := by
  obtain ⟨params, -, -, base, hbase, hhash⟩ := h.quorum
  rw [hhash]
  exact (blockHash_range hknown hbase).2

/-- What is remembered stays right where all that changes is forgotten. -/
theorem CacheKept.forget (hcache : CacheKept before s)
    (h : ∀ llmqType quorumHash ret, llmqType < 256 → quorumHash < 2 ^ 256 →
      s'.hasMinedCommitmentCache (llmqType, quorumHash) = some ret →
      s.hasMinedCommitmentCache (llmqType, quorumHash) = some ret ∧
        s'.evoDb.read (minedCommitmentKey llmqType quorumHash) =
          s.evoDb.read (minedCommitmentKey llmqType quorumHash)) : CacheKept before s' := by
  intro llmqType quorumHash ret htype hhash hret
  obtain ⟨hold, hread⟩ := h _ _ ret htype hhash hret
  rw [hread]
  exact hcache _ _ ret htype hhash hold

theorem mem_storedEntries {p : CDataStream × EvoValue} :
    p ∈ storedEntries qe height blockHash qc ↔ qc.isNull = false ∧
      ∃ quorumIndex, qe.env.mapBlockIndex qc.quorumHash = some quorumIndex ∧
        (p = (minedCommitmentKey qc.llmqType qc.quorumHash, .minedCommitment qc blockHash) ∨
          p = (minedHeightKey qc.llmqType height, .quorumHeight quorumIndex.nHeight)) := by
  unfold storedEntries
  cases hnull : qc.isNull with
  | true => simp
  | false => cases qe.env.mapBlockIndex qc.quorumHash <;> simp

theorem minedCommitmentKey_mem_storedEntries (htype : qc.llmqType < 256)
    (hhash : qc.quorumHash < 2 ^ 256) (htype' : llmqType < 256) (hhash' : quorumHash < 2 ^ 256)
    (h : minedCommitmentKey llmqType quorumHash ∈
      (storedEntries qe height blockHash qc).map Prod.fst) :
    llmqType = qc.llmqType ∧ quorumHash = qc.quorumHash := by
  obtain ⟨p, hp, hkey⟩ := mem_map.mp h
  obtain ⟨-, quorumIndex, -, rfl | rfl⟩ := mem_storedEntries.mp hp
  · exact minedCommitmentKey_inj htype' htype hhash' hhash hkey.symm
  · exact absurd hkey.symm (minedCommitmentKey_ne_minedHeightKey _ _ _ _)

/-- What is forgotten is the quorum whose entry changes. -/
theorem CacheKept.forgetQuorum (hcache : CacheKept before s)
    (hread : ∀ llmqType quorumHash, llmqType < 256 → quorumHash < 2 ^ 256 →
      ¬(llmqType = qc.llmqType ∧ quorumHash = qc.quorumHash) →
      e.read (minedCommitmentKey llmqType quorumHash) =
        s.evoDb.read (minedCommitmentKey llmqType quorumHash)) : CacheKept before
      { evoDb := e
        hasMinedCommitmentCache :=
          update s.hasMinedCommitmentCache (qc.llmqType, qc.quorumHash) none } := by
  refine hcache.forget ?_
  intro llmqType quorumHash ret htype hhash hret
  have hret : update s.hasMinedCommitmentCache (qc.llmqType, qc.quorumHash) none
    (llmqType, quorumHash) = some ret := hret
  by_cases hkey : (llmqType, quorumHash) = (qc.llmqType, qc.quorumHash)
  · rw [hkey, update_self] at hret
    cases hret
  · rw [update_of_ne hkey] at hret
    exact ⟨hret, hread _ _ htype hhash fun ⟨htype, hhash⟩ => hkey (by rw [htype, hhash])⟩

theorem CacheKept.store (qe height blockHash)
    (hcache : CacheKept before s) (htype : qc.llmqType < 256)
    (hhash : qc.quorumHash < 2 ^ 256) : CacheKept before
      { evoDb := writeEntries qe (storedEntries qe height blockHash qc) s.evoDb
        hasMinedCommitmentCache :=
          update s.hasMinedCommitmentCache (qc.llmqType, qc.quorumHash) none } := by
  refine hcache.forgetQuorum fun llmqType quorumHash htype' hhash' hne => ?_
  rw [read_writeEntries, writeAll_of_not_mem]
  exact fun hmem => hne (minedCommitmentKey_mem_storedEntries htype hhash htype' hhash' hmem)

section

variable (hknown : (indexOf genesis rest).Known qe.env)

include hknown

/-- A commitment is refused, and then nothing is stored, or it is the session's own and is stored
unless it is null. -/
theorem processCommitment_ends (hcache : CacheKept before s) (blockHash)
    (hread : qc.llmqType < 256 → qc.quorumHash < 2 ^ 256 →
      s.evoDb.read (minedCommitmentKey qc.llmqType qc.quorumHash) =
        before (minedCommitmentKey qc.llmqType qc.quorumHash)) : Ends
      (fun s' => Storable qe genesis rest qc ∧
        s'.evoDb = writeEntries qe (storedEntries qe (rest.length + 1) blockHash qc) s.evoDb ∧
        CacheKept before s')
      (fun r => r.2.evoDb = s.evoDb ∧ CacheKept before r.2)
      (processCommitment qe (indexOf genesis rest) (rest.length + 1 : Nat) blockHash s qc) := by
  unfold processCommitment
  cases hparams : qe.params qc.llmqType with
  | none => exact ⟨rfl, hcache⟩
  | some params =>
    obtain ⟨hmem, htype⟩ := QuorumEnv.params_eq_some.mp hparams
    dsimp only
    by_cases hzero : getQuorumBlockHash (indexOf genesis rest) params (rest.length + 1 : Nat) = 0
    · rw [if_pos hzero]
      exact ⟨rfl, hcache⟩
    rw [if_neg hzero]
    by_cases hquorum :
        getQuorumBlockHash (indexOf genesis rest) params (rest.length + 1 : Nat) = qc.quorumHash
    swap
    · rw [if_pos hquorum]
      exact ⟨rfl, hcache⟩
    rw [if_neg (not_not_intro hquorum), hquorum]
    rw [hquorum] at hzero
    obtain ⟨base, hbase, hhash⟩ := (getQuorumBlockHash_eq_iff hzero).mp hquorum
    by_cases hnull : qc.isNull = true
    · split_ifs
      · refine ⟨⟨⟨params, hmem, htype, base, hbase, hhash⟩, fun hnot => ?_⟩, ?_, hcache⟩
        · cases hnull.symm.trans hnot
        · rw [storedEntries, if_pos hnull]
          rfl
      · exact ⟨rfl, hcache⟩
    · rw [if_neg hnull, ← htype]
      have htypeLt : qc.llmqType < 256 := htype ▸ params.type_lt
      have hhashLt : qc.quorumHash < 2 ^ 256 := hhash ▸ (blockHash_range hknown hbase).2
      obtain ⟨-, hdb, hcache'⟩ :=
        hasMinedCommitment_spec hcache htypeLt hhashLt (hread htypeLt hhashLt)
      split
      · exact ⟨hdb, hcache'⟩
      split
      · exact ⟨hdb, hcache'⟩
      have hstore := hcache'.store qe (rest.length + 1) blockHash htypeLt hhashLt
      cases hindex : qe.env.mapBlockIndex qc.quorumHash with
      | none => exact ⟨hdb, hcache'⟩
      | some quorumIndex =>
        rw [storedEntries, if_neg hnull, hindex] at hstore
        dsimp only
        split
        · exact ⟨hdb, hcache'⟩
        · exact ⟨hdb, hcache'⟩
        · refine ⟨⟨⟨params, hmem, htype, base, hbase, hhash⟩, fun _ => ⟨quorumIndex, hindex⟩⟩, ?_,
            hstore⟩
          rw [storedEntries, if_neg hnull, hindex, hdb]
          rfl

/-! ### Blocks -/

theorem checkRequired_ends (hholds : Holds qe rest before) (hcache : CacheKept before s)
    (hread : s.evoDb.read = before) (qcs : List CFinalCommitment) (params) : Ends
      (fun s' => s'.evoDb = s.evoDb ∧ CacheKept before s' ∧
        ((∃ qc ∈ qcs, qc.llmqType = params.type) ↔ Required qe genesis rest params))
      (fun r => r.2.evoDb = s.evoDb ∧ CacheKept before r.2)
      (checkRequired (indexOf genesis rest) (rest.length + 1 : Nat) qcs s params) := by
  obtain ⟨hrequired, hdb, hcache'⟩ := isCommitmentRequired_spec hknown hholds hcache hread params
  have hany : (qcs.any fun qc => qc.llmqType = params.type) = true ↔
      ∃ qc ∈ qcs, qc.llmqType = params.type := by
    simp
  rw [← hrequired, ← hany]
  unfold checkRequired
  dsimp only
  cases (qcs.any fun qc => qc.llmqType = params.type) <;>
    cases (s.isCommitmentRequired (indexOf genesis rest) params (rest.length + 1 : Nat)).1
  · exact ⟨hdb, hcache', Iff.rfl⟩
  · exact ⟨hdb, hcache'⟩
  · exact ⟨hdb, hcache'⟩
  · exact ⟨hdb, hcache', Iff.rfl⟩

/-- The loop over the types: the block has the commitments that are required. -/
theorem checkRequired_fold (hholds : Holds qe rest before) (hcache : CacheKept before s)
    (hread : s.evoDb.read = before) (qcs : List CFinalCommitment) :
    Ends
      (fun s' => s'.evoDb = s.evoDb ∧ CacheKept before s' ∧
        ∀ params ∈ qe.llmqs, (∃ qc ∈ qcs, qc.llmqType = params.type) ↔
          Required qe genesis rest params)
      (fun r => r.2.evoDb = s.evoDb ∧ CacheKept before r.2)
      (qe.llmqs.foldlM (checkRequired (indexOf genesis rest) (rest.length + 1 : Nat) qcs) s) := by
  refine Ends.foldlM (fun done s' => s'.evoDb = s.evoDb ∧ CacheKept before s' ∧
    ∀ params ∈ done, (∃ qc ∈ qcs, qc.llmqType = params.type) ↔ Required qe genesis rest params) ?_
    ⟨rfl, hcache, fun _ h => (by cases h)⟩
  intro done params todo _ t ⟨hdb, hcache, hdone⟩
  refine (checkRequired_ends hknown hholds hcache (by rw [hdb, hread]) qcs params).imp ?_ ?_
  · rintro t' ⟨hdb', hcache', hiff⟩
    exact ⟨hdb'.trans hdb, hcache', forall_mem_append.mpr ⟨hdone, forall_mem_singleton.mpr hiff⟩⟩
  · rintro r ⟨hdb', hcache'⟩
    exact ⟨hdb'.trans hdb, hcache'⟩

/-- The loop over the commitments: each is the session's own, and is stored unless it is null. -/
theorem processCommitment_fold (hcache : CacheKept before s) (hread : s.evoDb.read = before)
    (blockHash) {qcs : List CFinalCommitment}
    (htypes : qcs.Pairwise fun a b => a.llmqType ≠ b.llmqType) : Ends
      (fun s' => s'.evoDb = writeEntries qe
          (qcs.flatMap (storedEntries qe (rest.length + 1) blockHash)) s.evoDb ∧
        CacheKept before s' ∧ ∀ qc ∈ qcs, Storable qe genesis rest qc)
      (fun r => (∃ entries, r.2.evoDb = writeEntries qe entries s.evoDb) ∧ CacheKept before r.2)
      (qcs.foldlM
        (processCommitment qe (indexOf genesis rest) (rest.length + 1 : Nat) blockHash) s) := by
  refine Ends.foldlM (fun done s' => s'.evoDb =
      writeEntries qe (done.flatMap (storedEntries qe (rest.length + 1) blockHash)) s.evoDb ∧
    CacheKept before s' ∧ ∀ qc ∈ done, Storable qe genesis rest qc) ?_
    ⟨rfl, hcache, fun _ h => (by cases h)⟩
  intro done qc todo hqcs t ⟨hdb, hcache, hdone⟩
  -- The commitments before it are of other types, so they have not touched its entry.
  have hread' : qc.llmqType < 256 → qc.quorumHash < 2 ^ 256 →
      t.evoDb.read (minedCommitmentKey qc.llmqType qc.quorumHash) =
        before (minedCommitmentKey qc.llmqType qc.quorumHash) := by
    intro htype hhash
    rw [hdb, read_writeEntries, hread, writeAll_of_not_mem]
    intro hmem
    rw [map_flatMap] at hmem
    obtain ⟨c, hc, hmem⟩ := mem_flatMap.mp hmem
    have hc' := hdone c hc
    obtain ⟨heq, -⟩ := minedCommitmentKey_mem_storedEntries hc'.type_lt (hc'.hash_lt hknown) htype
      hhash hmem
    rw [hqcs, pairwise_append] at htypes
    exact htypes.2.2 c hc qc mem_cons_self heq.symm
  refine (processCommitment_ends hknown hcache blockHash hread').imp ?_ ?_
  · rintro t' ⟨hstorable, hdb', hcache'⟩
    refine ⟨?_, hcache', forall_mem_append.mpr ⟨hdone, forall_mem_singleton.mpr hstorable⟩⟩
    rw [hdb', hdb, flatMap_append, flatMap_singleton, writeEntries, writeEntries, writeEntries,
      foldl_append]
  · rintro r ⟨hdb', hcache'⟩
    exact ⟨⟨_, hdb'.trans hdb⟩, hcache'⟩

end

/-! ### The store along the chain -/

namespace Holds

variable {read : CDataStream → Option EvoValue} {b : CBlock} {llmqType height : Nat}

/-- The store does not depend on the keys of others. -/
theorem others (h : Holds qe chain read) {k : CDataStream} (hk : OthersKey k)
    (v : Option EvoValue) : Holds qe chain (update read k v) where
  mined llmqType quorumHash htype hhash := by
    rw [update_of_ne (hk.ne_minedCommitmentKey llmqType quorumHash)]
    exact h.mined llmqType quorumHash htype hhash
  height llmqType height htype hheight := by
    rw [update_of_ne (hk.ne_minedHeightKey llmqType height)]
    exact h.height llmqType height htype hheight
  only j hprefix hsome := by
    have hj : j ≠ k := by
      intro heq
      rw [heq] at hprefix
      exact hk.not_heightPrefix hprefix
    rw [update_of_ne hj] at hsome
    exact h.only j hprefix hsome

/-- What the block on top of the chain adds for a height. -/
def newHeight (qe : QuorumEnv) (llmqType height : Nat) (b : CBlock) (rest : List CBlock) :
    Option EvoValue :=
  if height = rest.length + 1 then
    (minedIn qe llmqType (rest.length + 1) b).bind fun qc =>
      (qe.env.mapBlockIndex qc.quorumHash).bind fun quorumIndex =>
        some (.quorumHeight quorumIndex.nHeight)
  else none

theorem heightEntry_cons : heightEntry qe llmqType height (b :: rest) =
    (newHeight qe llmqType height b rest).or (heightEntry qe llmqType height rest) := by
  unfold newHeight heightEntry
  rw [blockAt]
  split_ifs with hheight
  · rw [blockAt_eq_none (by omega), hheight]
    show (minedIn qe llmqType (rest.length + 1) b).bind _ = Option.or _ none
    rw [or_none]
    rfl
  · rfl

theorem heightEntry_of_new
    (h : (newHeight qe llmqType height b rest).isSome) : heightEntry qe llmqType height rest = none := by
  unfold newHeight at h
  split_ifs at h with hheight
  · rw [heightEntry, blockAt_eq_none (by omega)]
    rfl
  · cases h

/-- What the block on top of the chain adds for a quorum. -/
def newMined (qe : QuorumEnv) (llmqType : Nat) (quorumHash : Uint256) (b : CBlock)
    (rest : List CBlock) : Option EvoValue :=
  ((minedIn qe llmqType (rest.length + 1) b).filter fun qc => qc.quorumHash = quorumHash).map
    fun qc => .minedCommitment qc b.hash

theorem minedFor_cons :
    (minedFor qe llmqType quorumHash (b :: rest)).map (fun r => EvoValue.minedCommitment r.1 r.2) =
      (newMined qe llmqType quorumHash b rest).or
        ((minedFor qe llmqType quorumHash rest).map fun r => .minedCommitment r.1 r.2) := by
  rw [minedFor, newMined]
  cases (minedIn qe llmqType (rest.length + 1) b).filter fun qc => qc.quorumHash = quorumHash <;> rfl

/-- A block to which the rules do not apply changes nothing. -/
theorem inactive_iff (hactive : ¬ qe.env.dip0003Height ≤ (rest.length + 1 : Nat)) :
    Holds qe (b :: rest) read ↔ Holds qe rest read := by
  have hnone : ∀ llmqType, minedIn qe llmqType (rest.length + 1) b = none :=
    fun _ => if_pos (by omega)
  have hheight : ∀ llmqType height, newHeight qe llmqType height b rest = none := by
    simp [newHeight, hnone]
  constructor
  all_goals
    intro h
    refine ⟨fun t hash ht hh => ?_, fun t n ht hn => ?_, h.only⟩
    · rw [h.mined t hash ht hh, minedFor_cons, newMined, hnone]
      rfl
    · rw [h.height t n ht hn, heightEntry_cons, hheight, none_or]

section

variable {qcs : List CFinalCommitment} {v : EvoValue} {llmqType : Nat}
  (hknown : (indexOf genesis rest).Known qe.env) (hheight : rest.length + 1 < 2 ^ 31)
  (hactive : qe.env.dip0003Height ≤ (rest.length + 1 : Nat)) (hone : OneOfEachType b)
  (hstorable : ∀ qc ∈ b.commitments, Storable qe genesis rest qc)
  (hqcs : ∀ qc, qc ∈ qcs ↔ qc ∈ b.commitments)

include hactive hone hstorable hqcs

include hknown in
theorem mem_stored_mined (htype : llmqType < 256) (hhash : quorumHash < 2 ^ 256) :
    (minedCommitmentKey llmqType quorumHash, v) ∈
        qcs.flatMap (storedEntries qe (rest.length + 1) b.hash) ↔
      newMined qe llmqType quorumHash b rest = some v := by
  unfold newMined
  simp only [mem_flatMap, mem_storedEntries, hqcs, map_eq_some_iff, filter_eq_some_iff,
    minedIn_eq_some hone, mem_carried, decide_eq_true_eq]
  constructor
  · rintro ⟨qc, hqc, hnull, quorumIndex, -, heq | heq⟩
    · obtain ⟨hkey, rfl⟩ := Prod.mk.inj heq
      obtain ⟨rfl, rfl⟩ := minedCommitmentKey_inj htype (hstorable qc hqc).type_lt hhash
        ((hstorable qc hqc).hash_lt hknown) hkey
      exact ⟨qc, ⟨⟨hactive, ⟨hqc, rfl⟩, hnull⟩, rfl⟩, rfl⟩
    · exact absurd (Prod.mk.inj heq).1 (minedCommitmentKey_ne_minedHeightKey _ _ _ _)
  · rintro ⟨qc, ⟨⟨-, ⟨hqc, rfl⟩, hnull⟩, rfl⟩, rfl⟩
    obtain ⟨quorumIndex, hindex⟩ := (hstorable qc hqc).known hnull
    exact ⟨qc, hqc, hnull, quorumIndex, hindex, .inl rfl⟩

include hheight in
theorem mem_stored_height {height : Nat} (htype : llmqType < 256) (hlt : height < 2 ^ 31) :
    (minedHeightKey llmqType height, v) ∈
        qcs.flatMap (storedEntries qe (rest.length + 1) b.hash) ↔
      newHeight qe llmqType height b rest = some v := by
  unfold newHeight
  simp only [mem_flatMap, mem_storedEntries, hqcs]
  constructor
  · rintro ⟨qc, hqc, hnull, quorumIndex, hindex, heq | heq⟩
    · exact absurd (Prod.mk.inj heq).1.symm (minedCommitmentKey_ne_minedHeightKey _ _ _ _)
    · obtain ⟨hkey, rfl⟩ := Prod.mk.inj heq
      obtain ⟨rfl, rfl⟩ := minedHeightKey_inj htype (hstorable qc hqc).type_lt hlt hheight hkey
      have hmined : minedIn qe qc.llmqType (rest.length + 1) b = some qc :=
        (minedIn_eq_some hone).mpr ⟨hactive, mem_carried.mpr ⟨hqc, rfl⟩, hnull⟩
      rw [if_pos rfl, hmined, bind_some, hindex]
      rfl
  · intro h
    split_ifs at h with hheight
    obtain ⟨qc, hmined, hmap⟩ := bind_eq_some_iff.mp h
    obtain ⟨quorumIndex, hindex, hv⟩ := bind_eq_some_iff.mp hmap
    obtain rfl := some.inj hv
    obtain ⟨-, hcarried, hnull⟩ := mem_commitments_of_minedIn hmined
    obtain ⟨hqc, rfl⟩ := mem_carried.mp hcarried
    exact ⟨qc, hqc, hnull, quorumIndex, hindex, .inr (by rw [hheight])⟩

include hknown hheight

/-- The entries of a block that follows the rules are those that the chain with it asks for. -/
theorem store (h : Holds qe rest read) : Holds qe (b :: rest)
    (writeAll read (qcs.flatMap (storedEntries qe (rest.length + 1) b.hash))) where
  mined llmqType quorumHash htype hhash := by
    rw [writeAll_eq_or fun v => mem_stored_mined hknown hactive hone hstorable hqcs htype hhash,
      h.mined llmqType quorumHash htype hhash, minedFor_cons]
  height llmqType height htype hlt := by
    rw [writeAll_eq_or fun v => mem_stored_height hheight hactive hone hstorable hqcs htype hlt,
      h.height llmqType height htype hlt, heightEntry_cons]
  only k hprefix hsome := by
    by_cases hkey : k ∈ (qcs.flatMap (storedEntries qe (rest.length + 1) b.hash)).map Prod.fst
    · obtain ⟨p, hp, rfl⟩ := mem_map.mp hkey
      obtain ⟨c, hc, hp⟩ := mem_flatMap.mp hp
      obtain ⟨-, quorumIndex, -, rfl | rfl⟩ := mem_storedEntries.mp hp
      · exact absurd hprefix (not_heightPrefix_minedCommitmentKey _ _)
      · exact ⟨c.llmqType, rest.length + 1, (hstorable c ((hqcs c).mp hc)).type_lt, hheight, rfl⟩
    · rw [writeAll_of_not_mem hkey] at hsome
      exact h.only k hprefix hsome

end

end Holds

variable {e : CEvoDB EvoValue} {qc : CFinalCommitment} {qcs : List CFinalCommitment}

theorem storable_of_rule (h : BlockRule qe genesis rest b)
    (hknown : (indexOf genesis rest).Known qe.env) (hqc : qc ∈ b.commitments) :
    Storable qe genesis rest qc where
  quorum := h.quorum qc hqc
  known _ := by
    obtain ⟨params, -, -, base, hbase, hhash⟩ := h.quorum qc hqc
    rw [hhash]
    exact ⟨base, (hknown.onChain (onChain_of_getAncestor hbase)).mapBlockIndex⟩

theorem minedFor_of_rule (h : BlockRule qe genesis rest b) (hqc : qc ∈ b.commitments) :
    minedFor qe qc.llmqType qc.quorumHash rest = none := by
  obtain ⟨params, hparams, htype, base, hbase, hhash⟩ := h.quorum qc hqc
  obtain ⟨-, base', hbase', hnone⟩ := (h.required params hparams).mp ⟨qc, hqc, htype⟩
  obtain rfl : base = base' := some.inj (hbase.symm.trans hbase')
  rw [htype, hhash, hnone]

/-! ### Undoing -/

/-- What `UndoBlock` erases for a commitment. -/
def erasedKeys (height : Nat) (qc : CFinalCommitment) : List CDataStream :=
  if qc.isNull then []
  else [minedCommitmentKey qc.llmqType qc.quorumHash, minedHeightKey qc.llmqType height]

theorem mem_erasedKeys : k ∈ erasedKeys height qc ↔ qc.isNull = false ∧
      (k = minedCommitmentKey qc.llmqType qc.quorumHash ∨
        k = minedHeightKey qc.llmqType height) := by
  unfold erasedKeys
  cases qc.isNull <;> simp

/-- What is erased is what was stored. -/
theorem mem_erasedKeys_iff (hstorable : ∀ qc ∈ b.commitments, Storable qe genesis rest qc)
    (hqcs : ∀ qc, qc ∈ qcs ↔ qc ∈ b.commitments) {f : Option EvoValue}
    (h : ∀ v, (k, v) ∈ qcs.flatMap (storedEntries qe height b.hash) ↔ f = some v) :
    k ∈ qcs.flatMap (erasedKeys height) ↔ f.isSome := by
  simp only [isSome_iff_exists, ← h, mem_flatMap, mem_erasedKeys, mem_storedEntries]
  constructor
  · rintro ⟨qc, hqc, hnull, hkey⟩
    obtain ⟨quorumIndex, hindex⟩ := (hstorable qc ((hqcs qc).mp hqc)).known hnull
    rcases hkey with rfl | rfl
    · exact ⟨_, qc, hqc, hnull, quorumIndex, hindex, .inl rfl⟩
    · exact ⟨_, qc, hqc, hnull, quorumIndex, hindex, .inr rfl⟩
  · rintro ⟨v, qc, hqc, hnull, quorumIndex, -, hkey⟩
    exact ⟨qc, hqc, hnull, hkey.imp (fun heq => (Prod.mk.inj heq).1) fun heq => (Prod.mk.inj heq).1⟩

/-- Without the entries of its last block the store is that of the chain below. -/
theorem Holds.undo {read : CDataStream → Option EvoValue}
    (h : Holds qe (b :: rest) read) (hknown : (indexOf genesis rest).Known qe.env)
    (hheight : rest.length + 1 < 2 ^ 31) (hactive : qe.env.dip0003Height ≤ (rest.length + 1 : Nat))
    (hrule : BlockRule qe genesis rest b) (hqcs : ∀ qc, qc ∈ qcs ↔ qc ∈ b.commitments) :
    Holds qe rest (eraseAll read (qcs.flatMap (erasedKeys (rest.length + 1)))) := by
  have hone := hrule.oneOfEachType
  have hstorable := fun qc (hqc : qc ∈ b.commitments) => storable_of_rule hrule hknown hqc
  refine ⟨fun llmqType quorumHash htype hhash => ?_, fun llmqType height htype hlt => ?_,
    fun k hprefix hsome => ?_⟩
  · refine eraseAll_eq_of_or (mem_erasedKeys_iff hstorable hqcs fun v =>
      mem_stored_mined hknown hactive hone hstorable hqcs htype hhash)
      ((h.mined _ _ htype hhash).trans minedFor_cons) fun hnew => ?_
    obtain ⟨qc, hfilter⟩ := isSome_iff_exists.mp ((isSome_map).symm.trans hnew)
    obtain ⟨hmined, hquorum⟩ := filter_eq_some_iff.mp hfilter
    obtain ⟨-, hcarried, -⟩ := mem_commitments_of_minedIn hmined
    obtain ⟨hqc, rfl⟩ := mem_carried.mp hcarried
    obtain rfl : qc.quorumHash = quorumHash := by simpa using hquorum
    rw [minedFor_of_rule hrule hqc]
    rfl
  · exact eraseAll_eq_of_or (mem_erasedKeys_iff hstorable hqcs fun v =>
      mem_stored_height hheight hactive hone hstorable hqcs htype hlt)
      ((h.height _ _ htype hlt).trans heightEntry_cons) heightEntry_of_new
  · rw [eraseAll_apply] at hsome
    split_ifs at hsome
    · cases hsome
    · exact h.only k hprefix hsome

theorem CacheKept.others (hcache : CacheKept before s) (hk : OthersKey k)
    {v : Option EvoValue} (hread : e.read = update s.evoDb.read k v) :
    CacheKept before { s with evoDb := e } := by
  refine hcache.forget ?_
  intro llmqType quorumHash ret _ _ hret
  refine ⟨hret, ?_⟩
  rw [hread, update_of_ne (hk.ne_minedCommitmentKey llmqType quorumHash)]

theorem read_undoCommitment (s : CQuorumBlockProcessor) (height : Nat) (qc : CFinalCommitment) :
    (undoCommitment height s qc).evoDb.read =
      eraseAll s.evoDb.read (erasedKeys height qc) := by
  unfold undoCommitment erasedKeys
  split
  · rfl
  · rw [read_erase, read_erase]
    rfl

theorem within_undoCommitment (hwithin : e.Within qe.getSerializeSize s.evoDb) (height qc) :
    e.Within qe.getSerializeSize (undoCommitment height s qc).evoDb := by
  unfold undoCommitment
  split
  · exact hwithin
  · exact (hwithin.erase _).erase _

theorem CacheKept.undoCommitment (hcache : CacheKept before s) (height : Nat)
    (htype : qc.llmqType < 256) (hhash : qc.quorumHash < 2 ^ 256) :
    CacheKept before (undoCommitment height s qc) := by
  by_cases hnull : qc.isNull = true
  · rw [CQuorumBlockProcessor.undoCommitment, if_pos hnull]
    exact hcache
  · have hread := read_undoCommitment s height qc
    rw [CQuorumBlockProcessor.undoCommitment, if_neg hnull] at hread ⊢
    refine hcache.forgetQuorum fun llmqType quorumHash htype' hhash' hne => ?_
    rw [hread, eraseAll_apply, if_neg]
    intro hmem
    obtain ⟨-, heq | heq⟩ := mem_erasedKeys.mp hmem
    · exact hne (minedCommitmentKey_inj htype' htype hhash' hhash heq)
    · exact minedCommitmentKey_ne_minedHeightKey _ _ _ _ heq

theorem undoCommitment_fold (hwithin : e.Within qe.getSerializeSize s.evoDb)
    (hcache : CacheKept before s) (height : Nat)
    (hrange : ∀ qc ∈ qcs, qc.llmqType < 256 ∧ qc.quorumHash < 2 ^ 256) :
    e.Within qe.getSerializeSize (qcs.foldl (undoCommitment height) s).evoDb ∧
      (qcs.foldl (undoCommitment height) s).evoDb.read =
        eraseAll s.evoDb.read (qcs.flatMap (erasedKeys height)) ∧
      CacheKept before (qcs.foldl (undoCommitment height) s) := by
  induction qcs generalizing s with
  | nil => exact ⟨hwithin, rfl, hcache⟩
  | cons qc qcs ih =>
    obtain ⟨htype, hhash⟩ := hrange qc mem_cons_self
    obtain ⟨hwithin, hreads, hcache⟩ :=
      ih (within_undoCommitment hwithin height qc) (hcache.undoCommitment height htype hhash)
        fun c hc => hrange c (mem_cons_of_mem _ hc)
    refine ⟨hwithin, ?_, hcache⟩
    rw [foldl_cons, hreads, read_undoCommitment, flatMap_cons, eraseAll_append]

/-! ### Whole blocks -/

theorem read_writeBestBlockUpgrade {hash : Uint256} :
    (s.writeBestBlockUpgrade qe hash).evoDb.read =
      update s.evoDb.read bestBlockUpgradeKey (some (.bestBlock hash)) :=
  read_write _ _ _

theorem mem_byType : qc ∈ byType qcs ↔ qc ∈ qcs :=
  (perm_insertionSort _ qcs).mem_iff

theorem pairwise_byType (h : qcs.Pairwise fun a b => a.llmqType ≠ b.llmqType) :
    (byType qcs).Pairwise fun a b => a.llmqType ≠ b.llmqType :=
  (perm_insertionSort _ qcs).symm.pairwise h fun hne => hne.symm

theorem collected_of_getCommitmentsFromBlock {pindex : CBlockIndex}
    (h : getCommitmentsFromBlock qe b pindex = .ok qcs) :
    b.vtx.foldlM collectBlockCommitment [] = .ok b.commitments ∧ qcs = b.commitments ∧
      OneOfEachType b ∧ (pindex.nHeight < qe.env.dip0003Height → b.commitments = []) := by
  obtain ⟨ret, hcollect, h⟩ := bind_eq_ok.mp h
  obtain ⟨u, hpremature, h⟩ := bind_eq_ok.mp h
  obtain rfl := pure_eq_ok.mp h
  obtain ⟨rfl, hone⟩ := commitments_of_collect hcollect
  refine ⟨hcollect, rfl, hone, fun hlt => ?_⟩
  by_contra hne
  rw [rejectIf, if_pos ⟨hlt, hne⟩] at hpremature
  cases hpremature

/-- A block is refused and leaves only the current layer and right answers behind, or it follows the
rules and the store is that of the chain with it. -/
theorem processBlock_ends (hknown : (indexOf genesis rest).Known qe.env)
    (hidle : s.evoDb.Idle qe.getSerializeSize) (hholds : Holds qe rest s.evoDb.read)
    (hcache : CacheKept s.evoDb.read s) (hheight : rest.length + 1 < 2 ^ 31) (b) : Ends
      (fun s' => s.evoDb.Within qe.getSerializeSize s'.evoDb ∧ CacheKept s.evoDb.read s' ∧
        Holds qe (b :: rest) s'.evoDb.read ∧
        (qe.env.dip0003Height ≤ (rest.length + 1 : Nat) → BlockRule qe genesis rest b))
      (fun r => s.evoDb.Within qe.getSerializeSize r.2.evoDb ∧ CacheKept s.evoDb.read r.2)
      (processBlock qe (indexOf genesis rest) b (.next b.hash (indexOf genesis rest)) s) := by
  have hnHeight : (next b.hash (indexOf genesis rest)).nHeight =
      (rest.length + 1 : Nat) := nHeight_indexOf genesis (b :: rest)
  unfold processBlock
  by_cases hactive : qe.env.dip0003Height ≤ (rest.length + 1 : Nat)
  swap
  · rw [if_pos (by rw [hnHeight]; omega)]
    refine ⟨hidle.within.write _ _, ?_, ?_, fun h => absurd h hactive⟩
    · exact hcache.others othersKey_bestBlockUpgradeKey (read_write _ _ _)
    · rw [Holds.inactive_iff hactive, read_writeBestBlockUpgrade]
      exact hholds.others othersKey_bestBlockUpgradeKey _
  rw [if_neg (by rw [hnHeight]; omega)]
  cases hqcs : getCommitmentsFromBlock qe b (.next b.hash (indexOf genesis rest)) with
  | error fail => exact ⟨hidle.within, hcache⟩
  | ok qcs =>
    obtain ⟨hcollect, rfl, hone, -⟩ := collected_of_getCommitmentsFromBlock hqcs
    rw [hnHeight]
    refine (checkRequired_fold hknown hholds hcache rfl b.commitments).bind ?_ ?_
    · rintro s₁ ⟨hdb, hcache, hiff⟩
      refine (processCommitment_fold hknown hcache (by rw [hdb]) b.hash (pairwise_byType hone)).bind
        ?_ ?_
      · rintro s₂ ⟨hentries, hcache, hstorable⟩
        have hstorable := fun qc hqc => hstorable qc (mem_byType.mpr hqc)
        rw [hdb] at hentries
        refine ⟨?_, hcache.others othersKey_bestBlockUpgradeKey (read_write _ _ _), ?_,
          fun _ => ⟨hcollect, hone, hiff, fun qc hqc => (hstorable qc hqc).quorum⟩⟩
        · exact (hentries ▸ within_writeEntries hidle.within _).write _ _
        · rw [read_writeBestBlockUpgrade, hentries, read_writeEntries]
          exact (Holds.store hknown hheight hactive hone hstorable (fun qc => mem_byType)
            hholds).others othersKey_bestBlockUpgradeKey _
      · rintro r ⟨⟨entries, hentries⟩, hcache⟩
        rw [hentries, hdb]
        exact ⟨within_writeEntries hidle.within entries, hcache⟩
    · rintro r ⟨hdb, hcache⟩
      exact ⟨hdb ▸ hidle.within, hcache⟩

/-- Undoing the last block gives the store of the chain below. -/
theorem undoBlock_spec (hknown : (indexOf genesis rest).Known qe.env)
    (hheight : rest.length + 1 < 2 ^ 31)
    (hrule : qe.env.dip0003Height ≤ (rest.length + 1 : Nat) → BlockRule qe genesis rest b)
    (hwithin : e.Within qe.getSerializeSize s.evoDb) (hholds : Holds qe (b :: rest) s.evoDb.read)
    (hcache : CacheKept e.read s)
    (h : undoBlock qe b (.next b.hash (indexOf genesis rest)) s = some s') :
    e.Within qe.getSerializeSize s'.evoDb ∧ Holds qe rest s'.evoDb.read ∧
      CacheKept e.read s' := by
  have hnHeight : (next b.hash (indexOf genesis rest)).nHeight =
      (rest.length + 1 : Nat) := nHeight_indexOf genesis (b :: rest)
  unfold undoBlock at h
  cases hqcs : getCommitmentsFromBlock qe b (.next b.hash (indexOf genesis rest)) with
  | error fail =>
    rw [hqcs] at h
    cases h
  | ok qcs =>
    rw [hqcs] at h
    obtain rfl := some.inj h
    obtain ⟨-, rfl, hone, hpremature⟩ := collected_of_getCommitmentsFromBlock hqcs
    rw [hnHeight] at hpremature ⊢
    -- Either way the blocks below have what is left.
    have hundone : (∀ qc ∈ byType b.commitments, qc.llmqType < 256 ∧ qc.quorumHash < 2 ^ 256) ∧
        Holds qe rest (eraseAll s.evoDb.read
          ((byType b.commitments).flatMap (erasedKeys (rest.length + 1)))) := by
      by_cases hactive : qe.env.dip0003Height ≤ (rest.length + 1 : Nat)
      · have hrule := hrule hactive
        refine ⟨fun qc hqc => ?_, hholds.undo hknown hheight hactive hrule fun qc => mem_byType⟩
        have hstorable := storable_of_rule hrule hknown (mem_byType.mp hqc)
        exact ⟨hstorable.type_lt, hstorable.hash_lt hknown⟩
      · rw [hpremature (by omega)]
        exact ⟨fun _ hqc => (by cases hqc), (Holds.inactive_iff hactive).mp hholds⟩
    obtain ⟨hwithin, hread, hcache⟩ :=
      undoCommitment_fold hwithin hcache (rest.length + 1) hundone.1
    refine ⟨hwithin.write _ _, ?_, ?_⟩
    · rw [read_writeBestBlockUpgrade, hread]
      exact hundone.2.others othersKey_bestBlockUpgradeKey _
    · exact hcache.others othersKey_bestBlockUpgradeKey (read_write _ _ _)

end CQuorumBlockProcessor

end Absolute
