/-
The quorum merkle root is that of the chain.

Between two calls the root of quorums is kept under the base blocks of the quorums, so it is right as
long as a commitment is not replaced by another one for the same quorum in between.  A block that
brings a commitment and has its root compared asks for the quorums below it first, where the new one
is not among them, and then the hashes are those of the chain again.
-/
import AbsoluteCore.Proofs.Llmq.QuorumRuns

namespace Absolute

open BlockProcessorKeys CQuorumBlockProcessor List Function Option Except Fallible Prod CBlock

variable {qe : QuorumEnv} {genesis : Uint256} {chain above below rest : List CBlock}
  {s s' : CQuorumBlockProcessor} {e : CEvoDB EvoValue} {n : QuorumNode} {block b : CBlock}
  {r : CFinalCommitment × Uint256}

/-! ### Active quorums -/

/-- The entries of a map that has one for every type. -/
def perType {α : Type} (qe : QuorumEnv) (f : LLMQMiningParams → List α) : List (Nat × List α) :=
  qe.llmqs.map fun params => (params.type, f params)

variable (qe)

/-- The commitments of the active quorums at the end of a chain, the newest first. -/
def active (params : LLMQMiningParams) (chain : List CBlock) : List CFinalCommitment :=
  ((minedList qe params.type chain).take params.signingActiveQuorumCount).map Prod.snd

variable (chain)

def activeQuorums : List (Nat × List CBlockIndex) :=
  perType qe fun params => (active qe params chain).map (quorumIndex qe)

def activeHashes : List (Nat × List Uint256) :=
  perType qe fun params => (active qe params chain).map qe.commitmentHash

/-- The cache after a call for a block on top of the chain. -/
def chainCache : QuorumRootCache :=
  ⟨activeQuorums qe chain, activeHashes qe chain⟩

variable {chain}

variable {qe}

theorem exists_height_of_active {params : LLMQMiningParams} {qc : CFinalCommitment}
    (h : qc ∈ active qe params chain) :
    ∃ height, (height, qc) ∈ minedList qe params.type chain := by
  obtain ⟨p, hp, rfl⟩ := mem_map.mp h
  exact ⟨p.1, mem_of_mem_take hp⟩

/-- A processor that stores the commitments of the chain, within a transaction or outside. -/
structure AtWork (qe : QuorumEnv) (genesis : Uint256) (chain : List CBlock) (e : CEvoDB EvoValue)
    (s : CQuorumBlockProcessor) : Prop where
  within : e.Within qe.getSerializeSize s.evoDb
  known : (indexOf genesis chain).Known qe.env
  length : chain.length < 2 ^ 31
  rules : FollowsRules qe genesis chain
  holds : Holds qe chain s.evoDb.read

theorem QuorumNode.Inv.atWork (h : n.Inv qe) :
    AtWork qe n.genesis n.chain n.processor.evoDb n.processor :=
  ⟨h.idle.within, h.known, h.length, h.rules, h.holds⟩

theorem QuorumNode.Processed.atWork (h : n.Processed qe block s) :
    AtWork qe n.genesis (block :: n.chain) n.processor.evoDb s :=
  ⟨h.within, h.known, h.length, h.rules, h.holds⟩

namespace AtWork

theorem known_below (h : AtWork qe genesis (above ++ below) e s) :
    (indexOf genesis below).Known qe.env :=
  h.known.onChain (onChain_indexOf_append genesis above below)

theorem getMinedCommitmentsUntilBlock_eq (above)
    (h : AtWork qe genesis (above ++ below) e s) {llmqType : Nat} (htype : llmqType < 256)
    (maxCount : Nat) : s.getMinedCommitmentsUntilBlock llmqType (indexOf genesis below) maxCount =
      .ok (((minedList qe llmqType below).take maxCount).map fun p => quorumIndex qe p.2) :=
  Absolute.getMinedCommitmentsUntilBlock_eq h.within h.known_below h.rules.of_append h.length
    h.holds htype maxCount

/-- The quorums that are asked for are those of the chain below. -/
theorem getMinedAndActiveCommitmentsUntilBlock_eq (above)
    (h : AtWork qe genesis (above ++ below) e s) :
    s.getMinedAndActiveCommitmentsUntilBlock qe (indexOf genesis below) =
      .ok (activeQuorums qe below) := by
  refine mapM_ok ?_
  intro params hparams
  rw [h.getMinedCommitmentsUntilBlock_eq above params.type_lt, ok_bind]
  show ok (params.type, _) =
    ok (params.type, (active qe params below).map (quorumIndex qe))
  rw [active, List.map_map]
  rfl

end AtWork

variable {height llmqType : Nat} {qc : CFinalCommitment} {quorumHash : Uint256}

/-! ### Stored commitments -/

/-- What the chain has for a quorum is not changed by the blocks on top of it. -/
theorem minedFor_cons (h : FollowsRules qe genesis (b :: rest))
    (hr : minedFor qe llmqType quorumHash rest = some r) :
    minedFor qe llmqType quorumHash (b :: rest) = some r := by
  rw [minedFor]
  split
  · next qc hfilter =>
      obtain ⟨hmined, hhash⟩ := filter_eq_some_iff.mp hfilter
      have hhash : qc.quorumHash = quorumHash := by simpa using hhash
      obtain ⟨hactive, hcarried, -⟩ := mem_commitments_of_minedIn hmined
      obtain ⟨hmem, htype⟩ := mem_carried.mp hcarried
      have hnone := minedFor_of_rule (h.2 hactive) hmem
      rw [htype, hhash, hr] at hnone
      cases hnone
  · exact hr

theorem minedFor_of_mem_minedList (h : FollowsRules qe genesis chain)
    (hqc : (height, qc) ∈ minedList qe llmqType chain) :
    ∃ blockHash, minedFor qe llmqType qc.quorumHash chain = some (qc, blockHash) := by
  induction chain with
  | nil => cases hqc
  | cons b rest ih =>
    rw [minedList, mem_append, mem_toList, map_eq_some_iff] at hqc
    rcases hqc with ⟨qc', hmined, heq⟩ | hqc
    · obtain ⟨-, rfl⟩ := mk.inj heq
      refine ⟨b.hash, ?_⟩
      rw [minedFor, hmined, filter_some_pos (by simp)]
    · obtain ⟨blockHash, hr⟩ := ih h.1 hqc
      exact ⟨blockHash, minedFor_cons h hr⟩

theorem minedFor_append (h : FollowsRules qe genesis (above ++ below))
    (hr : minedFor qe llmqType quorumHash below = some r) :
    minedFor qe llmqType quorumHash (above ++ below) = some r := by
  induction above with
  | nil => exact hr
  | cons b above ih => exact minedFor_cons h (ih h.1)

theorem AtWork.quorumHash_spec (h : AtWork qe genesis (above ++ below) e s)
    (hqc : (height, qc) ∈ minedList qe llmqType below) :
    (quorumIndex qe qc).getBlockHash = qc.quorumHash ∧ qc.quorumHash < 2 ^ 256 := by
  obtain ⟨hindex, -, hhash⟩ := quorumIndex_spec h.known_below h.rules.of_append hqc
  exact ⟨hhash, (qe.blockHash_range _ _ hindex).2⟩

theorem CQuorumBlockProcessor.Holds.getMinedCommitment (h : Holds qe chain s.evoDb.read)
    (htype : llmqType < 256) (hhash : quorumHash < 2 ^ 256) :
    s.getMinedCommitment llmqType quorumHash = minedFor qe llmqType quorumHash chain := by
  rw [CQuorumBlockProcessor.getMinedCommitment, h.mined llmqType quorumHash htype hhash]
  cases minedFor qe llmqType quorumHash chain with
  | none => rfl
  | some r => rfl

namespace AtWork

/-- The hashes that are stored for the quorums are those of the chain below. -/
theorem hashQuorums_eq (above) (h : AtWork qe genesis (above ++ below) e s) :
    hashQuorums qe s (activeQuorums qe below) = .ok (activeHashes qe below) := by
  refine mapM_map_ok ?_
  intro params _
  have hinner : ((active qe params below).map (quorumIndex qe)).mapM (fun p2 => do
        let qc ← deref (s.getMinedCommitment params.type p2.getBlockHash)
        return qe.commitmentHash qc.1) =
      (.ok ((active qe params below).map qe.commitmentHash) : Except Fail _) := by
    refine mapM_map_ok ?_
    intro qc hqc
    obtain ⟨height, hmined⟩ := exists_height_of_active hqc
    obtain ⟨hhash, hrange⟩ := h.quorumHash_spec hmined
    obtain ⟨blockHash, hr⟩ := minedFor_of_mem_minedList h.rules.of_append hmined
    rw [hhash, h.holds.getMinedCommitment params.type_lt hrange, minedFor_append h.rules hr]
    rfl
  rw [hinner]
  rfl

end AtWork

variable {cache : QuorumRootCache}

/-! ### The cache -/

/-- The cached hashes are what is stored for the cached quorums, if it is stored for all of them. -/
structure RootCacheSound (qe : QuorumEnv) (s : CQuorumBlockProcessor) (cache : QuorumRootCache) :
    Prop where
  range : ∀ p ∈ cache.quorumsCached, p.1 < 256 ∧ ∀ q ∈ p.2, q.getBlockHash < 2 ^ 256
  hashes : ∀ qcHashes, hashQuorums qe s cache.quorumsCached = .ok qcHashes →
    cache.qcHashesCached = qcHashes

theorem RootCacheSound.mono (h : RootCacheSound qe s cache)
    (hfound : ∀ llmqType quorumHash r, llmqType < 256 → quorumHash < 2 ^ 256 →
      s'.getMinedCommitment llmqType quorumHash = some r →
      s.getMinedCommitment llmqType quorumHash = some r) : RootCacheSound qe s' cache where
  range := h.range
  hashes qcHashes hhash := by
    refine h.hashes qcHashes (mapM_ok_imp ?_ hhash)
    intro p hp r hr
    obtain ⟨htype, hrange⟩ := h.range p hp
    obtain ⟨v, hv, hr⟩ := bind_eq_ok.mp hr
    refine bind_eq_ok.mpr ⟨v, mapM_ok_imp ?_ hv, hr⟩
    intro q hq c hc
    obtain ⟨qc, hqc, hc⟩ := bind_eq_ok.mp hc
    rw [deref_eq_ok] at hqc
    exact bind_eq_ok.mpr
      ⟨qc, deref_eq_ok.mpr (hfound p.1 q.getBlockHash qc htype (hrange q hq) hqc), hc⟩

theorem RootCacheSound.of_read (h : RootCacheSound qe s cache)
    (hread : s'.evoDb.read = s.evoDb.read) : RootCacheSound qe s' cache := by
  refine h.mono fun llmqType quorumHash r _ _ hr => ?_
  rwa [getMinedCommitment, hread] at hr

theorem AtWork.chainCache_sound (above) (h : AtWork qe genesis (above ++ below) e s) :
    RootCacheSound qe s (chainCache qe below) where
  range p hp := by
    obtain ⟨params, -, rfl⟩ := mem_map.mp hp
    refine ⟨params.type_lt, ?_⟩
    intro q hq
    obtain ⟨qc, hqc, rfl⟩ := mem_map.mp hq
    obtain ⟨height, hmined⟩ := exists_height_of_active hqc
    obtain ⟨hhash, hrange⟩ := h.quorumHash_spec hmined
    rw [hhash]
    exact hrange
  hashes qcHashes hhash := ok.inj ((h.hashQuorums_eq above).symm.trans hhash)

def rootOnTop (qe : QuorumEnv) (chain : List CBlock) (block : CBlock) :
    Except Fail (QuorumRootCache × Uint256 × Bool) := do
  let qcHashes ← (block.vtx.drop 1).foldlM (addBlockCommitment qe) (activeHashes qe chain)
  return (chainCache qe chain, (rootOfHashes qe qcHashes).1, !(rootOfHashes qe qcHashes).2)

/-- With a sound cache the root is that of the chain. -/
theorem AtWork.calc_eq (above) (h : AtWork qe genesis (above ++ below) e s)
    (hcache : cache.quorumsCached = activeQuorums qe below →
      cache.qcHashesCached = activeHashes qe below) (block) :
    calcCbTxMerkleRootQuorums qe s cache block (indexOf genesis below) =
      rootOnTop qe below block := by
  unfold calcCbTxMerkleRootQuorums
  rw [h.getMinedAndActiveCommitmentsUntilBlock_eq above, ok_bind]
  by_cases heq : activeQuorums qe below = cache.quorumsCached
  · have hchain : cache = chainCache qe below := by
      rw [chainCache, heq, ← hcache heq.symm]
    rw [if_pos heq, hchain]
    rfl
  · rw [if_neg heq, h.hashQuorums_eq above]
    rfl

theorem RootCacheSound.eq_activeHashes (h : RootCacheSound qe s cache)
    (hwork : AtWork qe genesis chain e s) (heq : cache.quorumsCached = activeQuorums qe chain) :
    cache.qcHashesCached = activeHashes qe chain := by
  refine h.hashes _ ?_
  rw [heq]
  exact AtWork.hashQuorums_eq [] hwork

theorem emptyCache_eq_activeHashes (chain)
    (h : ({} : QuorumRootCache).quorumsCached = activeQuorums qe chain) :
    ({} : QuorumRootCache).qcHashesCached = activeHashes qe chain := by
  have hnil : qe.llmqs = [] := map_eq_nil_iff.mp h.symm
  rw [activeHashes, perType, hnil]
  rfl

/-! ### The commitments of the block -/

section Rotation

variable {f : LLMQMiningParams → List Uint256} {params : LLMQMiningParams}
variable {qcs : List CFinalCommitment}

theorem hashesOf_perType (hparams : params ∈ qe.llmqs) (f) :
    hashesOf params.type (perType qe f) = f params := by
  unfold hashesOf
  cases hfind : (perType qe f).find? fun p => p.1 = params.type with
  | none =>
    have hnone := find?_eq_none.mp hfind _ (mem_map_of_mem hparams)
    simp at hnone
  | some p =>
    obtain ⟨q, hq, rfl⟩ := mem_map.mp (mem_of_find?_eq_some hfind)
    have htype : q.type = params.type := by simpa using find?_some hfind
    rw [qe.eq_of_type hq hparams htype]
    rfl

theorem setHashes_map {llmqs : List LLMQMiningParams} (hparams : params ∈ llmqs)
    (hsorted : llmqs.Pairwise fun p q => p.type < q.type) (f : LLMQMiningParams → List Uint256)
    (v : List Uint256) :
    setHashes params.type v (llmqs.map fun q => (q.type, f q)) =
      llmqs.map fun q => (q.type, if q.type = params.type then v else f q) := by
  induction llmqs with
  | nil => cases hparams
  | cons q rest ih =>
    obtain ⟨hq, hrest⟩ := pairwise_cons.mp hsorted
    rw [map_cons, map_cons, setHashes]
    rcases mem_cons.mp hparams with rfl | hmem
    · rw [if_pos rfl, if_pos rfl]
      refine congrArg _ (map_congr_left ?_)
      intro r hr
      rw [if_neg (Nat.ne_of_gt (hq r hr))]
    · have hlt := hq params hmem
      rw [if_neg (Nat.ne_of_lt hlt), if_neg (Nat.lt_asymm hlt), ih hmem hrest,
        if_neg (Nat.ne_of_lt hlt)]

/-- The active set with a new hash: the last one goes if the set is full. -/
def rotate (params : LLMQMiningParams) (v : List Uint256) (hash : Uint256) : List Uint256 :=
  (if v.length = params.signingActiveQuorumCount then v.dropLast else v) ++ [hash]

theorem length_rotate {v : List Uint256} (h : v.length ≤ params.signingActiveQuorumCount)
    (hash : Uint256) : (rotate params v hash).length ≤ params.signingActiveQuorumCount := by
  have hpos := params.signingActiveQuorumCount_pos
  unfold rotate
  split_ifs with hfull
  · rw [length_append, length_dropLast, length_singleton]
    omega
  · rw [length_append, length_singleton]
    omega

/-- The active sets with the hash of a commitment. -/
def rotated (qe : QuorumEnv) (f : LLMQMiningParams → List Uint256) (qc : CFinalCommitment)
    (params : LLMQMiningParams) : List Uint256 :=
  if qc.llmqType = params.type ∧ qc.isNull = false then
    rotate params (f params) (qe.commitmentHash qc)
  else f params

theorem length_rotated (h : ∀ params, (f params).length ≤ params.signingActiveQuorumCount)
    (qc params) : (rotated qe f qc params).length ≤ params.signingActiveQuorumCount := by
  unfold rotated
  split_ifs
  · exact length_rotate (h params) _
  · exact h params

theorem rotated_of_ne (h : ∀ qc ∈ qcs, qc.llmqType ≠ params.type) :
    qcs.foldl (rotated qe) f params = f params := by
  induction qcs generalizing f with
  | nil => rfl
  | cons qc rest ih =>
    rw [foldl_cons, ih fun c hc => h c (mem_cons_of_mem _ hc)]
    exact if_neg fun hqc => h qc mem_cons_self hqc.1

/-- Of commitments of different types at most one changes a set. -/
theorem rotated_fold (hfresh : qcs.Pairwise fun a b => a.llmqType ≠ b.llmqType) :
    qcs.foldl (rotated qe) f params =
      match qcs.find? fun qc => qc.llmqType = params.type && !qc.isNull with
      | some qc => rotate params (f params) (qe.commitmentHash qc)
      | none => f params := by
  induction qcs generalizing f with
  | nil => rfl
  | cons qc rest ih =>
    obtain ⟨hqc, hrest⟩ := pairwise_cons.mp hfresh
    rw [foldl_cons]
    by_cases hmine : qc.llmqType = params.type ∧ qc.isNull = false
    · rw [rotated_of_ne fun c hc h => hqc c hc (hmine.1.trans h.symm), rotated, if_pos hmine,
        find?_cons_of_pos (by simp [hmine])]
    · rw [ih hrest, rotated, if_neg hmine, find?_cons_of_neg (by simpa using hmine)]

abbrev commitmentsOf (vtx : List CTransaction) : List CFinalCommitment :=
  (CBlock.mk 0 vtx).commitments

theorem commitmentsOf_append (vtx vtx' : List CTransaction) :
    commitmentsOf (vtx ++ vtx') = commitmentsOf vtx ++ commitmentsOf vtx' :=
  filterMap_append

theorem addBlockCommitment_eq {tx : CTransaction}
    (hlength : ∀ params, (f params).length ≤ params.signingActiveQuorumCount)
    (hversion : tx.nVersion ≠ 3 → tx.getCommitment = none)
    (hpayload : tx.nVersion = 3 → tx.nType = .quorumCommitment → ∃ p, tx.getCommitment = some p)
    (htypes : ∀ qc ∈ commitmentsOf [tx], ∃ params ∈ qe.llmqs, qc.llmqType = params.type) :
    addBlockCommitment qe (perType qe f) tx =
      .ok (perType qe ((commitmentsOf [tx]).foldl (rotated qe) f)) := by
  unfold addBlockCommitment
  split_ifs with htx
  · obtain ⟨p, hp⟩ := hpayload htx.1 htx.2
    have hone : commitmentsOf [tx] = [p.commitment] := by
      simp [commitments, htx.2, hp]
    rw [hone] at htypes ⊢
    rw [hp]
    dsimp only [foldl_cons, foldl_nil]
    split_ifs with hnull
    · have hsame : rotated qe f p.commitment = f := by
        funext params
        exact if_neg (by simp [hnull])
      rw [hsame]
    · obtain ⟨params, hparams, htype⟩ := htypes p.commitment mem_cons_self
      have hassert : assertThat ((rotate params (f params)
          (qe.commitmentHash p.commitment)).length ≤ params.signingActiveQuorumCount) = .ok () :=
        if_pos (length_rotate (hlength params) _)
      unfold rotate at hassert
      rw [QuorumEnv.params_eq_some.mpr ⟨hparams, htype⟩]
      dsimp only
      rw [hashesOf_perType hparams, hassert, ok_bind]
      refine congrArg ok ((setHashes_map hparams qe.llmqs_sorted f
        (rotate params (f params) _)).trans (map_congr_left ?_))
      intro q hq
      rw [rotated, htype]
      by_cases hqtype : q.type = params.type
      · obtain rfl := qe.eq_of_type hq hparams hqtype
        rw [if_pos hqtype, if_pos ⟨hqtype, Bool.eq_false_of_not_eq_true hnull⟩]
      · rw [if_neg hqtype, if_neg fun h => hqtype h.1.symm]
  · have hnone : commitmentsOf [tx] = [] := by
      by_cases h3 : tx.nVersion = 3
      · simp [commitments, show tx.nType ≠ .quorumCommitment from fun h => htx ⟨h3, h⟩]
      · simp [commitments, hversion h3]
    rw [hnone]
    rfl

/-- The loop rotates the active set of every type that the transactions have a commitment for. -/
theorem addBlockCommitment_fold {vtx : List CTransaction}
    (hlength : ∀ params, (f params).length ≤ params.signingActiveQuorumCount)
    (hversion : ∀ tx ∈ vtx, tx.nVersion ≠ 3 → tx.getCommitment = none)
    (hpayload : ∀ tx ∈ vtx, tx.nVersion = 3 → tx.nType = .quorumCommitment →
      ∃ p, tx.getCommitment = some p)
    (htypes : ∀ qc ∈ commitmentsOf vtx, ∃ params ∈ qe.llmqs, qc.llmqType = params.type) :
    vtx.foldlM (addBlockCommitment qe) (perType qe f) =
      .ok (perType qe ((commitmentsOf vtx).foldl (rotated qe) f)) := by
  induction vtx generalizing f with
  | nil => rfl
  | cons tx rest ih =>
    rw [← singleton_append, commitmentsOf_append] at htypes
    rw [foldlM_cons, addBlockCommitment_eq hlength (hversion tx mem_cons_self)
      (hpayload tx mem_cons_self) fun qc hqc => htypes qc (mem_append_left _ hqc), ok_bind,
      ih _ (fun tx htx => hversion tx (mem_cons_of_mem _ htx))
        (fun tx htx => hpayload tx (mem_cons_of_mem _ htx))
        (fun qc hqc => htypes qc (mem_append_right _ hqc)),
      ← foldl_append, ← commitmentsOf_append, singleton_append]
    exact foldlRecOn (motive := fun f => ∀ params, (f params).length ≤
      params.signingActiveQuorumCount) (commitmentsOf [tx]) (rotated qe) hlength
      fun _ h qc _ => length_rotated h qc

end Rotation

/-! ### The active quorums with the block -/

theorem take_of_rotate {α : Type} (l : List α) (count : Nat) :
    (if (l.take (count + 1)).length = count + 1 then (l.take (count + 1)).dropLast
      else l.take (count + 1)) = l.take count := by
  rw [length_take]
  split_ifs with hfull
  · rw [dropLast_eq_take, length_take, take_take]
    congr 1
    omega
  · rw [take_of_length_le (by omega), take_of_length_le (by omega)]

theorem rootOfHashes_congr {f g : LLMQMiningParams → List Uint256}
    (h : ∀ params, (f params).Perm (g params)) :
    rootOfHashes qe (perType qe f) = rootOfHashes qe (perType qe g) := by
  have hperm : ((perType qe f).flatMap snd).Perm ((perType qe g).flatMap snd) := by
    rw [perType, perType, flatMap_map, flatMap_map]
    exact List.Perm.flatMap_left _ fun params _ => h params
  have hsort : ((perType qe f).flatMap snd).insertionSort (· ≤ ·) =
      ((perType qe g).flatMap snd).insertionSort (· ≤ ·) :=
    (((perm_insertionSort _ _).trans hperm).trans
      (perm_insertionSort _ _).symm).eq_of_sortedLE sortedLE_insertionSort
      sortedLE_insertionSort
  rw [rootOfHashes, hsort, rootOfHashes]

theorem payload_of_collect {vtx : List CTransaction} {ret qcs : List CFinalCommitment}
    (h : vtx.foldlM collectBlockCommitment ret = .ok qcs) {tx : CTransaction} (htx : tx ∈ vtx)
    (htype : tx.nType = .quorumCommitment) : ∃ p, tx.getCommitment = some p := by
  obtain ⟨done, todo, rfl⟩ := append_of_mem htx
  rw [foldlM_append] at h
  obtain ⟨ret', -, h⟩ := bind_eq_ok.mp h
  obtain ⟨ret'', hstep, -⟩ := bind_eq_ok.mp h
  unfold collectBlockCommitment at hstep
  rw [if_pos htype] at hstep
  cases hp : tx.getCommitment with
  | none =>
    rw [hp] at hstep
    cases hstep
  | some p => exact ⟨p, rfl⟩

theorem commitmentsOf_drop {height : Nat} (h : Delivered qe height block) :
    commitmentsOf (block.vtx.drop 1) = block.commitments := by
  cases hvtx : block.vtx with
  | nil => simp [commitments, hvtx]
  | cons coinbase rest =>
    have hcoinbase := h.coinbase coinbase (by rw [hvtx]; rfl)
    simp [commitments, hvtx, hcoinbase]

/-- What the loop finds in a block. -/
structure Carries (qe : QuorumEnv) (height : Nat) (block : CBlock) : Prop where
  payload : ∀ tx ∈ block.vtx, tx.nVersion = 3 → tx.nType = .quorumCommitment →
    ∃ p, tx.getCommitment = some p
  types : ∀ qc ∈ block.commitments, ∃ params ∈ qe.llmqs, qc.llmqType = params.type
  fresh : block.commitments.Pairwise fun a b => a.llmqType ≠ b.llmqType
  mined : ∀ llmqType, minedIn qe llmqType height block =
    block.commitments.find? fun qc => qc.llmqType = llmqType && !qc.isNull

section

variable {block : CBlock} (hrules : FollowsRules qe genesis (block :: chain))
  (hdelivered : Delivered qe (chain.length + 1) block)

include hrules hdelivered

theorem carries_of_rules : Carries qe (chain.length + 1) block := by
  by_cases hactive : qe.env.dip0003Height ≤ (chain.length + 1 : Nat)
  · have hrule := hrules.2 hactive
    refine ⟨fun tx htx _ htype => payload_of_collect hrule.collected htx htype, ?_,
      hrule.oneOfEachType, ?_⟩
    · intro qc hqc
      obtain ⟨params, hparams, htype, -⟩ := hrule.quorum qc hqc
      exact ⟨params, hparams, htype⟩
    · intro llmqType
      rw [minedIn, if_neg (by omega), carried, find?_filter]
      simp
  · have hinactive : ((chain.length + 1 : Nat) : Int) < qe.env.dip0003Height := by omega
    have hnone : block.commitments = [] := by
      refine filterMap_eq_nil_iff.mpr ?_
      intro tx htx
      by_cases h3 : tx.nVersion = 3
      · exact if_neg (hdelivered.inactive hinactive tx htx h3)
      · simp [hdelivered.payload tx htx h3]
    refine ⟨fun tx htx h3 htype => absurd htype (hdelivered.inactive hinactive tx htx h3), ?_, ?_, ?_⟩
    · simp [hnone]
    · rw [hnone]
      exact .nil
    · intro llmqType
      rw [minedIn, if_pos hinactive, hnone]
      rfl

/-- The new set has the newest commitment in front, and the rotation has its hash at the end. -/
theorem rotated_perm (params : LLMQMiningParams) :
    (block.commitments.foldl (rotated qe)
      (fun params => (active qe params chain).map qe.commitmentHash) params).Perm
      ((active qe params (block :: chain)).map qe.commitmentHash) := by
  have hcarries := carries_of_rules hrules hdelivered
  rw [rotated_fold hcarries.fresh, ← hcarries.mined]
  unfold active
  rw [minedList]
  cases hqc : minedIn qe params.type (chain.length + 1) block with
  | none => exact .refl _
  | some qc =>
    obtain ⟨count, hcount⟩ := Nat.exists_eq_add_of_lt params.signingActiveQuorumCount_pos
    dsimp only [map_some, toList_some, singleton_append]
    rw [hcount, take_succ_cons, rotate, hcount, map_take, map_take, take_of_rotate]
    rw [map_cons, map_cons, map_take, map_take]
    exact perm_append_singleton _ _

/-- A block that follows the rules has the root of the chain with it. -/
theorem rootOnTop_eq :
    rootOnTop qe chain block = .ok (chainCache qe chain,
      (rootOfHashes qe (activeHashes qe (block :: chain))).1,
      !(rootOfHashes qe (activeHashes qe (block :: chain))).2) := by
  have hcarries := carries_of_rules hrules hdelivered
  have hdrop := commitmentsOf_drop hdelivered
  have hloop : (block.vtx.drop 1).foldlM (addBlockCommitment qe) (activeHashes qe chain) =
      .ok (perType qe (block.commitments.foldl (rotated qe)
        fun params => (active qe params chain).map qe.commitmentHash)) := by
    rw [← hdrop]
    refine addBlockCommitment_fold ?_ (fun tx htx => hdelivered.payload tx (mem_of_mem_drop htx))
      (fun tx htx => hcarries.payload tx (mem_of_mem_drop htx)) ?_
    · intro params
      rw [active, length_map, length_map, length_take]
      exact Nat.min_le_left _ _
    · rw [hdrop]
      exact hcarries.types
  rw [rootOnTop, hloop, ok_bind, rootOfHashes_congr (rotated_perm hrules hdelivered)]
  rfl

end

/-! ### Runs -/

theorem minedFor_cons_of_null {llmqType : Nat}
    {quorumHash : Uint256} (h : ∀ qc ∈ b.commitments, qc.isNull = true) :
    minedFor qe llmqType quorumHash (b :: rest) = minedFor qe llmqType quorumHash rest := by
  have hnone : minedIn qe llmqType (rest.length + 1) b = none := by
    cases hmined : minedIn qe llmqType (rest.length + 1) b with
    | none => rfl
    | some qc =>
      obtain ⟨-, hcarried, hnull⟩ := mem_commitments_of_minedIn hmined
      rw [h qc (mem_carried.mp hcarried).1] at hnull
      cases hnull
  rw [minedFor, hnone]
  rfl

namespace QuorumNode

variable {n n' : QuorumNode} {block : CBlock} {fScriptChecks : Bool}
  {others : List (CDataStream × Option EvoValue)} {tr : List (QuorumNode × NodeOp × QuorumNode)}

structure RootInv (qe : QuorumEnv) (n : QuorumNode) : Prop where
  inv : n.Inv qe
  cache : RootCacheSound qe n.processor n.cache

theorem RootInv.calc_eq (h : n.RootInv qe) (block) :
    calcCbTxMerkleRootQuorums qe n.processor n.cache block n.tip = rootOnTop qe n.chain block :=
  AtWork.calc_eq [] h.inv.atWork (h.cache.eq_activeHashes h.inv.atWork) block

theorem RootInv.calc_processed (h : n.RootInv qe) (hs : n.Processed qe block s) :
    calcCbTxMerkleRootQuorums qe s n.cache block n.tip = rootOnTop qe n.chain block :=
  AtWork.calc_eq [block] hs.atWork (h.cache.eq_activeHashes h.inv.atWork) block

theorem cache_of_rootOnTop {r : QuorumRootCache × Uint256 × Bool}
    (h : rootOnTop qe chain block = .ok r) : r.1 = chainCache qe chain := by
  obtain ⟨qcHashes, -, hr⟩ := bind_eq_ok.mp h
  rw [← pure_eq_ok.mp hr]

/-- The check leaves the cache as it was, or as it is for the chain below the block. -/
theorem RootInv.checkRoots_cases (h : n.RootInv qe) (hs : n.Processed qe block s)
    {ok : Bool} {cache : QuorumRootCache}
    (hcheck : checkRoots qe fScriptChecks s n.cache block n.tip = .ok (cache, ok)) :
    cache = chainCache qe n.chain ∨
      (cache = n.cache ∧ block.checksQuorumRoot fScriptChecks = false) := by
  unfold checkRoots checkCbTxMerkleRootQuorums at hcheck
  unfold checksQuorumRoot
  cases fScriptChecks with
  | false => exact .inr ⟨(Prod.mk.inj (Except.ok.inj hcheck)).1.symm, rfl⟩
  | true =>
    rw [if_pos rfl] at hcheck
    cases hvtx : block.vtx with
    | nil =>
      rw [hvtx] at hcheck
      cases hcheck
    | cons coinbase rest =>
      rw [hvtx] at hcheck
      dsimp only at hcheck
      split_ifs at hcheck with htype
      · refine .inr ⟨(Prod.mk.inj (Except.ok.inj hcheck)).1.symm, ?_⟩
        simp [htype]
      · cases hcbTx : coinbase.getCbTx with
        | none =>
          rw [hcbTx] at hcheck
          exact .inr ⟨(Prod.mk.inj (Except.ok.inj hcheck)).1.symm, by simp [hcbTx]⟩
        | some cbTx =>
          rw [hcbTx] at hcheck
          dsimp only at hcheck
          split_ifs at hcheck with hversion
          · rw [h.calc_processed hs] at hcheck
            obtain ⟨r, hr, hcheck⟩ := bind_eq_ok.mp hcheck
            obtain ⟨rfl, -⟩ := Prod.mk.inj (pure_eq_ok.mp hcheck)
            exact .inl (cache_of_rootOnTop hr)
          · refine .inr ⟨(Prod.mk.inj (Except.ok.inj hcheck)).1.symm, ?_⟩
            simp [hcbTx, hversion]

theorem RootInv.connect (h : n.RootInv qe) {verdict : Verdict}
    (hcompared : n.RootCompared (.connect block others fScriptChecks verdict) n')
    (hpossible : n.Possible qe (.connect block others fScriptChecks verdict))
    (hconnect : n.connect qe block others fScriptChecks verdict = .ok n') : n'.RootInv qe := by
  obtain ⟨hinv, hgenesis, hcases⟩ := h.inv.connect_cases hpossible hconnect
  refine ⟨hinv, ?_⟩
  rcases hcases with ⟨-, hdb, hcache⟩ | ⟨s, ok, hs, hcheck, hcases⟩
  · rw [hcache]
    exact h.cache.of_read (by rw [hdb])
  rcases hcases with ⟨-, hdb⟩ | ⟨hchain, -⟩
  · refine RootCacheSound.of_read ?_ (congrArg _ hdb)
    rcases h.checkRoots_cases hs hcheck with hcache | ⟨hcache, -⟩
    · rw [hcache]
      exact AtWork.chainCache_sound [] h.inv.atWork
    · rw [hcache]
      exact h.cache
  · have hwork := hinv.atWork
    rw [hchain, hgenesis] at hwork
    rcases h.checkRoots_cases hs hcheck with hcache | ⟨hcache, hunchecked⟩
    · rw [hcache]
      exact AtWork.chainCache_sound [block] hwork
    · rw [hcache]
      refine h.cache.mono ?_
      intro llmqType quorumHash r htype hhash hr
      have hnull : ∀ qc ∈ block.commitments, qc.isNull = true := by
        intro qc hqc
        by_contra hne
        have hchecked := hcompared _ _ _ _ rfl hchain ⟨qc, hqc, Bool.eq_false_of_not_eq_true hne⟩
        rw [hunchecked] at hchecked
        cases hchecked
      rw [hwork.holds.getMinedCommitment htype hhash, minedFor_cons_of_null hnull] at hr
      rw [h.inv.holds.getMinedCommitment htype hhash, hr]

theorem RootInv.disconnect (h : n.RootInv qe)
    (hothers : ∀ w ∈ others, OthersKey w.1) (hdisconnect : n.disconnect qe others = .ok n') :
    n'.RootInv qe := by
  obtain ⟨hinv, hgenesis, hcache, hcases⟩ := h.inv.disconnect_cases hothers hdisconnect
  refine ⟨hinv, ?_⟩
  rw [hcache]
  rcases hcases with ⟨-, hdb⟩ | ⟨block, hchain⟩
  · exact h.cache.of_read (by rw [hdb])
  · refine h.cache.mono fun llmqType quorumHash r htype hhash hr => ?_
    rw [hinv.holds.getMinedCommitment htype hhash] at hr
    rw [h.inv.holds.getMinedCommitment htype hhash, hchain]
    have hrules := h.inv.rules
    rw [hchain] at hrules
    exact minedFor_cons hrules hr

theorem RootInv.step (h : n.RootInv qe) {op : NodeOp} (hcompared : n.RootCompared op n')
    (hstep : Step qe n op n') : n'.RootInv qe := by
  have hinv := h.inv.step hstep
  obtain ⟨hpossible, happly⟩ := hstep
  cases op with
  | connect block others fScriptChecks verdict => exact h.connect hcompared hpossible happly
  | disconnect others => exact h.disconnect hpossible happly
  | flush =>
    obtain ⟨-, -, hcache, -, hread⟩ := h.inv.flush happly
    refine ⟨hinv, ?_⟩
    rw [hcache]
    exact h.cache.of_read hread
  | hasMinedCommitment llmqType quorumHash =>
    obtain rfl := ok.inj happly
    exact ⟨hinv, h.cache.of_read
      (by rw [(h.inv.hasMinedCommitment hpossible.1 hpossible.2).2])⟩
  | createNewBlock block =>
    obtain ⟨r, hr, happly⟩ := bind_eq_ok.mp happly
    obtain rfl := ok.inj happly
    rw [h.calc_eq] at hr
    refine ⟨hinv, ?_⟩
    rw [cache_of_rootOnTop hr]
    exact AtWork.chainCache_sound [] h.inv.atWork

theorem Starts.rootInv (h : n.Starts qe) : n.RootInv qe := by
  refine ⟨h.inv, ?_⟩
  rw [h.cache]
  refine ⟨?_, ?_⟩
  · intro p hp
    cases hp
  · intro qcHashes hhash
    exact ok.inj hhash

theorem RootInv.run {n₀ : QuorumNode} (hstart : n₀.Starts qe) (hrun : Lts.Run (Step qe) n₀ tr n)
    (hcompared : ∀ x ∈ tr, x.1.RootCompared x.2.1 x.2.2) : n.RootInv qe :=
  ((hrun.and_mem (P := fun x => x.1.RootCompared x.2.1 x.2.2) hcompared).invariant (RootInv qe)
    (fun _ _ _ h hstep => h.step hstep.2 hstep.1) hstart.rootInv).1

/-! ### The root of the chain with the block -/

/-- **The root of quorums.**  In every run in which the blocks that bring commitments have their
quorum roots compared, a block that the processor accepts has the root of the active quorums after
it, both for a miner and in the validation of the block; no assertion fails. -/
theorem run_root_eq {n₀ n : QuorumNode} {tr : List (QuorumNode × NodeOp × QuorumNode)}
    (hstart : n₀.Starts qe) (hrun : Lts.Run (Step qe) n₀ tr n)
    (hcompared : ∀ x ∈ tr, x.1.RootCompared x.2.1 x.2.2) {block : CBlock}
    (hindex : qe.env.mapBlockIndex block.hash = some (.next block.hash n.tip))
    (hlength : n.chain.length + 1 < 2 ^ 31) (hdelivered : Delivered qe (n.chain.length + 1) block)
    {s : CQuorumBlockProcessor}
    (hprocess : n.processor.processBlock qe n.tip block (.next block.hash n.tip) = .ok s) :
    ∃ quorums qcHashes cache,
      s.getMinedAndActiveCommitmentsUntilBlock qe (.next block.hash n.tip) = .ok quorums ∧
      hashQuorums qe s quorums = .ok qcHashes ∧
      calcCbTxMerkleRootQuorums qe n.processor n.cache block n.tip =
        .ok (cache, (rootOfHashes qe qcHashes).1, !(rootOfHashes qe qcHashes).2) ∧
      calcCbTxMerkleRootQuorums qe s n.cache block n.tip =
        .ok (cache, (rootOfHashes qe qcHashes).1, !(rootOfHashes qe qcHashes).2) := by
  have hinv := RootInv.run hstart hrun hcompared
  have hs := hinv.inv.processed hindex hlength hprocess
  have hroot := rootOnTop_eq hs.rules hdelivered
  refine ⟨activeQuorums qe (block :: n.chain), activeHashes qe (block :: n.chain), _, ?_, ?_,
    (hinv.calc_eq block).trans hroot, (hinv.calc_processed hs).trans hroot⟩
  · exact AtWork.getMinedAndActiveCommitmentsUntilBlock_eq [] hs.atWork
  · exact AtWork.hashQuorums_eq [] hs.atWork

/-- A block above the fork that has no commitment. -/
def lastBlock : CBlock := ⟨3, [sampleTx .coinbase (.cbTx ⟨2, 2, 0, 9⟩)]⟩

theorem lastBlock_delivered : Delivered (sampleQuorums 1) 2 lastBlock where
  coinbase tx htx := by
    obtain rfl := some.inj htx
    decide
  payload tx htx hversion := by
    obtain rfl := mem_singleton.mp htx
    rfl
  inactive h := absurd h (by decide)

theorem reorg_compared (h : tr.map (fun x => x.2.1) = reorg true) :
    ∀ x ∈ tr, x.1.RootCompared x.2.1 x.2.2 := by
  intro x hx block others fScriptChecks verdict hop _ _
  have hmem : x.2.1 ∈ reorg true := h ▸ mem_map_of_mem hx
  rw [hop] at hmem
  simp only [reorg, mem_cons, not_mem_nil, or_false, reduceCtorEq, false_or,
    NodeOp.connect.injEq] at hmem
  rcases hmem with ⟨rfl, -, rfl, -⟩ | ⟨rfl, -, rfl, -⟩
  · rfl
  · rfl

theorem run_root_eq_reorg :
    ∃ tr n s quorums qcHashes cache, Lts.Run (Step (sampleQuorums 1)) freshNode tr n ∧
      tr.map (fun x => x.2.1) = reorg true ∧
      n.processor.processBlock (sampleQuorums 1) n.tip lastBlock (.next 3 n.tip) = .ok s ∧
      s.getMinedAndActiveCommitmentsUntilBlock (sampleQuorums 1) (.next 3 n.tip) = .ok quorums ∧
      hashQuorums (sampleQuorums 1) s quorums = .ok qcHashes ∧
      calcCbTxMerkleRootQuorums (sampleQuorums 1) n.processor n.cache lastBlock n.tip =
        .ok (cache, (rootOfHashes (sampleQuorums 1) qcHashes).1,
          !(rootOfHashes (sampleQuorums 1) qcHashes).2) := by
  have hreplay : replay (sampleQuorums 1) (reorg true) freshNode (fun n =>
      n.chain = [commitmentBlock 2 9] && decide (n.genesis = 10) &&
        (n.processor.processBlock (sampleQuorums 1) n.tip lastBlock
          (.next 3 n.tip)).toOption.any fun _ => true) = true := by decide +kernel
  obtain ⟨tr, n, hrun, hlabels, htest⟩ := exists_run_of_replay hreplay
  rw [Bool.and_eq_true, Bool.and_eq_true, decide_eq_true_eq, decide_eq_true_eq,
    any_toOption] at htest
  obtain ⟨⟨hchain, hgenesis⟩, s, hprocess, -⟩ := htest
  have htip : n.tip = .next 2 (.genesis 10) := by
    rw [tip, hchain, hgenesis]
    rfl
  have hlength : n.chain.length = 1 := by
    rw [hchain]
    rfl
  obtain ⟨quorums, qcHashes, cache, hquorums, hhashes, hcalc, -⟩ :=
    run_root_eq (freshNode_starts 1) hrun (reorg_compared hlabels) (by rw [htip]; rfl)
      (by rw [hlength]; decide) (by rw [hlength]; exact lastBlock_delivered) hprocess
  exact ⟨tr, n, s, quorums, qcHashes, cache, hrun, hlabels, hprocess, hquorums, hhashes, hcalc⟩

/-- Where the root of the second block is not compared, the cache still has the first commitment, and
the root for the next block is wrong. -/
theorem run_root_stale :
    ∃ tr n s quorums qcHashes cache, freshNode.Starts (sampleQuorums 1) ∧
      Lts.Run (Step (sampleQuorums 1)) freshNode tr n ∧
      tr.map (fun x => x.2.1) = reorg false ∧ Delivered (sampleQuorums 1) 2 lastBlock ∧
      n.processor.processBlock (sampleQuorums 1) n.tip lastBlock (.next 3 n.tip) = .ok s ∧
      s.getMinedAndActiveCommitmentsUntilBlock (sampleQuorums 1) (.next 3 n.tip) = .ok quorums ∧
      hashQuorums (sampleQuorums 1) s quorums = .ok qcHashes ∧
      rootOfHashes (sampleQuorums 1) qcHashes = (9, false) ∧
      calcCbTxMerkleRootQuorums (sampleQuorums 1) n.processor n.cache lastBlock n.tip =
        .ok (cache, 7, true) := by
  have hreplay : replay (sampleQuorums 1) (reorg false) freshNode (fun n =>
      (n.processor.processBlock (sampleQuorums 1) n.tip lastBlock
        (.next 3 n.tip)).toOption.any fun s =>
      (s.getMinedAndActiveCommitmentsUntilBlock (sampleQuorums 1)
        (.next 3 n.tip)).toOption.any fun quorums =>
      (hashQuorums (sampleQuorums 1) s quorums).toOption.any fun qcHashes =>
      decide (rootOfHashes (sampleQuorums 1) qcHashes = (9, false)) &&
      (calcCbTxMerkleRootQuorums (sampleQuorums 1) n.processor n.cache lastBlock
        n.tip).toOption.any fun r => decide (r.2 = (7, true))) = true := by decide +kernel
  obtain ⟨tr, n, hrun, hlabels, htest⟩ := exists_run_of_replay hreplay
  obtain ⟨s, hprocess, htest⟩ := any_toOption.mp htest
  obtain ⟨quorums, hquorums, htest⟩ := any_toOption.mp htest
  obtain ⟨qcHashes, hhashes, htest⟩ := any_toOption.mp htest
  obtain ⟨hroot, htest⟩ := Bool.and_eq_true_iff.mp htest
  obtain ⟨r, hcalc, hr⟩ := any_toOption.mp htest
  refine ⟨tr, n, s, quorums, qcHashes, r.1, freshNode_starts 1, hrun, hlabels, lastBlock_delivered,
    hprocess, hquorums, hhashes, of_decide_eq_true hroot, ?_⟩
  rw [hcalc, ← of_decide_eq_true hr]

/-! ### The cache and the empty cache -/

/-- **The cache cannot be seen.**  In such a run every call gives what it gives with an empty cache:
that of a miner, and that in the validation of a block which the processor has accepted. -/
theorem run_cache_transparent {n₀ n : QuorumNode} {tr : List (QuorumNode × NodeOp × QuorumNode)}
    (hstart : n₀.Starts qe) (hrun : Lts.Run (Step qe) n₀ tr n)
    (hcompared : ∀ x ∈ tr, x.1.RootCompared x.2.1 x.2.2) (block : CBlock) :
    calcCbTxMerkleRootQuorums qe n.processor n.cache block n.tip =
        calcCbTxMerkleRootQuorums qe n.processor {} block n.tip ∧
      ∀ others fScriptChecks verdict s,
        n.Possible qe (.connect block others fScriptChecks verdict) →
        n.processor.processBlock qe n.tip block (.next block.hash n.tip) = .ok s →
        calcCbTxMerkleRootQuorums qe { s with evoDb := writeOthers qe others s.evoDb } n.cache block
            n.tip =
          calcCbTxMerkleRootQuorums qe { s with evoDb := writeOthers qe others s.evoDb } {} block
            n.tip := by
  have hinv := RootInv.run hstart hrun hcompared
  have hempty := @emptyCache_eq_activeHashes qe n.chain
  refine ⟨?_, ?_⟩
  · rw [hinv.calc_eq]
    exact (AtWork.calc_eq [] hinv.inv.atWork hempty block).symm
  · intro others fScriptChecks verdict s ⟨hindex, hlength, hothers⟩ hprocess
    have hs := (hinv.inv.processed hindex hlength hprocess).writeOthers hothers
    rw [hinv.calc_processed hs]
    exact (AtWork.calc_eq [block] hs.atWork hempty block).symm

theorem run_cache_transparent_reorg :
    ∃ tr n, Lts.Run (Step (sampleQuorums 1)) freshNode tr n ∧
      tr.map (fun x => x.2.1) = reorg true ∧
      calcCbTxMerkleRootQuorums (sampleQuorums 1) n.processor n.cache lastBlock n.tip =
        calcCbTxMerkleRootQuorums (sampleQuorums 1) n.processor {} lastBlock n.tip := by
  obtain ⟨tr, n, hrun, hlabels, -⟩ := reorg_run
  exact ⟨tr, n, hrun, hlabels,
    (run_cache_transparent (freshNode_starts 1) hrun (reorg_compared hlabels) lastBlock).1⟩

/-- A commitment that was replaced in a block whose root is not compared stays in the cache. -/
theorem run_cache_stale :
    ∃ tr n cache cache', freshNode.Starts (sampleQuorums 1) ∧
      Lts.Run (Step (sampleQuorums 1)) freshNode tr n ∧
      tr.map (fun x => x.2.1) = reorg false ∧
      calcCbTxMerkleRootQuorums (sampleQuorums 1) n.processor n.cache lastBlock n.tip =
        .ok (cache, 7, true) ∧
      calcCbTxMerkleRootQuorums (sampleQuorums 1) n.processor {} lastBlock n.tip =
        .ok (cache', 9, true) := by
  have hreplay : replay (sampleQuorums 1) (reorg false) freshNode (fun n =>
      ((calcCbTxMerkleRootQuorums (sampleQuorums 1) n.processor n.cache lastBlock
        n.tip).toOption.any fun r => decide (r.2 = (7, true))) &&
      (calcCbTxMerkleRootQuorums (sampleQuorums 1) n.processor {} lastBlock
        n.tip).toOption.any fun r => decide (r.2 = (9, true))) = true := by decide +kernel
  obtain ⟨tr, n, hrun, hlabels, htest⟩ := exists_run_of_replay hreplay
  obtain ⟨hcached, hempty⟩ := Bool.and_eq_true_iff.mp htest
  obtain ⟨r, hcalc, hr⟩ := any_toOption.mp hcached
  obtain ⟨r', hcalc', hr'⟩ := any_toOption.mp hempty
  refine ⟨tr, n, r.1, r'.1, freshNode_starts 1, hrun, hlabels, ?_, ?_⟩
  · rw [hcalc, ← of_decide_eq_true hr]
  · rw [hcalc', ← of_decide_eq_true hr']

end QuorumNode

end Absolute
