/-
What the quorum manager keeps, along a run.

A quorum that is kept is looked at only while a commitment is mined for it, so it is right unless
another block has mined another commitment for the same quorum meanwhile.  The quorums of a scan are
kept under the block where it started.  They depend on the chain up to that block alone, which is the
same whenever the block is on the active chain.
-/
import AbsoluteCore.Proofs.Evo.CbTx
import AbsoluteCore.Spec.QuorumManager

namespace Absolute

open CQuorumBlockProcessor List Option Except Fallible LruCache Lts.Run

variable {qe : QuorumEnv} {blocks : Uint256 → CBlock} {n : QuorumNode} {m : CQuorumManager}

/-! ### Single quorums -/

namespace CQuorumManager

variable {entries : List (Nat × CFinalCommitment)} {llmqType : Nat} {quorumHash : Uint256}
  {quorums : List CQuorum} {r : CFinalCommitment × Uint256}

/-- The quorum that is built from a commitment and the block that mined it. -/
def built (qe : QuorumEnv) (llmqType : Nat) (quorumHash : Uint256) (r : CFinalCommitment × Uint256) :
    Option CQuorum := do
  let params ← qe.params llmqType
  let pindexQuorum ← qe.env.mapBlockIndex quorumHash
  (buildQuorumFromCommitment qe params r.1 pindexQuorum r.2).toOption

def quorumOf (qe : QuorumEnv) (llmqType : Nat) (chain : List CBlock) (quorumHash : Uint256) :
    Option CQuorum :=
  (minedFor qe llmqType quorumHash chain).bind (built qe llmqType quorumHash)

/-- The node, and a manager whose quorums are those of the chain where it has them. -/
structure Serves (qe : QuorumEnv) (n : QuorumNode) (m : CQuorumManager) : Prop where
  node : n.Inv qe
  kept : ∀ llmqType quorumHash quorum, m.quorumsCache (llmqType, quorumHash) = some quorum →
    built qe llmqType quorumHash (quorum.qc, quorum.minedBlockHash) = some quorum ∧
      ∀ r, minedFor qe llmqType quorumHash n.chain = some r →
        (quorum.qc, quorum.minedBlockHash) = r

theorem exists_of_minedFor_inv (h : n.Inv qe)
    (hr : minedFor qe llmqType quorumHash n.chain = some r) :
    r.1.llmqType = llmqType ∧ r.1.quorumHash = quorumHash ∧
      ∃ params pindexQuorum, params ∈ qe.llmqs ∧ params.type = llmqType ∧
        qe.env.mapBlockIndex quorumHash = some pindexQuorum ∧
        pindexQuorum.getBlockHash = quorumHash := by
  obtain ⟨height, b, hat, hmined, hhash, -⟩ := exists_of_minedFor hr
  obtain ⟨hactive, hcarried, -⟩ := mem_commitments_of_minedIn hmined
  obtain ⟨hmem, htype⟩ := mem_carried.mp hcarried
  obtain ⟨params, hparams, hptype, base, hbase, hbaseHash⟩ := h.rules.exists_quorum hat hactive hmem
  have hknown : base.Known qe.env :=
    h.known.onChain (CBlockIndex.onChain_of_getAncestor hbase)
  refine ⟨htype, hhash, params, base, hparams, hptype.symm.trans htype, ?_, ?_⟩
  · rw [← hhash, hbaseHash]
    exact hknown.mapBlockIndex
  · rw [← hbaseHash, hhash]

/-- A commitment of the chain has its quorum. -/
theorem exists_built (h : n.Inv qe) (hr : minedFor qe llmqType quorumHash n.chain = some r) :
    ∃ params pindexQuorum quorum, qe.params llmqType = some params ∧
      qe.env.mapBlockIndex quorumHash = some pindexQuorum ∧
      buildQuorumFromCommitment qe params r.1 pindexQuorum r.2 = .ok quorum ∧
      built qe llmqType quorumHash r = some quorum ∧ (quorum.qc, quorum.minedBlockHash) = r := by
  obtain ⟨htype, hhash, params, pindex, hparams, rfl, hindex, rfl⟩ := exists_of_minedFor_inv h hr
  have hlookup := QuorumEnv.params_eq_some.mpr ⟨hparams, rfl⟩
  have hconsensus : qe.consensus.llmqs params.type = some params.toLLMQParams :=
    congrArg (Option.map _) hlookup
  obtain ⟨quorum, hbuild, hquorum⟩ : ∃ quorum,
      buildQuorumFromCommitment qe params r.1 pindex r.2 = .ok quorum ∧
        (quorum.qc, quorum.minedBlockHash) = r := by
    unfold buildQuorumFromCommitment getAllQuorumMembers
    rw [assertThat, if_pos hhash, htype, hconsensus]
    exact ⟨_, rfl, rfl⟩
  refine ⟨params, pindex, quorum, hlookup, hindex, hbuild, ?_, hquorum⟩
  simp only [built, hlookup, hindex]
  exact congrArg Except.toOption hbuild

theorem map_quorumOf (h : n.Inv qe) :
    (quorumOf qe llmqType n.chain quorumHash).map (fun quorum => (quorum.qc, quorum.minedBlockHash)) =
      minedFor qe llmqType quorumHash n.chain := by
  unfold quorumOf
  cases hr : minedFor qe llmqType quorumHash n.chain with
  | none => rfl
  | some r =>
    obtain ⟨-, -, quorum, -, -, -, hbuilt, hquorum⟩ := exists_built h hr
    rw [bind_some, hbuilt, map_some, hquorum]

/-- The answer to a query for a quorum, and what is left behind. -/
structure Answers (qe : QuorumEnv) (n : QuorumNode) (m : CQuorumManager) (llmqType : Nat)
    (quorumHash : Uint256) (ret : Option CQuorum) (s : CQuorumBlockProcessor)
    (m' : CQuorumManager) : Prop where
  answer : ret = quorumOf qe llmqType n.chain quorumHash
  evoDb : s.evoDb = n.processor.evoDb
  serves : Serves qe { n with processor := s } m'
  scan : m'.scanQuorumsCache = m.scanQuorumsCache

theorem Serves.getQuorumAt (h : Serves qe n m) (htype : llmqType < 256) {pindexQuorum : CBlockIndex}
    (hindex : qe.env.mapBlockIndex pindexQuorum.getBlockHash = some pindexQuorum) :
    ∃ ret s m', m.getQuorumAt qe llmqType pindexQuorum n.processor = .ok (ret, s, m') ∧
      Answers qe n m llmqType pindexQuorum.getBlockHash ret s m' := by
  have hrange := (qe.blockHash_range _ _ hindex).2
  obtain ⟨hinv, hdb⟩ := h.node.hasMinedCommitment htype hrange
  have hhas : (n.processor.hasMinedCommitment llmqType pindexQuorum.getBlockHash).1 =
      (minedFor qe llmqType pindexQuorum.getBlockHash n.chain).isSome := by
    rw [(hasMinedCommitment_spec h.node.cache htype hrange rfl).1,
      h.node.holds.mined llmqType _ htype hrange, isSome_map]
  unfold CQuorumManager.getQuorumAt
  dsimp only
  rw [hhas]
  cases hr : minedFor qe llmqType pindexQuorum.getBlockHash n.chain with
  | none => exact ⟨none, _, m, rfl, ⟨by rw [quorumOf, hr]; rfl, hdb, ⟨hinv, h.kept⟩, rfl⟩⟩
  | some r =>
    obtain ⟨params, pindex, quorum, hparams, hpindex, hbuild, hbuilt, hquorum⟩ :=
      exists_built h.node hr
    have hanswer : some quorum = quorumOf qe llmqType n.chain pindexQuorum.getBlockHash := by
      rw [quorumOf, hr, bind_some, hbuilt]
    cases hcached : m.quorumsCache (llmqType, pindexQuorum.getBlockHash) with
    | some kept =>
      obtain ⟨hkept, hcurrent⟩ := h.kept _ _ kept hcached
      rw [hcurrent r hr, hbuilt] at hkept
      exact ⟨some kept, _, m, rfl, ⟨hkept ▸ hanswer, hdb, ⟨hinv, h.kept⟩, rfl⟩⟩
    | none =>
      obtain rfl := some.inj (hindex.symm.trans hpindex)
      rw [hinv.holds.getMinedCommitment htype hrange]
      rw [hr]
      dsimp only
      rw [deref_eq_ok.mpr hparams, ok_bind, hbuild, ok_bind]
      refine ⟨some quorum, _, _, rfl, ⟨hanswer, hdb, ⟨hinv, fun t hash q hq => ?_⟩, rfl⟩⟩
      dsimp only at hq
      rw [emplace_apply] at hq
      split_ifs at hq with hkey
      · obtain ⟨rfl, rfl⟩ := Prod.mk.inj hkey
        rw [hcached, getD_none] at hq
        obtain rfl := some.inj hq
        rw [hquorum]
        exact ⟨hbuilt, fun r' hr' => some.inj (hr.symm.trans hr')⟩
      · exact h.kept t hash q hq

theorem Serves.getQuorum (h : Serves qe n m) (htype : llmqType < 256) (quorumHash)
    (hindex : ∀ pindex, qe.env.mapBlockIndex quorumHash = some pindex →
      pindex.getBlockHash = quorumHash) :
    ∃ ret s m', m.getQuorum qe llmqType quorumHash n.processor = .ok (ret, s, m') ∧
      Answers qe n m llmqType quorumHash ret s m' := by
  unfold CQuorumManager.getQuorum
  cases hpindex : qe.env.mapBlockIndex quorumHash with
  | none =>
    refine ⟨none, _, m, rfl, ⟨?_, rfl, h, rfl⟩⟩
    rw [quorumOf, eq_comm, bind_eq_none_iff]
    intro r hr
    simp [built, hpindex]
  | some pindex =>
    obtain rfl := hindex pindex hpindex
    exact h.getQuorumAt htype hpindex

/-! ### Scans -/

/-- The quorums of a scan: for each commitment its quorum. -/
def Scanned (qe : QuorumEnv) (llmqType : Nat) (chain : List CBlock)
    (entries : List (Nat × CFinalCommitment)) (quorums : List CQuorum) : Prop :=
  entries.map (fun p => quorumOf qe llmqType chain p.2.quorumHash) = quorums.map some

theorem Scanned.take {chain : List CBlock} {maxCount maxCount' : Nat}
    (h : Scanned qe llmqType chain (entries.take maxCount') quorums) (hle : maxCount ≤ maxCount') :
    Scanned qe llmqType chain (entries.take maxCount) (quorums.take maxCount) := by
  have htake := congrArg (List.take maxCount) h
  rwa [← map_take, ← map_take, take_take, min_eq_left hle] at htake

theorem Serves.scanLoop (h : Serves qe n m) (htype : llmqType < 256)
    (hentries : ∀ p ∈ entries, qe.env.mapBlockIndex p.2.quorumHash = some (quorumIndex qe p.2) ∧
      (quorumIndex qe p.2).getBlockHash = p.2.quorumHash ∧
      (minedFor qe llmqType p.2.quorumHash n.chain).isSome) :
    ∃ ret s m', scanLoop qe llmqType (entries.map fun p => quorumIndex qe p.2)
        n.processor m = .ok (ret, s, m') ∧ Scanned qe llmqType n.chain entries ret ∧
      s.evoDb = n.processor.evoDb ∧ Serves qe { n with processor := s } m' ∧
      m'.scanQuorumsCache = m.scanQuorumsCache := by
  induction entries generalizing n m with
  | nil => exact ⟨[], _, m, rfl, rfl, rfl, h, rfl⟩
  | cons p entries ih =>
    obtain ⟨hindex, hhash, hsome⟩ := hentries p mem_cons_self
    obtain ⟨ret, s, m', hquery, hanswer⟩ := h.getQuorumAt htype (by rw [hhash, hindex])
    have hret := hanswer.answer
    rw [hhash] at hret
    obtain ⟨r, hr⟩ := isSome_iff_exists.mp hsome
    obtain ⟨-, -, quorum, -, -, -, hbuilt, -⟩ := exists_built h.node hr
    rw [quorumOf, hr, bind_some, hbuilt] at hret
    obtain ⟨result, s', m'', hloop, hscanned, hdb, hserves, hscan⟩ :=
      ih hanswer.serves fun q hq => hentries q (mem_cons_of_mem _ hq)
    refine ⟨quorum :: result, s', m'', ?_, ?_, hdb.trans hanswer.evoDb, hserves,
      hscan.trans hanswer.scan⟩
    · rw [map_cons, scanLoop, hquery, ok_bind, hret]
      dsimp only at hloop ⊢
      rw [hloop]
      rfl
    · rw [Scanned, map_cons, map_cons, quorumOf, hr, bind_some, hbuilt]
      exact congrArg _ hscanned

/-- What is found for the commitments of the chain up to a block is from that chain. -/
theorem scanned_append {genesis : Uint256} {above below : List CBlock}
    (hrules : FollowsRules qe genesis (above ++ below))
    (hentries : ∀ p ∈ entries, p ∈ minedList qe llmqType below) :
    Scanned qe llmqType (above ++ below) entries quorums ↔
      Scanned qe llmqType below entries quorums := by
  have hsame : ∀ p ∈ entries, quorumOf qe llmqType (above ++ below) p.2.quorumHash =
      quorumOf qe llmqType below p.2.quorumHash := by
    intro p hp
    obtain ⟨blockHash, hr⟩ := minedFor_of_mem_minedList hrules.of_append (hentries p hp)
    rw [quorumOf, quorumOf, hr, minedFor_append hrules hr]
  rw [Scanned, Scanned, map_congr_left hsame]

end CQuorumManager

/-! ### The chain up to a block -/

theorem eq_of_indexOf_eq {genesis : Uint256} {chain chain' : List CBlock}
    (h : indexOf genesis chain = indexOf genesis chain') (hchain : ∀ b ∈ chain, blocks b.hash = b)
    (hchain' : ∀ b ∈ chain', blocks b.hash = b) : chain = chain' := by
  induction chain generalizing chain' with
  | nil =>
    cases chain' with
    | nil => rfl
    | cons b rest => cases h
  | cons b rest ih =>
    cases chain' with
    | nil => cases h
    | cons b' rest' =>
      obtain ⟨hhash, hrest⟩ := CBlockIndex.next.inj h
      have hb : b = b' := by
        rw [← hchain b mem_cons_self, hhash, hchain' b' mem_cons_self]
      rw [hb, ih hrest (fun c hc => hchain c (mem_cons_of_mem _ hc))
        fun c hc => hchain' c (mem_cons_of_mem _ hc)]

namespace ManagedNode

open CQuorumManager

variable {above below : List CBlock}

/-- The quorums that are kept for a scan are those of the chain up to its block. -/
def ScanKept (qe : QuorumEnv) (blocks : Uint256 → CBlock) (genesis : Uint256)
    (params : LLMQMiningParams) (hash : Uint256) (ret : List CQuorum) : Prop :=
  ∃ chain, (indexOf genesis chain).Known qe.env ∧ (indexOf genesis chain).getBlockHash = hash ∧
    (∀ b ∈ chain, blocks b.hash = b) ∧
    CQuorumManager.Scanned qe params.type chain
      ((minedList qe params.type chain).take (params.signingActiveQuorumCount + 1)) ret

structure Inv (qe : QuorumEnv) (blocks : Uint256 → CBlock) (n : ManagedNode) : Prop where
  serves : Serves qe n.node n.manager
  stored : ∀ b ∈ n.node.chain, blocks b.hash = b
  scan : ∀ params ∈ qe.llmqs, ∀ hash ret,
    n.manager.scanQuorumsCache.find (params.type, hash) = some ret →
      ScanKept qe blocks n.node.genesis params hash ret

variable {n : ManagedNode} {params : LLMQMiningParams}

/-- The scan from a block of the chain, without the cache. -/
theorem Inv.scanLoop (h : n.Inv qe blocks) (hchain : n.node.chain = above ++ below)
    (m) (hserves : Serves qe n.node m) (maxCount : Nat) :
    n.node.processor.getMinedCommitmentsUntilBlock params.type (indexOf n.node.genesis below)
        maxCount =
      .ok (((minedList qe params.type below).take maxCount).map fun p => quorumIndex qe p.2) ∧
    ∃ ret s m', scanLoop qe params.type
        (((minedList qe params.type below).take maxCount).map fun p => quorumIndex qe p.2)
        n.node.processor m = .ok (ret, s, m') ∧
      CQuorumManager.Scanned qe params.type below
        ((minedList qe params.type below).take maxCount) ret ∧
      Serves qe { n.node with processor := s } m' ∧
      m'.scanQuorumsCache = m.scanQuorumsCache := by
  have hwork := h.serves.node.atWork
  have hrules := h.serves.node.rules
  rw [hchain] at hwork hrules
  have hmem : ∀ p ∈ (minedList qe params.type below).take maxCount,
      p ∈ minedList qe params.type below := fun p hp => mem_of_mem_take hp
  obtain ⟨ret, s, m', hloop, hscanned, -, hserves', hscan⟩ :=
    hserves.scanLoop params.type_lt (fun p hp => by
      obtain ⟨hindex, -, hhash⟩ :=
        quorumIndex_spec hwork.known_below hrules.of_append (hmem p hp)
      obtain ⟨blockHash, hr⟩ := minedFor_of_mem_minedList hrules.of_append (hmem p hp)
      refine ⟨hindex, hhash, ?_⟩
      rw [hchain, minedFor_append hrules hr]
      rfl)
  rw [hchain] at hscanned
  exact ⟨hwork.getMinedCommitmentsUntilBlock_eq above params.type_lt maxCount, ret, s, m', hloop,
    (scanned_append hrules hmem).mp hscanned, hserves', hscan⟩

/-- What is kept for a scan from a block of the chain is what the scan would find. -/
theorem Inv.scanned_of_find (h : n.Inv qe blocks) (hparams : params ∈ qe.llmqs)
    (hchain : n.node.chain = above ++ below) {ret : List CQuorum}
    (hfind : n.manager.scanQuorumsCache.find
      (params.type, (indexOf n.node.genesis below).getBlockHash) = some ret) :
    CQuorumManager.Scanned qe params.type below
      ((minedList qe params.type below).take (params.signingActiveQuorumCount + 1)) ret := by
  have hwork := h.serves.node.atWork
  rw [hchain] at hwork
  obtain ⟨chain, hknown, hhash, hblocks, hscanned⟩ := h.scan params hparams _ ret hfind
  obtain rfl : chain = below := by
    refine eq_of_indexOf_eq (hknown.eq_of_hash hwork.known_below hhash) hblocks fun b hb => ?_
    exact h.stored b (by rw [hchain]; exact mem_append_right _ hb)
  exact hscanned

theorem Inv.scanQuorums (h : n.Inv qe blocks) (hparams : params ∈ qe.llmqs)
    (hchain : n.node.chain = above ++ below) (maxCount : Nat) :
    ∃ ret s m', n.manager.scanQuorums qe params (indexOf n.node.genesis below) maxCount
        n.node.processor = .ok (ret, s, m') ∧
      CQuorumManager.Scanned qe params.type below
        ((minedList qe params.type below).take maxCount) ret ∧
      Inv qe blocks ⟨{ n.node with processor := s }, m'⟩ := by
  have hwork := h.serves.node.atWork
  rw [hchain] at hwork
  unfold CQuorumManager.scanQuorums
  dsimp only
  by_cases hcount : maxCount ≤ params.signingActiveQuorumCount + 1
  swap
  · rw [if_neg hcount]
    obtain ⟨hquery, ret, s, m', hloop, hscanned, hserves, hscan⟩ :=
      h.scanLoop hchain n.manager h.serves maxCount
    rw [hquery, ok_bind, hloop, ok_bind]
    exact ⟨_, s, m', rfl, hscanned.take le_rfl, hserves, h.stored, hscan ▸ h.scan⟩
  rw [if_pos hcount, get_fst]
  have hserves₀ : Serves qe n.node { n.manager with
      scanQuorumsCache := (n.manager.scanQuorumsCache.get
        (params.type, (indexOf n.node.genesis below).getBlockHash)).2 } :=
    ⟨h.serves.node, h.serves.kept⟩
  cases hfind : n.manager.scanQuorumsCache.find
      (params.type, (indexOf n.node.genesis below).getBlockHash) with
  | some ret =>
    refine ⟨_, _, _, rfl, (h.scanned_of_find hparams hchain hfind).take hcount, hserves₀, h.stored,
      fun q hq hash ret' hret' => ?_⟩
    rw [find_get] at hret'
    exact h.scan q hq hash ret' hret'
  | none =>
    obtain ⟨hquery, ret, s, m', hloop, hscanned, hserves, hscan⟩ :=
      h.scanLoop hchain _ hserves₀ (params.signingActiveQuorumCount + 1)
    rw [hquery, ok_bind, hloop, ok_bind]
    refine ⟨_, s, _, rfl, hscanned.take hcount, ⟨hserves.node, hserves.kept⟩, h.stored,
      fun q hq hash ret' hret' => ?_⟩
    by_cases hkey : (q.type, hash) = (params.type, (indexOf n.node.genesis below).getBlockHash)
    · obtain ⟨htype, rfl⟩ := Prod.mk.inj hkey
      obtain rfl := qe.eq_of_type hq hparams htype
      rw [find_insert_self] at hret'
      obtain rfl := some.inj hret'
      refine ⟨below, hwork.known_below, rfl, fun b hb => ?_, hscanned⟩
      exact h.stored b (by rw [hchain]; exact mem_append_right _ hb)
    · have hold := find_of_insert hkey hret'
      rw [hscan, find_get] at hold
      exact h.scan q hq hash ret' hold

/-! ### Answers -/

theorem Inv.right (h : n.Inv qe blocks)
    (hindex : ∀ hash pindex, qe.env.mapBlockIndex hash = some pindex → pindex.getBlockHash = hash) :
    n.Right qe := by
  refine ⟨?_, ?_, ?_⟩
  · intro llmqType quorumHash htype
    obtain ⟨ret, s, m', hquery, hanswer⟩ := h.serves.getQuorum htype quorumHash (hindex quorumHash)
    exact ⟨ret, s, m', hquery, hanswer.answer ▸ map_quorumOf h.serves.node⟩
  · intro params hparams pindexStart hon maxCount
    obtain ⟨k, -, rfl⟩ := exists_drop_of_onChain hon
    have hchain := (take_append_drop k n.node.chain).symm
    have hrules := h.serves.node.rules
    rw [hchain] at hrules
    obtain ⟨ret, s, m', hscan, hscanned, -⟩ := h.scanQuorums hparams hchain maxCount
    refine ⟨ret, s, m', _, hscan, (h.scanLoop hchain n.manager h.serves maxCount).1, ?_⟩
    have hscanned' := (scanned_append hrules fun p hp => mem_of_mem_take hp).mpr hscanned
    rw [take_append_drop, CQuorumManager.Scanned, ← forall₂_eq_eq_eq, forall₂_map_left_iff,
      forall₂_map_right_iff]
      at hscanned'
    rw [forall₂_map_left_iff]
    refine hscanned'.imp fun p quorum hq => ?_
    have hhash : (quorumIndex qe p.2).getBlockHash = p.2.quorumHash := by
      obtain ⟨r, -, hbuilt⟩ := bind_eq_some_iff.mp hq
      obtain ⟨_, -, hbuilt⟩ := bind_eq_some_iff.mp hbuilt
      obtain ⟨pindexQuorum, hpindex, -⟩ := bind_eq_some_iff.mp hbuilt
      rw [quorumIndex, hpindex, getD_some, hindex _ _ hpindex]
    obtain ⟨ret', s', m'', hquery, hanswer⟩ :=
      h.serves.getQuorum params.type_lt p.2.quorumHash (hindex p.2.quorumHash)
    rw [hhash, ← hq, ← hanswer.answer]
    exact ⟨s', m'', hquery⟩
  · intro params hparams pindexStart hon maxCount maxCount' hle ret ret' s s' m m' hscan hscan'
    obtain ⟨k, -, rfl⟩ := exists_drop_of_onChain hon
    have hchain := (take_append_drop k n.node.chain).symm
    obtain ⟨_, _, _, hshort, hscanned, -⟩ := h.scanQuorums hparams hchain maxCount
    obtain ⟨_, _, _, hlong, hscanned', -⟩ := h.scanQuorums hparams hchain maxCount'
    obtain ⟨rfl, -⟩ := Prod.mk.inj (ok.inj (hscan.symm.trans hshort))
    obtain ⟨rfl, -⟩ := Prod.mk.inj (ok.inj (hscan'.symm.trans hlong))
    rw [map_injective_iff.mpr (some_injective _) (hscanned.symm.trans (hscanned'.take hle))]
    exact take_prefix maxCount _

/-! ### Steps -/

end ManagedNode

theorem QuorumNode.Inv.chain_cases {n n' : QuorumNode} {op : NodeOp} (h : n.Inv qe)
    (hstep : Step qe n op n') :
    n'.genesis = n.genesis ∧ (n'.chain = n.chain ∨
      (∃ block others fScriptChecks verdict,
        op = .connect block others fScriptChecks verdict ∧ n'.chain = block :: n.chain) ∨
      ∃ block, n.chain = block :: n'.chain) := by
  obtain ⟨hpossible, happly⟩ := hstep
  cases op with
  | connect block others fScriptChecks verdict =>
    obtain ⟨-, hgenesis, hchain⟩ := h.connect_cases hpossible happly
    refine ⟨hgenesis, ?_⟩
    rcases hchain with ⟨hsame, -⟩ | ⟨s, ok, -, -, ⟨hsame, -⟩ | ⟨hnew, -⟩⟩
    · exact .inl hsame
    · exact .inl hsame
    · exact .inr (.inl ⟨block, others, fScriptChecks, verdict, rfl, hnew⟩)
  | disconnect others =>
    obtain ⟨-, hgenesis, -, ⟨hsame, -⟩ | hless⟩ := h.disconnect_cases hpossible happly
    · exact ⟨hgenesis, .inl hsame⟩
    · exact ⟨hgenesis, .inr (.inr hless)⟩
  | flush =>
    obtain ⟨-, hgenesis, -, hsame, -⟩ := h.flush happly
    exact ⟨hgenesis, .inl hsame⟩
  | hasMinedCommitment llmqType quorumHash =>
    obtain rfl := ok.inj happly
    exact ⟨rfl, .inl rfl⟩
  | createNewBlock block =>
    obtain ⟨r, -, happly⟩ := bind_eq_ok.mp happly
    obtain rfl := ok.inj happly
    exact ⟨rfl, .inl rfl⟩

namespace ManagedNode

open CQuorumManager

variable {n n' : ManagedNode} {op : ManagerOp} {block : CBlock} {nodeOp : NodeOp}

theorem minedFor_cons_cases {llmqType : Nat} {quorumHash : Uint256}
    {rest : List CBlock} {r : CFinalCommitment × Uint256}
    (h : minedFor qe llmqType quorumHash (block :: rest) = some r) :
    (minedIn qe llmqType (rest.length + 1) block = some r.1 ∧ r.1.quorumHash = quorumHash ∧
      r.2 = block.hash) ∨ minedFor qe llmqType quorumHash rest = some r := by
  rw [minedFor] at h
  split at h
  · next qc hfilter =>
      obtain ⟨hmined, hhash⟩ := filter_eq_some_iff.mp hfilter
      obtain rfl := some.inj h
      exact .inl ⟨hmined, by simpa using hhash, rfl⟩
  · exact .inr h

theorem node_step (hstep : Step qe blocks n (.node nodeOp) n') :
    ∃ node', QuorumNode.Step qe n.node nodeOp node' ∧ n' = { n with node := node' } := by
  obtain ⟨hpossible, happly⟩ := hstep
  obtain ⟨node', hnode, happly⟩ := bind_eq_ok.mp happly
  obtain rfl := ok.inj happly
  refine ⟨node', ⟨?_, hnode⟩, rfl⟩
  cases nodeOp with
  | connect block others fScriptChecks verdict => exact hpossible.1
  | _ => exact hpossible

/-- A step of the node keeps what is known, if what it mines is not kept from elsewhere. -/
theorem Inv.node (h : n.Inv qe blocks)
    (hstep : Step qe blocks n (.node nodeOp) n') (hfresh : n.Fresh qe n') : n'.Inv qe blocks := by
  obtain ⟨node', hnodeStep, rfl⟩ := node_step hstep
  have hinv := h.serves.node.step hnodeStep
  obtain ⟨hgenesis, hchain⟩ := h.serves.node.chain_cases hnodeStep
  have hscan : ∀ params ∈ qe.llmqs, ∀ hash ret,
      n.manager.scanQuorumsCache.find (params.type, hash) = some ret →
        ScanKept qe blocks node'.genesis params hash ret := by
    rw [hgenesis]
    exact h.scan
  -- A kept quorum is right where what is mined for it is what was mined before.
  have hserves : (∀ llmqType quorumHash quorum r,
      n.manager.quorumsCache (llmqType, quorumHash) = some quorum →
      minedFor qe llmqType quorumHash node'.chain = some r →
        minedFor qe llmqType quorumHash n.node.chain = some r ∨
          (quorum.qc, quorum.minedBlockHash) = r) → Serves qe node' n.manager := by
    refine fun hcurrent => ⟨hinv, fun t hash quorum hq => ?_⟩
    obtain ⟨hbuilt, hmined⟩ := h.serves.kept t hash quorum hq
    exact ⟨hbuilt, fun r hr => (hcurrent t hash quorum r hq hr).elim (hmined r) id⟩
  rcases hchain with hsame | ⟨block, others, fScriptChecks, verdict, rfl, hnew⟩ | ⟨block, hless⟩
  · refine ⟨hserves fun t hash quorum r hq hr => .inl (hsame ▸ hr), ?_, hscan⟩
    rw [hsame]
    exact h.stored
  · refine ⟨hserves fun t hash quorum r hq hr => ?_, ?_, hscan⟩
    · rw [hnew] at hr
      rcases minedFor_cons_cases hr with ⟨hmined, rfl, hmb⟩ | hr
      · exact .inr (by rw [hfresh block hnew t r.1 hmined quorum hq, ← hmb])
      · exact .inl hr
    · intro b hb
      rw [hnew] at hb
      rcases mem_cons.mp hb with rfl | hb
      · exact hstep.1.2
      · exact h.stored b hb
  · have hrules := h.serves.node.rules
    rw [hless] at hrules
    refine ⟨hserves fun t hash quorum r hq hr => .inl ?_, fun b hb => ?_, hscan⟩
    · rw [hless]
      exact minedFor_cons hrules hr
    · exact h.stored b (by rw [hless]; exact mem_cons_of_mem _ hb)

theorem Inv.step (h : n.Inv qe blocks) (hstep : Step qe blocks n op n')
    (hindex : ∀ hash pindex, qe.env.mapBlockIndex hash = some pindex → pindex.getBlockHash = hash)
    (hscans : n.ScansChain op) (hfresh : n.Fresh qe n') : n'.Inv qe blocks := by
  cases op with
  | node nodeOp => exact h.node hstep hfresh
  | getQuorum llmqType quorumHash =>
    obtain ⟨htype, happly⟩ := hstep
    obtain ⟨ret, s, m', hquery, hanswer⟩ :=
      h.serves.getQuorum htype quorumHash (hindex quorumHash)
    rw [apply, hquery, ok_bind] at happly
    obtain rfl := ok.inj happly
    refine ⟨hanswer.serves, h.stored, ?_⟩
    rw [hanswer.scan]
    exact h.scan
  | scanQuorums params pindexStart maxCount =>
    obtain ⟨⟨hparams, -⟩, happly⟩ := hstep
    obtain ⟨k, -, rfl⟩ := exists_drop_of_onChain hscans
    obtain ⟨ret, s, m', hquery, -, hinv⟩ :=
      h.scanQuorums hparams (take_append_drop k n.node.chain).symm maxCount
    rw [apply, hquery, ok_bind] at happly
    obtain rfl := ok.inj happly
    exact hinv

theorem Starts.inv (h : n.Starts qe) : n.Inv qe blocks := by
  obtain ⟨hnode, hmanager⟩ := h
  refine ⟨⟨hnode.inv, ?_⟩, ?_, ?_⟩
  · intro llmqType quorumHash quorum hq
    rw [hmanager] at hq
    cases hq
  · intro b hb
    rw [hnode.chain] at hb
    cases hb
  · intro params hparams hash ret hret
    rw [hmanager] at hret
    cases hret

/-- A step that makes a block the tip is a step of the node. -/
theorem node_of_connected (hstep : Step qe blocks n op n')
    (hchain : n'.node.chain = block :: n.node.chain) :
    (∃ nodeOp, QuorumNode.Step qe n.node nodeOp n'.node) ∧ n'.manager = n.manager := by
  have hne : n'.node.chain ≠ n.node.chain := by
    intro hsame
    have hlength := congrArg List.length (hchain.symm.trans hsame)
    rw [length_cons] at hlength
    omega
  cases op with
  | node nodeOp =>
    obtain ⟨node', hnode, rfl⟩ := node_step hstep
    exact ⟨⟨nodeOp, hnode⟩, rfl⟩
  | getQuorum llmqType quorumHash =>
    obtain ⟨-, happly⟩ := hstep
    obtain ⟨r, -, happly⟩ := bind_eq_ok.mp happly
    obtain rfl := ok.inj happly
    exact absurd rfl hne
  | scanQuorums params pindexStart maxCount =>
    obtain ⟨-, happly⟩ := hstep
    obtain ⟨r, -, happly⟩ := bind_eq_ok.mp happly
    obtain rfl := ok.inj happly
    exact absurd rfl hne

/-- Where all is answered right after a block was connected, no other quorum was kept for what it
mines. -/
theorem Inv.fresh (hinv : n.Inv qe blocks) (hright : n'.Right qe)
    (hstep : Step qe blocks n op n') : n.Fresh qe n' := by
  intro block hchain llmqType qc hmined quorum hquorum
  obtain ⟨⟨nodeOp, hnode⟩, hmanager⟩ := node_of_connected hstep hchain
  have h := hinv.serves.node.step hnode
  have hr : minedFor qe llmqType qc.quorumHash n'.node.chain = some (qc, block.hash) := by
    rw [hchain, minedFor, hmined, filter_some_pos (by simp)]
  obtain ⟨hqcType, -, params, pindex, hparams, hptype, hpindex, hhash⟩ :=
    exists_of_minedFor_inv h hr
  have htype : llmqType < 256 := hptype ▸ params.type_lt
  have hrange : qc.quorumHash < 2 ^ 256 := (qe.blockHash_range _ _ hpindex).2
  obtain ⟨ret, s, m', hquery, hret⟩ := hright.getQuorum llmqType qc.quorumHash htype
  -- The commitment is mined, so the query returns what is kept.
  have hhas : (n'.node.processor.hasMinedCommitment llmqType qc.quorumHash).1 = true := by
    rw [(hasMinedCommitment_spec h.cache htype hrange rfl).1,
      h.holds.mined llmqType _ htype hrange, hr]
    rfl
  unfold getQuorum at hquery
  rw [hpindex] at hquery
  unfold getQuorumAt at hquery
  dsimp only at hquery
  rw [hhash, hhas, if_neg (by simp), hmanager, hquorum] at hquery
  obtain ⟨rfl, -⟩ := Prod.mk.inj (ok.inj hquery)
  exact some.inj (hret.trans hr)

/-- **The quorum manager answers from the active chain.**  In every run whose scans start from blocks
of the active chain, all queries would be answered right at every point, if and only if no block
becomes the tip that mines a commitment for a quorum which is kept from another one. -/
theorem run_right_iff {n₀ n : ManagedNode} {tr : List (ManagedNode × ManagerOp × ManagedNode)}
    (hindex : ∀ hash pindex, qe.env.mapBlockIndex hash = some pindex → pindex.getBlockHash = hash)
    (hstart : n₀.Starts qe) (hrun : Lts.Run (Step qe blocks) n₀ tr n)
    (hscans : ∀ x ∈ tr, x.1.ScansChain x.2.1) :
    (∀ x ∈ tr, x.1.Right qe ∧ x.2.2.Right qe) ↔ ∀ x ∈ tr, x.1.Fresh qe x.2.2 := by
  constructor
  · intro hright
    have hinv := ((hrun.and_mem hscans).and_mem hright).invariant (Inv qe blocks)
      (fun s op s' h hstep =>
        h.step hstep.1.1 hindex hstep.1.2 (h.fresh hstep.2.2 hstep.1.1)) hstart.inv
    intro x hx
    obtain ⟨h, hstep, -, hafter⟩ := hinv.2 x hx
    exact h.fresh hafter hstep.1
  · intro hfresh
    have hinv := ((hrun.and_mem hscans).and_mem hfresh).invariant (Inv qe blocks)
      (fun s op s' h hstep => h.step hstep.1.1 hindex hstep.1.2 hstep.2) hstart.inv
    intro x hx
    obtain ⟨h, hstep, hfresh⟩ := hinv.2 x hx
    exact ⟨h.right hindex, (h.step hstep.1 hindex hstep.2 hfresh).right hindex⟩

/-! ### A quorum mined twice -/

open QuorumNode (sampleQuorums freshNode freshNode_starts commitmentBlock forkIndex)

instance (qe : QuorumEnv) (blocks : Uint256 → CBlock) (n : ManagedNode) :
    ∀ op, Decidable (n.Possible qe blocks op)
  | .node (.connect _ _ _ _) => inferInstanceAs (Decidable (_ ∧ _))
  | .node (.disconnect others) => inferInstanceAs (Decidable (n.node.Possible qe (.disconnect others)))
  | .node .flush => inferInstanceAs (Decidable (n.node.Possible qe .flush))
  | .node (.hasMinedCommitment llmqType quorumHash) =>
    inferInstanceAs (Decidable (n.node.Possible qe (.hasMinedCommitment llmqType quorumHash)))
  | .node (.createNewBlock block) =>
    inferInstanceAs (Decidable (n.node.Possible qe (.createNewBlock block)))
  | .getQuorum _ _ => inferInstanceAs (Decidable (_ < _))
  | .scanQuorums _ _ _ => inferInstanceAs (Decidable (_ ∧ _))

/-- Blocks 1 and 2 of the fork, each with a commitment for the quorum of the genesis block. -/
def forkBlocks (hash : Uint256) : CBlock :=
  if hash = 1 then commitmentBlock 1 7 else commitmentBlock 2 9

theorem forkIndex_getBlockHash (hash : Uint256) (pindex : CBlockIndex)
    (h : forkIndex hash = some pindex) : pindex.getBlockHash = hash := by
  unfold forkIndex at h
  split_ifs at h with hgenesis hfork hlast
  · rw [← some.inj h, hgenesis]
    rfl
  · rw [← some.inj h]
    rfl
  · rw [← some.inj h, hlast]
    rfl

/-- After the first block has been connected all is answered right. -/
theorem run_right_iff_connected : ∃ tr n,
    Lts.Run (Step (sampleQuorums 1) forkBlocks) ⟨freshNode, {}⟩ tr n ∧
      tr.map (fun x => x.2.1) = [.node (.connect (commitmentBlock 1 7) [] true .connected)] ∧
      n.node.chain = [commitmentBlock 1 7] ∧ n.Right (sampleQuorums 1) := by
  have hreplay : replay
      (attempt (Possible (sampleQuorums 1) forkBlocks) (apply (sampleQuorums 1)))
      (fun n => n.node.chain = [commitmentBlock 1 7]) ⟨freshNode, {}⟩
      [.node (.connect (commitmentBlock 1 7) [] true .connected)] = true := by decide +kernel
  obtain ⟨tr, n, hrun, hlabels, htest⟩ :=
    of_replay attempt_eq_some _ _ hreplay
  refine ⟨tr, n, hrun, hlabels, of_decide_eq_true htest, ?_⟩
  cases hrun with
  | nil => cases hlabels
  | @cons _ n' _ op tr' hstep hrest =>
    obtain ⟨rfl, hlabels⟩ := List.cons.inj hlabels
    cases hrest with
    | cons _ _ => cases hlabels
    | nil =>
      have hright := (run_right_iff forkIndex_getBlockHash ⟨freshNode_starts 1, rfl⟩
        (.cons hstep (.nil n)) ?_).mpr ?_
      · exact (hright _ mem_cons_self).2
      · intro x hx
        rw [mem_singleton.mp hx]
        trivial
      · intro x hx block _ llmqType qc _ quorum hquorum
        rw [mem_singleton.mp hx] at hquorum
        cases hquorum

/-- A quorum is asked for, and then the block that mined its commitment is replaced. -/
def minedTwice : List ManagerOp :=
  [.node (.connect (commitmentBlock 1 7) [] true .connected), .getQuorum 100 10, .node (.disconnect []),
    .node (.connect (commitmentBlock 2 9) [] true .connected)]

/-- The quorum of the commitment that is no longer on the chain is returned. -/
theorem run_not_right : ∃ tr n, Lts.Run (Step (sampleQuorums 1) forkBlocks) ⟨freshNode, {}⟩ tr n ∧
      tr.map (fun x => x.2.1) = minedTwice ∧
      minedFor (sampleQuorums 1) 100 10 n.node.chain = some (QuorumNode.sampleCommitment 9, 2) ∧
      ∃ quorum s m, n.manager.getQuorum (sampleQuorums 1) 100 10 n.node.processor =
          .ok (some quorum, s, m) ∧
        (quorum.qc, quorum.minedBlockHash) = (QuorumNode.sampleCommitment 7, 1) := by
  have hreplay : replay
      (attempt (Possible (sampleQuorums 1) forkBlocks) (apply (sampleQuorums 1)))
      (fun n => minedFor (sampleQuorums 1) 100 10 n.node.chain =
          some (QuorumNode.sampleCommitment 9, 2) ∧
        (n.manager.getQuorum (sampleQuorums 1) 100 10 n.node.processor).toOption.any
          (fun answer => answer.1.any fun quorum =>
            (quorum.qc, quorum.minedBlockHash) = (QuorumNode.sampleCommitment 7, 1)) = true)
      ⟨freshNode, {}⟩ minedTwice = true := by decide +kernel
  obtain ⟨tr, n, hrun, hlabels, htest⟩ :=
    of_replay attempt_eq_some _ _ hreplay
  obtain ⟨hmined, hanswer⟩ := of_decide_eq_true htest
  obtain ⟨⟨answer, s, m⟩, hquery, hanswer⟩ := any_toOption.mp hanswer
  obtain ⟨quorum, rfl, hquorum⟩ := (any_eq_true _ _).mp hanswer
  exact ⟨tr, n, hrun, hlabels, hmined, quorum, s, m, hquery, of_decide_eq_true hquorum⟩

end ManagedNode

end Absolute
