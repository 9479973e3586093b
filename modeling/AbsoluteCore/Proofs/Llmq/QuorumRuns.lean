/-
Runs of a node keep the rules and the store.

Whatever happens to a block, its transaction is committed or given up, so what has to be shown for
the node is shown for the two functions of the processor.  The rules of sessions and the order of the
mined commitments are then read off the chain.
-/
import AbsoluteCore.Proofs.Evo.NewList
import AbsoluteCore.Proofs.Llmq.MinedCommitments

namespace Absolute

open BlockProcessorKeys CQuorumBlockProcessor List Option Except Std ExtTreeMap Fallible CBlockIndex
  QuorumNode

variable {qe : QuorumEnv}

namespace CQuorumBlockProcessor

variable {before : CDataStream → Option EvoValue} {s : CQuorumBlockProcessor}
  {e : CEvoDB EvoValue}

theorem CacheKept.committed (h : CacheKept before s) (hread : e.read = s.evoDb.read) :
    CacheKept e.read { s with evoDb := e } := by
  intro llmqType quorumHash ret htype hhash hret
  obtain ⟨hbefore, hsame⟩ := h llmqType quorumHash ret htype hhash hret
  refine ⟨?_, rfl⟩
  rw [hbefore, hread, hsame]

theorem CacheKept.givenUp (h : CacheKept e.read s) : CacheKept e.read { s with evoDb := e } := by
  intro llmqType quorumHash ret htype hhash hret
  exact ⟨(h llmqType quorumHash ret htype hhash hret).1, rfl⟩

theorem writeOthers_spec {chain : List CBlock} {others : List (CDataStream × Option EvoValue)}
    (hothers : ∀ w ∈ others, OthersKey w.1) (hwithin : e.Within qe.getSerializeSize s.evoDb)
    (hholds : Holds qe chain s.evoDb.read) (hcache : CacheKept before s) :
    e.Within qe.getSerializeSize (writeOthers qe others s.evoDb) ∧
      Holds qe chain (writeOthers qe others s.evoDb).read ∧
      CacheKept before { s with evoDb := writeOthers qe others s.evoDb } := by
  induction others generalizing s with
  | nil => exact ⟨hwithin, hholds, hcache⟩
  | cons w others ih =>
    obtain ⟨k, v⟩ := w
    have hk : OthersKey k := hothers (k, v) mem_cons_self
    have hrest := fun w hw => hothers w (mem_cons_of_mem _ hw)
    cases v with
    | some v =>
      have hread : (s.evoDb.write qe.getSerializeSize k v).read = _ := s.evoDb.read_write k v
      exact ih (s := { s with evoDb := s.evoDb.write qe.getSerializeSize k v }) hrest
        (hwithin.write k v) (hread ▸ hholds.others hk (some v)) (hcache.others hk hread)
    | none =>
      have hread := s.evoDb.read_erase k
      exact ih (s := { s with evoDb := s.evoDb.erase k }) hrest (hwithin.erase k)
        (hread ▸ hholds.others hk none) (hcache.others hk hread)

end CQuorumBlockProcessor

/-! ### What a node keeps -/

namespace QuorumNode

variable {block : CBlock} {others : List (CDataStream × Option EvoValue)}

structure Inv (qe : QuorumEnv) (n : QuorumNode) : Prop where
  known : n.tip.Known qe.env
  length : n.chain.length < 2 ^ 31
  rules : FollowsRules qe n.genesis n.chain
  idle : n.processor.evoDb.Idle qe.getSerializeSize
  holds : Holds qe n.chain n.processor.evoDb.read
  cache : CacheKept n.processor.evoDb.read n.processor

variable {n n' : QuorumNode} {s : CQuorumBlockProcessor}

theorem Starts.inv (h : n.Starts qe) : n.Inv qe := by
  have hread : n.processor.evoDb.read = fun k => n.processor.evoDb.db[k]? := by
    rw [h.evoDb]
    exact CEvoDB.read_ofDb _
  have hothers : ∀ k, (n.processor.evoDb.read k).isSome → OthersKey k := by
    intro k hk
    rw [hread] at hk
    exact h.others k (mem_iff_isSome_getElem?.mpr hk)
  have hnone : ∀ k, ¬ OthersKey k → n.processor.evoDb.read k = none := by
    intro k hk
    cases hsome : n.processor.evoDb.read k with
    | none => rfl
    | some v => exact absurd (hothers k (by rw [hsome]; rfl)) hk
  refine ⟨?_, ?_, ?_, ?_, ⟨?_, ?_, ?_⟩, ?_⟩
  · rw [tip, h.chain]
    exact h.known
  · rw [h.chain]
    decide
  · rw [h.chain]
    trivial
  · rw [h.evoDb]
    exact .ofDb _ _
  · intro llmqType quorumHash _ _
    rw [h.chain, hnone]
    · rfl
    · exact fun hk => hk.ne_minedCommitmentKey llmqType quorumHash rfl
  · intro llmqType height _ _
    rw [h.chain, hnone]
    · rfl
    · exact fun hk => hk.ne_minedHeightKey llmqType height rfl
  · intro k hprefix hsome
    exact absurd hprefix (hothers k hsome).not_heightPrefix
  · intro llmqType quorumHash ret _ _ hret
    rw [h.processor] at hret
    cases hret

theorem Inv.giveUp (h : n.Inv qe) (hwithin : n.processor.evoDb.Within qe.getSerializeSize s.evoDb)
    (hcache : CacheKept n.processor.evoDb.read s) (cache : QuorumRootCache) : n.giveUp {} s cache =
      .ok { n with processor := { s with evoDb := n.processor.evoDb }, cache := cache } ∧
    Inv qe { n with processor := { s with evoDb := n.processor.evoDb }, cache := cache } := by
  refine ⟨?_, ⟨h.known, h.length, h.rules, h.idle, h.holds, hcache.givenUp⟩⟩
  rw [QuorumNode.giveUp, hwithin.rollback]
  rfl

theorem inv_keep {chain : List CBlock}
    (hwithin : n.processor.evoDb.Within qe.getSerializeSize s.evoDb)
    (hcache : CacheKept n.processor.evoDb.read s) (cache : QuorumRootCache)
    (hknown : (indexOf n.genesis chain).Known qe.env) (hlength : chain.length < 2 ^ 31)
    (hrules : FollowsRules qe n.genesis chain) (hholds : Holds qe chain s.evoDb.read) :
    ∃ e : CEvoDB EvoValue, e.read = s.evoDb.read ∧
      n.keep qe {} s cache chain =
        .ok { n with processor := { s with evoDb := e }, cache := cache, chain := chain } ∧
      Inv qe { n with processor := { s with evoDb := e }, cache := cache, chain := chain } := by
  obtain ⟨e, hcommit, hidle, hread⟩ := hwithin.commit
  refine ⟨e, hread, ?_, ⟨hknown, hlength, hrules, hidle, ?_, hcache.committed hread⟩⟩
  · rw [keep, hcommit]
    rfl
  · rw [hread]
    exact hholds

/-! ### Steps -/

/-- A processor within the transaction of a block that it has accepted. -/
structure Processed (qe : QuorumEnv) (n : QuorumNode) (block : CBlock)
    (s : CQuorumBlockProcessor) : Prop where
  within : n.processor.evoDb.Within qe.getSerializeSize s.evoDb
  cache : CacheKept n.processor.evoDb.read s
  known : (indexOf n.genesis (block :: n.chain)).Known qe.env
  length : (block :: n.chain).length < 2 ^ 31
  rules : FollowsRules qe n.genesis (block :: n.chain)
  holds : Holds qe (block :: n.chain) s.evoDb.read

theorem Inv.processed (h : n.Inv qe)
    (hindex : qe.env.mapBlockIndex block.hash = some (.next block.hash n.tip))
    (hlength : n.chain.length + 1 < 2 ^ 31)
    (hprocess : n.processor.processBlock qe n.tip block (.next block.hash n.tip) = .ok s) :
    Processed qe n block s := by
  have hends := processBlock_ends h.known h.idle h.holds h.cache hlength block
  rw [← tip, hprocess] at hends
  obtain ⟨hwithin, hcache, hholds, hrule⟩ := hends
  exact ⟨hwithin, hcache, ⟨hindex, h.known⟩, hlength, ⟨h.rules, hrule⟩, hholds⟩

theorem Processed.writeOthers (h : Processed qe n block s) (hothers : ∀ w ∈ others, OthersKey w.1) :
    Processed qe n block { s with evoDb := writeOthers qe others s.evoDb } := by
  obtain ⟨hwithin, hholds, hcache⟩ := writeOthers_spec hothers h.within h.holds h.cache
  exact ⟨hwithin, hcache, h.known, h.length, h.rules, hholds⟩

/-- The block is refused at once, or the roots are checked with what it has stored; it then becomes
the tip or is given up. -/
theorem Inv.connect_cases (h : n.Inv qe) {fScriptChecks : Bool} {verdict : Verdict}
    (hpossible : n.Possible qe (.connect block others fScriptChecks verdict))
    (hconnect : n.connect qe block others fScriptChecks verdict = .ok n') :
    n'.Inv qe ∧ n'.genesis = n.genesis ∧
      ((n'.chain = n.chain ∧ n'.processor.evoDb = n.processor.evoDb ∧ n'.cache = n.cache) ∨
      ∃ s ok, Processed qe n block s ∧
        checkRoots qe fScriptChecks s n.cache block n.tip = .ok (n'.cache, ok) ∧
        ((n'.chain = n.chain ∧ n'.processor.evoDb = n.processor.evoDb) ∨
          (n'.chain = block :: n.chain ∧ n'.processor.evoDb.read = s.evoDb.read))) := by
  obtain ⟨hindex, hlength, hothers⟩ := hpossible
  unfold connect at hconnect
  rw [h.idle.beginTransaction, ok_bind] at hconnect
  have hends := processBlock_ends h.known h.idle h.holds h.cache hlength block
  rw [← tip] at hends
  cases hprocess : n.processor.processBlock qe n.tip block (.next block.hash n.tip) with
  | error r =>
    rw [hprocess] at hends hconnect
    obtain ⟨hgiveUp, hinv⟩ := h.giveUp hends.1 hends.2 n.cache
    obtain ⟨fail, s⟩ := r
    cases fail with
    | assert => cases hconnect
    | _ =>
      obtain rfl := ok.inj (hgiveUp.symm.trans hconnect)
      exact ⟨hinv, rfl, .inl ⟨rfl, rfl, rfl⟩⟩
  | ok s =>
    have hs := (h.processed hindex hlength hprocess).writeOthers hothers
    rw [hprocess] at hconnect
    dsimp only at hconnect
    split_ifs at hconnect
    · obtain ⟨hgiveUp, hinv⟩ := h.giveUp hs.within hs.cache n.cache
      obtain rfl := Except.ok.inj (hgiveUp.symm.trans hconnect)
      exact ⟨hinv, rfl, .inl ⟨rfl, rfl, rfl⟩⟩
    obtain ⟨⟨cache, ok⟩, hcheck, hconnect⟩ := bind_eq_ok.mp hconnect
    dsimp only at hconnect
    split_ifs at hconnect
    · obtain ⟨e, hread, hkeep, hinv⟩ :=
        inv_keep hs.within hs.cache cache hs.known hs.length hs.rules hs.holds
      obtain rfl := Except.ok.inj (hkeep.symm.trans hconnect)
      exact ⟨hinv, rfl, .inr ⟨_, ok, hs, hcheck, .inr ⟨rfl, hread⟩⟩⟩
    · obtain ⟨hgiveUp, hinv⟩ := h.giveUp hs.within hs.cache cache
      obtain rfl := Except.ok.inj (hgiveUp.symm.trans hconnect)
      exact ⟨hinv, rfl, .inr ⟨_, ok, hs, hcheck, .inl ⟨rfl, rfl⟩⟩⟩

theorem Inv.disconnect_cases (h : n.Inv qe) (hothers : ∀ w ∈ others, OthersKey w.1)
    (hdisconnect : n.disconnect qe others = .ok n') :
    n'.Inv qe ∧ n'.genesis = n.genesis ∧ n'.cache = n.cache ∧
      ((n'.chain = n.chain ∧ n'.processor.evoDb = n.processor.evoDb) ∨
        ∃ block, n.chain = block :: n'.chain) := by
  unfold disconnect at hdisconnect
  rw [h.idle.beginTransaction, ok_bind] at hdisconnect
  have hknown := h.known
  have hlength := h.length
  have hrules := h.rules
  have hholds := h.holds
  unfold tip at hdisconnect hknown
  cases hchain : n.chain with
  | nil =>
    rw [hchain] at hdisconnect
    cases hdisconnect
  | cons block rest =>
    rw [hchain] at hdisconnect hknown hlength hrules hholds
    dsimp only at hdisconnect
    obtain ⟨hwithin, hholds, hcache⟩ := writeOthers_spec hothers h.idle.within hholds h.cache
    cases hundo : CQuorumBlockProcessor.undoBlock qe block (indexOf n.genesis (block :: rest))
        { n.processor with evoDb := writeOthers qe others n.processor.evoDb } with
    | none =>
      rw [hundo] at hdisconnect
      obtain ⟨hgiveUp, hinv⟩ := h.giveUp hwithin hcache n.cache
      obtain rfl := ok.inj (hgiveUp.symm.trans hdisconnect)
      exact ⟨hinv, rfl, rfl, .inl ⟨hchain, rfl⟩⟩
    | some s =>
      rw [hundo] at hdisconnect
      obtain ⟨hwithin, hholds, hcache⟩ :=
        undoBlock_spec hknown.2 hlength hrules.2 hwithin hholds hcache hundo
      obtain ⟨e, hread, hkeep, hinv⟩ := inv_keep hwithin hcache n.cache hknown.2
        (Nat.lt_of_succ_lt hlength) hrules.1 hholds
      obtain rfl := ok.inj (hkeep.symm.trans hdisconnect)
      exact ⟨hinv, rfl, rfl, .inr ⟨block, rfl⟩⟩

theorem Inv.flush (h : n.Inv qe) (hflush : n.apply qe .flush = .ok n') :
    n'.Inv qe ∧ n'.genesis = n.genesis ∧ n'.cache = n.cache ∧ n'.chain = n.chain ∧
      n'.processor.evoDb.read = n.processor.evoDb.read := by
  obtain ⟨e, hcommit, hidle, hread⟩ := h.idle.commitRootTransaction
  rw [apply, hcommit] at hflush
  obtain rfl := ok.inj hflush
  refine ⟨⟨h.known, h.length, h.rules, hidle, ?_, h.cache.committed hread⟩, rfl, rfl, rfl, hread⟩
  rw [hread]
  exact h.holds

theorem Inv.hasMinedCommitment (h : n.Inv qe) {llmqType : Nat} {quorumHash : Uint256}
    (htype : llmqType < 256) (hhash : quorumHash < 2 ^ 256) :
    Inv qe { n with processor := (n.processor.hasMinedCommitment llmqType quorumHash).2 } ∧
      (n.processor.hasMinedCommitment llmqType quorumHash).2.evoDb = n.processor.evoDb := by
  obtain ⟨-, hdb, hcache⟩ := hasMinedCommitment_spec h.cache htype hhash rfl
  refine ⟨⟨h.known, h.length, h.rules, ?_, ?_, ?_⟩, hdb⟩
  · rw [hdb]
    exact h.idle
  · rw [hdb]
    exact h.holds
  · rw [hdb]
    exact hcache

theorem Inv.step (h : n.Inv qe) {op : NodeOp} (hstep : Step qe n op n') : n'.Inv qe := by
  obtain ⟨hpossible, happly⟩ := hstep
  cases op with
  | connect block others fScriptChecks verdict => exact (h.connect_cases hpossible happly).1
  | disconnect others => exact (h.disconnect_cases hpossible happly).1
  | flush => exact (h.flush happly).1
  | hasMinedCommitment llmqType quorumHash =>
    obtain rfl := ok.inj happly
    exact (h.hasMinedCommitment hpossible.1 hpossible.2).1
  | createNewBlock block =>
    obtain ⟨r, -, happly⟩ := bind_eq_ok.mp happly
    obtain rfl := ok.inj happly
    exact ⟨h.known, h.length, h.rules, h.idle, h.holds, h.cache⟩

theorem Inv.run {n₀ : QuorumNode} {tr : List (QuorumNode × NodeOp × QuorumNode)}
    (hstart : n₀.Starts qe) (hrun : Lts.Run (Step qe) n₀ tr n) : n.Inv qe :=
  (hrun.invariant (Inv qe) (fun _ _ _ h hstep => h.step hstep) hstart.inv).1

/-! ### A fork at height 1 -/

instance : (op : NodeOp) → Decidable (n.Possible qe op)
  | .connect _ _ _ _ => inferInstanceAs (Decidable (_ ∧ _ ∧ _))
  | .disconnect others => inferInstanceAs (Decidable (∀ w ∈ others, OthersKey w.1))
  | .flush => .isTrue trivial
  | .hasMinedCommitment _ _ => inferInstanceAs (Decidable (_ ∧ _))
  | .createNewBlock _ => .isTrue trivial

/-- The steps are possible, and the node after them passes the test. -/
def replay (qe : QuorumEnv) (ops : List NodeOp) (n : QuorumNode) (test : QuorumNode → Bool) : Bool :=
  let after : Except Fail QuorumNode :=
    ops.foldlM (fun n op => if n.Possible qe op then n.apply qe op else .error .assert) n
  after.toOption.any test

theorem exists_run_of_replay {ops : List NodeOp} {test : QuorumNode → Bool}
    (h : replay qe ops n test = true) :
    ∃ tr n', Lts.Run (Step qe) n tr n' ∧ tr.map (fun x => x.2.1) = ops ∧ test n' = true := by
  obtain ⟨n', hfold, htest⟩ := any_toOption.mp h
  obtain ⟨tr, hrun, hlabels⟩ := Lts.Run.of_foldlM ops n n' hfold
  refine ⟨_, n', hrun.relabel id ?_, ?_, htest⟩
  · intro s op s' hstep
    split_ifs at hstep with hpossible
    exact ⟨hpossible, hstep⟩
  · rw [List.map_map]
    exact hlabels

/-- A quorum of one masternode in every eight blocks. -/
def sampleLLMQ : LLMQMiningParams where
  type := 100
  size := 1
  minSize := 1
  dkgInterval := 8
  dkgMiningWindowStart := 1
  dkgMiningWindowEnd := 4
  signingActiveQuorumCount := 2
  type_lt := llmq10_60.type_lt
  signingActiveQuorumCount_pos := llmq10_60.signingActiveQuorumCount_pos

/-- Two blocks above the genesis block, and one above the second of them. -/
def forkIndex (hash : Uint256) : Option CBlockIndex :=
  if hash = 10 then some (.genesis 10)
  else if hash = 1 ∨ hash = 2 then some (.next hash (.genesis 10))
  else if hash = 3 then some (.next 3 (.next 2 (.genesis 10)))
  else none

theorem forkIndex_range (hash : Uint256) (pindex : CBlockIndex)
    (h : forkIndex hash = some pindex) : hash ≠ 0 ∧ hash < 2 ^ 256 := by
  unfold forkIndex at h
  split_ifs at h with hgenesis hfork hlast
  · subst hgenesis
    decide
  · rcases hfork with rfl | rfl
    · decide
    · decide
  · subst hlast
    decide

def oneMNList : CDeterministicMNList where
  mnMap := .ofList [(1, { registeredMN 1 0 with
    pdmnState := { (registeredMN 1 0).pdmnState with confirmedHash := 1 } })]

/-- Commitments have the hashes of their verification vectors, and the merkle root is the sum. -/
noncomputable def sampleQuorums (dip0003Height : Int) : QuorumEnv where
  env := { sampleEnv [] with
    dip0003Height := dip0003Height, mapBlockIndex := forkIndex, dip0008Active := fun _ => true }
  llmqs := [sampleLLMQ]
  llmqs_sorted := pairwise_singleton _ _
  lists := fun _ => oneMNList
  verifySigs := fun _ _ => true
  getSerializeSize := fun _ => 0
  commitmentHash := fun qc => qc.quorumVvecHash
  computeMerkleRoot := fun hashes => (hashes.sum, false)
  blockHash_range := forkIndex_range

/-- A commitment for the quorum of the genesis block. -/
def sampleCommitment (quorumVvecHash : Uint256) : CFinalCommitment where
  nVersion := 1
  llmqType := 100
  quorumHash := 10
  signers := [true]
  validMembers := [true]
  quorumPublicKey := ⟨some 1⟩
  quorumVvecHash := quorumVvecHash
  quorumSig := ⟨some 1⟩
  membersSig := ⟨some 1⟩

/-- A block at height 1 with this commitment. -/
def commitmentBlock (hash quorumVvecHash : Uint256) : CBlock where
  hash := hash
  vtx := [sampleTx .coinbase (.cbTx ⟨2, 1, 0, quorumVvecHash⟩),
    sampleTx .quorumCommitment (.commitment ⟨1, 1, sampleCommitment quorumVvecHash⟩)]

def freshNode : QuorumNode where
  processor := {}
  genesis := 10

theorem freshNode_starts (dip0003Height : Int) : freshNode.Starts (sampleQuorums dip0003Height) where
  known := rfl
  chain := rfl
  evoDb := rfl
  others _ hk := absurd hk not_mem_empty
  processor _ := rfl
  cache := rfl

/-- A block with a commitment is replaced by one with another commitment for the same quorum. -/
def reorg (fScriptChecks : Bool) : List NodeOp :=
  [.connect (commitmentBlock 1 7) [] true .connected, .createNewBlock ⟨0, [sampleCoinbase]⟩,
    .disconnect [], .connect (commitmentBlock 2 9) [] fScriptChecks .connected]

theorem reorg_run : ∃ tr n, Lts.Run (Step (sampleQuorums 1)) freshNode tr n ∧
    tr.map (fun x => x.2.1) = reorg true ∧ n.chain = [commitmentBlock 2 9] := by
  have hreplay : replay (sampleQuorums 1) (reorg true) freshNode
      (fun n => n.chain = [commitmentBlock 2 9]) = true := by decide +kernel
  obtain ⟨tr, n, hrun, hlabels, hchain⟩ := exists_run_of_replay hreplay
  exact ⟨tr, n, hrun, hlabels, of_decide_eq_true hchain⟩

/-! ### Sessions -/

theorem Inv.mined_of_stored (h : n.Inv qe) (params : LLMQMiningParams) {height : Nat}
    (hlt : height < 2 ^ 31)
    (hsome : (n.processor.evoDb.read
      (heightKey.put (buildInversedHeightKey params.type height))).isSome) :
    ∃ b qc, InSession qe params (height / params.dkgInterval) n.chain height b ∧
      qc ∈ b.carried params.type ∧ qc.isNull = false := by
  have hsome : (n.processor.evoDb.read (minedHeightKey params.type height)).isSome := hsome
  rw [h.holds.height params.type height params.type_lt hlt] at hsome
  obtain ⟨v, hv⟩ := isSome_iff_exists.mp hsome
  obtain ⟨b, hat, hv⟩ := bind_eq_some_iff.mp hv
  obtain ⟨qc, hmined, -⟩ := bind_eq_some_iff.mp hv
  obtain ⟨hactive, hcarried, hnull⟩ := mem_commitments_of_minedIn hmined
  exact ⟨b, qc, ⟨hat, rfl, hactive⟩, hcarried, hnull⟩

theorem Inv.storedOnce (h : n.Inv qe) {params : LLMQMiningParams} (hparams : params ∈ qe.llmqs)
    (session : Nat) : StoredOnce qe n.genesis n.chain params session n.processor.evoDb.read where
  commitment base hbase v hv := by
    obtain ⟨-, hrange⟩ := blockHash_range h.known hbase
    rw [h.holds.mined _ _ params.type_lt hrange, map_eq_some_iff] at hv
    obtain ⟨r, hr, rfl⟩ := hv
    obtain ⟨height, b, hat, hmined, hhash, hblock⟩ := exists_of_minedFor hr
    obtain ⟨hactive, hcarried, hnull⟩ := mem_commitments_of_minedIn hmined
    -- The block that mined it is of the session whose first block is the quorum.
    obtain ⟨base', hbase', hhash'⟩ := h.rules.quorum_of_carried hparams hat hactive hcarried
    have heq : base' = base := by
      refine (h.known.onChain (onChain_of_getAncestor hbase')).eq_of_hash
        (h.known.onChain (onChain_of_getAncestor hbase)) ?_
      rw [← hhash', hhash]
    have hstart := nHeight_of_getAncestor hbase'
    rw [heq, nHeight_of_getAncestor hbase] at hstart
    have hsession : height / params.dkgInterval = session :=
      (Nat.eq_of_mul_eq_mul_right params.dkgInterval_pos (by exact_mod_cast hstart)).symm
    exact ⟨height, b, r.1, ⟨hat, hsession, hactive⟩, hcarried, hnull, by rw [← hblock]⟩
  height height height' hsession hsession' hlt hlt' hsome hsome' := by
    by_contra hne
    obtain ⟨b, qc, hin, hcarried, hnull⟩ := h.mined_of_stored params hlt hsome
    obtain ⟨b', qc', hin', hcarried', hnull'⟩ := h.mined_of_stored params hlt' hsome'
    rw [hsession] at hin
    rw [hsession'] at hin'
    have hrule := h.rules.sessionRule h.known hparams session
    rcases Nat.lt_or_gt_of_ne hne with hbelow | hbelow
    · rw [hrule.after height' b' hin' ⟨height, b, qc, hbelow, hin, hcarried, hnull⟩] at hcarried'
      cases hcarried'
    · rw [hrule.after height b hin ⟨height', b', qc', hbelow, hin', hcarried', hnull'⟩] at hcarried
      cases hcarried

/-- **Commitments of a session.**  In every run, the blocks of a session to which the rules apply
carry none outside the mining window, one for the session's own quorum in every block of the window
up to the first that is not null, and none after it; and the database has at most one. -/
theorem run_sessionRule {n₀ n : QuorumNode} {tr : List (QuorumNode × NodeOp × QuorumNode)}
    (hstart : n₀.Starts qe) (hrun : Lts.Run (Step qe) n₀ tr n) {params : LLMQMiningParams}
    (hparams : params ∈ qe.llmqs) (session : Nat) :
    SessionRule qe n.genesis n.chain params session ∧
      StoredOnce qe n.genesis n.chain params session n.processor.evoDb.read := by
  have hinv := Inv.run hstart hrun
  exact ⟨hinv.rules.sessionRule hinv.known hparams session, hinv.storedOnce hparams session⟩

theorem run_sessionRule_reorg :
    ∃ tr n, Lts.Run (Step (sampleQuorums 1)) freshNode tr n ∧
      tr.map (fun x => x.2.1) = reorg true ∧ n.chain = [commitmentBlock 2 9] ∧
      SessionRule (sampleQuorums 1) n.genesis n.chain sampleLLMQ 0 ∧
      StoredOnce (sampleQuorums 1) n.genesis n.chain sampleLLMQ 0 n.processor.evoDb.read := by
  obtain ⟨tr, n, hrun, hlabels, hchain⟩ := reorg_run
  exact ⟨tr, n, hrun, hlabels, hchain, run_sessionRule (freshNode_starts 1) hrun mem_cons_self 0⟩

/-- Before the rules apply, a block of a mining window is accepted without a commitment. -/
theorem run_sessionRule_inactive :
    ∃ tr n b, freshNode.Starts (sampleQuorums 5) ∧
      Lts.Run (Step (sampleQuorums 5)) freshNode tr n ∧ n.chain = [b] ∧
      blockAt 1 n.chain = some b ∧ sampleLLMQ ∈ (sampleQuorums 5).llmqs ∧
      InWindow sampleLLMQ 1 ∧ b.carried sampleLLMQ.type = [] := by
  have hreplay : replay (sampleQuorums 5) [.connect ⟨1, [sampleCoinbase]⟩ [] true .connected] freshNode
      (fun n => n.chain = [⟨1, [sampleCoinbase]⟩]) = true := by decide +kernel
  obtain ⟨tr, n, hrun, -, hchain⟩ := exists_run_of_replay hreplay
  have hchain : n.chain = [⟨1, [sampleCoinbase]⟩] := of_decide_eq_true hchain
  refine ⟨tr, n, _, freshNode_starts 5, hrun, hchain, ?_, mem_cons_self, ?_, rfl⟩
  · rw [hchain]
    rfl
  · exact ⟨by decide, by decide⟩

/-! ### Mined commitments -/

/-- **Mined commitments.**  In every run, for every block of the chain, the query returns the quorums
of the type whose commitments were mined up to that block, the newest first. -/
theorem run_getMinedCommitmentsUntilBlock {n₀ n : QuorumNode}
    {tr : List (QuorumNode × NodeOp × QuorumNode)} (hstart : n₀.Starts qe)
    (hrun : Lts.Run (Step qe) n₀ tr n) {llmqType : Nat} (htype : llmqType < 256)
    {pindex : CBlockIndex} (hpindex : pindex.OnChain n.tip) (maxCount : Nat) :
    ∃ ret, n.processor.getMinedCommitmentsUntilBlock llmqType pindex maxCount = .ok ret ∧
      ret.map CBlockIndex.getBlockHash =
        (quorumsMined qe llmqType (n.chain.drop (n.chain.length - pindex.nHeight.toNat))).take
          maxCount ∧
      ∀ q ∈ ret, q.OnChain pindex := by
  have hinv := Inv.run hstart hrun
  obtain ⟨k, hk, rfl⟩ := exists_drop_of_onChain hpindex
  have hsplit : n.chain.take k ++ n.chain.drop k = n.chain := take_append_drop k n.chain
  have hheight : n.chain.length - (indexOf n.genesis (n.chain.drop k)).nHeight.toNat = k := by
    rw [nHeight_indexOf, length_drop]
    omega
  have hknown := hinv.known.onChain (onChain_indexOf_drop n.genesis n.chain k)
  have hrules := FollowsRules.of_append (hsplit.symm ▸ hinv.rules)
  refine ⟨_, getMinedCommitmentsUntilBlock_eq hinv.idle.within hknown hrules
    (hsplit.symm ▸ hinv.length) (hsplit.symm ▸ hinv.holds) htype maxCount, ?_, ?_⟩
  · rw [hheight, quorumsMined_eq_map, List.map_map, ← List.map_take]
    refine List.map_congr_left ?_
    intro p hp
    exact (quorumIndex_spec hknown hrules (mem_of_mem_take hp)).2.2
  · intro q hq
    obtain ⟨p, hp, rfl⟩ := mem_map.mp hq
    exact (quorumIndex_spec hknown hrules (mem_of_mem_take hp)).2.1

theorem run_getMinedCommitmentsUntilBlock_reorg :
    ∃ tr n ret, Lts.Run (Step (sampleQuorums 1)) freshNode tr n ∧
      tr.map (fun x => x.2.1) = reorg true ∧
      n.processor.getMinedCommitmentsUntilBlock 100 n.tip 2 = .ok ret ∧
      ret.map CBlockIndex.getBlockHash = [10] := by
  obtain ⟨tr, n, hrun, hlabels, hchain⟩ := reorg_run
  have htype : 100 < 256 := by decide
  obtain ⟨ret, hret, hmap, -⟩ :=
    run_getMinedCommitmentsUntilBlock (freshNode_starts 1) hrun htype (.refl n.tip) 2
  refine ⟨tr, n, ret, hrun, hlabels, hret, ?_⟩
  rw [hmap, tip, nHeight_indexOf, hchain]
  decide +kernel

/-! ### Two ways to one chain -/

theorem read_eq_of_holds {chain : List CBlock} {read read' : CDataStream → Option EvoValue}
    {k : CDataStream} (h : Holds qe chain read) (h' : Holds qe chain read')
    (hk : string.put dbMinedCommitmentByInversedHeight <+: k) : read k = read' k := by
  by_cases hnone : read k = none ∧ read' k = none
  · rw [hnone.1, hnone.2]
  · have hsome : (read k).isSome ∨ (read' k).isSome := by
      simpa [isSome_iff_ne_none, or_iff_not_imp_left] using hnone
    obtain ⟨llmqType, height, htype, hlt, rfl⟩ := hsome.elim (h.only k hk) (h'.only k hk)
    rw [h.height _ _ htype hlt, h'.height _ _ htype hlt]

/-- **The chain determines the store.**  Nodes that come to one chain, whatever they connected,
refused, undid, looked up and flushed before, have the same commitments and answer alike. -/
theorem run_mined_eq {n₀ m₀ m : QuorumNode} {tr tr' : List (QuorumNode × NodeOp × QuorumNode)}
    (hn₀ : n₀.Starts qe) (hm₀ : m₀.Starts qe) (hn : Lts.Run (Step qe) n₀ tr n)
    (hm : Lts.Run (Step qe) m₀ tr' m) (hchain : n.chain = m.chain) :
    (∀ llmqType quorumHash, llmqType < 256 → quorumHash < 2 ^ 256 →
      n.processor.evoDb.read (minedCommitmentKey llmqType quorumHash) =
          m.processor.evoDb.read (minedCommitmentKey llmqType quorumHash) ∧
        (n.processor.hasMinedCommitment llmqType quorumHash).1 =
          (m.processor.hasMinedCommitment llmqType quorumHash).1) ∧
    ∀ k, string.put dbMinedCommitmentByInversedHeight <+: k →
      n.processor.evoDb.read k = m.processor.evoDb.read k := by
  have hn := Inv.run hn₀ hn
  have hm := Inv.run hm₀ hm
  have hholds : Holds qe n.chain m.processor.evoDb.read := hchain ▸ hm.holds
  refine ⟨fun llmqType quorumHash htype hhash => ?_, fun k => read_eq_of_holds hn.holds hholds⟩
  have hread := (hn.holds.mined _ _ htype hhash).trans (hholds.mined _ _ htype hhash).symm
  refine ⟨hread, ?_⟩
  rw [(hasMinedCommitment_spec hn.cache htype hhash rfl).1,
    (hasMinedCommitment_spec hm.cache htype hhash rfl).1, hread]

def undone : List NodeOp := [.connect (commitmentBlock 1 7) [] true .connected, .disconnect []]

theorem run_mined_eq_undone : ∃ tr n, Lts.Run (Step (sampleQuorums 1)) freshNode tr n ∧
    tr.map (fun x => x.2.1) = undone ∧ (n.processor.hasMinedCommitment 100 10).1 =
      (freshNode.processor.hasMinedCommitment 100 10).1 := by
  have hreplay : replay (sampleQuorums 1) undone freshNode (fun n => n.chain = []) = true := by
    decide +kernel
  obtain ⟨tr, n, hn, htr, hchain⟩ := exists_run_of_replay hreplay
  have hstart := freshNode_starts 1
  have hsame := run_mined_eq hstart hstart hn (.nil freshNode) (of_decide_eq_true hchain)
  exact ⟨tr, n, hn, htr, (hsame.1 100 10 (by decide) (by decide)).2⟩

end QuorumNode

end Absolute
