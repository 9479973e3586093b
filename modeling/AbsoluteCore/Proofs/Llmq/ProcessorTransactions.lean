/-
What the block processor remembers, across transactions.

Within a transaction the answers stay right, because what is stored or erased is forgotten at once.
Giving a transaction up restores the database and leaves the answers alone.  They are right then
just where the transaction had not changed what they are about.
-/
import AbsoluteCore.Spec.ProcessorTransactions
import AbsoluteCore.Proofs.Llmq.QuorumRuns

namespace Absolute

open BlockProcessorKeys List Function Option Except Fallible Lts.Run CEvoDB

variable {qe : QuorumEnv}

namespace CQuorumBlockProcessor

variable {s t u : CQuorumBlockProcessor}

theorem coherent_iff : s.Coherent ↔ CacheKept s.evoDb.read s := by
  constructor
  · intro h llmqType quorumHash ret htype hhash hret
    refine ⟨?_, rfl⟩
    have hquery := h llmqType quorumHash htype hhash
    rw [hasMinedCommitment, hret, existsKey_eq] at hquery
    exact hquery
  · intro h llmqType quorumHash htype hhash
    rw [(hasMinedCommitment_spec h htype hhash rfl).1, existsKey_eq]

/-! ### Within a transaction -/

/-- The processor goes on within its transaction and keeps its answers right. -/
structure Moved (qe : QuorumEnv) (s t : CQuorumBlockProcessor) : Prop where
  within : ∀ e : CEvoDB EvoValue, e.Within qe.getSerializeSize s.evoDb →
    e.Within qe.getSerializeSize t.evoDb
  cache : CacheKept s.evoDb.read s → CacheKept t.evoDb.read t

namespace Moved

theorem refl (s) : Moved qe s s := ⟨fun _ h => h, fun h => h⟩

theorem trans (h : Moved qe s t) (h' : Moved qe t u) : Moved qe s u :=
  ⟨fun e he => h'.within e (h.within e he), fun hs => h'.cache (h.cache hs)⟩

/-- It is enough that the answers are right for the database as it was. -/
theorem of_kept (hwithin : ∀ e : CEvoDB EvoValue, e.Within qe.getSerializeSize s.evoDb →
      e.Within qe.getSerializeSize t.evoDb)
    (hcache : CacheKept s.evoDb.read s → CacheKept s.evoDb.read t) : Moved qe s t :=
  ⟨hwithin, fun hs => (hcache hs).committed rfl⟩

end Moved

variable {chainTip pindex : CBlockIndex} {qc : CFinalCommitment} {params : LLMQMiningParams}

theorem moved_hasMinedCommitment (s) {llmqType : Nat}
    {quorumHash : Uint256} (htype : llmqType < 256) (hhash : quorumHash < 2 ^ 256) :
    Moved qe s (s.hasMinedCommitment llmqType quorumHash).2 := by
  refine .of_kept (fun e he => ?_) fun hcache => ?_
  · rw [evoDb_hasMinedCommitment]
    exact he
  · exact (hasMinedCommitment_spec hcache htype hhash rfl).2.2

theorem getQuorumBlockHash_lt (hknown : chainTip.Known qe.env) (params)
    (nHeight : Int) : getQuorumBlockHash chainTip params nHeight < 2 ^ 256 := by
  unfold getQuorumBlockHash getBlockHash
  dsimp only
  split
  · exact Nat.two_pow_pos 256
  · cases hbase : chainTip.getAncestor _ with
    | none => exact Nat.two_pow_pos 256
    | some base => exact (blockHash_range hknown hbase).2

theorem moved_isCommitmentRequired (hknown : chainTip.Known qe.env) (params)
    (nHeight : Int) (s) : Moved qe s (s.isCommitmentRequired chainTip params nHeight).2 := by
  unfold isCommitmentRequired
  dsimp only
  split
  · exact .refl s
  · exact moved_hasMinedCommitment s params.type_lt (getQuorumBlockHash_lt hknown params nHeight)

/-- Whether the code ends or fails, the processor has moved. -/
def Moves (qe : QuorumEnv) (s : CQuorumBlockProcessor) :
    Except (Fail × CQuorumBlockProcessor) CQuorumBlockProcessor → Prop :=
  Ends (Moved qe s) fun r => Moved qe s r.2

theorem moves_foldlM {α : Type}
    {f : CQuorumBlockProcessor → α → Except (Fail × CQuorumBlockProcessor) CQuorumBlockProcessor}
    (hf : ∀ s x, Moves qe s (f s x)) (xs : List α) (s) : Moves qe s (xs.foldlM f s) :=
  Ends.foldlM (fun _ => Moved qe s)
    (fun _ x _ _ t ht => (hf t x).imp (fun _ => ht.trans) fun _ => ht.trans) (.refl s)

theorem moves_checkRequired (hknown : chainTip.Known qe.env) (nHeight : Int)
    (qcs : List CFinalCommitment) (s params) :
    Moves qe s (checkRequired chainTip nHeight qcs s params) := by
  have hmoved := moved_isCommitmentRequired hknown params nHeight s
  unfold checkRequired
  dsimp only
  split
  · exact hmoved
  · split <;> exact hmoved

theorem moved_store (s) (height : Nat) (blockHash : Uint256)
    (htype : qc.llmqType < 256) (hhash : qc.quorumHash < 2 ^ 256) : Moved qe s
      { evoDb := writeEntries qe (storedEntries qe height blockHash qc) s.evoDb
        hasMinedCommitmentCache :=
          update s.hasMinedCommitmentCache (qc.llmqType, qc.quorumHash) none } :=
  .of_kept (fun _ he => within_writeEntries he _) fun hcache =>
    hcache.store qe height blockHash htype hhash

theorem moves_processCommitment (hknown : chainTip.Known qe.env) (height : Nat)
    (blockHash : Uint256) (s qc) :
    Moves qe s (processCommitment qe chainTip height blockHash s qc) := by
  unfold processCommitment
  cases hparams : qe.params qc.llmqType with
  | none => exact .refl s
  | some params =>
    obtain ⟨-, htype⟩ := QuorumEnv.params_eq_some.mp hparams
    dsimp only
    split
    · exact .refl s
    split
    · exact .refl s
    · rename_i hquorum
      rw [not_not] at hquorum
      split
      · split <;> exact .refl s
      · rename_i hnull
        have htypeLt : qc.llmqType < 256 := htype ▸ params.type_lt
        have hhashLt : qc.quorumHash < 2 ^ 256 := hquorum ▸ getQuorumBlockHash_lt hknown params _
        rw [hquorum, ← htype]
        have hmoved : Moved qe s (s.hasMinedCommitment qc.llmqType qc.quorumHash).2 :=
          moved_hasMinedCommitment s htypeLt hhashLt
        split
        · exact hmoved
        split
        · exact hmoved
        cases hindex : qe.env.mapBlockIndex qc.quorumHash with
        | none => exact hmoved
        | some quorumIndex =>
          dsimp only
          split
          · exact hmoved
          · exact hmoved
          · refine hmoved.trans ?_
            have hstore : Moved qe (s.hasMinedCommitment qc.llmqType qc.quorumHash).2 _ :=
              moved_store _ height blockHash htypeLt hhashLt
            rw [storedEntries, if_neg hnull, hindex] at hstore
            exact hstore

theorem moved_others (s) {ssKey : CDataStream} (hkey : OthersKey ssKey) (value : Option EvoValue) :
    Moved qe s { s with evoDb := QuorumNode.writeOthers qe [(ssKey, value)] s.evoDb } := by
  cases value with
  | some value =>
    exact .of_kept (fun _ he => he.write ssKey value) fun hcache =>
      hcache.others hkey (read_write s.evoDb ssKey value)
  | none =>
    exact .of_kept (fun _ he => he.erase ssKey) fun hcache =>
      hcache.others hkey (read_erase s.evoDb ssKey)

theorem moved_writeBestBlockUpgrade (s) (hash : Uint256) :
    Moved qe s (s.writeBestBlockUpgrade qe hash) :=
  moved_others s othersKey_bestBlockUpgradeKey (some (.bestBlock hash))

theorem exists_nHeight_eq (pindex : CBlockIndex) : ∃ n : Nat, pindex.nHeight = n := by
  cases pindex with
  | genesis hash => exact ⟨0, rfl⟩
  | next hash pprev => exact ⟨_, (Int.toNat_of_nonneg (CBlockIndex.nHeight_nonneg _)).symm⟩

/-- `ProcessBlock` keeps the answers right, whether it accepts the block or not. -/
theorem moves_processBlock (hknown : chainTip.Known qe.env) (block : CBlock) (pindex : CBlockIndex)
    (s : CQuorumBlockProcessor) :
    Moves qe s (s.processBlock qe chainTip block pindex) := by
  obtain ⟨height, hheight⟩ := exists_nHeight_eq pindex
  unfold processBlock
  split
  · exact moved_writeBestBlockUpgrade s block.hash
  cases getCommitmentsFromBlock qe block pindex with
  | error fail => exact .refl s
  | ok qcs =>
    rw [hheight]
    refine (moves_foldlM (moves_checkRequired hknown height qcs) qe.llmqs s).bind ?_ fun _ h => h
    intro s₁ h₁
    refine (moves_foldlM (moves_processCommitment hknown height block.hash) (byType qcs) s₁).bind
      ?_ fun _ h => h₁.trans h
    exact fun s₂ h₂ => (h₁.trans h₂).trans (moved_writeBestBlockUpgrade s₂ block.hash)

theorem moved_undoCommitment (s) (height : Nat)
    (htype : qc.llmqType < 256) (hhash : qc.quorumHash < 2 ^ 256) :
    Moved qe s (undoCommitment height s qc) :=
  .of_kept (fun _ he => within_undoCommitment he height qc)
    fun hcache => hcache.undoCommitment height htype hhash

theorem moved_undoBlock {block : CBlock} (pindex : CBlockIndex)
    (hrange : ∀ qc ∈ block.commitments, qc.llmqType < 256 ∧ qc.quorumHash < 2 ^ 256)
    (s : CQuorumBlockProcessor) : Moved qe s ((s.undoBlock qe block pindex).getD s) := by
  obtain ⟨height, hheight⟩ := exists_nHeight_eq pindex
  cases hqcs : getCommitmentsFromBlock qe block pindex with
  | error fail =>
    unfold undoBlock
    rw [hqcs]
    cases pindex <;> exact .refl s
  | ok qcs =>
    obtain ⟨-, rfl, -⟩ := collected_of_getCommitmentsFromBlock hqcs
    have hundo : Moved qe s ((byType block.commitments).foldl (undoCommitment height) s) := by
      refine foldlRecOn _ _ (Moved.refl s) fun t ht qc hqc => ht.trans ?_
      obtain ⟨htype, hhash⟩ := hrange qc (mem_byType.mp hqc)
      exact moved_undoCommitment t height htype hhash
    unfold undoBlock
    rw [hqcs, hheight]
    cases pindex with
    | genesis hash => exact .refl s
    | next hash pprev =>
      exact hundo.trans (moved_writeBestBlockUpgrade _ _)

theorem isCommitmentRequired_congr (hcache : CacheKept s.evoDb.read s)
    (hcache' : CacheKept t.evoDb.read t) (hread : t.evoDb.read = s.evoDb.read)
    (hknown : chainTip.Known qe.env) (params) (nHeight : Int) :
    (t.isCommitmentRequired chainTip params nHeight).1 =
      (s.isCommitmentRequired chainTip params nHeight).1 := by
  have hhash := getQuorumBlockHash_lt hknown params nHeight
  unfold isCommitmentRequired
  dsimp only
  split
  · rfl
  · rw [(hasMinedCommitment_spec hcache params.type_lt hhash rfl).1,
      (hasMinedCommitment_spec hcache' params.type_lt hhash rfl).1, hread]

end CQuorumBlockProcessor

/-! ### Runs -/

namespace ProcessorState

open CQuorumBlockProcessor
open QuorumNode (sampleQuorums sampleLLMQ commitmentBlock)

variable {s s' : ProcessorState} {op : ProcessorOp}

/-- The database is between transactions, or within the one that began with this processor. -/
def Scoped (qe : QuorumEnv) (s : ProcessorState) : Prop :=
  match s.scope with
  | none => s.processor.evoDb.Idle qe.getSerializeSize
  | some (scope, began) => scope = {} ∧
      began.evoDb.Within qe.getSerializeSize s.processor.evoDb

theorem Scoped.rollback_cases (h : s.Scoped qe) (hok : s.apply qe .rollback = .ok s') :
    ∃ began, s.scope = some ({}, began) ∧
      began.evoDb.Within qe.getSerializeSize s.processor.evoDb ∧
      s' = { processor := { s.processor with evoDb := began.evoDb } } := by
  unfold Scoped at h
  unfold apply at hok
  cases hscope : s.scope with
  | none =>
    rw [hscope] at hok
    cases hok
  | some p =>
    obtain ⟨scope, began⟩ := p
    rw [hscope] at h hok
    obtain ⟨rfl, hwithin⟩ := h
    dsimp only at hok
    rw [hwithin.rollback] at hok
    exact ⟨began, rfl, hwithin, (ok.inj hok).symm⟩

/-- A step other than a rollback keeps answers right.  A transaction that goes on after it went on
before, or begins with it. -/
structure Kept (qe : QuorumEnv) (s s' : ProcessorState) : Prop where
  scope : s'.Scoped qe
  cache : CacheKept s.processor.evoDb.read s.processor →
    CacheKept s'.processor.evoDb.read s'.processor
  began : ∀ began ∈ s'.scope, began ∈ s.scope ∨ began.2 = s.processor

theorem Scoped.moved (h : s.Scoped qe) (hscope : s.scope.isSome) {p : CQuorumBlockProcessor}
    (hmoved : Moved qe s.processor p) : Kept qe s { s with processor := p } := by
  refine ⟨?_, hmoved.cache, fun began hbegan => .inl hbegan⟩
  obtain ⟨⟨scope, began⟩, heq⟩ := isSome_iff_exists.mp hscope
  unfold Scoped at h ⊢
  rw [heq] at h ⊢
  exact ⟨h.1, hmoved.within _ h.2⟩

/-- A commit or a flush: the transaction is over and the same is read. -/
theorem kept_committed {e : CEvoDB EvoValue} (hidle : e.Idle qe.getSerializeSize)
    (hread : e.read = s.processor.evoDb.read) :
    Kept qe s { processor := { s.processor with evoDb := e } } :=
  ⟨hidle, fun hcache => hcache.committed hread, fun _ hbegan => (by cases hbegan)⟩

theorem Scoped.step (h : s.Scoped qe) (hstep : Step qe s op s') (hop : op ≠ .rollback) :
    Kept qe s s' := by
  obtain ⟨hpossible, hok⟩ := hstep
  cases op with
  | beginTransaction =>
    have hscope : s.scope = none := hpossible
    unfold Scoped at h
    rw [hscope] at h
    rw [apply, h.beginTransaction, ok_bind] at hok
    obtain rfl := ok.inj hok
    refine ⟨⟨rfl, h.within⟩, fun hcache => hcache, fun began hbegan => .inr ?_⟩
    rw [← some.inj hbegan]
  | processBlock chainTip block pindex =>
    have hmoved := moves_processBlock hpossible.2 block pindex s.processor
    rw [apply] at hok
    split at hok
    · cases hok
    · rename_i hprocess
      obtain rfl := ok.inj hok
      rw [hprocess] at hmoved
      exact h.moved hpossible.1 hmoved
    · rename_i hprocess
      obtain rfl := ok.inj hok
      rw [hprocess] at hmoved
      exact h.moved hpossible.1 hmoved
  | undoBlock block pindex =>
    obtain rfl := ok.inj hok
    exact h.moved hpossible.1 (moved_undoBlock pindex hpossible.2 s.processor)
  | others ssKey value =>
    obtain rfl := ok.inj hok
    exact h.moved hpossible.1 (moved_others s.processor hpossible.2 value)
  | hasMinedCommitment llmqType quorumHash =>
    obtain rfl := ok.inj hok
    have hmoved : Moved qe s.processor _ :=
      moved_hasMinedCommitment s.processor hpossible.1 hpossible.2
    refine ⟨?_, hmoved.cache, fun began hbegan => .inl hbegan⟩
    unfold Scoped
    rw [evoDb_hasMinedCommitment]
    exact h
  | commit =>
    obtain ⟨⟨scope, began⟩, heq⟩ := isSome_iff_exists.mp hpossible
    unfold Scoped at h
    rw [heq] at h
    obtain ⟨rfl, hwithin⟩ := h
    obtain ⟨e, hcommit, hidle, hread⟩ := hwithin.commit
    rw [apply, heq] at hok
    dsimp only at hok
    rw [hcommit] at hok
    obtain rfl := ok.inj hok
    exact kept_committed hidle hread
  | rollback => exact absurd rfl hop
  | flush =>
    have hscope : s.scope = none := hpossible
    unfold Scoped at h
    rw [hscope] at h
    obtain ⟨e, hflush, hidle, hread⟩ := h.commitRootTransaction
    rw [apply, hflush, hscope] at hok
    obtain rfl := ok.inj hok
    exact kept_committed hidle hread

/-- What a run keeps as long as no transaction is given up with an answer exposed. -/
structure Inv (qe : QuorumEnv) (s : ProcessorState) : Prop where
  scope : s.Scoped qe
  cache : CacheKept s.processor.evoDb.read s.processor
  began : ∀ began ∈ s.scope, CacheKept began.2.evoDb.read began.2

theorem Starts.inv (h : s.Starts) : s.Inv qe := by
  refine ⟨?_, ?_, ?_⟩
  · unfold Scoped
    rw [h.scope, h.evoDb]
    exact .ofDb _ _
  · intro llmqType quorumHash ret _ _ hret
    rw [h.cache] at hret
    cases hret
  · intro began hbegan
    rw [h.scope] at hbegan
    cases hbegan

/-- Giving a transaction up keeps the answers right just where none is exposed. -/
theorem coherent_rollback_iff {began : CScopedDBTransaction × CQuorumBlockProcessor}
    (hcache : CacheKept s.processor.evoDb.read s.processor) (hscope : s.scope = some began) :
    CacheKept began.2.evoDb.read { s.processor with evoDb := began.2.evoDb } ↔ ¬ s.Exposed := by
  constructor
  · intro h hexposed
    obtain ⟨began', hbegan, llmqType, quorumHash, htype, hhash, hsome, hne⟩ := hexposed
    obtain rfl : began = began' := some.inj (hscope.symm.trans hbegan)
    obtain ⟨ret, hret⟩ := isSome_iff_exists.mp hsome
    rw [existsKey_eq, existsKey_eq, ← (hcache _ _ ret htype hhash hret).1] at hne
    exact hne (h _ _ ret htype hhash hret).1
  · intro hnot llmqType quorumHash ret htype hhash hret
    refine ⟨?_, rfl⟩
    by_contra hne
    refine hnot ⟨began, hscope, llmqType, quorumHash, htype, hhash, ?_, ?_⟩
    · have hret : s.processor.hasMinedCommitmentCache (llmqType, quorumHash) = some ret := hret
      rw [hret]
      rfl
    · rw [existsKey_eq, existsKey_eq, ← (hcache _ _ ret htype hhash hret).1]
      exact hne

theorem Inv.step (h : s.Inv qe) (hstep : Step qe s op s') (hop : op = .rollback → ¬ s.Exposed) :
    s'.Inv qe ∧ (op = .rollback → RequiredKept qe s s') := by
  by_cases hrollback : op = .rollback
  · subst hrollback
    obtain ⟨began, hscope, hwithin, rfl⟩ := h.scope.rollback_cases hstep.2
    have hcache := (coherent_rollback_iff h.cache hscope).mpr (hop rfl)
    refine ⟨⟨hwithin.idle, hcache, fun _ hbegan => (by cases hbegan)⟩, fun _ => ?_⟩
    intro began' hbegan chainTip hknown params nHeight
    rw [hscope] at hbegan
    obtain rfl := some.inj hbegan
    exact isCommitmentRequired_congr (h.began _ hscope) hcache rfl hknown params nHeight
  · have hkept := h.scope.step hstep hrollback
    refine ⟨⟨hkept.scope, hkept.cache h.cache, fun began hbegan => ?_⟩,
      fun hop => absurd hop hrollback⟩
    rcases hkept.began began hbegan with hbegan | hbegan
    · exact h.began began hbegan
    · rw [hbegan]
      exact h.cache

theorem Inv.run {tr : List (ProcessorState × ProcessorOp × ProcessorState)} (h : s.Inv qe)
    (hrun : Lts.Run (Step qe) s tr s') (hrollback : ∀ x ∈ tr, x.2.1 = .rollback → ¬ x.1.Exposed) :
    ∀ x ∈ tr, x.1.Inv qe ∧ x.2.2.Inv qe ∧
      (x.2.1 = .rollback → RequiredKept qe x.1 x.2.2) := by
  have hall := (hrun.and_mem hrollback).invariant (Inv qe)
    (fun t op t' ht hstep => (ht.step hstep.1 hstep.2).1) h
  intro x hx
  obtain ⟨hinv, hstep, hexposed⟩ := hall.2 x hx
  exact ⟨hinv, hinv.step hstep hexposed⟩

/-- **Queries are right just as long as no exposed answer survives a rollback.**  From any start,
every query along a run is answered as the database answers it, and what a transaction given up had
in it changes nothing that is required, if and only if no transaction is given up while an answer is
remembered for a commitment that it has stored or erased. -/
theorem run_coherent_iff {tr : List (ProcessorState × ProcessorOp × ProcessorState)}
    (hstart : s.Starts) (hrun : Lts.Run (Step qe) s tr s') :
    (∀ x ∈ tr, x.1.processor.Coherent ∧ x.2.2.processor.Coherent ∧
        (x.2.1 = .rollback → RequiredKept qe x.1 x.2.2)) ↔
      ∀ x ∈ tr, x.2.1 = .rollback → ¬ x.1.Exposed := by
  constructor
  · intro h x hx hop
    -- The database keeps its transactions apart, whatever is remembered.
    have hscope : ∀ x ∈ tr, x.1.Scoped qe ∧ Step qe x.1 x.2.1 x.2.2 := by
      refine (hrun.invariant (Scoped qe) ?_ hstart.inv.scope).2
      intro t op t' ht hstep
      by_cases hop : op = .rollback
      · obtain ⟨began, -, hwithin, rfl⟩ := ht.rollback_cases (hop ▸ hstep.2)
        exact hwithin.idle
      · exact (ht.step hstep hop).scope
    obtain ⟨hbefore, hafter, -⟩ := h x hx
    obtain ⟨hscoped, hpossible, hok⟩ := hscope x hx
    rw [hop] at hok
    obtain ⟨began, hbegan, -, heq⟩ := hscoped.rollback_cases hok
    rw [heq] at hafter
    exact (coherent_rollback_iff (coherent_iff.mp hbefore) hbegan).mp (coherent_iff.mp hafter)
  · intro h x hx
    obtain ⟨hinv, hinv', hrequired⟩ := hstart.inv.run hrun h x hx
    exact ⟨coherent_iff.mpr hinv.cache, coherent_iff.mpr hinv'.cache, hrequired⟩

/-! ### A block that is only tested -/

instance (qe : QuorumEnv) (s : ProcessorState) : ∀ op, Decidable (s.Possible qe op)
  | .beginTransaction => decidable_of_iff _ isNone_iff_eq_none
  | .flush => decidable_of_iff _ isNone_iff_eq_none
  | .processBlock _ _ _ => inferInstanceAs (Decidable (_ ∧ _))
  | .undoBlock _ _ => inferInstanceAs (Decidable (_ ∧ _))
  | .others _ _ => inferInstanceAs (Decidable (_ ∧ _))
  | .hasMinedCommitment _ _ => inferInstanceAs (Decidable (_ ∧ _))
  | .commit => inferInstanceAs (Decidable (_ = _))
  | .rollback => inferInstanceAs (Decidable (_ = _))

theorem not_exposed_of_query {s₁ s₂ : ProcessorState} {llmqType : Nat} {quorumHash : Uint256}
    (hbegin : Step qe s .beginTransaction s₁)
    (hquery : Step qe s₁ (.hasMinedCommitment llmqType quorumHash) s₂) : ¬ s₂.Exposed := by
  obtain ⟨scope, -, hok⟩ := bind_eq_ok.mp hbegin.2
  obtain rfl := pure_eq_ok.mp hok
  obtain rfl := Except.ok.inj hquery.2
  rintro ⟨began, hbegan, _, _, -, -, -, hne⟩
  obtain rfl := some.inj hbegan
  exact hne (by rw [evoDb_hasMinedCommitment])

/-- A commitment is mined and asked for, and again in a transaction that is given up. -/
theorem run_coherent_iff_mined : ∃ tr t,
    Lts.Run (Step (sampleQuorums 1)) { processor := {} } tr t ∧
      (t.processor.hasMinedCommitment 100 10).1 = true ∧ tr.map (fun x => x.2.1) =
        [.beginTransaction, .processBlock (.genesis 10) (commitmentBlock 1 7) (.next 1 (.genesis 10)),
          .commit, .hasMinedCommitment 100 10] ++
        [.beginTransaction, .hasMinedCommitment 100 10, .rollback] ∧
      ∀ x ∈ tr, x.1.processor.Coherent ∧ x.2.2.processor.Coherent := by
  have hstart : ({ processor := {} } : ProcessorState).Starts := ⟨rfl, fun _ => rfl, rfl⟩
  obtain ⟨tr, t, hrun, hlabels, htest⟩ := of_replay attempt_eq_some
    ([.beginTransaction, .processBlock (.genesis 10) (commitmentBlock 1 7) (.next 1 (.genesis 10)),
        .commit, .hasMinedCommitment 100 10] ++
      [.beginTransaction, .hasMinedCommitment 100 10, .rollback]) _
    (show replay (attempt (Possible (sampleQuorums 1)) (apply (sampleQuorums 1)))
      (fun t => (t.processor.hasMinedCommitment 100 10).1) { processor := {} } _ = true by
        decide +kernel)
  have hcoherent := (run_coherent_iff hstart hrun).mpr (by
    obtain ⟨tr₁, tr₂, rfl, hlabels₁, hlabels₂⟩ := map_eq_append_iff.mp hlabels
    obtain ⟨s, -, hrun₂⟩ := hrun.exists_of_append
    intro x hx hop
    rcases mem_append.mp hx with hx | hx
    · have hmem := mem_map_of_mem (f := fun x => x.2.1) hx
      rw [hlabels₁, hop] at hmem
      simp at hmem
    · obtain _ | ⟨hbegin, _ | ⟨hquery, _ | ⟨hrollback, hrest⟩⟩⟩ := hrun₂ <;> simp at hlabels₂
      obtain ⟨rfl, rfl, rfl, rfl⟩ := hlabels₂
      simp only [mem_cons, not_mem_nil, or_false] at hx
      rcases hx with rfl | rfl | rfl
      · cases hop
      · cases hop
      · exact not_exposed_of_query hbegin hquery)
  exact ⟨tr, t, hrun, htest, hlabels, fun x hx => ⟨(hcoherent x hx).1, (hcoherent x hx).2.1⟩⟩

/-- A block with a commitment is tested, and another thread asks for the commitment meanwhile. -/
def testedBlock : List ProcessorOp :=
  [.beginTransaction, .processBlock (.genesis 10) (commitmentBlock 1 7) (.next 1 (.genesis 10)),
    .hasMinedCommitment 100 10, .rollback]

/-- The commitment of a block that was only tested is taken to be mined, and the chain is no longer
required to have one. -/
theorem run_not_coherent :
    ∃ tr t, Lts.Run (Step (sampleQuorums 1)) { processor := {} } tr t ∧
      tr.map (fun x => x.2.1) = testedBlock ∧
      (t.processor.hasMinedCommitment 100 10).1 = true ∧
      t.processor.evoDb.existsKey (minedCommitmentKey 100 10) = false ∧
      (t.processor.isCommitmentRequired (.genesis 10) sampleLLMQ 1).1 = false ∧
      (isCommitmentRequired (.genesis 10) sampleLLMQ 1 {}).1 = true := by
  have hreplay : replay
      (attempt (Possible (sampleQuorums 1)) (apply (sampleQuorums 1)))
      (fun t => (t.processor.hasMinedCommitment 100 10).1 = true ∧
        t.processor.evoDb.existsKey (minedCommitmentKey 100 10) = false ∧
        (t.processor.isCommitmentRequired (.genesis 10) sampleLLMQ 1).1 = false ∧
        (isCommitmentRequired (.genesis 10) sampleLLMQ 1 {}).1 = true)
      { processor := {} } testedBlock = true := by decide +kernel
  obtain ⟨tr, t, hrun, hlabels, htest⟩ :=
    of_replay attempt_eq_some testedBlock _ hreplay
  exact ⟨tr, t, hrun, hlabels, of_decide_eq_true htest⟩

end ProcessorState

end Absolute
