/-
The active chain and the masternode lists of its blocks.

`ProcessBlock` builds the list of a block from the list of the block before it and stores it;
here the stored list is simply remembered.  That what is stored can be read back is a
question about differences, snapshots and the cache, and is asked elsewhere.
-/
import AbsoluteCore.Evo.DeterministicMNManager
import AbsoluteCore.Lib.Run

namespace Absolute

open Function

/-- The last block of the chain and the lists of all blocks. -/
structure Chain where
  tip : CBlockIndex
  lists : CBlockIndex → CDeterministicMNList

namespace Chain

def list (c : Chain) : CDeterministicMNList := c.lists c.tip

/-- Only the genesis block: no list is stored, so every block has the empty list of height -1. -/
def genesis (blockHash : Uint256) : Chain where
  tip := .genesis blockHash
  lists := fun p => { blockHash := p.getBlockHash }

/-- `ProcessBlock` accepted a block on top of the chain. -/
inductive Connect (env : Env) : Chain → CBlock → Chain → Prop
  | inactive {c : Chain} {block : CBlock} (hinactive : c.tip.nHeight + 1 < env.dip0003Height) :
      Connect env c block { c with tip := .next block.hash c.tip }
  | active {c : Chain} {block : CBlock} {newList : CDeterministicMNList}
      (hactive : env.dip0003Height ≤ c.tip.nHeight + 1)
      (hcheck : ∀ tx ∈ block.vtx, checkSpecialTx env c.lists tx c.tip = .ok ())
      (hbuild : buildNewListFromBlock env c.lists block c.tip = .ok newList)
      (henforced : c.tip.nHeight + 1 = env.dip0003EnforcementHeight →
        env.dip0003EnforcementHash = 0 ∨ env.dip0003EnforcementHash = block.hash) :
      Connect env c block
        { tip := .next block.hash c.tip
          lists := Function.update c.lists (.next block.hash c.tip)
            { newList with blockHash := block.hash } }

variable {env : Env} {c c' : Chain} {block : CBlock}

theorem Connect.tip_eq (h : Connect env c block c') : c'.tip = .next block.hash c.tip := by
  cases h <;> rfl

theorem Connect.nHeight_eq (h : Connect env c block c') : c'.tip.nHeight = c.tip.nHeight + 1 := by
  rw [h.tip_eq]
  rfl

/-- Blocks above the tip have no stored list yet. -/
def AheadEmpty (c : Chain) : Prop :=
  ∀ p : CBlockIndex, c.tip.nHeight < p.nHeight → c.lists p = { blockHash := p.getBlockHash }

theorem Connect.aheadEmpty (h : Connect env c block c') (hc : c.AheadEmpty) : c'.AheadEmpty := by
  intro p hp
  have hheight := h.nHeight_eq
  cases h with
  | inactive => exact hc p (by omega)
  | active =>
    have hne : p ≠ .next block.hash c.tip := by
      intro heq
      rw [heq] at hp
      exact lt_irrefl _ hp
    show update c.lists _ _ p = _
    rw [update_of_ne hne]
    exact hc p (by omega)

theorem Connect.list_cases (h : Connect env c block c') (hc : c.AheadEmpty) :
    (c.tip.nHeight + 1 < env.dip0003Height ∧ c'.list = { blockHash := block.hash }) ∨
    (env.dip0003Height ≤ c.tip.nHeight + 1 ∧
      (∀ tx ∈ block.vtx, checkSpecialTx env c.lists tx c.tip = .ok ()) ∧
      ∃ newList, buildNewListFromBlock env c.lists block c.tip = .ok newList ∧
        c'.list = { newList with blockHash := block.hash }) := by
  cases h with
  | inactive hinactive =>
    have hnext : c.tip.nHeight < (CBlockIndex.next block.hash c.tip).nHeight := by
      simp only [CBlockIndex.nHeight]
      omega
    exact Or.inl ⟨hinactive, hc _ hnext⟩
  | active hactive hcheck hbuild _ =>
    refine Or.inr ⟨hactive, hcheck, _, hbuild, ?_⟩
    show update c.lists _ _ _ = _
    rw [update_self]

/-- A block after which there is a masternode was built. -/
theorem Connect.built (hconnect : Connect env c block c') (hahead : c.AheadEmpty) {h : Uint256}
    {d : CDeterministicMN} (hd : c'.list.mnMap[h]? = some d) :
    (∀ tx ∈ block.vtx, checkSpecialTx env c.lists tx c.tip = .ok ()) ∧
      ∃ newList, buildNewListFromBlock env c.lists block c.tip = .ok newList ∧
        c'.list = { newList with blockHash := block.hash } := by
  rcases hconnect.list_cases hahead with ⟨-, hlist⟩ | ⟨-, hbuilt⟩
  · rw [hlist] at hd
    simp at hd
  · exact hbuilt

/--
The rule for every list that can be reached: what the empty list has and every block
preserves, the list of every block has.
-/
theorem list_invariant {P : Chain × CBlock × Chain → Prop} (I : CDeterministicMNList → Prop)
    (hempty : ∀ blockHash : Uint256, I { blockHash := blockHash })
    (hblock : ∀ (c : Chain) (block : CBlock) (c' : Chain) (newList : CDeterministicMNList),
      P (c, block, c') → I c.list →
      (∀ tx ∈ block.vtx, checkSpecialTx env c.lists tx c.tip = .ok ()) →
      buildNewListFromBlock env c.lists block c.tip = .ok newList →
      I { newList with blockHash := block.hash })
    {blockHash : Uint256} {tr : List (Chain × CBlock × Chain)}
    (hrun : Lts.Run (Connect env) (genesis blockHash) tr c) (hP : ∀ x ∈ tr, P x) :
    (I c.list ∧ c.AheadEmpty) ∧
      ∀ x ∈ tr, (I x.1.list ∧ x.1.AheadEmpty) ∧ Connect env x.1 x.2.1 x.2.2 := by
  have hinv := (hrun.and_mem hP).invariant (fun c => I c.list ∧ c.AheadEmpty)
    (fun c block c' hc hstep => by
      refine ⟨?_, hstep.1.aheadEmpty hc.2⟩
      rcases hstep.1.list_cases hc.2 with ⟨-, hlist⟩ | ⟨-, hcheck, newList, hbuild, hlist⟩
      · rw [hlist]
        exact hempty block.hash
      · rw [hlist]
        exact hblock c block c' newList hstep.2 hc.1 hcheck hbuild)
    ⟨hempty blockHash, fun _ _ => rfl⟩
  exact ⟨hinv.1, fun x hx => ⟨(hinv.2 x hx).1, (hinv.2 x hx).2.1⟩⟩

/-! ### Chains from lists of blocks -/

/-- The chain with one more block. -/
noncomputable def connect (env : Env) (c : Chain) (block : CBlock) : Chain where
  tip := .next block.hash c.tip
  lists := update c.lists (.next block.hash c.tip)
    { ((buildNewListFromBlock env c.lists block c.tip).toOption).getD {} with
      blockHash := block.hash }

theorem list_connect (env : Env) (c : Chain) (block : CBlock) :
    (c.connect env block).list =
      { ((buildNewListFromBlock env c.lists block c.tip).toOption).getD {} with
        blockHash := block.hash } :=
  update_self ..

noncomputable def accepts (env : Env) (c : Chain) (block : CBlock) : Bool :=
  decide (env.dip0003Height ≤ c.tip.nHeight + 1) &&
    (block.vtx.all fun tx => (checkSpecialTx env c.lists tx c.tip).isOk) &&
    (buildNewListFromBlock env c.lists block c.tip).isOk

theorem connect_of_accepts (henforced : env.dip0003EnforcementHeight = 0) (haccepts : c.accepts env block = true) :
    Connect env c block (c.connect env block) := by
  have hheight := c.tip.nHeight_nonneg
  simp only [accepts, Bool.and_eq_true, decide_eq_true_eq, List.all_eq_true] at haccepts
  obtain ⟨⟨hactive, hcheck⟩, hbuild⟩ := haccepts
  cases hnew : buildNewListFromBlock env c.lists block c.tip with
  | error f => rw [hnew] at hbuild; cases hbuild
  | ok newList =>
    unfold connect
    rw [hnew]
    refine .active hactive (fun tx htx => ?_) hnew fun heq => by omega
    have hok := hcheck tx htx
    cases hresult : checkSpecialTx env c.lists tx c.tip with
    | error f => rw [hresult] at hok; cases hok
    | ok u => rfl

/-- The steps that connect the blocks. -/
noncomputable def steps (env : Env) : Chain → List CBlock → List (Chain × CBlock × Chain)
  | _, [] => []
  | c, block :: blocks => (c, block, c.connect env block) :: (c.connect env block).steps env blocks

theorem run_steps (henforced : env.dip0003EnforcementHeight = 0) {blocks : List CBlock}
    (haccepts : ∀ x ∈ c.steps env blocks, x.1.accepts env x.2.1 = true) :
    Lts.Run (Connect env) c (c.steps env blocks) (blocks.foldl (connect env) c) := by
  induction blocks generalizing c with
  | nil => exact .nil c
  | cons block blocks ih =>
    rw [steps, List.forall_mem_cons] at haccepts
    exact .cons (connect_of_accepts henforced haccepts.1) (ih haccepts.2)

end Chain

/-- The collateral a transaction registers a masternode on. -/
def registeredCollateral (env : Env) (tx : CTransaction) : Option COutPoint :=
  if tx.nVersion = 3 ∧ tx.nType = .providerRegister then
    tx.getProRegTx.map (proRegCollateral env tx)
  else none

/-- The collaterals a list of transactions registers masternodes on. -/
def registeredCollaterals (env : Env) (txs : List CTransaction) : List COutPoint :=
  txs.filterMap (registeredCollateral env)

/--
Every masternode that the block registers survives it: no two `ProRegTx` of the block have
one collateral, and the block spends none of their collaterals.  The counter does not wrap.
-/
structure RegistrationsSurvive (env : Env) (old : CDeterministicMNList) (block : CBlock) : Prop where
  distinct : (registeredCollaterals env block.vtx.tail).Nodup
  unspent : ∀ c ∈ registeredCollaterals env block.vtx.tail, c ∉ spentOutpoints block.vtx.tail
  count : old.nTotalRegisteredCount + (registeredCollaterals env block.vtx.tail).length < 2 ^ 32

end Absolute
