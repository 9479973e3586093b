/-
What removal paths do to the pool.

Every one of them is a sequence of three kinds of step: a change of the links, the removal of one
entry, and the erasure of a reference to a transaction outside the pool (`Removes`).  What these
steps keep, all paths keep: transactions and references only go away (`Shrinks`), and the pool stays
consistent.
-/
import AbsoluteCore.Proofs.Mempool.ProviderIndexes

namespace Absolute

open Std List Function Option ExtTreeMap Relation MapTotal

/-- What one pass of a loop brings about and the others keep holds after the loop. -/
theorem foldl_of_pass {σ α : Type} {f : σ → α → σ} {I P : σ → Prop} {xs : List α} {x : α} {s : σ}
    (hx : x ∈ xs) (hpass : ∀ s, I s → P (f s x)) (hkeep : ∀ s y, P s → P (f s y))
    (hinv : ∀ s y, I s → I (f s y)) (hs : I s) : P (xs.foldl f s) := by
  induction xs generalizing s with
  | nil => exact absurd hx not_mem_nil
  | cons y xs ih =>
    rcases mem_cons.mp hx with rfl | hx
    · exact foldlRecOn xs f (hpass s hs) fun s h y _ => hkeep s y h
    · exact ih hx (hinv s y hs)

namespace CTxMemPool

variable {env : Env} {mnList : CDeterministicMNList} {pool pool' pool'' : CTxMemPool}
  {hash : Uint256} {x : ProTx} {stage : List Uint256} {tx : CTransaction}

inductive RemovalStep (env : Env) : CTxMemPool → CTxMemPool → Prop
  | relink (pool : CTxMemPool) (mapLinks : ExtTreeMap Uint256 TxLinks) :
      RemovalStep env pool { pool with mapLinks := mapLinks }
  | remove {pool : CTxMemPool} {hash : Uint256} (h : hash ∈ pool.mapTx) :
      RemovalStep env pool (pool.removeUnchecked env hash)
  | dropRef {pool : CTxMemPool} {ref : Uint256 × Uint256} (h : ref ∈ pool.mapProTxRefs)
      (hout : ref.2 ∉ pool.mapTx) :
      RemovalStep env pool { pool with mapProTxRefs := pool.mapProTxRefs.erase ref }

/-- The second pool is what removals leave of the first. -/
def Removes (env : Env) : CTxMemPool → CTxMemPool → Prop := ReflTransGen (RemovalStep env)

theorem Removes.refl (pool) : Removes env pool pool := ReflTransGen.refl

theorem Removes.trans (h : Removes env pool pool') (h' : Removes env pool' pool'') :
    Removes env pool pool'' := ReflTransGen.trans h h'

theorem Removes.foldl {α : Type} {f : CTxMemPool → α → CTxMemPool}
    (hf : ∀ pool x, Removes env pool (f pool x)) (xs : List α) (pool) :
    Removes env pool (xs.foldl f pool) :=
  foldlRecOn xs f (Removes.refl pool) fun pool' h x _ => h.trans (hf pool' x)

theorem Removes.invariant {I : CTxMemPool → Prop} (h : Removes env pool pool')
    (hstep : ∀ pool pool', I pool → RemovalStep env pool pool' → I pool') (hpool : I pool) :
    I pool' := by
  induction h with
  | refl => exact hpool
  | tail _ hlast ih => exact hstep _ _ ih hlast

/-! ### The removal paths -/

theorem removes_removeUnchecked (pool hash) : Removes env pool (pool.removeUnchecked env hash) := by
  by_cases hmem : hash ∈ pool.mapTx
  · exact .single (RemovalStep.remove hmem)
  · have hget : pool.mapTx[hash]? = none := getElem?_eq_none hmem
    rw [removeUnchecked, hget]
    exact .refl pool

theorem Relinked.removes (h : Relinked pool pool') : Removes env pool pool' := by
  rw [h.eq]
  exact .single (RemovalStep.relink pool _)

theorem removes_removeStaged (pool stage) : Removes env pool (pool.removeStaged env stage) :=
  (relinked_severLinks pool stage).removes.trans
    (Removes.foldl (fun pool hash => removes_removeUnchecked pool hash) stage _)

theorem removes_removeRecursive (pool) (origTx : CTransaction) :
    Removes env pool (pool.removeRecursive env origTx) := removes_removeStaged pool _

/-- One input in `removeConflicts`. -/
def afterInput (env : Env) (tx : CTransaction) (pool : CTxMemPool) (txin : CTxIn) : CTxMemPool :=
  match pool.mapNextTx[txin.prevout]?.bind (pool.mapTx[·]?) with
  | some txConflict =>
    if env.txHash txConflict.tx ≠ env.txHash tx then pool.removeRecursive env txConflict.tx
    else pool
  | none => pool

theorem removes_afterInput (tx pool) (txin : CTxIn) :
    Removes env pool (afterInput env tx pool txin) := by
  unfold afterInput
  split
  · split
    · exact removes_removeRecursive pool _
    · exact .refl pool
  · exact .refl pool

theorem removes_removeConflicts (pool tx) : Removes env pool (pool.removeConflicts env tx) :=
  Removes.foldl (fun pool txin => removes_afterInput tx pool txin) tx.vin pool

theorem removes_removeIndexed (pool tx) (conflict : Option Uint256) :
    Removes env pool (pool.removeIndexed env tx conflict) := by
  unfold removeIndexed
  split
  · exact .refl pool
  · split
    · split
      · exact removes_removeRecursive pool _
      · exact .refl pool
    · exact .refl pool

theorem removes_removeSpentCollateralConflict (proTxHash : Uint256) (fuel : Nat) (pool) :
    Removes env pool (removeSpentCollateralConflict env proTxHash fuel pool) := by
  induction fuel generalizing pool with
  | zero => exact .refl pool
  | succ fuel ih =>
    unfold removeSpentCollateralConflict
    split
    · exact .refl pool
    · next ref href =>
        split
        · exact (removes_removeRecursive pool _).trans (ih _)
        · next hout =>
            exact (ReflTransGen.single (RemovalStep.dropRef (mem_of_find?_eq_some href)
              (not_mem_iff.mpr hout))).trans (ih _)

/-- The pool after the first half of a pass of `removeProTxSpentCollateralConflicts`. -/
def afterOwnCollateral (env : Env) (pool : CTxMemPool) (o : COutPoint) : CTxMemPool :=
  match pool.mapProTxCollaterals[o]? with
  | some proTxHash => removeSpentCollateralConflict env proTxHash pool.refFuel pool
  | none => pool

/-- One pass of `removeProTxSpentCollateralConflicts`. -/
def afterSpentCollateral (env : Env) (mnList : CDeterministicMNList) (pool : CTxMemPool)
    (o : COutPoint) : CTxMemPool :=
  match mnList.getMNByCollateral env.serializeHash o with
  | some dmn => removeSpentCollateralConflict env dmn.proTxHash
      (afterOwnCollateral env pool o).refFuel (afterOwnCollateral env pool o)
  | none => afterOwnCollateral env pool o

theorem removeProTxSpentCollateralConflicts_eq (pool : CTxMemPool) (tx : CTransaction) :
    pool.removeProTxSpentCollateralConflicts env mnList tx =
      tx.vin.foldl (fun pool txin => afterSpentCollateral env mnList pool txin.prevout) pool := rfl

theorem removes_afterOwnCollateral (pool) (o : COutPoint) :
    Removes env pool (afterOwnCollateral env pool o) := by
  unfold afterOwnCollateral
  split
  · exact removes_removeSpentCollateralConflict _ _ pool
  · exact .refl pool

theorem removes_afterSpentCollateral (pool) (o : COutPoint) :
    Removes env pool (afterSpentCollateral env mnList pool o) := by
  unfold afterSpentCollateral
  refine (removes_afterOwnCollateral pool o).trans ?_
  split
  · exact removes_removeSpentCollateralConflict _ _ _
  · exact .refl _

theorem removes_removeProTxSpentCollateralConflicts (pool tx) :
    Removes env pool (pool.removeProTxSpentCollateralConflicts env mnList tx) := by
  exact Removes.foldl (fun pool txin => removes_afterSpentCollateral pool _) tx.vin pool

theorem removes_removeProTxKeyChangedConflicts (pool) (proTxHash newKeyHash : Uint256) :
    Removes env pool (pool.removeProTxKeyChangedConflicts env proTxHash newKeyHash) := by
  refine Removes.foldl (fun pool txHash => ?_) _ pool
  split
  · exact removes_removeRecursive pool _
  · exact .refl pool

theorem removes_afterSpentCollaterals (pool : CTxMemPool) (tx : CTransaction) :
    Removes env (pool.removeProTxSpentCollateralConflicts env mnList tx)
      (pool.removeProTxConflicts env mnList tx) := by
  unfold removeProTxConflicts
  generalize pool.removeProTxSpentCollateralConflicts env mnList tx = pool
  cases tx.decodeProTx with
  | none => exact .refl pool
  | some x =>
    cases x with
    | other => exact .refl pool
    | reg p =>
      have hkeys : Removes env pool
          (((pool.removeProTxAddressConflicts env tx p.addr).removeProTxOwnerKeyConflicts env tx
            p.keyIDOwner).removeProTxPubKeyConflicts env tx p.pubKeyOperator) :=
        ((removes_removeIndexed pool tx _).trans (removes_removeIndexed _ tx _)).trans
          (removes_removeIndexed _ tx _)
      refine hkeys.trans ?_
      dsimp only
      split
      · exact removes_removeIndexed _ tx _
      · exact .refl _
    | upServ p => exact removes_removeIndexed pool tx _
    | upReg p =>
      exact (removes_removeIndexed pool tx _).trans
        (removes_removeProTxKeyChangedConflicts _ _ _)
    | upRev p => exact removes_removeProTxKeyChangedConflicts pool _ _

theorem removes_removeProTxConflicts (pool : CTxMemPool) (tx : CTransaction) :
    Removes env pool (pool.removeProTxConflicts env mnList tx) :=
  (removes_removeProTxSpentCollateralConflicts pool tx).trans (removes_afterSpentCollaterals pool tx)

theorem removes_beforeProTxConflicts (pool tx) :
    Removes env pool (pool.beforeProTxConflicts env tx) := by
  refine Removes.trans ?_ (removes_removeConflicts _ tx)
  split
  · exact removes_removeStaged pool _
  · exact .refl pool

theorem removeForBlockTx_eq (pool : CTxMemPool) (tx) : pool.removeForBlockTx env mnList tx =
    (pool.beforeProTxConflicts env tx).removeProTxConflicts env mnList tx := rfl

theorem removes_removeForBlockTx (pool tx) :
    Removes env pool (pool.removeForBlockTx env mnList tx) :=
  (removes_beforeProTxConflicts pool tx).trans (removes_removeProTxConflicts _ tx)

theorem removes_removeForBlock (pool) (vtx : List CTransaction) :
    Removes env pool (pool.removeForBlock env mnList vtx) :=
  Removes.foldl (fun pool tx => removes_removeForBlockTx pool tx) vtx pool

/-! ### Removals only take away -/

structure Shrinks (pool pool' : CTxMemPool) : Prop where
  txs : ∀ h tx, pool'.txs h = some tx → pool.txs h = some tx
  refs : pool'.mapProTxRefs.Sublist pool.mapProTxRefs

theorem Shrinks.refl (pool) : Shrinks pool pool := ⟨fun _ _ h => h, .refl _⟩

theorem Shrinks.trans (h : Shrinks pool pool') (h' : Shrinks pool' pool'') : Shrinks pool pool'' :=
  ⟨fun hash tx htx => h.txs hash tx (h'.txs hash tx htx), h'.refs.trans h.refs⟩

theorem Shrinks.txs_none (h : Shrinks pool pool') (hnone : pool.txs hash = none) :
    pool'.txs hash = none := by
  cases hget : pool'.txs hash with
  | none => rfl
  | some tx =>
    rw [h.txs hash tx hget] at hnone
    cases hnone

theorem sublist_removeProTx (pool : CTxMemPool) (hash : Uint256) (x : ProTx) :
    (pool.removeProTx env hash x).mapProTxRefs.Sublist pool.mapProTxRefs := by
  cases x with
  | other => exact .refl _
  | reg p =>
    show List.Sublist (if p.collateralOutpoint ≠ .null then _ else _) _
    split
    · exact filter_sublist
    · exact .refl _
  | upServ p => exact filter_sublist
  | upReg p => exact filter_sublist
  | upRev p => exact filter_sublist

theorem RemovalStep.shrinks (h : RemovalStep env pool pool') : Shrinks pool pool' := by
  cases h with
  | relink mapLinks => exact ⟨fun _ _ h => h, .refl _⟩
  | @remove hash hmem =>
    obtain ⟨it, hit, hremoved⟩ := exists_removed hmem
    constructor
    · intro h tx htx
      rw [hremoved.txs] at htx
      rcases KeyIndex.update_eq_some.mp htx with ⟨-, hnone⟩ | ⟨-, htx⟩
      · cases hnone
      · exact htx
    · rw [removeUnchecked, hit]
      exact sublist_removeProTx _ hash it.proTx
  | dropRef hmem hout => exact ⟨fun _ _ h => h, erase_sublist⟩

theorem Removes.shrinks (h : Removes env pool pool') : Shrinks pool pool' := by
  induction h with
  | refl => exact Shrinks.refl pool
  | tail _ hlast ih => exact ih.trans hlast.shrinks

/-! ### Consistent pools -/

/-- The entries are kept under their hashes, `mapNextTx` has all their inputs, and every update
has its reference.  No update is the collateral transaction of the registration that it updates:
each of the two would have to contain the hash of the other. -/
structure Consistent (env : Env) (pool : CTxMemPool) : Prop where
  keyed : ∀ h tx, pool.txs h = some tx → env.txHash tx = h
  next : ∀ h tx o, pool.txs h = some tx → o ∈ tx.vin.map (·.prevout) →
    pool.mapNextTx[o]? = some h
  refs : ∀ h x proTxHash, pool.proTxs h = some x → x.updates = some proTxHash →
    (proTxHash, h) ∈ pool.mapProTxRefs
  acyclic : ∀ h x h' x', pool.proTxs h = some x → pool.proTxs h' = some x' →
    x'.updates = some h → x.collateralOutpoint.map (·.hash) ≠ some h'

theorem Shrinks.proTxs (h : Shrinks pool pool') (hx : pool'.proTxs hash = some x) :
    pool.proTxs hash = some x := by
  rw [proTxs_eq, bind_eq_some_iff] at hx
  obtain ⟨tx, htx, hx⟩ := hx
  rw [proTxs_eq, h.txs hash tx htx, bind_some, hx]

/-- The reference that goes with an entry is not that of another update. -/
theorem Consistent.erasedRef_ne (hc : Consistent env pool) {h h' : Uint256} {x' : ProTx}
    {proTxHash : Uint256} (hx : pool.proTxs h = some x) (hx' : pool.proTxs h' = some x')
    (hup : x'.updates = some proTxHash) (hne : h' ≠ h) : x.erasedRef h ≠ some (proTxHash, h') := by
  intro herased
  cases x with
  | other => cases herased
  | reg p =>
    by_cases hnull : p.collateralOutpoint = .null
    · simp [ProTx.erasedRef, hnull] at herased
    · simp only [ProTx.erasedRef, ne_eq, hnull, not_false_eq_true, if_true, some.injEq,
        Prod.mk.injEq] at herased
      obtain ⟨rfl, hhash⟩ := herased
      exact hc.acyclic h (.reg p) h' x' hx hx' hup (congrArg some hhash)
  | upServ p => exact hne (Prod.mk.inj (some.inj herased)).2.symm
  | upReg p => exact hne (Prod.mk.inj (some.inj herased)).2.symm
  | upRev p => exact hne (Prod.mk.inj (some.inj herased)).2.symm

theorem Consistent.step (hc : Consistent env pool) (h : RemovalStep env pool pool') :
    Consistent env pool' := by
  have hshrinks := h.shrinks
  refine ⟨fun h tx htx => hc.keyed h tx (hshrinks.txs h tx htx), ?_, ?_, ?_⟩
  · intro h' tx o htx ho
    have hold := hshrinks.txs h' tx htx
    have hnext := hc.next h' tx o hold ho
    cases h with
    | relink mapLinks => exact hnext
    | @remove hash hmem =>
      obtain ⟨it, hit, hremoved⟩ := exists_removed hmem
      have hne : h' ≠ hash := by
        intro heq
        rw [hremoved.txs, heq, update_self] at htx
        cases htx
      rw [hremoved.mapNextTx, getElem?_erasePrevouts, if_neg, hnext]
      -- an input that both spend would be in `mapNextTx` for both
      intro hspent
      have hit' : pool.txs hash = some it.tx := by rw [CTxMemPool.txs, hit]; rfl
      rw [hc.next hash it.tx o hit' hspent] at hnext
      exact hne (some.inj hnext).symm
    | dropRef hmem hout => exact hnext
  · intro h' x proTxHash hx hup
    have hold := hshrinks.proTxs hx
    have href := hc.refs h' x proTxHash hold hup
    cases h with
    | relink mapLinks => exact href
    | @remove hash hmem =>
      obtain ⟨it, hit, hremoved⟩ := exists_removed hmem
      have hne : h' ≠ hash := by
        intro heq
        rw [proTxs_of_update hremoved.txs, heq, update_self] at hx
        cases hx
      exact (hremoved.refs _).mpr ⟨href, hc.erasedRef_ne (proTxs_of_get hit) hold hup hne⟩
    | @dropRef ref hmem hout =>
      have hne : (proTxHash, h') ≠ ref := by
        intro heq
        obtain ⟨entry, hget, -⟩ := get_of_proTxs hold
        exact hout (heq ▸ mem_iff_exists.mpr ⟨entry, hget⟩)
      exact (mem_erase_of_ne hne).mpr href
  · intro h₁ x₁ h₂ x₂ hx₁ hx₂
    exact hc.acyclic h₁ x₁ h₂ x₂ (hshrinks.proTxs hx₁) (hshrinks.proTxs hx₂)

theorem Consistent.removes (hc : Consistent env pool) (h : Removes env pool pool') :
    Consistent env pool' :=
  h.invariant (fun _ _ hc hstep => Consistent.step hc hstep) hc

/-! ### What a removal takes away -/

theorem txs_removeUnchecked_self (pool : CTxMemPool) (hash : Uint256) :
    (pool.removeUnchecked env hash).txs hash = none := by
  cases hget : pool.mapTx[hash]? with
  | none =>
    rw [removeUnchecked, hget, txs, hget]
    rfl
  | some it =>
    have hremoved : Removed env pool hash it (pool.removeUnchecked env hash) :=
      removed_removeUnchecked hget
    rw [hremoved.txs, update_self]

theorem txs_foldl_removeUnchecked (h : hash ∈ stage) (pool : CTxMemPool) :
    (stage.foldl (fun pool hash => pool.removeUnchecked env hash) pool).txs hash = none :=
  foldl_of_pass (I := fun _ => True) (P := fun pool => pool.txs hash = none) h
    (fun pool _ => txs_removeUnchecked_self pool hash)
    (fun pool h' hnone => (removes_removeUnchecked pool h').shrinks.txs_none hnone)
    (fun _ _ _ => trivial) trivial

theorem txs_removeStaged (h : hash ∈ stage) (pool : CTxMemPool) :
    (pool.removeStaged env stage).txs hash = none := txs_foldl_removeUnchecked h _

theorem mem_mapTx_of_txs (h : pool.txs hash = some tx) : hash ∈ pool.mapTx := by
  obtain ⟨entry, hget, -⟩ := map_eq_some_iff.mp h
  exact mem_iff_exists.mpr ⟨entry, hget⟩

theorem txs_removeRecursive (h : env.txHash tx ∈ pool.mapTx) :
    (pool.removeRecursive env tx).txs (env.txHash tx) = none := by
  unfold removeRecursive
  simp only [h, if_true]
  apply txs_removeStaged
  rw [mem_dedup, flatMap_singleton, calculateDescendants, mem_dedup]
  exact mem_cons_self

end CTxMemPool

end Absolute
