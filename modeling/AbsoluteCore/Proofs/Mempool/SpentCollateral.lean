/-
What is left in the pool after a block has spent collaterals.

`removeForBlock` finds the updates of a masternode whose collateral is spent through their
references.  The reference of a registration is to its collateral transaction and not to the
registration itself, so the registration is not found.
-/
import AbsoluteCore.Proofs.Mempool.Removal

namespace Absolute

open Std List Function Option ExtTreeMap MapTotal UniqueProperty

namespace CTxMemPool

variable {env : Env} {mnList : CDeterministicMNList} {pool pool' : CTxMemPool} {hash : Uint256}
variable {dmn : CDeterministicMN} {proTxHash : Uint256} {fuel : Nat} {o : COutPoint}
  {vtx : List CTransaction}

/-! ### The loop over the references ends -/

theorem size_lt_of_shrinks (h : Shrinks pool pool') (hin : hash ∈ pool.mapTx)
    (hout : pool'.txs hash = none) : pool'.mapTx.size < pool.mapTx.size := by
  have hsub : pool'.mapTx.keys ⊆ pool.mapTx.keys := by
    intro k hk
    obtain ⟨entry, hentry⟩ := mem_iff_exists.mp (mem_keys.mp hk)
    have htx : pool'.txs k = some entry.tx := by rw [txs, hentry]; rfl
    exact mem_keys.mpr (mem_mapTx_of_txs (h.txs k _ htx))
  have hnot : hash ∉ pool'.mapTx.keys := by
    intro hk
    obtain ⟨entry, hentry⟩ := mem_iff_exists.mp (mem_keys.mp hk)
    rw [txs, hentry] at hout
    cases hout
  have hnodup : (hash :: pool'.mapTx.keys).Nodup :=
    nodup_cons.mpr ⟨hnot, nodup_keys⟩
  have hcons : hash :: pool'.mapTx.keys ⊆ pool.mapTx.keys :=
    cons_subset.mpr ⟨mem_keys.mpr hin, hsub⟩
  have hle := (hnodup.subperm hcons).length_le
  rw [length_cons, length_keys, length_keys] at hle
  omega

/-- With a pass for every transaction and every reference, no reference to the masternode is
left. -/
theorem find?_removeSpentCollateralConflict (hc : Consistent env pool)
    (hfuel : pool.refFuel ≤ fuel) :
    (removeSpentCollateralConflict env proTxHash fuel pool).mapProTxRefs.find?
      (·.1 == proTxHash) = none := by
  induction fuel generalizing pool with
  | zero =>
    have hnil : pool.mapProTxRefs = [] := by
      rw [← length_eq_zero_iff]
      unfold refFuel at hfuel
      omega
    rw [removeSpentCollateralConflict, hnil]
    rfl
  | succ fuel ih =>
    unfold removeSpentCollateralConflict
    split
    · assumption
    · next ref href =>
        have hmem := mem_of_find?_eq_some href
        split
        · next conflict hconflict =>
            have hremoves : Removes env pool (pool.removeRecursive env conflict.tx) :=
              removes_removeRecursive pool conflict.tx
            refine ih (hc.removes hremoves) ?_
            have htx : pool.txs ref.2 = some conflict.tx := by rw [txs, hconflict]; rfl
            have hhash := hc.keyed _ _ htx
            have hin : env.txHash conflict.tx ∈ pool.mapTx := hhash ▸ mem_mapTx_of_txs htx
            have hsize := size_lt_of_shrinks hremoves.shrinks hin (txs_removeRecursive hin)
            have hlen := hremoves.shrinks.refs.length_le
            unfold refFuel at hfuel ⊢
            omega
        · next hout =>
            have hstep : RemovalStep env pool
                { pool with mapProTxRefs := pool.mapProTxRefs.erase ref } := by
              exact RemovalStep.dropRef hmem (not_mem_iff.mpr hout)
            refine ih (hc.step hstep) ?_
            have hlen := length_erase_of_mem hmem
            have hpos := length_pos_of_mem hmem
            unfold refFuel at hfuel ⊢
            simp only
            omega

/-! ### Updates -/

theorem NoUpdates.removes (h : NoUpdates proTxHash pool) (hremoves : Removes env pool pool') :
    NoUpdates proTxHash pool' :=
  fun h' x hx => h h' x (hremoves.shrinks.proTxs hx)

theorem noUpdates_removeSpentCollateralConflict (hc : Consistent env pool) (proTxHash) :
    NoUpdates proTxHash (removeSpentCollateralConflict env proTxHash pool.refFuel pool) := by
  intro h x hx hup
  have hafter : Consistent env (removeSpentCollateralConflict env proTxHash pool.refFuel pool) :=
    hc.removes (removes_removeSpentCollateralConflict proTxHash pool.refFuel pool)
  have href := hafter.refs h x proTxHash hx hup
  have hnone := find?_eq_none.mp
    (find?_removeSpentCollateralConflict hc (Nat.le_refl pool.refFuel)) (proTxHash, h) href
  exact hnone (beq_self_eq_true proTxHash)

theorem noUpdates_removeProTxSpentCollateralConflicts {tx : CTransaction}
    (hc : Consistent env pool) (ho : o ∈ tx.vin.map (·.prevout))
    (hdmn : mnList.getMNByCollateral env.serializeHash o = some dmn) :
    NoUpdates dmn.proTxHash (pool.removeProTxSpentCollateralConflicts env mnList tx) := by
  obtain ⟨txin, htxin, rfl⟩ := mem_map.mp ho
  rw [removeProTxSpentCollateralConflicts_eq]
  refine foldl_of_pass (I := Consistent env) (P := NoUpdates dmn.proTxHash) htxin ?_ ?_ ?_ hc
  · intro pool hc
    rw [afterSpentCollateral, hdmn]
    exact noUpdates_removeSpentCollateralConflict
      (hc.removes (removes_afterOwnCollateral pool txin.prevout)) dmn.proTxHash
  · intro pool txin' h
    exact h.removes (removes_afterSpentCollateral pool txin'.prevout)
  · intro pool txin' hc
    exact hc.removes (removes_afterSpentCollateral pool txin'.prevout)

theorem getMNByCollateral_of_getMN (hwf : WellFormed env mnList)
    (h : mnList.getMN hash = some dmn) :
    mnList.getMNByCollateral env.serializeHash dmn.collateralOutpoint = some dmn := by
  have hkey : dmn.proTxHash = hash := hwf.indexed.keyed _ _ h
  refine hwf.indexed.getUniquePropertyMN_eq_some.mpr ⟨hkey ▸ h, ?_⟩
  have hnull : (outpoint dmn.collateralOutpoint).isNull = false :=
    decide_eq_false (hwf.owned _ _ h).collateral
  exact CDeterministicMN.mem_properties.mpr ⟨_, hnull, rfl, rfl⟩

/-- After the block no update is left of a masternode whose collateral it spends. -/
theorem noUpdates_removeForBlock (hc : Consistent env pool)
    (hwf : WellFormed env mnList) (hdmn : mnList.getMN proTxHash = some dmn)
    (hspent : Spends vtx dmn.collateralOutpoint) :
    NoUpdates proTxHash (pool.removeForBlock env mnList vtx) := by
  obtain ⟨tx, htx, ho⟩ := hspent
  have hkey : dmn.proTxHash = proTxHash := hwf.indexed.keyed _ _ hdmn
  subst hkey
  refine foldl_of_pass (I := Consistent env) (P := NoUpdates dmn.proTxHash) htx ?_ ?_ ?_ hc
  · intro pool hc
    rw [removeForBlockTx_eq]
    have hbefore := hc.removes (removes_beforeProTxConflicts pool tx)
    exact (noUpdates_removeProTxSpentCollateralConflicts hbefore ho
      (getMNByCollateral_of_getMN hwf hdmn)).removes (removes_afterSpentCollaterals _ tx)
  · intro pool tx' h
    exact h.removes (removes_removeForBlockTx pool tx')
  · intro pool tx' hc
    exact hc.removes (removes_removeForBlockTx pool tx')

/-! ### Registrations -/

theorem NoRegistration.removes (h : NoRegistration o pool) (hremoves : Removes env pool pool') :
    NoRegistration o pool' :=
  fun h' x hx => h h' x (hremoves.shrinks.proTxs hx)

/-- What the lookup does not meet in a block is not in the pool after it. -/
theorem noRegistration_removeForBlock (h : SpendsUnregistered env mnList pool vtx)
    (hspent : Spends vtx o) : NoRegistration o (pool.removeForBlock env mnList vtx) := by
  obtain ⟨tx, htx, ho⟩ := hspent
  induction vtx generalizing pool with
  | nil => exact absurd htx not_mem_nil
  | cons tx' vtx ih =>
    rcases mem_cons.mp htx with rfl | htx
    · exact (h.1 o ho).removes
        ((removes_removeProTxConflicts _ tx).trans (removes_removeForBlock _ vtx))
    · exact ih h.2 htx

/-! ### A pool with one transaction -/

section

variable {entry : CTxMemPoolEntry}

theorem mem_nextTxOf {m : ExtTreeMap COutPoint Uint256 COutPoint.cmp} {vin : List CTxIn}
    {o : COutPoint} (h : o ∈ vin.map (·.prevout) ∨ o ∈ m) : o ∈ nextTxOf m hash vin := by
  induction vin generalizing m with
  | nil => exact h.resolve_left not_mem_nil
  | cons txin vin ih =>
    apply ih
    rw [map_cons, mem_cons] at h
    rcases h with (rfl | h) | h
    · exact .inr (by simp)
    · exact .inl h
    · exact .inr (by simp [h])

theorem added_to_empty (h : empty.addUnchecked env mnList entry = .ok pool) :
    Added env empty (env.txHash entry.tx) entry pool := by
  have hadded := added_addUnchecked h
  rwa [empty, getElem?_empty] at hadded

theorem exists_addUnchecked_reg {p : CProRegTx} (hp : entry.proTx = .reg p) (mnList) :
    ∃ pool, empty.addUnchecked env mnList entry = .ok pool := by
  unfold addUnchecked
  simp only [empty, getElem?_empty, getD_none, hp]
  exact ⟨_, rfl⟩

end

/-- A transaction that spends the outpoints and nothing else. -/
def spendingTx (os : List COutPoint) : CTransaction :=
  { sampleCoinbase with vin := os.map fun o => ⟨o, [], 0⟩ }

/-- A masternode that is registered with the first output of the transaction 9. -/
def externalReg (os : List COutPoint) : CTxMemPoolEntry :=
  let entry := regEntry 7 (regPayload 1 5 ⟨1, 2⟩ ⟨9, 0⟩)
  { entry with tx := { entry.tx with vin := os.map fun o => ⟨o, [], 0⟩ }, decoded := rfl }

/-- The address of the first masternode of `twoMNs` changes. -/
def serviceUpdate : CTxMemPoolEntry where
  tx := sampleTx .providerUpdateService (.proUpServ
    { nVersion := 1, proTxHash := 1, addr := ⟨3, 4⟩, scriptOperatorPayout := [], inputsHash := 0,
      sig := ⟨some 1⟩ })
  proTx := .upServ
    { nVersion := 1, proTxHash := 1, addr := ⟨3, 4⟩, scriptOperatorPayout := [], inputsHash := 0,
      sig := ⟨some 1⟩ }
  decoded := rfl

/-- Spends the collaterals of the masternode and of the registration, and another coin. -/
def collateralsTx : CTransaction := spendingTx [⟨1, 0⟩, ⟨9, 0⟩, ⟨11, 0⟩]

/-- Surroundings in which these transactions have the hashes from 100 on. -/
noncomputable def spentEnv : Env :=
  sampleEnv [serviceUpdate.tx, (externalReg []).tx, (externalReg [⟨11, 0⟩]).tx, collateralsTx,
    spendingTx [⟨9, 0⟩]]

/-- The pool with the update and with a registration that has these inputs. -/
noncomputable def spentPool (os : List COutPoint) : CTxMemPool :=
  ([serviceUpdate, externalReg os].foldlM (addUnchecked spentEnv twoMNs) empty).toOption.getD empty

theorem consistent_of_entries (h : ∀ p ∈ pool.mapTx.toList, env.txHash p.2.tx = p.1 ∧
    (∀ o ∈ p.2.tx.vin.map (·.prevout), pool.mapNextTx[o]? = some p.1) ∧
    (∀ r ∈ p.2.proTx.updates, (r, p.1) ∈ pool.mapProTxRefs) ∧
    ∀ p' ∈ pool.mapTx.toList, p'.2.proTx.updates = some p.1 →
      p.2.proTx.collateralOutpoint.map (·.hash) ≠ some p'.1) : Consistent env pool := by
  have hmem {hash entry} (hget : pool.mapTx[hash]? = some entry) :
      (hash, entry) ∈ pool.mapTx.toList := mem_toList_iff_getElem?_eq_some.mpr hget
  refine ⟨?_, ?_, ?_, ?_⟩
  · intro hash tx htx
    obtain ⟨entry, hget, rfl⟩ := map_eq_some_iff.mp htx
    exact (h _ (hmem hget)).1
  · intro hash tx o htx ho
    obtain ⟨entry, hget, rfl⟩ := map_eq_some_iff.mp htx
    exact (h _ (hmem hget)).2.1 o ho
  · intro hash x r hx hup
    obtain ⟨entry, hget, rfl⟩ := map_eq_some_iff.mp hx
    exact (h _ (hmem hget)).2.2.1 r hup
  · intro hash x hash' x' hx hx' hup
    obtain ⟨entry, hget, rfl⟩ := map_eq_some_iff.mp hx
    obtain ⟨entry', hget', rfl⟩ := map_eq_some_iff.mp hx'
    exact (h _ (hmem hget)).2.2.2 _ (hmem hget') hup

end CTxMemPool

end Absolute
