/-
When two registrations get into each other's way.

A registration may leave its service address unset.  The indexes of the pool treat the unset
address like any other, so two such registrations exclude each other, although nothing else
connects them.
-/
import AbsoluteCore.Proofs.Mempool.SpentCollateral

namespace Absolute

open Std Fallible List Function Option ExtTreeMap KeyIndex MapTotal Relation LawfulEqCmp
  UniqueProperty List.Subset ProTx

namespace CTxMemPool

variable {env : Env} {mnList : CDeterministicMNList} {pool pool' : CTxMemPool}
  {tx₁ tx₂ : CTransaction} {p₁ p₂ : CProRegTx}

theorem Unrelated.symm (h : Unrelated env tx₁ tx₂ p₁ p₂) : Unrelated env tx₂ tx₁ p₂ p₁ :=
  ⟨h.owner.symm, h.operator.symm, h.collateral.symm, fun heq => heq ▸ h.service heq.symm⟩

theorem Unrelated.externalCollateral {o : COutPoint}
    (h : Unrelated env tx₁ tx₂ p₁ p₂) (h₁ : (reg p₁).externalCollateral = some o) :
    (reg p₂).externalCollateral ≠ some o := by
  intro h₂
  obtain ⟨hout₁, hext₁⟩ := externalCollateral_eq_some.mp h₁
  obtain ⟨hout₂, hext₂⟩ := externalCollateral_eq_some.mp h₂
  obtain rfl : p₁.collateralOutpoint = o := some.inj hout₁
  have heq : p₂.collateralOutpoint = p₁.collateralOutpoint := some.inj hout₂
  apply h.collateral
  rw [proRegCollateral, proRegCollateral, heq, if_neg hext₁, if_neg hext₁]

/-! ### Blocking -/

theorem existsProviderTxConflict_reg {tx : CTransaction} {p : CProRegTx}
    (hp : tx.decodeProTx = some (.reg p)) :
    pool.existsProviderTxConflict env mnList tx = true ↔
      p.addr ∈ pool.mapProTxAddresses ∨ p.keyIDOwner ∈ pool.mapProTxPubKeyIDs ∨
        env.pubKeyHash p.pubKeyOperator ∈ pool.mapProTxBlsPubKeyHashes ∨
        ∃ o, (reg p).externalCollateral = some o ∧
          (o ∈ pool.mapProTxCollaterals ∨ o ∈ pool.mapNextTx) := by
  have hcoll : (∃ o, (reg p).externalCollateral = some o ∧
      (o ∈ pool.mapProTxCollaterals ∨ o ∈ pool.mapNextTx)) ↔
      p.collateralOutpoint.hash ≠ 0 ∧ (p.collateralOutpoint ∈ pool.mapProTxCollaterals ∨
        p.collateralOutpoint ∈ pool.mapNextTx) := by
    simp [externalCollateral_eq_some, collateralOutpoint, and_assoc]
  rw [hcoll]
  unfold existsProviderTxConflict
  rw [hp]
  simp only
  by_cases hkeys : p.addr ∈ pool.mapProTxAddresses ∨ p.keyIDOwner ∈ pool.mapProTxPubKeyIDs ∨
      env.pubKeyHash p.pubKeyOperator ∈ pool.mapProTxBlsPubKeyHashes
  · rcases hkeys with h | h | h
    · simp [h]
    · simp [h]
    · simp [h]
  · rw [not_or, not_or] at hkeys
    by_cases hext : p.collateralOutpoint.hash = 0
    · simp [hext, hkeys]
    · simp [hext, hkeys]

section

variable {e₁ e₂ : CTxMemPoolEntry} {p₁ p₂ : CProRegTx}

/-- The first registration blocks the second exactly if it takes the address or spends the
collateral. -/
theorem blocks_iff (hinj : Injective env.serializeHash) (h₁ : e₁.proTx = .reg p₁)
    (h₂ : e₂.proTx = .reg p₂) (h : Unrelated env e₁.tx e₂.tx p₁ p₂) :
    Blocks env e₁ e₂ ↔ p₁.addr = p₂.addr ∨ SpendsCollateral e₁ e₂ := by
  have hp₂ : e₂.tx.decodeProTx = some (.reg p₂) := h₂ ▸ e₂.decoded
  constructor
  · rintro ⟨pool, mnList, pool', hnew, hfree, hadd, hconflict⟩
    have hadded := added_addUnchecked hadd
    rw [hnew, getD_none] at hadded
    have hold := mt (existsProviderTxConflict_reg hp₂).mpr (by rw [hfree]; exact Bool.false_ne_true)
    rw [existsProviderTxConflict_reg hp₂, hadded.addresses, hadded.pubKeyIDs,
      hadded.blsPubKeyHashes, hadded.collaterals, hadded.mapNextTx, h₁] at hconflict
    rw [not_or, not_or, not_or] at hold
    obtain ⟨haddr, hkey, hbls, hcoll⟩ := hold
    rcases hconflict with hmem | hmem | hmem | ⟨o, ho, hmem | hmem⟩
    · exact .inl (some.inj ((mem_emplace.mp hmem).resolve_right haddr))
    · exact absurd (some.inj ((mem_emplace.mp hmem).resolve_right hkey)) h.owner
    · have heq := hinj (some.inj ((mem_emplace.mp hmem).resolve_right hbls))
      exact absurd (pubKey.inj heq) h.operator
    · rcases mem_emplace.mp hmem with heq | hmem
      · exact absurd ho (h.externalCollateral heq)
      · exact absurd ⟨o, ho, .inl hmem⟩ hcoll
    · refine .inr ⟨o, h₂ ▸ ho, ?_⟩
      obtain ⟨h', hget⟩ := mem_iff_exists.mp hmem
      rcases getElem?_nextTxOf hget with hget | ⟨-, hspends⟩
      · exact absurd ⟨o, ho, .inr (mem_iff_exists.mpr ⟨h', hget⟩)⟩ hcoll
      · exact hspends
  · intro hclash
    obtain ⟨pool, hadd⟩ : ∃ pool, empty.addUnchecked env {} e₁ = .ok pool :=
      exists_addUnchecked_reg h₁ {}
    have hadded := added_to_empty hadd
    refine ⟨empty, {}, pool, getElem?_empty, ?_, hadd, ?_⟩
    · rw [← Bool.not_eq_true, existsProviderTxConflict_reg hp₂]
      simp [empty]
    · rw [existsProviderTxConflict_reg hp₂, hadded.addresses, hadded.mapNextTx, h₁]
      rcases hclash with heq | ⟨o, ho, hspends⟩
      · exact .inl (mem_emplace.mpr (.inl (congrArg some heq)))
      · exact .inr (.inr (.inr ⟨o, h₂ ▸ ho, .inr (mem_nextTxOf (.inl hspends))⟩))

end

/-! ### Evicting -/

theorem getMemPoolChildren_severLinks (pool : CTxMemPool) (stage : List Uint256) (h : Uint256) :
    (pool.severLinks stage).getMemPoolChildren h ⊆ pool.getMemPoolChildren h := by
  have hmodify : ∀ (pool : CTxMemPool) (entry : Uint256) (f : TxLinks → TxLinks),
      (∀ links, (f links).children ⊆ links.children) →
      ({ pool with mapLinks := pool.mapLinks.modify entry f } : CTxMemPool).getMemPoolChildren h ⊆
        pool.getMemPoolChildren h := by
    intro pool entry f hf
    unfold getMemPoolChildren
    rw [ExtTreeMap.getElem?_modify]
    split
    · next heq =>
        obtain rfl := eq_of_compare heq
        cases pool.mapLinks[entry]? with
        | none => exact refl _
        | some links => exact hf links
    · exact refl _
  have hfold : ∀ {f : CTxMemPool → Uint256 → CTxMemPool},
      (∀ pool x, (f pool x).getMemPoolChildren h ⊆ pool.getMemPoolChildren h) →
      ∀ (xs : List Uint256) (pool : CTxMemPool),
        (xs.foldl f pool).getMemPoolChildren h ⊆ pool.getMemPoolChildren h := by
    intro f hf xs pool
    exact foldlRecOn (motive := fun p => p.getMemPoolChildren h ⊆ pool.getMemPoolChildren h) xs f
      (List.Subset.refl _) fun p hp x _ => List.Subset.trans (hf p x) hp
  have hparent : ∀ (entry : Uint256) (pool : CTxMemPool) (child : Uint256),
      (pool.updateParent child entry false).getMemPoolChildren h ⊆ pool.getMemPoolChildren h :=
    fun entry pool child => hmodify pool child _ fun links => refl links.children
  have hchild : ∀ (entry : Uint256) (pool : CTxMemPool) (parent : Uint256),
      (pool.updateChild parent entry false).getMemPoolChildren h ⊆ pool.getMemPoolChildren h :=
    fun entry pool parent => hmodify pool parent _ fun links => erase_subset
  refine List.Subset.trans (hfold ?_ stage _) (hfold ?_ stage pool)
  · exact fun pool entry => hfold (hparent entry) _ pool
  · exact fun pool entry => hfold (hchild entry) _ pool

/-- What is left of a pool whose transactions in `A` have not been touched. -/
structure Kept (env : Env) (A : Set Uint256) (pool pool' : CTxMemPool) : Prop where
  txs : ∀ h ∈ A, pool'.txs h = pool.txs h
  keyed : ∀ h tx, pool'.txs h = some tx → env.txHash tx = h
  children : ∀ h, pool'.getMemPoolChildren h ⊆ pool.getMemPoolChildren h
  refs : pool'.mapProTxRefs ⊆ pool.mapProTxRefs
  addresses : ∀ {a : CService} {h : Uint256}, pool'.mapProTxAddresses[a]? = some h →
    pool.mapProTxAddresses[a]? = some h
  pubKeyIDs : ∀ {k : CKeyID} {h : Uint256}, pool'.mapProTxPubKeyIDs[k]? = some h →
    pool.mapProTxPubKeyIDs[k]? = some h
  blsPubKeyHashes : ∀ {k h : Uint256}, pool'.mapProTxBlsPubKeyHashes[k]? = some h →
    pool.mapProTxBlsPubKeyHashes[k]? = some h
  collaterals : ∀ {o : COutPoint} {h : Uint256}, pool'.mapProTxCollaterals[o]? = some h →
    pool.mapProTxCollaterals[o]? = some h

theorem KeyIndex.get_of_drop {K : Type} {cmp : K → K → Ordering} [TransCmp cmp] [LawfulEqCmp cmp]
    [DecidableEq K] {m : ExtTreeMap K Uint256 cmp} {o : Option K} {k : K} {h : Uint256}
    (hget : (drop m o)[k]? = some h) : m[k]? = some h := by
  rw [KeyIndex.getElem?_drop] at hget
  split at hget
  · cases hget
  · exact hget

namespace Kept

variable {A : Set Uint256} {hash : Uint256} {tx : CTransaction} {stage : List Uint256}

theorem removeUnchecked (hk : Kept env A pool pool') (hout : hash ∉ A) :
    Kept env A pool (pool'.removeUnchecked env hash) := by
  cases hget : pool'.mapTx[hash]? with
  | none =>
    rw [CTxMemPool.removeUnchecked, hget]
    exact hk
  | some it =>
    have hremoved : Removed env pool' hash it (pool'.removeUnchecked env hash) :=
      removed_removeUnchecked hget
    have hshrinks : Shrinks pool' (pool'.removeUnchecked env hash) :=
      (removes_removeUnchecked pool' hash).shrinks
    refine ⟨fun h hh => ?_, ?_, fun h => ?_, ?_, ?_, ?_, ?_, ?_⟩
    · rw [hremoved.txs, update_of_ne (ne_of_mem_of_not_mem hh hout), hk.txs h hh]
    · exact fun h tx htx => hk.keyed h tx (hshrinks.txs h tx htx)
    · rw [getMemPoolChildren, hremoved.mapLinks, getElem?_erase]
      split
      · exact nil_subset _
      · exact hk.children h
    · exact List.Subset.trans hshrinks.refs.subset hk.refs
    · exact fun ha => hk.addresses (KeyIndex.get_of_drop (hremoved.addresses ▸ ha))
    · exact fun hkey => hk.pubKeyIDs (KeyIndex.get_of_drop (hremoved.pubKeyIDs ▸ hkey))
    · exact fun hkey => hk.blsPubKeyHashes (KeyIndex.get_of_drop (hremoved.blsPubKeyHashes ▸ hkey))
    · exact fun ho => hk.collaterals (KeyIndex.get_of_drop (hremoved.collaterals ▸ ho))

theorem severLinks (hk : Kept env A pool pool') (stage : List Uint256) :
    Kept env A pool (pool'.severLinks stage) := by
  have hlinked := relinked_severLinks pool' stage
  have htxs : (pool'.severLinks stage).txs = pool'.txs := by
    funext h
    unfold CTxMemPool.txs
    rw [hlinked.mapTx]
  refine ⟨htxs ▸ hk.txs, htxs ▸ hk.keyed, fun h => ?_, hlinked.same.refs ▸ hk.refs,
    hlinked.same.addresses ▸ hk.addresses, hlinked.same.pubKeyIDs ▸ hk.pubKeyIDs,
    hlinked.same.blsPubKeyHashes ▸ hk.blsPubKeyHashes, hlinked.same.collaterals ▸ hk.collaterals⟩
  exact List.Subset.trans (getMemPoolChildren_severLinks pool' stage h) (hk.children h)

theorem removeStaged (hk : Kept env A pool pool') (hstage : ∀ h ∈ stage, h ∉ A) :
    Kept env A pool (pool'.removeStaged env stage) :=
  foldlRecOn stage _ (hk.severLinks stage) fun _ hk _ hmem => hk.removeUnchecked (hstage _ hmem)

section

variable (hclosed : ∀ h, ∀ child ∈ pool.getMemPoolChildren h, child ∈ A → h ∈ A)

include hclosed

/-- With a set that has the parents of its transactions, what descends from others is outside. -/
theorem notMem_of_descendant (hk : Kept env A pool pool') (hout : hash ∉ A) {h : Uint256}
    (hh : h ∈ pool'.calculateDescendants hash) : h ∉ A := by
  rw [calculateDescendants, mem_dedup, mem_cons] at hh
  rcases hh with rfl | hh
  · exact hout
  · obtain ⟨k, k', hreaches, hedge⟩ := Worklist.exists_edge_of_mem_walkFrom hh
    have hk_out : k ∉ A := by
      clear hedge
      induction hreaches with
      | refl => exact hout
      | tail _ hedge ih =>
        obtain ⟨v, hv⟩ := hedge
        obtain ⟨child, hchild, heq⟩ := mem_map.mp hv
        obtain ⟨-, rfl⟩ := Prod.mk.inj heq
        exact fun hmem => ih (hclosed _ _ (hk.children _ hchild) hmem)
    obtain ⟨child, hchild, heq⟩ := mem_map.mp hedge
    obtain ⟨rfl, -⟩ := Prod.mk.inj heq
    exact fun hmem => hk_out (hclosed _ _ (hk.children _ hchild) hmem)

theorem removeRecursive (hk : Kept env A pool pool') {other : CTxMemPoolEntry}
    (hother : pool'.mapTx[hash]? = some other) (hout : hash ∉ A) :
    Kept env A pool (pool'.removeRecursive env other.tx) := by
  have htx : pool'.txs hash = some other.tx := by rw [CTxMemPool.txs, hother]; rfl
  have hhash := hk.keyed _ _ htx
  have hmem : env.txHash other.tx ∈ pool'.mapTx := hhash ▸ mem_mapTx_of_txs htx
  unfold CTxMemPool.removeRecursive
  simp only [hmem, if_true]
  refine hk.removeStaged fun h hh => ?_
  rw [mem_dedup, flatMap_singleton, hhash] at hh
  exact hk.notMem_of_descendant hclosed hout hh

theorem removeIndexed (hk : Kept env A pool pool') {found : Option Uint256}
    (hfound : ∀ h, found = some h → h ∉ A) : Kept env A pool (pool'.removeIndexed env tx found) := by
  unfold CTxMemPool.removeIndexed
  split
  · exact hk
  · next conflictHash =>
      split
      · split
        · next conflict hconflict => exact hk.removeRecursive hclosed hconflict (hfound _ rfl)
        · exact hk
      · exact hk

theorem removeSpentCollateralConflict {proTxHash : Uint256}
    (hrefs : ∀ r ∈ pool.mapProTxRefs, r.1 = proTxHash → r.2 ∉ A) (fuel : Nat)
    (hk : Kept env A pool pool') :
    Kept env A pool (removeSpentCollateralConflict env proTxHash fuel pool') := by
  induction fuel generalizing pool' with
  | zero => exact hk
  | succ fuel ih =>
    unfold removeSpentCollateralConflict
    split
    · exact hk
    · next ref href =>
        have hmem := hk.refs (mem_of_find?_eq_some href)
        split
        · next conflict hconflict =>
            have hkey : ref.1 = proTxHash := by simpa using find?_some href
            exact ih (hk.removeRecursive hclosed hconflict (hrefs ref hmem hkey))
        · refine ih ⟨hk.txs, hk.keyed, hk.children, ?_, hk.addresses, hk.pubKeyIDs,
            hk.blsPubKeyHashes, hk.collaterals⟩
          exact List.Subset.trans erase_subset hk.refs

theorem removeProTxSpentCollateralConflicts (hk : Kept env A pool pool')
    (hrefs : ∀ r ∈ pool.mapProTxRefs, ∀ o ∈ tx.vin.map (·.prevout),
      (pool.mapProTxCollaterals[o]? = some r.1 ∨
        ∃ dmn, mnList.getMNByCollateral env.serializeHash o = some dmn ∧ dmn.proTxHash = r.1) →
      r.2 ∉ A) :
    Kept env A pool (pool'.removeProTxSpentCollateralConflicts env mnList tx) := by
  refine foldlRecOn tx.vin _ hk fun pool' hk txin htxin => ?_
  have ho : txin.prevout ∈ tx.vin.map (·.prevout) := mem_map_of_mem htxin
  have hown : Kept env A pool (afterOwnCollateral env pool' txin.prevout) := by
    unfold afterOwnCollateral
    split
    · next hget =>
        refine hk.removeSpentCollateralConflict hclosed (fun r hr heq => ?_) _
        exact hrefs r hr _ ho (.inl (heq ▸ hk.collaterals hget))
    · exact hk
  show Kept env A pool (afterSpentCollateral env mnList pool' txin.prevout)
  unfold afterSpentCollateral
  split
  · next dmn hdmn =>
      refine hown.removeSpentCollateralConflict hclosed (fun r hr heq => ?_) _
      exact hrefs r hr _ ho (.inr ⟨dmn, hdmn, heq.symm⟩)
  · exact hown

/-- Where no transaction of the set shares an entry with a mined registration or is referred to by a
spent collateral, none is removed. -/
theorem removeProTxConflicts {p : CProRegTx} (hk : Kept env A pool pool)
    (hexact : IndexesExact env pool) (hdecode : tx.decodeProTx = some (.reg p))
    (hspared : ∀ h ∈ A, ¬ pool.SharesEntry env (.reg p) h ∧ ¬ pool.RefersToSpent env mnList tx h) :
    Kept env A pool (pool.removeProTxConflicts env mnList tx) := by
  have hspent : Kept env A pool (pool.removeProTxSpentCollateralConflicts env mnList tx) := by
    refine hk.removeProTxSpentCollateralConflicts hclosed fun r hr o ho hnamed hmem => ?_
    obtain ⟨h, x, hx, href⟩ := (hexact.refs r).mp hr
    refine (hspared _ hmem).2 ⟨h, x, r.1, o, hx, href, ho, hnamed.imp_left fun hget => ?_⟩
    exact hexact.collaterals.owner _ _ hget
  unfold CTxMemPool.removeProTxConflicts
  generalize pool.removeProTxSpentCollateralConflicts env mnList tx = pool' at hspent
  have hservice : Kept env A pool (pool'.removeProTxAddressConflicts env tx p.addr) := by
    refine hspent.removeIndexed hclosed fun h hfound hmem => (hspared h hmem).1 ?_
    obtain ⟨x, hx, hkey⟩ := hexact.addresses.owner _ _ (hspent.addresses hfound)
    exact ⟨x, hx, .inl ⟨_, hkey, rfl⟩⟩
  have hkey : Kept env A pool ((pool'.removeProTxAddressConflicts env tx p.addr)
      |>.removeProTxOwnerKeyConflicts env tx p.keyIDOwner) := by
    refine hservice.removeIndexed hclosed fun h hfound hmem => (hspared h hmem).1 ?_
    obtain ⟨x, hx, hkey⟩ := hexact.pubKeyIDs.owner _ _ (hservice.pubKeyIDs hfound)
    exact ⟨x, hx, .inr (.inl ⟨_, hkey, rfl⟩)⟩
  have hpubKey : Kept env A pool ((pool'.removeProTxAddressConflicts env tx p.addr)
      |>.removeProTxOwnerKeyConflicts env tx p.keyIDOwner
      |>.removeProTxPubKeyConflicts env tx p.pubKeyOperator) := by
    refine hkey.removeIndexed hclosed fun h hfound hmem => (hspared h hmem).1 ?_
    obtain ⟨x, hx, hkey⟩ := hexact.blsPubKeyHashes.owner _ _ (hkey.blsPubKeyHashes hfound)
    exact ⟨x, hx, .inr (.inr (.inl ⟨_, hkey, rfl⟩))⟩
  simp only [hdecode]
  split
  · next hext =>
      refine hpubKey.removeIndexed hclosed fun h hfound hmem => (hspared h hmem).1 ?_
      obtain ⟨x, hx, hkey⟩ := hexact.collaterals.owner _ _ (hpubKey.collaterals hfound)
      exact ⟨x, hx, .inr (.inr (.inr ⟨_, hkey, externalCollateral_eq_some.mpr ⟨rfl, hext⟩⟩))⟩
  · exact hpubKey

end

end Kept

section

variable {e₁ e₂ : CTxMemPoolEntry} {p₁ p₂ : CProRegTx} {h : Uint256}

theorem proTx_of_checked {lists : CBlockIndex → CDeterministicMNList} {pindexPrev : CBlockIndex}
    (hcheck : checkProRegTx env lists e₁.tx pindexPrev = .ok ())
    (hpayload : e₁.tx.getProRegTx = some p₁) : e₁.proTx = .reg p₁ := by
  obtain ⟨_, htype, -⟩ := bind_eq_ok.mp hcheck
  rw [rejectIf_eq_ok, not_not] at htype
  have hdecoded := e₁.decoded
  rw [CTransaction.decodeProTx, htype] at hdecoded
  simp only [hpayload, map_some] at hdecoded
  exact (some.inj hdecoded).symm

theorem not_evicts (hinj : Injective env.serializeHash) (h₁ : e₁.proTx = .reg p₁)
    (h₂ : e₂.proTx = .reg p₂) (h : Unrelated env e₁.tx e₂.tx p₁ p₂) (haddr : p₁.addr ≠ p₂.addr) :
    ¬ Evicts env e₁ e₂ := by
  rintro ⟨pool, mnList, hs, hevicted⟩
  apply hevicted
  have hself : ¬ pool.SharesEntry env (.reg p₁) (env.txHash e₂.tx) := by
    rintro ⟨x, hx, hshares⟩
    rw [proTxs_eq, hs.mem, bind_some, e₂.decoded, h₂] at hx
    obtain rfl := some.inj hx
    rcases hshares with ⟨a, ha₂, ha₁⟩ | ⟨k, hk₂, hk₁⟩ | ⟨k, hk₂, hk₁⟩ | ⟨o, ho₂, ho₁⟩
    · exact haddr (some.inj (ha₁.trans ha₂.symm))
    · exact h.owner (some.inj (hk₁.trans hk₂.symm))
    · exact h.operator (pubKey.inj (hinj (some.inj (hk₁.trans hk₂.symm))))
    · exact h.externalCollateral ho₁ ho₂
  -- nothing is removed from the registration and what it descends from
  have hkept : Kept env {a | ReflTransGen (fun a b => b ∈ pool.getMemPoolChildren a) a
      (env.txHash e₂.tx)} pool (pool.removeProTxConflicts env mnList e₁.tx) := by
    refine Kept.removeProTxConflicts (fun _ _ hchild hmem => ReflTransGen.head hchild hmem)
      ⟨fun _ _ => rfl, hs.keyed, fun _ => List.Subset.refl _, List.Subset.refl _, id, id, id, id⟩
      hs.exact (h₁ ▸ e₁.decoded) fun a ha => ?_
    rcases reflTransGen_iff_eq_or_transGen.mp ha with heq | hancestor
    · exact heq ▸ ⟨hself, hs.unreferenced⟩
    · exact h₁ ▸ hs.ancestors a hancestor
  rw [hkept.txs _ ReflTransGen.refl, hs.mem]

/-- Unrelated registrations that both pass `CheckProRegTx` neither block nor evict each other
exactly if one of them has an address and none spends the other's external collateral. -/
theorem registrations_independent_iff (env : Env) (hinj : Function.Injective env.serializeHash)
    (lists : CBlockIndex → CDeterministicMNList) (pindexPrev : CBlockIndex)
    {e₁ e₂ : CTxMemPoolEntry} {p₁ p₂ : CProRegTx}
    (hcheck₁ : checkProRegTx env lists e₁.tx pindexPrev = .ok ())
    (hcheck₂ : checkProRegTx env lists e₂.tx pindexPrev = .ok ())
    (hpayload₁ : e₁.tx.getProRegTx = some p₁) (hpayload₂ : e₂.tx.getProRegTx = some p₂)
    (h : Unrelated env e₁.tx e₂.tx p₁ p₂) :
    (¬ Blocks env e₁ e₂ ∧ ¬ Blocks env e₂ e₁ ∧ ¬ Evicts env e₁ e₂ ∧ ¬ Evicts env e₂ e₁) ↔
      ¬ (p₁.addr = .null ∧ p₂.addr = .null) ∧ ¬ SpendsCollateral e₁ e₂ ∧
        ¬ SpendsCollateral e₂ e₁ := by
  have h₁ := proTx_of_checked hcheck₁ hpayload₁
  have h₂ := proTx_of_checked hcheck₂ hpayload₂
  have haddr : p₁.addr = p₂.addr ↔ p₁.addr = .null ∧ p₂.addr = .null := by
    constructor
    · intro heq
      exact ⟨h.service heq, heq ▸ h.service heq⟩
    · rintro ⟨hnull₁, hnull₂⟩
      rw [hnull₁, hnull₂]
  rw [blocks_iff hinj h₁ h₂ h, blocks_iff hinj h₂ h₁ h.symm, not_or, not_or, ← haddr]
  constructor
  · rintro ⟨⟨hne, hspends₁⟩, ⟨-, hspends₂⟩, -, -⟩
    exact ⟨hne, hspends₁, hspends₂⟩
  · rintro ⟨hne, hspends₁, hspends₂⟩
    exact ⟨⟨hne, hspends₁⟩, ⟨Ne.symm hne, hspends₂⟩, not_evicts hinj h₁ h₂ h hne,
      not_evicts hinj h₂ h₁ h.symm (Ne.symm hne)⟩

end

/-- Two registrations with different keys, each with its own output for a collateral. -/
def firstReg (addr : CService) : CTxMemPoolEntry := regEntry 7 (regPayload 1 5 addr ⟨0, 0⟩)

def secondReg (addr : CService) : CTxMemPoolEntry := regEntry 8 (regPayload 2 6 addr ⟨0, 0⟩)

theorem unrelated_regs {addr₁ addr₂ : CService} (h : addr₁ = addr₂ → addr₁ = .null) :
    Unrelated lockTimeEnv (firstReg addr₁).tx (secondReg addr₂).tx (regPayload 1 5 addr₁ ⟨0, 0⟩)
      (regPayload 2 6 addr₂ ⟨0, 0⟩) where
  owner := (by decide : (1 : Nat) ≠ 2)
  operator := (by decide : (⟨some 5⟩ : CBLSPublicKey) ≠ ⟨some 6⟩)
  collateral := fun heq => absurd (congrArg COutPoint.hash heq) (by decide : (7 : Nat) ≠ 8)
  service := h

theorem registrations_independent_sample :
    (¬ Blocks lockTimeEnv (firstReg ⟨1, 2⟩) (secondReg .null) ∧
        ¬ Blocks lockTimeEnv (secondReg .null) (firstReg ⟨1, 2⟩) ∧
        ¬ Evicts lockTimeEnv (firstReg ⟨1, 2⟩) (secondReg .null) ∧
        ¬ Evicts lockTimeEnv (secondReg .null) (firstReg ⟨1, 2⟩)) ↔
      ¬ ((⟨1, 2⟩ : CService) = .null ∧ CService.null = .null) ∧
        ¬ SpendsCollateral (firstReg ⟨1, 2⟩) (secondReg .null) ∧
        ¬ SpendsCollateral (secondReg .null) (firstReg ⟨1, 2⟩) :=
  registrations_independent_iff lockTimeEnv pairingHash_injective (fun _ => {}) sampleIndex rfl rfl
    rfl rfl (unrelated_regs (by decide))

/-- With both addresses unset, each registration keeps the other out and is removed when the other
is mined. -/
theorem registrations_without_address :
    checkProRegTx lockTimeEnv (fun _ => {}) (firstReg .null).tx sampleIndex = .ok () ∧
      checkProRegTx lockTimeEnv (fun _ => {}) (secondReg .null).tx sampleIndex = .ok () ∧
      Unrelated lockTimeEnv (firstReg .null).tx (secondReg .null).tx (regPayload 1 5 .null ⟨0, 0⟩)
        (regPayload 2 6 .null ⟨0, 0⟩) ∧
      (∃ pool, empty.addUnchecked lockTimeEnv {} (firstReg .null) = .ok pool ∧
        pool.existsProviderTxConflict lockTimeEnv {} (secondReg .null).tx = true) ∧
      ∃ pool, empty.addUnchecked lockTimeEnv {} (secondReg .null) = .ok pool ∧
        8 ∈ pool.mapTx ∧ 8 ∉ (pool.removeProTxConflicts lockTimeEnv {} (firstReg .null).tx).mapTx :=
  ⟨rfl, rfl, unrelated_regs fun _ => rfl, ⟨_, rfl, rfl⟩, ⟨_, rfl, by decide, by decide⟩⟩

end CTxMemPool

end Absolute
