/-
The indexes of the provider transactions along a run.

Adding a transaction keeps them exact.  Removing one keeps them exact unless another transaction of
the pool shares an address, an operator key or a reference with it, and clearing the pool does so
only if there is no provider transaction in it: `_clear` forgets three of the five maps.
-/
import AbsoluteCore.Spec.ProviderIndexes
import AbsoluteCore.Proofs.Evo.NewList

namespace Absolute

open Std Fallible List Function Option Except ExtTreeMap KeyIndex MapTotal LawfulEqCmp

namespace ProTx

variable {x : ProTx} {o : COutPoint} {hash : Uint256}

theorem externalCollateral_eq_some :
    x.externalCollateral = some o ↔ x.collateralOutpoint = some o ∧ o.hash ≠ 0 := by
  rw [externalCollateral, filter_eq_some_iff, decide_eq_true_iff]

theorem erasedRef_of_ref {r : Uint256 × Uint256} (h : x.ref hash = some r) :
    x.erasedRef hash = some r := by
  cases x with
  | reg p =>
    by_cases hhash : p.collateralOutpoint.hash = 0
    · simp [ref, hhash] at h
    · have hnull : p.collateralOutpoint ≠ .null := by
        intro hnull
        exact hhash (by rw [hnull]; rfl)
      simp only [ref, ne_eq, hhash, not_false_eq_true, if_true] at h
      rw [erasedRef, if_pos hnull, h]
  | _ => exact h

end ProTx

namespace CTxMemPool

variable {env : Env} {mnList : CDeterministicMNList} {pool pool' : CTxMemPool} {hash : Uint256}
variable {it entry : CTxMemPoolEntry} {x : ProTx} {pool'' : CTxMemPool} {proTxHash : Uint256}
  {m : ExtTreeMap COutPoint Uint256 COutPoint.cmp}

/-! ### What the parts of a step do to the indexes -/

/-- The indexes of the second pool are those of the first. -/
structure SameIndexes (pool pool' : CTxMemPool) : Prop where
  refs : pool'.mapProTxRefs = pool.mapProTxRefs
  addresses : pool'.mapProTxAddresses = pool.mapProTxAddresses
  pubKeyIDs : pool'.mapProTxPubKeyIDs = pool.mapProTxPubKeyIDs
  blsPubKeyHashes : pool'.mapProTxBlsPubKeyHashes = pool.mapProTxBlsPubKeyHashes
  collaterals : pool'.mapProTxCollaterals = pool.mapProTxCollaterals

theorem SameIndexes.refl (pool) : SameIndexes pool pool := ⟨rfl, rfl, rfl, rfl, rfl⟩

theorem SameIndexes.trans (h : SameIndexes pool pool')
    (h' : SameIndexes pool' pool'') : SameIndexes pool pool'' :=
  ⟨h'.refs.trans h.refs, h'.addresses.trans h.addresses, h'.pubKeyIDs.trans h.pubKeyIDs,
    h'.blsPubKeyHashes.trans h.blsPubKeyHashes, h'.collaterals.trans h.collaterals⟩

/-- The second pool differs from the first in its links only. -/
structure Relinked (pool pool' : CTxMemPool) : Prop where
  same : SameIndexes pool pool'
  mapTx : pool'.mapTx = pool.mapTx
  mapNextTx : pool'.mapNextTx = pool.mapNextTx

theorem Relinked.refl (pool) : Relinked pool pool := ⟨SameIndexes.refl pool, rfl, rfl⟩

theorem Relinked.trans (h : Relinked pool pool')
    (h' : Relinked pool' pool'') : Relinked pool pool'' :=
  ⟨h.same.trans h'.same, h'.mapTx.trans h.mapTx, h'.mapNextTx.trans h.mapNextTx⟩

theorem Relinked.foldl {α : Type} {f : CTxMemPool → α → CTxMemPool}
    (hf : ∀ pool x, Relinked pool (f pool x)) (xs : List α) (pool) :
    Relinked pool (xs.foldl f pool) :=
  foldlRecOn xs f (Relinked.refl pool) fun pool' h x _ => h.trans (hf pool' x)

theorem Relinked.eq (h : Relinked pool pool') : pool' = { pool with mapLinks := pool'.mapLinks } := by
  obtain ⟨⟨hrefs, haddr, hkeys, hbls, hcoll⟩, hmap, hnext⟩ := h
  cases pool
  cases pool'
  simp_all

theorem relinked_updateParent (pool) (entry parent : Uint256) (add : Bool) :
    Relinked pool (pool.updateParent entry parent add) :=
  ⟨⟨rfl, rfl, rfl, rfl, rfl⟩, rfl, rfl⟩

theorem relinked_updateChild (pool) (entry child : Uint256) (add : Bool) :
    Relinked pool (pool.updateChild entry child add) :=
  ⟨⟨rfl, rfl, rfl, rfl, rfl⟩, rfl, rfl⟩

theorem relinked_severLinks (pool) (stage : List Uint256) :
    Relinked pool (pool.severLinks stage) := by
  refine Relinked.trans (Relinked.foldl ?_ stage pool) (Relinked.foldl ?_ stage _)
  · intro pool entry
    exact Relinked.foldl (fun pool parent => relinked_updateChild pool parent entry false) _ _
  · intro pool entry
    exact Relinked.foldl (fun pool child => relinked_updateParent pool child entry false) _ _

/-! #### Adding -/

/-- The outpoints that `insertEntry` puts into `mapNextTx`. -/
def nextTxOf (m : ExtTreeMap COutPoint Uint256 COutPoint.cmp) (hash : Uint256)
    (vin : List CTxIn) : ExtTreeMap COutPoint Uint256 COutPoint.cmp :=
  vin.foldl (fun m (txin : CTxIn) => m.insertIfNew txin.prevout hash) m

theorem relinked_insertEntry (pool : CTxMemPool) (hash : Uint256) (newit : CTxMemPoolEntry) :
    Relinked { pool with
      mapTx := pool.mapTx.insertIfNew hash newit
      mapNextTx := nextTxOf pool.mapNextTx hash newit.tx.vin } (pool.insertEntry hash newit) := by
  refine Relinked.trans ?_ (Relinked.foldl (fun pool parent => relinked_updateChild ..) _ _)
  refine Relinked.trans ?_ (Relinked.foldl (fun pool parent => relinked_updateParent ..) _ _)
  exact ⟨⟨rfl, rfl, rfl, rfl, rfl⟩, rfl, rfl⟩

/-- The entries of a transaction are put into the indexes. -/
structure IndexesAdded (env : Env) (pool : CTxMemPool) (hash : Uint256) (x : ProTx)
    (pool' : CTxMemPool) : Prop where
  refs : pool'.mapProTxRefs = pool.mapProTxRefs ++ (x.ref hash).toList
  addresses : pool'.mapProTxAddresses = KeyIndex.emplace pool.mapProTxAddresses x.addr hash
  pubKeyIDs : pool'.mapProTxPubKeyIDs = KeyIndex.emplace pool.mapProTxPubKeyIDs x.keyIDOwner hash
  blsPubKeyHashes : pool'.mapProTxBlsPubKeyHashes =
    KeyIndex.emplace pool.mapProTxBlsPubKeyHashes (x.pubKeyHash env) hash
  collaterals : pool'.mapProTxCollaterals =
    KeyIndex.emplace pool.mapProTxCollaterals x.externalCollateral hash

/-- What the provider part of `addUnchecked` does. -/
structure ProTxAdded (env : Env) (pool : CTxMemPool) (hash : Uint256) (x : ProTx)
    (pool' : CTxMemPool) : Prop extends IndexesAdded env pool hash x pool' where
  txs : pool'.txs = pool.txs
  mapNextTx : pool'.mapNextTx = pool.mapNextTx

theorem txs_setProTxKey (current new : CBLSPublicKey) :
    (pool.setProTxKey env hash current new).txs = pool.txs := by
  funext h
  unfold txs setProTxKey
  rw [ExtTreeMap.getElem?_modify]
  split
  · next heq =>
      obtain rfl := eq_of_compare heq
      cases pool.mapTx[hash]? <;> rfl
  · rfl

theorem proTxAdded_addProTx (h : pool.addProTx env mnList hash x = .ok pool') :
    ProTxAdded env pool hash x pool' := by
  cases x with
  | other =>
    obtain rfl := ok.inj h
    exact ⟨⟨(append_nil _).symm, rfl, rfl, rfl, rfl⟩, rfl, rfl⟩
  | reg p =>
    obtain rfl := ok.inj h
    by_cases hc : p.collateralOutpoint.hash = 0
    · have hext : (ProTx.reg p).externalCollateral = none := by
        simp [ProTx.externalCollateral, ProTx.collateralOutpoint, hc]
      refine ⟨⟨?_, rfl, rfl, rfl, ?_⟩, rfl, rfl⟩
      · simp [ProTx.ref, hc]
      · simp [hext, hc, KeyIndex.emplace]
    · have hext : (ProTx.reg p).externalCollateral = some p.collateralOutpoint :=
        ProTx.externalCollateral_eq_some.mpr ⟨rfl, hc⟩
      refine ⟨⟨?_, rfl, rfl, rfl, ?_⟩, rfl, rfl⟩
      · simp [ProTx.ref, hc]
      · simp [hext, hc, KeyIndex.emplace]
  | upServ p =>
    obtain rfl := ok.inj h
    exact ⟨⟨rfl, rfl, rfl, rfl, rfl⟩, rfl, rfl⟩
  | upReg p =>
    obtain ⟨dmn, -, h⟩ := bind_eq_ok.mp h
    obtain rfl := pure_eq_ok.mp h
    exact ⟨⟨rfl, rfl, rfl, rfl, rfl⟩, txs_setProTxKey _ _, rfl⟩
  | upRev p =>
    obtain ⟨dmn, -, h⟩ := bind_eq_ok.mp h
    obtain rfl := pure_eq_ok.mp h
    exact ⟨⟨rfl, rfl, rfl, rfl, rfl⟩, txs_setProTxKey _ _, rfl⟩

/-! #### Removing -/

/-- The entries of a transaction are taken out of the indexes. -/
structure IndexesRemoved (env : Env) (pool : CTxMemPool) (hash : Uint256) (x : ProTx)
    (pool' : CTxMemPool) : Prop where
  refs : ∀ r, r ∈ pool'.mapProTxRefs ↔ r ∈ pool.mapProTxRefs ∧ x.erasedRef hash ≠ some r
  addresses : pool'.mapProTxAddresses = drop pool.mapProTxAddresses x.addr
  pubKeyIDs : pool'.mapProTxPubKeyIDs = drop pool.mapProTxPubKeyIDs x.keyIDOwner
  blsPubKeyHashes : pool'.mapProTxBlsPubKeyHashes =
    drop pool.mapProTxBlsPubKeyHashes (x.pubKeyHash env)
  collaterals : pool'.mapProTxCollaterals =
    drop pool.mapProTxCollaterals x.collateralOutpoint

/-- What the provider part of `removeUnchecked` does. -/
structure ProTxRemoved (env : Env) (pool : CTxMemPool) (hash : Uint256) (x : ProTx)
    (pool' : CTxMemPool) : Prop extends IndexesRemoved env pool hash x pool' where
  mapTx : pool'.mapTx = pool.mapTx
  mapLinks : pool'.mapLinks = pool.mapLinks
  mapNextTx : pool'.mapNextTx = pool.mapNextTx

theorem mem_eraseProTxRef {refs : List (Uint256 × Uint256)} {txHash : Uint256}
    {r : Uint256 × Uint256} :
    r ∈ eraseProTxRef refs proTxHash txHash ↔ r ∈ refs ∧ some (proTxHash, txHash) ≠ some r := by
  obtain ⟨a, b⟩ := r
  have hpair : (!(a == proTxHash && b == txHash)) = true ↔ some (proTxHash, txHash) ≠ some (a, b) := by
    simp only [Bool.not_eq_true', Bool.and_eq_false_iff, beq_eq_false_iff_ne, ne_eq,
      some.injEq, Prod.mk.injEq, not_and_or]
    exact or_congr (not_congr eq_comm) (not_congr eq_comm)
  rw [eraseProTxRef, mem_filter, hpair]

theorem proTxRemoved_removeProTx (env pool hash x) :
    ProTxRemoved env pool hash x (pool.removeProTx env hash x) := by
  cases x with
  | other =>
    exact ⟨⟨fun r => by simp [removeProTx, ProTx.erasedRef, ProTx.ref], rfl, rfl, rfl, rfl⟩, rfl, rfl, rfl⟩
  | reg p =>
    refine ⟨⟨?_, rfl, rfl, rfl, rfl⟩, rfl, rfl, rfl⟩
    intro r
    by_cases hnull : p.collateralOutpoint = .null
    · simp [removeProTx, ProTx.erasedRef, hnull]
    · simp only [removeProTx, ProTx.erasedRef, ne_eq, hnull, not_false_eq_true, if_true]
      exact mem_eraseProTxRef
  | upServ p => exact ⟨⟨fun r => mem_eraseProTxRef, rfl, rfl, rfl, rfl⟩, rfl, rfl, rfl⟩
  | upReg p => exact ⟨⟨fun r => mem_eraseProTxRef, rfl, rfl, rfl, rfl⟩, rfl, rfl, rfl⟩
  | upRev p => exact ⟨⟨fun r => mem_eraseProTxRef, rfl, rfl, rfl, rfl⟩, rfl, rfl, rfl⟩

/-! ### The tables before and after a step -/

theorem proTxs_eq (pool : CTxMemPool) (h : Uint256) :
    pool.proTxs h = (pool.txs h).bind CTransaction.decodeProTx := by
  unfold proTxs txs
  cases hget : pool.mapTx[h]? with
  | none => rfl
  | some e => exact e.decoded.symm

theorem proTxs_of_get (h : pool.mapTx[hash]? = some entry) :
    pool.proTxs hash = some entry.proTx := by
  rw [proTxs, h]
  rfl

theorem get_of_proTxs (h : pool.proTxs hash = some x) :
    ∃ entry, pool.mapTx[hash]? = some entry ∧ entry.proTx = x :=
  map_eq_some_iff.mp h

theorem txs_insertIfNew (pool : CTxMemPool) (hash : Uint256) (entry : CTxMemPoolEntry) :
    ({ pool with mapTx := pool.mapTx.insertIfNew hash entry } : CTxMemPool).txs =
      update pool.txs hash (some (pool.mapTx[hash]?.getD entry).tx) := by
  funext h
  unfold txs
  rw [getElem?_insertIfNew]
  by_cases heq : hash = h
  · subst heq
    rw [update_self]
    cases hget : pool.mapTx[hash]? with
    | none =>
      rw [if_pos ⟨compare_self, not_mem_iff.mpr hget⟩]
      rfl
    | some e =>
      rw [if_neg fun hcon => hcon.2 (mem_iff_exists.mpr ⟨e, hget⟩)]
      rfl
  · rw [update_of_ne (Ne.symm heq), if_neg fun hcon => heq (eq_of_compare hcon.1)]

theorem txs_erase (pool : CTxMemPool) (hash : Uint256) :
    ({ pool with mapTx := pool.mapTx.erase hash } : CTxMemPool).txs =
      update pool.txs hash none :=
  MapTotal.comp_erase (Option.map CTxMemPoolEntry.tx) pool.mapTx hash

/-- What `addUnchecked` does with the entry that the pool then holds. -/
structure Added (env : Env) (pool : CTxMemPool) (hash : Uint256) (newit : CTxMemPoolEntry)
    (pool' : CTxMemPool) : Prop extends IndexesAdded env pool hash newit.proTx pool' where
  txs : pool'.txs = update pool.txs hash (some newit.tx)
  mapNextTx : pool'.mapNextTx = nextTxOf pool.mapNextTx hash newit.tx.vin

theorem added_addUnchecked (h : pool.addUnchecked env mnList entry = .ok pool') :
    Added env pool (env.txHash entry.tx) (pool.mapTx[env.txHash entry.tx]?.getD entry) pool' := by
  have hadded := proTxAdded_addProTx h
  have hinsert := relinked_insertEntry pool (env.txHash entry.tx)
    (pool.mapTx[env.txHash entry.tx]?.getD entry)
  refine ⟨⟨?_, ?_, ?_, ?_, ?_⟩, ?_, ?_⟩
  · rw [hadded.refs, hinsert.same.refs]
  · rw [hadded.addresses, hinsert.same.addresses]
  · rw [hadded.pubKeyIDs, hinsert.same.pubKeyIDs]
  · rw [hadded.blsPubKeyHashes, hinsert.same.blsPubKeyHashes]
  · rw [hadded.collaterals, hinsert.same.collaterals]
  · rw [hadded.txs]
    have htxs := txs_insertIfNew pool (env.txHash entry.tx)
      (pool.mapTx[env.txHash entry.tx]?.getD entry)
    have hgetD : ∀ o : Option CTxMemPoolEntry, o.getD (o.getD entry) = o.getD entry := by
      intro o
      cases o <;> rfl
    rw [hgetD] at htxs
    rw [← htxs]
    funext hash
    unfold CTxMemPool.txs
    rw [hinsert.mapTx]
  · rw [hadded.mapNextTx, hinsert.mapNextTx]

/-- What `removeUnchecked` does with an entry of the pool. -/
structure Removed (env : Env) (pool : CTxMemPool) (hash : Uint256) (it : CTxMemPoolEntry)
    (pool' : CTxMemPool) : Prop extends IndexesRemoved env pool hash it.proTx pool' where
  mapTx : pool'.mapTx = pool.mapTx.erase hash
  mapLinks : pool'.mapLinks = pool.mapLinks.erase hash
  mapNextTx : pool'.mapNextTx =
    it.tx.vin.foldl (fun m (txin : CTxIn) => m.erase txin.prevout) pool.mapNextTx

theorem removed_removeUnchecked (h : pool.mapTx[hash]? = some it) :
    Removed env pool hash it (pool.removeUnchecked env hash) := by
  unfold removeUnchecked
  rw [h]
  have hremoved := proTxRemoved_removeProTx env { pool with
    mapNextTx := it.tx.vin.foldl (fun m (txin : CTxIn) => m.erase txin.prevout) pool.mapNextTx }
    hash it.proTx
  exact ⟨⟨hremoved.refs, hremoved.addresses, hremoved.pubKeyIDs, hremoved.blsPubKeyHashes,
    hremoved.collaterals⟩, congrArg (·.erase hash) hremoved.mapTx,
    congrArg (·.erase hash) hremoved.mapLinks, hremoved.mapNextTx⟩

theorem exists_removed (h : hash ∈ pool.mapTx) :
    ∃ it, pool.mapTx[hash]? = some it ∧
      Removed env pool hash it (pool.removeUnchecked env hash) := by
  obtain ⟨it, hit⟩ := mem_iff_exists.mp h
  exact ⟨it, hit, removed_removeUnchecked hit⟩

theorem Removed.txs (h : Removed env pool hash it pool') :
    pool'.txs = update pool.txs hash none := by
  rw [← txs_erase]
  funext h'
  unfold CTxMemPool.txs
  rw [h.mapTx]

theorem proTxs_of_update {v : Option CTransaction} (h : pool'.txs = update pool.txs hash v) :
    pool'.proTxs = update pool.proTxs hash (v.bind CTransaction.decodeProTx) := by
  funext h'
  rw [proTxs_eq, h]
  by_cases heq : h' = hash
  · subst heq
    rw [update_self, update_self]
  · rw [update_of_ne heq, update_of_ne heq, proTxs_eq]

/-! ### Spent outpoints -/

/-- `mapNextTx` names transactions of the pool, and outpoints they spend. -/
def NextInPool (pool : CTxMemPool) : Prop :=
  ∀ o h, pool.mapNextTx[o]? = some h → ∃ tx, pool.txs h = some tx ∧ o ∈ tx.vin.map (·.prevout)

theorem getElem?_nextTxOf {vin : List CTxIn}
    {o : COutPoint} {h : Uint256} (hget : (nextTxOf m hash vin)[o]? = some h) :
    m[o]? = some h ∨ h = hash ∧ o ∈ vin.map (·.prevout) := by
  induction vin generalizing m with
  | nil => exact .inl hget
  | cons txin vin ih =>
    rcases ih hget with hold | ⟨heq, hmem⟩
    · rw [getElem?_insertIfNew] at hold
      split at hold
      · next hnew =>
          have ho := eq_of_compare hnew.1
          exact .inr ⟨(some.inj hold).symm, by simp [ho]⟩
      · exact .inl hold
    · exact .inr ⟨heq, mem_cons_of_mem _ hmem⟩

theorem getElem?_erasePrevouts (vin : List CTxIn)
    (o : COutPoint) : (vin.foldl (fun m (txin : CTxIn) => m.erase txin.prevout) m)[o]? =
      if o ∈ vin.map (·.prevout) then none else m[o]? := by
  induction vin generalizing m with
  | nil => simp
  | cons txin vin ih =>
    rw [foldl_cons, ih, getElem?_erase, map_cons]
    by_cases hrest : o ∈ vin.map (·.prevout)
    · rw [if_pos hrest, if_pos (mem_cons_of_mem _ hrest)]
    · rw [if_neg hrest]
      by_cases heq : txin.prevout = o
      · rw [if_pos (heq ▸ ReflCmp.compare_self), if_pos (heq ▸ mem_cons_self)]
      · rw [if_neg fun hc => heq (eq_of_compare hc), if_neg]
        rw [mem_cons, not_or]
        exact ⟨Ne.symm heq, hrest⟩

theorem NextInPool.added {newit : CTxMemPoolEntry} (hnext : NextInPool pool)
    (h : Added env pool hash newit pool') (hkeep : ∀ tx, pool.txs hash = some tx → newit.tx = tx) :
    NextInPool pool' := by
  intro o h' hget
  rw [h.mapNextTx] at hget
  rw [h.txs]
  rcases getElem?_nextTxOf hget with hold | ⟨rfl, hmem⟩
  · obtain ⟨tx, htx, hspends⟩ := hnext o h' hold
    by_cases heq : h' = hash
    · subst heq
      exact ⟨newit.tx, update_self .., hkeep tx htx ▸ hspends⟩
    · exact ⟨tx, by rw [update_of_ne heq, htx], hspends⟩
  · exact ⟨newit.tx, update_self .., hmem⟩

theorem NextInPool.removed (hnext : NextInPool pool) (hit : pool.mapTx[hash]? = some it)
    (h : Removed env pool hash it pool') : NextInPool pool' := by
  intro o h' hget
  rw [h.mapNextTx, getElem?_erasePrevouts] at hget
  split at hget
  · cases hget
  · next hunspent =>
      obtain ⟨tx, htx, hspends⟩ := hnext o h' hget
      have hne : h' ≠ hash := by
        intro heq
        rw [heq, txs, hit] at htx
        obtain rfl := some.inj htx
        exact hunspent hspends
      exact ⟨tx, by rw [h.txs, update_of_ne hne, htx], hspends⟩

/-! ### Steps keep the indexes exact -/

/-- No two provider transactions of the pool share the owner key or the external collateral. -/
structure Invariant (env : Env) (pool : CTxMemPool) : Prop where
  exact : IndexesExact env pool
  ownerKeys : KeyIndex.Unshared pool.proTxs ProTx.keyIDOwner
  collaterals : KeyIndex.Unshared pool.proTxs ProTx.externalCollateral
  next : NextInPool pool

/-- The owner key and the external collateral of a transaction without a conflict are new. -/
theorem fresh_of_not_conflict {tx : CTransaction} (hx : tx.decodeProTx = some x)
    (h : pool.existsProviderTxConflict env mnList tx = false) :
    (∀ k, x.keyIDOwner = some k → k ∉ pool.mapProTxPubKeyIDs) ∧
      ∀ o, x.externalCollateral = some o → o ∉ pool.mapProTxCollaterals := by
  unfold existsProviderTxConflict at h
  rw [hx] at h
  cases x with
  | reg p =>
    simp only at h
    split at h
    · cases h
    · next hkeys =>
        rw [not_or, not_or] at hkeys
        constructor
        · intro k hk
          obtain rfl := some.inj hk
          exact hkeys.2.1
        · intro o ho
          obtain ⟨hout, hext⟩ := ProTx.externalCollateral_eq_some.mp ho
          obtain rfl := some.inj hout
          rw [if_pos hext] at h
          exact (not_or.mp (of_decide_eq_false h)).1
  | _ => simp [ProTx.keyIDOwner, ProTx.externalCollateral, ProTx.collateralOutpoint]

namespace Invariant

section

variable (hinv : Invariant env pool)

include hinv

theorem added (mnList) {newit : CTxMemPoolEntry} (h : Added env pool hash newit pool')
    (hwas : pool.mapTx[hash]? = some newit ∨ pool.mapTx[hash]? = none ∧
      pool.existsProviderTxConflict env mnList newit.tx = false) : Invariant env pool' := by
  have hexact := hinv.exact
  have hrows : pool'.proTxs = update pool.proTxs hash (some newit.proTx) := by
    rw [proTxs_of_update h.txs, bind_some, newit.decoded]
  have hsame : ∀ it, pool.mapTx[hash]? = some it → it = newit := by
    intro it hit
    rcases hwas with hwas | ⟨hwas, -⟩
    · exact some.inj (hit.symm.trans hwas)
    · cases hwas.symm.trans hit
  have hrow : ∀ x, pool.proTxs hash = some x → x = newit.proTx := by
    intro x hx
    obtain ⟨it, hit, rfl⟩ := get_of_proTxs hx
    rw [hsame it hit]
  refine ⟨⟨?_, ?_, ?_, ?_, ?_⟩, ?_, ?_, ?_⟩
  · rw [hrows, h.addresses]
    exact hexact.addresses.insert hrow
  · rw [hrows, h.pubKeyIDs]
    exact hexact.pubKeyIDs.insert hrow
  · rw [hrows, h.blsPubKeyHashes]
    exact hexact.blsPubKeyHashes.insert hrow
  · rw [hrows, h.collaterals]
    exact hexact.collaterals.insert hrow
  · intro r
    rw [hrows, h.refs, mem_append, hexact.refs, mem_toList]
    constructor
    · rintro (⟨h', x, hx, hr⟩ | hr)
      · refine ⟨h', x, update_eq_some.mpr ?_, hr⟩
        by_cases heq : h' = hash
        · exact .inl ⟨heq, congrArg some (hrow x (heq ▸ hx)).symm⟩
        · exact .inr ⟨heq, hx⟩
      · exact ⟨hash, newit.proTx, update_self .., hr⟩
    · rintro ⟨h', x, hx, hr⟩
      rcases update_eq_some.mp hx with ⟨rfl, heq⟩ | ⟨-, hx⟩
      · exact .inr (some.inj heq ▸ hr)
      · exact .inl ⟨h', x, hx, hr⟩
  · rw [hrows]
    refine hinv.ownerKeys.insert fun h' x' k hx' hk hk' => ?_
    rcases hwas with hwas | ⟨-, hfree⟩
    · exact hinv.ownerKeys h' hash x' newit.proTx k hx' (proTxs_of_get hwas) hk' hk
    · exact absurd (hexact.pubKeyIDs.present h' x' k hx' hk')
        ((fresh_of_not_conflict newit.decoded hfree).1 k hk)
  · rw [hrows]
    refine hinv.collaterals.insert fun h' x' o hx' ho ho' => ?_
    rcases hwas with hwas | ⟨-, hfree⟩
    · exact hinv.collaterals h' hash x' newit.proTx o hx' (proTxs_of_get hwas) ho' ho
    · exact absurd (hexact.collaterals.present h' x' o hx' ho')
        ((fresh_of_not_conflict newit.decoded hfree).2 o ho)
  · refine hinv.next.added h fun tx htx => ?_
    obtain ⟨it, hit, rfl⟩ := map_eq_some_iff.mp htx
    rw [hsame it hit]

theorem addUnchecked {entry : CTxMemPoolEntry}
    (hfree : pool.existsProviderTxConflict env mnList entry.tx = false)
    (h : pool.addUnchecked env mnList entry = .ok pool') : Invariant env pool' := by
  have hadded := added_addUnchecked h
  cases hget : pool.mapTx[env.txHash entry.tx]? with
  | none =>
    rw [hget] at hadded
    exact hinv.added mnList hadded (.inr ⟨hget, hfree⟩)
  | some it =>
    rw [hget] at hadded
    exact hinv.added mnList hadded (.inl hget)

/-- The external collateral goes with the transaction, also where the source erases an outpoint
that cannot be in the index. -/
theorem drop_collateralOutpoint (x : ProTx) :
    drop pool.mapProTxCollaterals x.collateralOutpoint =
      drop pool.mapProTxCollaterals x.externalCollateral := by
  cases hout : x.collateralOutpoint with
  | none => rw [ProTx.externalCollateral, hout]; rfl
  | some o =>
    by_cases hhash : o.hash = 0
    · have hnone : x.externalCollateral = none := by
        rw [ProTx.externalCollateral, hout]
        simp [hhash]
      rw [hnone, drop_of_not_mem]
      · rfl
      · intro k hk
        obtain rfl := some.inj hk
        apply hinv.exact.collaterals.not_mem
        intro h x' _ hx'
        exact (ProTx.externalCollateral_eq_some.mp hx').2 hhash
    · rw [ProTx.externalCollateral_eq_some.mpr ⟨hout, hhash⟩]

/-- Removing a transaction keeps the indexes exact exactly if no other one loses an entry. -/
theorem removed_iff {it : CTxMemPoolEntry} (hit : pool.mapTx[hash]? = some it)
    (h : Removed env pool hash it pool') :
    IndexesExact env pool' ↔
      ∀ hash' x', hash' ≠ hash → pool.proTxs hash' = some x' →
        ¬ LosesEntry env hash it.proTx hash' x' := by
  have hx := proTxs_of_get hit
  have hrows : pool'.proTxs = update pool.proTxs hash none := by
    rw [proTxs_of_update h.txs]
    rfl
  have hexact := hinv.exact
  have haddr := hexact.addresses.erase_iff hx
  have hbls := hexact.blsPubKeyHashes.erase_iff hx
  rw [← hrows, ← h.addresses] at haddr
  rw [← hrows, ← h.blsPubKeyHashes] at hbls
  constructor
  · intro hafter hash' x' hne hx' hloses
    rcases hloses with ⟨a, ha, ha'⟩ | ⟨k, hk, hk'⟩ | ⟨r, hr, hr'⟩
    · exact haddr.mp hafter.addresses hash' x' a hne hx' ha ha'
    · exact hbls.mp hafter.blsPubKeyHashes hash' x' k hne hx' hk hk'
    · have hrow : pool'.proTxs hash' = some x' := by rw [hrows, update_of_ne hne, hx']
      have hmem := (hafter.refs r).mpr ⟨hash', x', hrow, hr'⟩
      exact ((h.refs r).mp hmem).2 hr
  · intro halone
    refine ⟨?_, ?_, ?_, ?_, ?_⟩
    · refine haddr.mpr fun hash' x' a hne hx' ha ha' => ?_
      exact halone hash' x' hne hx' (.inl ⟨a, ha, ha'⟩)
    · rw [hrows, h.pubKeyIDs, hexact.pubKeyIDs.erase_iff hx]
      intro hash' x' k hne hx' hk hk'
      exact hne (hinv.ownerKeys hash' hash x' it.proTx k hx' hx hk' hk)
    · refine hbls.mpr fun hash' x' k hne hx' hk hk' => ?_
      exact halone hash' x' hne hx' (.inr (.inl ⟨k, hk, hk'⟩))
    · rw [hrows, h.collaterals, hinv.drop_collateralOutpoint, hexact.collaterals.erase_iff hx]
      intro hash' x' o hne hx' ho ho'
      exact hne (hinv.collaterals hash' hash x' it.proTx o hx' hx ho' ho)
    · intro r
      rw [h.refs, hexact.refs, hrows]
      constructor
      · rintro ⟨⟨hash', x', hx', hr⟩, hkept⟩
        have hne : hash' ≠ hash := by
          intro heq
          rw [heq, hx] at hx'
          obtain rfl := some.inj hx'
          exact hkept (ProTx.erasedRef_of_ref (heq ▸ hr))
        exact ⟨hash', x', by rw [update_of_ne hne, hx'], hr⟩
      · rintro ⟨hash', x', hx', hr⟩
        rcases update_eq_some.mp hx' with ⟨-, hnone⟩ | ⟨hne, hx'⟩
        · cases hnone
        · refine ⟨⟨hash', x', hx', hr⟩, fun herased => ?_⟩
          exact halone hash' x' hne hx' (.inr (.inr ⟨r, herased, hr⟩))

omit hinv in
theorem proTxs_empty (hempty : pool.mapTx = ∅) (hash) : pool.proTxs hash = none := by
  rw [proTxs, hempty, getElem?_empty]
  rfl

omit hinv in
/-- What the pool has to know besides its indexes is clear when there is nothing in it. -/
theorem of_empty (hexact : IndexesExact env pool) (hempty : pool.mapTx = ∅)
    (hnext : pool.mapNextTx = ∅) : Invariant env pool := by
  refine ⟨hexact, unshared_of_none (proTxs_empty hempty), unshared_of_none (proTxs_empty hempty), ?_⟩
  intro o h hget
  rw [hnext, getElem?_empty] at hget
  cases hget

/-- Clearing the pool keeps the indexes exact exactly if it holds no provider transaction. -/
theorem clear_iff :
    IndexesExact env pool.clear ↔ ∀ hash x, pool.proTxs hash = some x → x = .other := by
  have hexact := hinv.exact
  have hnone : ∀ hash, pool.clear.proTxs hash = none := proTxs_empty rfl
  have hempty : ∀ hash x, pool.clear.proTxs hash = some x → False := by
    intro hash x hx
    cases hx
  constructor
  · intro hafter hash x hx
    -- A registration or a change of a key is still in the index of operator keys, and any other
    -- provider transaction among the references.
    have hkeys : ∀ k, x.pubKeyHash env ≠ some k := by
      intro k hk
      obtain ⟨h', x', hx', -⟩ := hafter.blsPubKeyHashes.exists_row
        (hexact.blsPubKeyHashes.present hash x k hx hk)
      exact hempty h' x' hx'
    have hrefs : ∀ r, x.ref hash ≠ some r := by
      intro r hr
      obtain ⟨h', x', hx', -⟩ := (hafter.refs r).mp ((hexact.refs r).mpr ⟨hash, x, hx, hr⟩)
      exact hempty h' x' hx'
    cases x with
    | other => rfl
    | reg p => exact absurd rfl (hkeys _)
    | upServ p => exact absurd rfl (hrefs _)
    | upReg p => exact absurd rfl (hkeys _)
    | upRev p => exact absurd rfl (hrefs _)
  · intro hother
    refine ⟨exact_empty hnone, exact_empty hnone, ⟨?_, ?_⟩, ⟨?_, ?_⟩, ?_⟩
    · intro k h hget
      obtain ⟨x, hx, hk⟩ := hexact.blsPubKeyHashes.owner k h hget
      cases hother h x hx ▸ hk
    · exact fun h x k hx => (hempty h x hx).elim
    · intro k h hget
      obtain ⟨x, hx, hk⟩ := hexact.collaterals.owner k h hget
      cases hother h x hx ▸ hk
    · exact fun h x k hx => (hempty h x hx).elim
    · intro r
      constructor
      · intro hr
        obtain ⟨h, x, hx, hr⟩ := (hexact.refs r).mp hr
        rw [hother h x hx] at hr
        cases hr
      · rintro ⟨h, x, hx, -⟩
        exact absurd hx (hempty h x)

/-- Erasing a reference keeps the references exact exactly if there is a second copy of it. -/
theorem dropRef_iff {r : Uint256 × Uint256} (hr : r ∈ pool.mapProTxRefs) :
    IndexesExact env { pool with mapProTxRefs := pool.mapProTxRefs.erase r } ↔
      2 ≤ pool.mapProTxRefs.count r := by
  have hexact := hinv.exact
  have hcount : r ∈ pool.mapProTxRefs.erase r ↔ 2 ≤ pool.mapProTxRefs.count r := by
    rw [← count_pos_iff, count_erase_self]
    omega
  rw [← hcount]
  constructor
  · intro hafter
    exact (hafter.refs r).mpr ((hexact.refs r).mp hr)
  · intro hcopy
    refine ⟨hexact.addresses, hexact.pubKeyIDs, hexact.blsPubKeyHashes, hexact.collaterals, ?_⟩
    intro r'
    refine Iff.trans ?_ (hexact.refs r')
    constructor
    · exact mem_of_mem_erase
    · intro hr'
      by_cases heq : r' = r
      · rwa [heq]
      · exact (mem_erase_of_ne heq).mpr hr'

end

end Invariant

/-! ### Conflicts are with transactions of the pool -/

theorem changesKey_of_hasKeyChange (hinv : Invariant env pool)
    (h : pool.hasKeyChangeInMempool proTxHash = true) :
    ∃ hash entry, pool.mapTx[hash]? = some entry ∧ pool.ChangesKey proTxHash hash entry := by
  obtain ⟨r, hr, hchange⟩ := any_eq_true.mp h
  obtain ⟨hmem, hfirst⟩ := mem_filter.mp hr
  obtain ⟨hash, x, hx, href⟩ := (hinv.exact.refs r).mp hmem
  obtain ⟨entry, hget, rfl⟩ := get_of_proTxs hx
  obtain ⟨other, hother, hkey⟩ := (any_eq_true _ _).mp hchange
  exact ⟨hash, entry, hget, r, href, beq_iff_eq.mp hfirst, other, hother, hkey⟩

theorem entry_of_mem {K : Type} {cmp : K → K → Ordering} [TransCmp cmp] {key : ProTx → Option K}
    {m : ExtTreeMap K Uint256 cmp} (hx : KeyIndex.Exact pool.proTxs key m) {k : K} (hk : k ∈ m) :
    ∃ (hash : Uint256) (entry : CTxMemPoolEntry),
      pool.mapTx[hash]? = some entry ∧ key entry.proTx = some k := by
  obtain ⟨hash, x, hrow, hkey⟩ := hx.exists_row hk
  obtain ⟨entry, hget, rfl⟩ := get_of_proTxs hrow
  exact ⟨hash, entry, hget, hkey⟩

theorem conflictsInPool_of_invariant (hinv : Invariant env pool) : ConflictsInPool env pool := by
  intro mnList tx h
  have hexact := hinv.exact
  unfold existsProviderTxConflict at h
  cases hdecode : tx.decodeProTx with
  | none => exact .inl (.inl hdecode)
  | some x =>
    rw [hdecode] at h
    cases x with
    | other => cases h
    | reg p =>
      refine .inr ⟨.reg p, ?_⟩
      simp only at h
      split at h
      · next hkeys =>
          rcases hkeys with hk | hk | hk
          · obtain ⟨hash, entry, hget, hkey⟩ := entry_of_mem hexact.addresses hk
            exact ⟨hash, entry, rfl, hget, .inl hkey⟩
          · obtain ⟨hash, entry, hget, hkey⟩ := entry_of_mem hexact.pubKeyIDs hk
            exact ⟨hash, entry, rfl, hget, .inr (.inl hkey)⟩
          · obtain ⟨hash, entry, hget, hkey⟩ := entry_of_mem hexact.blsPubKeyHashes hk
            exact ⟨hash, entry, rfl, hget, .inr (.inr (.inl hkey))⟩
      · split at h
        · next hext =>
            rcases of_decide_eq_true h with hk | hk
            · obtain ⟨hash, entry, hget, hkey⟩ := entry_of_mem hexact.collaterals hk
              exact ⟨hash, entry, rfl, hget, .inr (.inr (.inr ⟨hext, .inl hkey⟩))⟩
            · obtain ⟨hash, hget⟩ := mem_iff_exists.mp hk
              obtain ⟨spender, hspender, hspends⟩ := hinv.next _ _ hget
              obtain ⟨entry, hentry, rfl⟩ := map_eq_some_iff.mp hspender
              exact ⟨hash, entry, rfl, hentry, .inr (.inr (.inr ⟨hext, .inr hspends⟩))⟩
        · cases h
    | upServ p =>
      refine .inr ⟨.upServ p, ?_⟩
      obtain ⟨hash, hget, hne⟩ := (any_eq_true _ _).mp h
      obtain ⟨x, hx, hkey⟩ := hexact.addresses.owner _ _ hget
      obtain ⟨entry, hentry, rfl⟩ := get_of_proTxs hx
      exact ⟨hash, entry, rfl, hentry, hkey, of_decide_eq_true hne⟩
    | upReg p =>
      simp only at h
      split at h
      · next hmn => exact .inl (.inr ⟨.upReg p, p.proTxHash, hdecode, rfl, hmn⟩)
      · refine .inr ⟨.upReg p, ?_⟩
        split at h
        · next hchange =>
            obtain ⟨hash, entry, hget, hkey⟩ := changesKey_of_hasKeyChange hinv hchange.2
            exact ⟨hash, entry, rfl, hget, .inl hkey⟩
        · obtain ⟨hash, hget, hne⟩ := (any_eq_true _ _).mp h
          obtain ⟨x, hx, hkey⟩ := hexact.blsPubKeyHashes.owner _ _ hget
          obtain ⟨entry, hentry, rfl⟩ := get_of_proTxs hx
          exact ⟨hash, entry, rfl, hentry, .inr ⟨hkey, of_decide_eq_true hne⟩⟩
    | upRev p =>
      simp only at h
      split at h
      · next hmn => exact .inl (.inr ⟨.upRev p, p.proTxHash, hdecode, rfl, hmn⟩)
      · refine .inr ⟨.upRev p, ?_⟩
        obtain ⟨hash, entry, hget, hkey⟩ :=
          changesKey_of_hasKeyChange hinv (of_decide_eq_true h).2
        exact ⟨hash, entry, rfl, hget, hkey⟩

/-! ### Runs -/

theorem invariant_empty : Invariant env empty := by
  have hnone : ∀ h, empty.proTxs h = none := Invariant.proTxs_empty rfl
  refine .of_empty ⟨exact_empty hnone, exact_empty hnone, exact_empty hnone, exact_empty hnone, ?_⟩
    rfl rfl
  intro r
  constructor
  · intro hr
    cases hr
  · rintro ⟨h, x, hx, -⟩
    cases hx

namespace Invariant

variable {op : Op}

/-- A step keeps the indexes exact under its condition, and only then. -/
theorem step_iff (hinv : Invariant env pool) (h : Step env pool op pool') :
    IndexesExact env pool' ↔ Keeps env pool op := by
  cases op with
  | add mnList entry =>
    obtain ⟨hfree, hadd⟩ := h
    exact iff_of_true (hinv.addUnchecked hfree hadd).exact trivial
  | remove hash =>
    obtain ⟨hmem, rfl⟩ := h
    obtain ⟨it, hit⟩ := mem_iff_exists.mp hmem
    rw [hinv.removed_iff hit (removed_removeUnchecked hit)]
    constructor
    · intro halone x hash' x' hx hne hx'
      rw [proTxs_of_get hit] at hx
      obtain rfl := some.inj hx
      exact halone hash' x' hne hx'
    · intro hkeeps hash' x' hne hx'
      exact hkeeps it.proTx hash' x' (proTxs_of_get hit) hne hx'
  | relink mapLinks =>
    obtain rfl := h
    have hexact := hinv.exact
    exact iff_of_true ⟨hexact.addresses, hexact.pubKeyIDs, hexact.blsPubKeyHashes,
      hexact.collaterals, hexact.refs⟩ trivial
  | dropRef ref =>
    obtain ⟨hmem, -, rfl⟩ := h
    exact hinv.dropRef_iff hmem
  | clear =>
    obtain rfl := h
    exact hinv.clear_iff

/-- Where a step keeps the indexes exact, it keeps the rest of the invariant too. -/
theorem step (hinv : Invariant env pool) (h : Step env pool op pool')
    (hexact : IndexesExact env pool') : Invariant env pool' := by
  cases op with
  | add mnList entry => exact hinv.addUnchecked h.1 h.2
  | remove hash =>
    obtain ⟨hmem, rfl⟩ := h
    obtain ⟨it, hit⟩ := mem_iff_exists.mp hmem
    have hremoved : Removed env pool hash it (pool.removeUnchecked env hash) :=
      removed_removeUnchecked hit
    have hrows : (pool.removeUnchecked env hash).proTxs = update pool.proTxs hash none := by
      rw [proTxs_of_update hremoved.txs]
      rfl
    refine ⟨hexact, ?_, ?_, hinv.next.removed hit hremoved⟩
    · rw [hrows]
      exact hinv.ownerKeys.erase hash
    · rw [hrows]
      exact hinv.collaterals.erase hash
  | relink mapLinks =>
    obtain rfl := h
    exact ⟨hexact, hinv.ownerKeys, hinv.collaterals, hinv.next⟩
  | dropRef ref =>
    obtain ⟨-, -, rfl⟩ := h
    exact ⟨hexact, hinv.ownerKeys, hinv.collaterals, hinv.next⟩
  | clear =>
    obtain rfl := h
    exact .of_empty hexact rfl rfl

theorem run_iff {tr : List (CTxMemPool × Op × CTxMemPool)} (h : Lts.Run (Step env) pool tr pool')
    (hinv : Invariant env pool) :
    (∀ x ∈ tr, IndexesExact env x.2.2 ∧ ConflictsInPool env x.2.2) ↔
      ∀ x ∈ tr, Keeps env x.1 x.2.1 := by
  induction h with
  | nil pool => simp
  | @cons s s' t op tr hstep hrest ih =>
    have hiff := hinv.step_iff hstep
    rw [forall_mem_cons, forall_mem_cons]
    constructor
    · rintro ⟨⟨hexact, -⟩, hafter⟩
      exact ⟨hiff.mp hexact, (ih (hinv.step hstep hexact)).mp hafter⟩
    · rintro ⟨hkeeps, hafter⟩
      have hexact := hiff.mpr hkeeps
      have hinv' := hinv.step hstep hexact
      exact ⟨⟨hexact, conflictsInPool_of_invariant hinv'⟩, (ih hinv').mpr hafter⟩

end Invariant

/-- In every run of a pool that starts empty, the indexes stay exact, and conflicts are reported
with transactions of the pool only, as long as every step meets its condition and no longer. -/
theorem providerIndexes_exact_iff {tr : List (CTxMemPool × Op × CTxMemPool)}
    (h : Lts.Run (Step env) empty tr pool) :
    (∀ x ∈ tr, IndexesExact env x.2.2 ∧ ConflictsInPool env x.2.2) ↔
      ∀ x ∈ tr, Keeps env x.1 x.2.1 :=
  invariant_empty.run_iff h

/-! ### A run -/

/-- Surroundings in which a transaction has its lock time for a hash. -/
noncomputable def lockTimeEnv : Env := { sampleEnv [] with txHash := fun tx => tx.nLockTime }

/-- A registration, in its simplest form. -/
def regPayload (ownerKey operatorKey : Nat) (addr : CService) (collateral : COutPoint) :
    CProRegTx where
  nVersion := 1
  nType := 0
  nMode := 0
  collateralOutpoint := collateral
  addr := addr
  keyIDOwner := ownerKey
  pubKeyOperator := ⟨some operatorKey⟩
  keyIDVoting := ownerKey
  nOperatorReward := 0
  scriptPayout := samplePayout
  inputsHash := 0
  vchSig := []

/-- The registration in a transaction with the hash. -/
def regEntry (hash : Uint256) (p : CProRegTx) : CTxMemPoolEntry where
  tx := { sampleTx .providerRegister (.proReg p) with
    vout := [⟨2500 * coin, []⟩]
    nLockTime := hash
    vout_size := by decide }
  proTx := .reg p
  decoded := rfl

/-- A masternode that is registered with an output of the transaction itself. -/
def ownCollateralReg : CTxMemPoolEntry := regEntry 7 (regPayload 1 5 ⟨1, 2⟩ ⟨0, 0⟩)

noncomputable def oneRegPool : CTxMemPool :=
  (empty.addUnchecked lockTimeEnv {} ownCollateralReg).toOption.getD empty

theorem step_oneRegPool :
    Step lockTimeEnv empty (.add {} ownCollateralReg) oneRegPool := ⟨rfl, rfl⟩

theorem providerIndexes_exact_add_remove :
    (∀ x ∈ [(empty, Op.add {} ownCollateralReg, oneRegPool),
        (oneRegPool, .remove 7, oneRegPool.removeUnchecked lockTimeEnv 7)],
      IndexesExact lockTimeEnv x.2.2 ∧ ConflictsInPool lockTimeEnv x.2.2) ↔
    ∀ x ∈ [(empty, Op.add {} ownCollateralReg, oneRegPool),
        (oneRegPool, .remove 7, oneRegPool.removeUnchecked lockTimeEnv 7)],
      Keeps lockTimeEnv x.1 x.2.1 :=
  providerIndexes_exact_iff
    (.cons step_oneRegPool (.cons ⟨by decide, rfl⟩ (.nil _)))

/-- After `clear` the operator key of the registration is still taken. -/
theorem clear_keeps_operatorKey :
    Lts.Run (Step lockTimeEnv) empty
        [(empty, .add {} ownCollateralReg, oneRegPool), (oneRegPool, .clear, oneRegPool.clear)]
        oneRegPool.clear ∧
      oneRegPool.clear.mapTx = ∅ ∧
      oneRegPool.clear.existsProviderTxConflict lockTimeEnv {} 
        (regEntry 8 (regPayload 2 5 ⟨2, 2⟩ ⟨0, 0⟩)).tx = true ∧
      ¬ IndexesExact lockTimeEnv oneRegPool.clear := by
  refine ⟨.cons step_oneRegPool (.cons rfl (.nil _)), rfl, rfl, ?_⟩
  intro hexact
  obtain ⟨h, x, hx, -⟩ := hexact.blsPubKeyHashes.exists_row
    (k := lockTimeEnv.pubKeyHash ⟨some 5⟩) (by decide)
  cases hx

end CTxMemPool

end Absolute
