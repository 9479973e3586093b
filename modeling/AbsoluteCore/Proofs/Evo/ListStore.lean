/-
The cache of the manager is transparent, if no stale list waits for a connected block.

`GetListForBlock` is first brought into the shape of a recursion over the chain, and then
compared with `storedList`, which has no cache.  The invariant of the runs says that every
cached list is the stored one of a known block; connecting or disconnecting a block changes
the stored list of that block only, since no block above it has anything stored.
-/
import AbsoluteCore.Spec.StoredLists
import AbsoluteCore.Proofs.Evo.Replay

namespace Absolute

open Fallible Lts CBlockIndex List Prod Except Std.ExtTreeMap OnChain Or

namespace CDeterministicMNManager

/-! ### `GetListForBlock` as a recursion -/

section Lookup

variable (serializeHash : UniqueProperty → Uint256) (m : CDeterministicMNManager)

/-- `GetListForBlock` without its list of pending differences. -/
def lookup (pindex : CBlockIndex) :
    Except Fail (CDeterministicMNList × HashMap CDeterministicMNList) :=
  match m.mnListsCache[pindex.getBlockHash]? with
  | some snapshot => .ok (snapshot, m.mnListsCache)
  | none =>
    match m.snapshots[pindex.getBlockHash]? with
    | some snapshot => .ok (snapshot, m.mnListsCache.insertIfNew pindex.getBlockHash snapshot)
    | none =>
      match m.diffs[pindex.getBlockHash]? with
      | none =>
        .ok ({ blockHash := pindex.getBlockHash },
          m.mnListsCache.insertIfNew pindex.getBlockHash { blockHash := pindex.getBlockHash })
      | some diff =>
        match pindex with
        | .genesis _ => .error .assert
        | .next h pprev => do
          let s ← lookup pprev
          replayCached serializeHash s (.next h pprev, diff)

/-- The two loops together, for any differences that are already pending. -/
theorem findBase_replay (p : CBlockIndex)
    (pending : List (CBlockIndex × CDeterministicMNListDiff)) :
    (m.findBase p pending >>= fun x => x.2.1.foldlM (replayCached serializeHash) (x.1, x.2.2)) =
      (lookup serializeHash m p >>= pending.foldlM (replayCached serializeHash)) := by
  induction p using pprev_induction generalizing pending with
  | step p ih =>
    unfold findBase lookup
    cases m.mnListsCache[p.getBlockHash]? with
    | some l => rfl
    | none =>
      cases m.snapshots[p.getBlockHash]? with
      | some l => rfl
      | none =>
        cases m.diffs[p.getBlockHash]? with
        | none => rfl
        | some diff =>
          cases p with
          | genesis h => rfl
          | next h pprev =>
            -- the difference joins the pending ones, and is the first to be replayed
            simp only [ih h pprev rfl, bind_assoc, foldlM_cons]

theorem getListForBlock_eq (p : CBlockIndex) :
    m.getListForBlock serializeHash p =
      (lookup serializeHash m p).map fun s => (s.1, { m with mnListsCache := s.2 }) := by
  have hloops := findBase_replay serializeHash m p []
  have hnil : (lookup serializeHash m p >>= [].foldlM (replayCached serializeHash)) =
      lookup serializeHash m p := by
    cases lookup serializeHash m p <;> rfl
  rw [hnil] at hloops
  rw [← hloops]
  unfold getListForBlock
  cases m.findBase p [] with
  | error e => rfl
  | ok x => rfl

end Lookup

/-! ### Lookups are right -/

section Sound

variable {env : Env} {m m' : CDeterministicMNManager} {p q r : CBlockIndex}
  {l : CDeterministicMNList}
variable {sh : UniqueProperty → Uint256} {h : Uint256}

/-- What is stored under a hash. -/
def rows (m : CDeterministicMNManager) (h : Uint256) :
    Option CDeterministicMNListDiff × Option CDeterministicMNList :=
  (m.diffs[h]?, m.snapshots[h]?)

theorem storedList_of_snapshot (h : m.snapshots[p.getBlockHash]? = some l) :
    m.storedList sh p = .ok l := by
  unfold storedList
  simp only [h]

theorem storedList_of_none (hrows : m.rows p.getBlockHash = (none, none)) :
    m.storedList sh p = .ok { blockHash := p.getBlockHash } := by
  obtain ⟨hdiff, hsnapshot⟩ := Prod.mk.inj hrows
  unfold storedList
  simp only [hsnapshot, hdiff]

theorem storedList_of_diff {diff : CDeterministicMNListDiff}
    (hsnapshot : m.snapshots[h]? = none) (hdiff : m.diffs[h]? = some diff) :
    m.storedList sh (.next h p) =
      (m.storedList sh p >>= fun l => replayDiff sh l (.next h p, diff)) := by
  conv_lhs => unfold storedList
  simp only [getBlockHash, hsnapshot, hdiff]

theorem storedList_congr
    (h : ∀ q : CBlockIndex, q.OnChain p → m'.rows q.getBlockHash = m.rows q.getBlockHash) :
    m'.storedList sh p = m.storedList sh p := by
  induction p with
  | genesis hash =>
    obtain ⟨hdiff, hsnapshot⟩ := Prod.mk.inj (h _ (refl _))
    unfold storedList
    simp only [hdiff, hsnapshot]
  | next hash p ih =>
    obtain ⟨hdiff, hsnapshot⟩ := Prod.mk.inj (h _ (refl _))
    unfold storedList
    simp only [hdiff, hsnapshot, ih fun q hq => h q (inr hq)]

/-- A block with this hash is known, and this is its stored list. -/
def Stored (env : Env) (m : CDeterministicMNManager) (h : Uint256) (l : CDeterministicMNList) :
    Prop :=
  ∃ p : CBlockIndex, p.Known env ∧ p.getBlockHash = h ∧ m.storedList env.serializeHash p = .ok l

/-- Every cached list is the stored one. -/
abbrev CacheSound (env : Env) (m : CDeterministicMNManager) : Prop :=
  Memo.Sound (Stored env m) m.mnListsCache

theorem CacheSound.storedList_eq (h : CacheSound env m) (hp : p.Known env)
    (hget : m.mnListsCache[p.getBlockHash]? = some l) :
    m.storedList env.serializeHash p = .ok l := by
  obtain ⟨q, hq, hhash, hstored⟩ := h _ _ hget
  rwa [hq.eq_of_hash hp hhash] at hstored

/-- The entry was in the cache, or is the stored list of a block of the chain. -/
def CachedOrStored (env : Env) (m : CDeterministicMNManager) (p : CBlockIndex) (h : Uint256)
    (l : CDeterministicMNList) : Prop :=
  m.mnListsCache[h]? = some l ∨
    ∃ q : CBlockIndex, q.OnChain p ∧ q.getBlockHash = h ∧
      m.storedList env.serializeHash q = .ok l

theorem CachedOrStored.mono (hpq : ∀ r : CBlockIndex, r.OnChain p → r.OnChain q)
    (hc : CachedOrStored env m p h l) : CachedOrStored env m q h l := by
  rcases hc with hold | ⟨r, hr, hrest⟩
  · exact inl hold
  · exact inr ⟨r, hpq r hr, hrest⟩

/--
**A lookup in a sound cache returns the stored list**, or fails as replaying it would, and leaves
nothing but right answers in the cache.
-/
theorem lookup_ends (hm : CacheSound env m) (hp : p.Known env) :
    Ends (fun s => m.storedList env.serializeHash p = .ok s.1 ∧
        ∀ h l, s.2[h]? = some l → CachedOrStored env m p h l)
      (fun e => m.storedList env.serializeHash p = .error e) (lookup env.serializeHash m p) := by
  induction p using pprev_induction with
  | step p ih =>
    have hnew : ∀ {cache : HashMap CDeterministicMNList} {l : CDeterministicMNList},
        m.storedList env.serializeHash p = .ok l →
        (∀ h l, cache[h]? = some l → CachedOrStored env m p h l) →
        ∀ h l', (cache.insertIfNew p.getBlockHash l)[h]? = some l' →
          CachedOrStored env m p h l' := by
      intro cache l hstored hcache h l' hget
      rcases Memo.getElem?_insertIfNew_cases hget with hold | ⟨rfl, rfl⟩
      · exact hcache h l' hold
      · exact inr ⟨p, refl p, rfl, hstored⟩
    unfold lookup
    cases hcache : m.mnListsCache[p.getBlockHash]? with
    | some l => exact ⟨hm.storedList_eq hp hcache, fun _ _ => inl⟩
    | none =>
      cases hsnapshot : m.snapshots[p.getBlockHash]? with
      | some l =>
        have hstored : m.storedList env.serializeHash p = .ok l := storedList_of_snapshot hsnapshot
        exact ⟨hstored, hnew hstored fun _ _ => inl⟩
      | none =>
        cases hdiff : m.diffs[p.getBlockHash]? with
        | none =>
          have hstored : m.storedList env.serializeHash p = .ok { blockHash := p.getBlockHash } :=
            storedList_of_none (Prod.ext hdiff hsnapshot)
          exact ⟨hstored, hnew hstored fun _ _ => inl⟩
        | some diff =>
          cases p with
          | genesis h =>
            show storedList env.serializeHash m (.genesis h) = .error .assert
            unfold storedList
            simp only [hsnapshot, hdiff]
          | next h pprev =>
            have hstored : m.storedList env.serializeHash (.next h pprev) = _ :=
              storedList_of_diff hsnapshot hdiff
            refine (ih h pprev rfl hp.2).bind (fun s hs => ?_) fun e he => by rw [hstored, he]; rfl
            rw [hs.1, ok_bind] at hstored
            unfold replayCached
            cases hreplay : replayDiff env.serializeHash s.1 (.next h pprev, diff) with
            | error e => exact hstored.trans hreplay
            | ok l =>
              rw [hreplay] at hstored
              have hon : ∀ r : CBlockIndex, r.OnChain pprev → r.OnChain (.next h pprev) :=
                fun r hr => inr hr
              exact ⟨hstored, hnew hstored fun h' l' hget => (hs.2 h' l' hget).mono hon⟩

/-! ### Queries -/

/-- Queries for blocks of the chain that ends with `p` turned `m` into `m'`. -/
structure Queried (env : Env) (p : CBlockIndex) (m m' : CDeterministicMNManager) : Prop where
  diffs : m'.diffs = m.diffs
  snapshots : m'.snapshots = m.snapshots
  cache : ∀ h l, m'.mnListsCache[h]? = some l → CachedOrStored env m p h l

theorem Queried.refl (p m) : Queried env p m m :=
  ⟨rfl, rfl, fun _ _ => inl⟩

theorem Queried.storedList_eq (h : Queried env p m m') (q) :
    m'.storedList env.serializeHash q = m.storedList env.serializeHash q :=
  storedList_congr fun r _ => by rw [rows, h.diffs, h.snapshots]; rfl

theorem Queried.stored_iff (h : Queried env p m m') (hash : Uint256) (l) :
    Stored env m' hash l ↔ Stored env m hash l := by
  unfold Stored
  simp only [h.storedList_eq]

theorem Queried.cacheSound (h : Queried env p m m') (hp : p.Known env) (hm : CacheSound env m) :
    CacheSound env m' := by
  intro hash l hget
  rw [h.stored_iff]
  rcases h.cache hash l hget with hold | ⟨q, hq, hhash, hstored⟩
  · exact hm hash l hold
  · exact ⟨q, hp.onChain hq, hhash, hstored⟩

theorem Queried.trans {m'' : CDeterministicMNManager} (h : Queried env p m m')
    (h' : Queried env p m' m'') : Queried env p m m'' := by
  refine ⟨h'.diffs.trans h.diffs, h'.snapshots.trans h.snapshots, fun hash l hget => ?_⟩
  rcases h'.cache hash l hget with hold | ⟨q, hq, hhash, hstored⟩
  · exact h.cache hash l hold
  · exact inr ⟨q, hq, hhash, (h.storedList_eq q).symm.trans hstored⟩

theorem queried_getListForBlock (hm : CacheSound env m) (hp : p.Known env) (hq : q.OnChain p)
    (hok : m.getListForBlock env.serializeHash q = .ok (l, m')) :
    m.storedList env.serializeHash q = .ok l ∧ Queried env p m m' := by
  rw [getListForBlock_eq] at hok
  have hends := lookup_ends hm (hp.onChain hq)
  cases hlookup : lookup env.serializeHash m q with
  | error e =>
    rw [hlookup] at hok
    simp [Except.map] at hok
  | ok s =>
    rw [hlookup] at hok hends
    obtain ⟨rfl, rfl⟩ := Prod.mk.inj (Except.ok.inj hok)
    exact ⟨hends.1, rfl, rfl, fun h v hget => (hends.2 h v hget).mono fun r hr => hr.trans hq⟩

theorem queried_foldlM (hm : CacheSound env m) (hp : p.Known env) {qs : List CBlockIndex}
    (hqs : ∀ q ∈ qs, q.OnChain p) (hok : qs.foldlM (query env.serializeHash) m = .ok m') :
    Queried env p m m' := by
  refine foldlM_inv (Queried env p m) qs m m' ?_ (Queried.refl p m) hok
  intro q hq t t' ht hquery
  obtain ⟨⟨l, t''⟩, hget, heq⟩ := bind_eq_ok.mp hquery
  obtain rfl := ok.inj heq
  exact ht.trans (queried_getListForBlock (ht.cacheSound hp hm) hp (hqs q hq) hget).2

/-! ### Writing and erasing -/

section Write

variable {oldList newList : CDeterministicMNList} {nHeight : Int} {h : Uint256}

theorem diffs_writeList :
    (m.writeList oldList newList nHeight).diffs =
      m.diffs.insert newList.blockHash (oldList.buildDiff newList) := by
  unfold writeList
  split
  · rfl
  · rfl

theorem mnListsCache_writeList :
    (m.writeList oldList newList nHeight).mnListsCache = m.mnListsCache := by
  unfold writeList
  split
  · rfl
  · rfl

theorem writeList_of_ne (hne : h ≠ newList.blockHash) :
    (m.writeList oldList newList nHeight).rows h = m.rows h := by
  have hcmp : compare newList.blockHash h ≠ .eq := by
    rw [Std.LawfulEqCmp.compare_eq_iff_eq.ne]
    exact fun heq => hne heq.symm
  refine Prod.ext ?_ ?_
  · rw [rows, diffs_writeList, Std.ExtTreeMap.getElem?_insert, if_neg hcmp]
    rfl
  · unfold rows writeList
    dsimp only
    split
    · rw [Std.ExtTreeMap.getElem?_insert, if_neg hcmp]
    · rfl

theorem snapshots_writeList_self
    (hget : (m.writeList oldList newList nHeight).snapshots[newList.blockHash]? = some l) :
    l = newList ∨ m.snapshots[newList.blockHash]? = some l := by
  unfold writeList at hget
  split at hget
  · rw [getElem?_insert_self] at hget
    exact inl (Option.some.inj hget).symm
  · exact inr hget

end Write

variable {block : CBlock}

theorem mnListsCache_cleanupCache {nHeight : Int}
    (hget : (m.cleanupCache nHeight).mnListsCache[h]? = some l) :
    m.mnListsCache[h]? = some l ∧ ¬ l.nHeight + listsCacheSize < nHeight := by
  obtain ⟨hold, hkeep⟩ := Memo.getElem?_foldl_erase_cases hget
  refine ⟨hold, fun hlow => hkeep ?_⟩
  refine mem_map.mpr ⟨(h, l), mem_filter.mpr ⟨?_, decide_eq_true hlow⟩, rfl⟩
  exact mem_toList_iff_getElem?_eq_some.mpr hold

/-! ### `ProcessBlock` and `UndoBlock` -/

theorem queriedIndexes_onChain (hq : q ∈ queriedIndexes env block p) : q.OnChain p := by
  rcases mem_cons.mp hq with rfl | hq
  · exact refl q
  · obtain ⟨tx, -, hindex⟩ := mem_filterMap.mp hq
    simp only [quorumIndexOf, Option.bind_eq_bind, Option.bind_eq_some_iff] at hindex
    obtain ⟨-, -, qc, -, -, -, params, -, hancestor⟩ := hindex
    exact onChain_of_getAncestor hancestor

section

variable (hm : CacheSound env m) (hp : p.Known env) {h : Uint256}

include hm hp

theorem processBlock_check
    (hok : m.processBlock env block (.next h p) true = .ok m') : Queried env p m m' := by
  unfold processBlock at hok
  split at hok
  · rw [← ok.inj hok]
    exact Queried.refl p m
  · obtain ⟨m1, hqueries, hrest⟩ := bind_eq_ok.mp hok
    obtain ⟨newList, -, hrest⟩ := bind_eq_ok.mp hrest
    rw [← ok.inj hrest]
    exact queried_foldlM hm hp (fun q => queriedIndexes_onChain) hqueries

theorem processBlock_connect (hok : m.processBlock env block (.next h p) false = .ok m') :
    (p.nHeight + 1 < env.dip0003Height ∧ m' = m) ∨
    (env.dip0003Height ≤ p.nHeight + 1 ∧ ∃ m1 oldList newList, Queried env p m m1 ∧
      newList.blockHash = block.hash ∧ newList.nHeight = p.nHeight + 1 ∧
      m' = (m1.writeList oldList newList (p.nHeight + 1)).cleanupCache (p.nHeight + 1)) := by
  unfold processBlock at hok
  split at hok
  · next hinactive => exact inl ⟨hinactive, (ok.inj hok).symm⟩
  · next hactive =>
    obtain ⟨m1, hqueries, hrest⟩ := bind_eq_ok.mp hok
    obtain ⟨newList, hbuild, hrest⟩ := bind_eq_ok.mp hrest
    obtain ⟨⟨oldList, m2⟩, hold, hrest⟩ := bind_eq_ok.mp hrest
    obtain ⟨-, -, hrest⟩ := bind_eq_ok.mp hrest
    have hm1 := queried_foldlM hm hp (fun q => queriedIndexes_onChain) hqueries
    have hm2 := (queried_getListForBlock (hm1.cacheSound hp hm) hp (refl p) hold).2
    have hheight := height_buildNewListFromBlock env _ hbuild
    have hne : newList.nHeight ≠ -1 := by
      have hnonneg := p.nHeight_nonneg
      omega
    rw [if_neg hne] at hrest
    exact inr ⟨not_lt.mp hactive, m2, oldList, { newList with blockHash := block.hash },
      hm1.trans hm2, rfl, hheight, (ok.inj hrest).symm⟩

theorem undoQueries_ok (hok : m.undoQueries env.serializeHash block p = .ok m') :
    Queried env p m m' := by
  unfold undoQueries at hok
  split at hok
  · split at hok
    · simp at hok
    · next h pprev =>
      refine queried_foldlM hm hp ?_ hok
      intro q hq
      simp only [mem_cons, not_mem_nil, or_false] at hq
      rcases hq with rfl | rfl
      · exact inl rfl
      · exact inr (refl q)
  · rw [← ok.inj hok]
    exact Queried.refl p m

end

end Sound

end CDeterministicMNManager

namespace ManagedChain

open CDeterministicMNManager

variable {env : Env} {c c' : ManagedChain} {m : CDeterministicMNManager} {p q : CBlockIndex}

/-! ### The invariant of the runs -/

/-- What is stored for a block belongs to the active chain, and is headed by the block. -/
structure RowFits (env : Env) (tip : CBlockIndex) (m : CDeterministicMNManager) (q : CBlockIndex) :
    Prop where
  off : ¬ q.OnChain tip → m.rows q.getBlockHash = (none, none)
  headed : q.OnChain tip → ∀ l, m.snapshots[q.getBlockHash]? = some l →
    l.blockHash = q.getBlockHash ∧ l.nHeight = q.nHeight
  written : q.OnChain tip → 0 < q.nHeight → env.dip0003Height ≤ q.nHeight →
    m.diffs[q.getBlockHash]? ≠ none

theorem RowFits.congr {m' : CDeterministicMNManager} {tip tip' : CBlockIndex}
    (h : RowFits env tip m q) (htip : q.OnChain tip' ↔ q.OnChain tip)
    (hrows : m'.rows q.getBlockHash = m.rows q.getBlockHash) : RowFits env tip' m' q := by
  obtain ⟨hdiff, hsnapshot⟩ := Prod.mk.inj hrows
  refine ⟨fun hoff => hrows.trans (h.off fun hon => hoff (htip.mpr hon)), fun hon => ?_,
    fun hon => ?_⟩
  · rw [hsnapshot]
    exact h.headed (htip.mp hon)
  · rw [hdiff]
    exact h.written (htip.mp hon)

/-- The cache agrees with what is stored, and what is stored belongs to the active chain. -/
structure Transparent (env : Env) (c : ManagedChain) : Prop where
  known : c.tip.Known env
  sound : CacheSound env c.manager
  row : ∀ q : CBlockIndex, q.Known env → RowFits env c.tip c.manager q

theorem transparent_start {blockHash : Uint256}
    (hgenesis : (genesis blockHash).Known env) : Transparent env (start blockHash) where
  known := hgenesis
  sound := Memo.Sound.empty
  row := by
    intro q _
    refine ⟨fun _ => by simp [start, rows], by simp [start], fun hon hpos => ?_⟩
    rw [show q = .genesis blockHash from hon] at hpos
    exact absurd hpos (lt_irrefl _)

section

variable (hc : Transparent env c) {h : Uint256} {m1 : CDeterministicMNManager}

include hc

theorem Transparent.queried (hp : p.Known env) (hm : Queried env p c.manager m) :
    Transparent env ⟨c.tip, m⟩ where
  known := hc.known
  sound := hm.cacheSound hp hc.sound
  row := fun q hq => (hc.row q hq).congr Iff.rfl (by rw [rows, hm.diffs, hm.snapshots]; rfl)

theorem Transparent.cleanup (nHeight : Int) :
    Transparent env ⟨c.tip, c.manager.cleanupCache nHeight⟩ where
  known := hc.known
  sound := by
    intro h l hget
    obtain ⟨p, hp, hhash, hstored⟩ := hc.sound h l (mnListsCache_cleanupCache hget).1
    refine ⟨p, hp, hhash, ?_⟩
    rw [← hstored]
    exact storedList_congr fun _ _ => rfl
  row := fun q hq => (hc.row q hq).congr Iff.rfl rfl

theorem Transparent.storedList_next (hnext : (next h c.tip).Known env) :
    c.manager.storedList env.serializeHash (.next h c.tip) = .ok { blockHash := h } := by
  exact storedList_of_none ((hc.row _ hnext).off (not_onChain_pprev h c.tip))

/-- A change at the tip or right above it does not change the stored list of another block. -/
theorem Transparent.storedList_of_ne (hp : (next h p).Known env)
    (htip : c.tip.OnChain (.next h p)) (hsame : ∀ h', h' ≠ h → m.rows h' = c.manager.rows h')
    (hq : q.Known env) (hne : q ≠ .next h p) :
    m.storedList env.serializeHash q = c.manager.storedList env.serializeHash q := by
  have hrows : ∀ r : CBlockIndex, r.Known env → r ≠ .next h p →
      m.rows r.getBlockHash = c.manager.rows r.getBlockHash :=
    fun r hr hrp => hsame _ fun heq => hrp (hr.eq_of_hash hp heq)
  by_cases hon : (next h p).OnChain q
  · have hoff := (hc.row q hq).off fun hqtip => by
      rcases hqtip.trans htip with heq | hbelow
      · exact hne heq
      · exact not_onChain_pprev h p (hon.trans hbelow)
    rw [storedList_of_none hoff, storedList_of_none ((hrows q hq hne).trans hoff)]
  · refine storedList_congr fun r hr => hrows r (hq.onChain hr) ?_
    rintro rfl
    exact hon hr

/-- **Connecting a block below DIP3** stores nothing. -/
theorem Transparent.connect_inactive (hnext : (next h c.tip).Known env)
    (hinactive : c.tip.nHeight + 1 < env.dip0003Height) :
    Transparent env ⟨.next h c.tip, c.manager⟩ where
  known := hnext
  sound := hc.sound
  row := by
    intro q hq
    by_cases hqnext : q = .next h c.tip
    · subst hqnext
      have hnone := (hc.row _ hnext).off (not_onChain_pprev h c.tip)
      refine ⟨fun _ => hnone, fun _ l hl => ?_, fun _ _ hactive => ?_⟩
      · cases (Prod.mk.inj hnone).2.symm.trans hl
      · exact absurd hactive (not_le.mpr hinactive)
    · exact (hc.row q hq).congr (or_iff_right hqnext) rfl

/--
**Connecting a block** keeps the cache right: the stored list changes for this block only, and
the entry it may have in the cache is the empty list of height -1, which the cleanup drops
unless the block is too low.
-/
theorem Transparent.connect {block : CBlock} (hnext : (next block.hash c.tip).Known env)
    (hm1 : Queried env c.tip c.manager m1) {oldList newList : CDeterministicMNList}
    (hblockHash : newList.blockHash = block.hash) (hnHeight : newList.nHeight = c.tip.nHeight + 1)
    (huncached : listsCacheSize ≤ c.tip.nHeight + 1 ∨ c.manager.mnListsCache[block.hash]? = none) :
    Transparent env ⟨.next block.hash c.tip,
      (m1.writeList oldList newList (c.tip.nHeight + 1)).cleanupCache (c.tip.nHeight + 1)⟩ := by
  have hc1 := hc.queried hc.known hm1
  have hnot := not_onChain_pprev block.hash c.tip
  have hsame : ∀ h, h ≠ block.hash →
      (m1.writeList oldList newList (c.tip.nHeight + 1)).rows h = m1.rows h := by
    intro h hne
    rw [← hblockHash] at hne
    exact writeList_of_ne hne
  refine ⟨hnext, fun h l hget => ?_, fun q hq => ?_⟩
  · obtain ⟨hget, hkeep⟩ := mnListsCache_cleanupCache hget
    rw [mnListsCache_writeList] at hget
    obtain ⟨q, hq, rfl, hstored⟩ := hc1.sound h l hget
    by_cases hqnext : q = .next block.hash c.tip
    · exfalso
      subst hqnext
      -- the entry is the empty list, so it is there only if it was and the height is low
      rw [hc1.storedList_next hnext] at hstored
      rw [← ok.inj hstored] at hkeep
      rcases huncached with hhigh | hnone
      · have hlow : ¬ ((-1 : Int) + listsCacheSize < c.tip.nHeight + 1) := hkeep
        omega
      · rcases hm1.cache _ l hget with hold | ⟨r, hr, hrhash, -⟩
        · cases hnone.symm.trans hold
        · rw [(hc.known.onChain hr).eq_of_hash hnext hrhash] at hr
          exact hnot hr
    · refine ⟨q, hq, rfl, Eq.trans ?_ hstored⟩
      exact hc1.storedList_of_ne hnext (inr (refl _)) hsame hq hqnext
  · by_cases hqnext : q = .next block.hash c.tip
    · subst hqnext
      have hhash : (next block.hash c.tip).getBlockHash = newList.blockHash :=
        hblockHash.symm
      have hnone := (hc1.row _ hnext).off hnot
      refine ⟨fun hoff => absurd (refl _) hoff, fun _ l hl => ?_, fun _ _ _ => ?_⟩
      · rw [hhash] at hl hnone
        rcases snapshots_writeList_self hl with rfl | hold
        · exact ⟨hblockHash, hnHeight⟩
        · cases (Prod.mk.inj hnone).2.symm.trans hold
      · show (m1.writeList oldList newList (c.tip.nHeight + 1)).diffs[_]? ≠ none
        rw [diffs_writeList, hhash, getElem?_insert_self]
        simp
    · exact (hc1.row q hq).congr (or_iff_right hqnext)
        (hsame _ fun heq => hqnext (hq.eq_of_hash hnext heq))

/-- **Disconnecting the tip** erases all that there is under its hash. -/
theorem Transparent.undo {pprev : CBlockIndex} (htip : c.tip = .next h pprev)
    (hm1 : Queried env c.tip c.manager m1) : Transparent env
      ⟨pprev, ⟨m1.diffs.erase h, m1.snapshots.erase h, m1.mnListsCache.erase h⟩⟩ := by
  have hc1 := hc.queried hc.known hm1
  have htipKnown : (next h pprev).Known env := htip ▸ hc.known
  have hsame : ∀ h', h' ≠ h → rows
      ⟨m1.diffs.erase h, m1.snapshots.erase h, m1.mnListsCache.erase h⟩ h' = m1.rows h' := by
    intro h' hne
    have hcmp : compare h h' ≠ .eq := by
      rw [Std.LawfulEqCmp.compare_eq_iff_eq.ne]
      exact fun heq => hne heq.symm
    simp only [rows, getElem?_erase, if_neg hcmp]
  refine ⟨htipKnown.2, hc1.sound.erase h ?_, fun q hq => ?_⟩
  · rintro h' l hne ⟨q, hq, rfl, hstored⟩
    have hqtip : q ≠ .next h pprev := fun heq => hne (by rw [heq]; rfl)
    exact ⟨q, hq, rfl,
      (hc1.storedList_of_ne htipKnown (htip ▸ refl _) hsame hq hqtip).trans hstored⟩
  · by_cases hqtip : q = .next h pprev
    · subst hqtip
      have hnot := not_onChain_pprev h pprev
      refine ⟨fun _ => ?_, fun hon => absurd hon hnot, fun hon => absurd hon hnot⟩
      exact Prod.ext getElem?_erase_self getElem?_erase_self
    · have hrow := hc1.row q hq
      rw [show (ManagedChain.mk c.tip m1).tip = .next h pprev from htip] at hrow
      exact hrow.congr (or_iff_right hqtip).symm
        (hsame _ fun heq => hqtip (hq.eq_of_hash htipKnown heq))

theorem Transparent.step {call : ManagerCall} (h : Step env c call c')
    (huncached : ConnectsUncached env c call) : Transparent env c' := by
  cases h with
  | connect hknown hok =>
    rcases processBlock_connect hc.sound hc.known hok with ⟨hinactive, rfl⟩ | hactive
    · exact hc.connect_inactive hknown hinactive
    · obtain ⟨hheight, m1, oldList, newList, hm1, hblockHash, hnHeight, rfl⟩ := hactive
      exact hc.connect hknown hm1 hblockHash hnHeight
        (huncached.resolve_left (not_lt.mpr hheight))
  | check hknown hok => exact hc.queried hknown (processBlock_check hc.sound hknown hok)
  | undo htip hok =>
    obtain ⟨m1, hqueries, heq⟩ := bind_eq_ok.mp hok
    rw [← ok.inj heq]
    exact hc.undo htip (undoQueries_ok hc.sound hc.known hqueries)
  | query hknown hok =>
    exact hc.queried hknown (queried_getListForBlock hc.sound hknown (refl _) hok).2
  | cleanup => exact hc.cleanup _

/-! ### The answers -/

/-- A lookup with the cache gives the stored list. -/
theorem Transparent.getListForBlock_eq_storedList (hp : p.Known env) :
    (c.manager.getListForBlock env.serializeHash p).map fst =
      c.manager.storedList env.serializeHash p := by
  have hends := lookup_ends hc.sound hp
  rw [getListForBlock_eq]
  cases hlookup : lookup env.serializeHash c.manager p with
  | error e =>
    rw [hlookup] at hends
    exact hends.symm
  | ok s =>
    rw [hlookup] at hends
    exact hends.1.symm

theorem Transparent.header (hp : (next h p).OnChain c.tip)
    (hactive : env.dip0003Height ≤ p.nHeight + 1) {l : CDeterministicMNList}
    (hl : c.manager.storedList env.serializeHash (.next h p) = .ok l) :
    l.blockHash = h ∧ l.nHeight = p.nHeight + 1 := by
  have hrow := hc.row _ (hc.known.onChain hp)
  cases hsnapshot : c.manager.snapshots[h]? with
  | some l' =>
    have hstored : c.manager.storedList env.serializeHash (.next h p) = .ok l' :=
      storedList_of_snapshot hsnapshot
    rw [hstored] at hl
    rw [← ok.inj hl]
    exact hrow.headed hp l' hsnapshot
  | none =>
    obtain ⟨diff, hdiff⟩ := Option.ne_none_iff_exists'.mp
      (hrow.written hp (Int.lt_add_one_of_le p.nHeight_nonneg) hactive)
    rw [storedList_of_diff hsnapshot hdiff, bind_eq_ok] at hl
    obtain ⟨l0, -, hreplay⟩ := hl
    unfold replayDiff at hreplay
    split at hreplay
    · exact header_applyDiff env.serializeHash l0 hreplay
    · rw [← ok.inj hreplay]
      exact ⟨rfl, rfl⟩

end

end ManagedChain

/-- The index of `registerBlock`, two blocks above the genesis block. -/
def registerIndex : CBlockIndex := .next 42 (.next 41 (.genesis 40))

/-- The surroundings of `registerBlock`, with the block index of its chain. -/
noncomputable def storeEnv : Env :=
  { chainEnv with mapBlockIndex := fun h =>
      if h = 40 then some (.genesis 40)
      else if h = 41 then some (.next 41 (.genesis 40))
      else if h = 42 then some registerIndex
      else none }

/-- The manager after a call that went through. -/
def afterCall (x : Except Fail CDeterministicMNManager) : CDeterministicMNManager :=
  x.toOption.getD {}

/-- After `registerBlock` has been connected. -/
noncomputable def registeredManager : CDeterministicMNManager :=
  afterCall (CDeterministicMNManager.processBlock storeEnv {} registerBlock registerIndex false)

/-- After `registerBlock` has been disconnected again. -/
noncomputable def undoneManager : CDeterministicMNManager :=
  afterCall (registeredManager.undoBlock storeEnv.serializeHash registerBlock registerIndex)

/-- After `registerBlock` has been connected for the second time. -/
noncomputable def reconnectedManager : CDeterministicMNManager :=
  afterCall (undoneManager.processBlock storeEnv registerBlock registerIndex false)

theorem registerIndex_known : registerIndex.Known storeEnv := ⟨rfl, rfl, rfl⟩

theorem connect_below :
    ManagedChain.Step storeEnv (.start 40) (.connect ⟨41, []⟩) ⟨.next 41 (.genesis 40), {}⟩ :=
  .connect registerIndex_known.2 rfl

/-- After a query for `registerBlock` before it is connected. -/
noncomputable def staleManager : CDeterministicMNManager :=
  afterCall (CDeterministicMNManager.query storeEnv.serializeHash {} registerIndex)

/-- After the query, and `registerBlock` has been connected. -/
noncomputable def staleRegisteredManager : CDeterministicMNManager :=
  afterCall (staleManager.processBlock storeEnv registerBlock registerIndex false)

end Absolute
