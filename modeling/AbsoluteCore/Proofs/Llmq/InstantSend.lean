/-
When a ChainLocked block can be connected over conflicting InstantSend locks.

The assert after the removal holds for a transaction exactly when the removal of its first
conflicting lock reaches all the others.  Two locks that have nothing to do with each other
and conflict with two inputs of one transaction bring the node down.
-/
import AbsoluteCore.Lib.Fallible
import AbsoluteCore.Spec.InstantSend

namespace Absolute

open Std Fallible List Option ExtTreeMap Relation MapBatch CInstantSendDb

variable {db : CInstantSendDb} {hash txid : Uint256} {islock : CInstantSendLock}
variable {parent : Uint256} {txin : CTxIn}

/-! ### What the search finds -/

theorem mem_getInstantSendLocksByParent :
    hash ∈ db.getInstantSendLocksByParent parent ↔
      ∃ o : COutPoint, o.hash = parent ∧ db.inputs[o]? = some hash := by
  constructor
  · intro h
    obtain ⟨⟨o, hash'⟩, hentry, rfl⟩ := mem_map.mp h
    obtain ⟨hmem, hparent⟩ := mem_filter.mp hentry
    exact ⟨o, of_decide_eq_true hparent, mem_toList_iff_getElem?_eq_some.mp hmem⟩
  · rintro ⟨o, hparent, hget⟩
    refine mem_map.mpr ⟨(o, hash), mem_filter.mpr ⟨?_, decide_eq_true hparent⟩, rfl⟩
    exact mem_toList_iff_getElem?_eq_some.mpr hget

theorem mem_childLocks :
    ((hash, islock), txid) ∈ db.childLocks parent ↔
      ChildOf db parent hash islock ∧ islock.txid = txid := by
  unfold childLocks getInstantSendLockByHash
  rw [mem_filterMap]
  constructor
  · rintro ⟨hash', hmem, hchild⟩
    obtain ⟨islock', hget, heq⟩ := map_eq_some_iff.mp hchild
    obtain ⟨⟨rfl, rfl⟩, rfl⟩ := by simpa only [Prod.mk.injEq] using heq
    obtain ⟨o, hparent, hinput⟩ := mem_getInstantSendLocksByParent.mp hmem
    exact ⟨⟨o, hparent, hinput, hget⟩, rfl⟩
  · rintro ⟨⟨o, hparent, hinput, hget⟩, rfl⟩
    exact ⟨hash, mem_getInstantSendLocksByParent.mpr ⟨o, hparent, hinput⟩, by rw [hget]; rfl⟩

theorem ChildOf.stored (h : ChildOf db parent hash islock) : db.islocks[hash]? = some islock := by
  obtain ⟨_, _, _, hget⟩ := h
  exact hget

theorem reaches_childLocks :
    Worklist.Reaches db.childLocks txid parent ↔
      parent = txid ∨ ∃ hash islock, Chained db txid hash islock ∧ islock.txid = parent := by
  constructor
  · intro h
    induction h with
    | refl => exact .inl rfl
    | tail _ hedge ih =>
      obtain ⟨⟨hash, islock⟩, hedge⟩ := hedge
      obtain ⟨hchild, htxid⟩ := mem_childLocks.mp hedge
      refine .inr ⟨hash, islock, ?_, htxid⟩
      rcases ih with rfl | ⟨hash', islock', hchained, rfl⟩
      · exact Chained.child hchild
      · exact Chained.next hchained hchild
  · rintro (rfl | ⟨hash, islock, hchained, rfl⟩)
    · exact .refl
    · induction hchained with
      | child h => exact .single ⟨_, mem_childLocks.mpr ⟨h, rfl⟩⟩
      | next _ h ih => exact ih.tail ⟨_, mem_childLocks.mpr ⟨h, rfl⟩⟩

/-- The transactions of the stored locks, which is where the search can get to. -/
def lockedTxs (db : CInstantSendDb) : Finset Uint256 :=
  (db.islocks.toList.map (·.2.txid)).toFinset

theorem card_lockedTxs_le (db : CInstantSendDb) : (lockedTxs db).card ≤ db.islocks.size := by
  calc (lockedTxs db).card ≤ (db.islocks.toList.map (·.2.txid)).length := toFinset_card_le _
    _ = db.islocks.size := by rw [length_map, ExtTreeMap.length_toList]

theorem mem_lockedTxs (h : db.islocks[hash]? = some islock) : islock.txid ∈ lockedTxs db := by
  refine mem_toFinset.mpr (mem_map.mpr ⟨(hash, islock), ?_, rfl⟩)
  exact mem_toList_iff_getElem?_eq_some.mpr h

theorem mem_walkFrom_childLocks :
    (hash, islock) ∈ Worklist.walkFrom db.childLocks (db.islocks.size + 1) txid ↔
      Chained db txid hash islock := by
  have hnodes : ∀ parent, ∀ edge ∈ db.childLocks parent, edge.2 ∈ lockedTxs db := by
    rintro parent ⟨⟨hash, islock⟩, txid⟩ hedge
    obtain ⟨hchild, rfl⟩ := mem_childLocks.mp hedge
    exact mem_lockedTxs hchild.stored
  rw [Worklist.mem_walkFrom_iff hnodes (Nat.succ_le_succ (card_lockedTxs_le db))]
  constructor
  · rintro ⟨parent, txid', hreaches, hedge⟩
    obtain ⟨hchild, -⟩ := mem_childLocks.mp hedge
    rcases reaches_childLocks.mp hreaches with rfl | ⟨_, _, hchained, rfl⟩
    · exact Chained.child hchild
    · exact Chained.next hchained hchild
  · intro h
    cases h with
    | child h =>
      exact ⟨txid, islock.txid, .refl, mem_childLocks.mpr ⟨h, rfl⟩⟩
    | @next _ _ parent _ hchained h =>
      exact ⟨parent.txid, islock.txid, reaches_childLocks.mpr (.inr ⟨_, _, hchained, rfl⟩),
        mem_childLocks.mpr ⟨h, rfl⟩⟩

/-! ### The database after the removal -/

variable {env : InstantSendEnv} {batch : Removals}

theorem mem_removeInstantSendLock {entry} {key : Uint256} :
    entry ∈ db.removeInstantSendLock batch key none ↔
      entry ∈ batch ∨ entry.1 = key ∧ db.islocks[entry.1]? = some entry.2 := by
  unfold removeInstantSendLock getInstantSendLockByHash
  rw [none_or]
  obtain ⟨hash, islock⟩ := entry
  split
  · next hnone =>
      refine ⟨.inl, fun h => h.resolve_right ?_⟩
      rintro ⟨rfl, hsome⟩
      rw [hnone] at hsome
      cases hsome
  · next stored hstored =>
      rw [mem_append, mem_singleton, Prod.mk.injEq]
      refine or_congr_right (and_congr_right ?_)
      rintro rfl
      rw [hstored, some.injEq]
      exact eq_comm

theorem mem_removals {first : CInstantSendLock} :
    (hash, islock) ∈ db.removeInstantSendLock
        (Worklist.walkFrom db.childLocks (db.islocks.size + 1) first.txid)
        (env.serializeHash first) none ↔
      RemovedWith env db first hash islock := by
  rw [mem_removeInstantSendLock, mem_walkFrom_childLocks]
  rfl

/-- A conflict of an input is left exactly when it was there before and the removal covers
neither its lock nor the input. -/
theorem lockConflict_writeBatch : LockConflict (db.writeBatch batch) txid txin hash islock ↔
      LockConflict db txid txin hash islock ∧
        ∀ entry ∈ batch, entry.1 ≠ hash ∧ txin.prevout ∉ entry.2.inputs := by
  have hinput : (db.writeBatch batch).inputs[txin.prevout]? = some hash ↔
      txin.prevout ∉ batch.flatMap (·.2.inputs) ∧ db.inputs[txin.prevout]? = some hash :=
    getElem?_write_erasing_eq_some
  have hstored : (db.writeBatch batch).islocks[hash]? = some islock ↔
      hash ∉ batch.map Prod.fst ∧ db.islocks[hash]? = some islock :=
    getElem?_write_erasing_eq_some
  constructor
  · intro h
    obtain ⟨hinputs, hbefore⟩ := hinput.mp h.input
    obtain ⟨hhashes, hlock⟩ := hstored.mp h.stored
    refine ⟨⟨hbefore, hlock, h.other⟩, fun entry hentry => ⟨?_, ?_⟩⟩
    · intro heq
      exact hhashes (mem_map.mpr ⟨entry, hentry, heq⟩)
    · intro hmem
      exact hinputs (mem_flatMap.mpr ⟨entry, hentry, hmem⟩)
  · rintro ⟨h, hkept⟩
    refine ⟨hinput.mpr ⟨?_, h.input⟩, hstored.mpr ⟨?_, h.stored⟩, h.other⟩
    · intro hmem
      obtain ⟨entry, hentry, hmem⟩ := mem_flatMap.mp hmem
      exact (hkept entry hentry).2 hmem
    · intro hmem
      obtain ⟨entry, hentry, heq⟩ := mem_map.mp hmem
      exact (hkept entry hentry).1 heq

/-! ### The conflicts of a transaction -/

variable {tx : CTransaction}

theorem otherIsLock_eq_some :
    otherIsLock db txid txin = some islock ↔ ∃ hash, LockConflict db txid txin hash islock := by
  unfold otherIsLock getInstantSendLockByInput
    getInstantSendLockByHash
  rw [filter_eq_some_iff, bind_eq_bind, bind_eq_some_iff]
  constructor
  · rintro ⟨⟨hash, hinput, hstored⟩, hother⟩
    exact ⟨hash, hinput, hstored, of_decide_eq_true hother⟩
  · rintro ⟨hash, h⟩
    exact ⟨⟨hash, h.input, h.stored⟩, decide_eq_true h.other⟩

theorem otherIsLock_eq_none :
    otherIsLock db txid txin = none ↔ ∀ hash islock, ¬ LockConflict db txid txin hash islock := by
  rw [eq_none_iff_forall_ne_some]
  constructor
  · intro h hash islock hconflict
    exact h islock (otherIsLock_eq_some.mpr ⟨hash, hconflict⟩)
  · intro h islock heq
    obtain ⟨hash, hconflict⟩ := otherIsLock_eq_some.mp heq
    exact h hash islock hconflict

section

variable (henabled : isNewInstantSendEnabled env = true)

include henabled

theorem getConflictingLock_eq_none :
    getConflictingLock env db tx = none ↔
      ∀ txin ∈ tx.vin, ∀ hash islock, ¬ LockConflict db (env.txHash tx) txin hash islock := by
  unfold getConflictingLock
  rw [if_pos henabled, findSome?_eq_none_iff]
  simp only [otherIsLock_eq_none]

theorem getConflictingLock_eq_some :
    getConflictingLock env db tx = some islock ↔
      FirstConflict db (env.txHash tx) tx.vin islock := by
  unfold getConflictingLock
  rw [if_pos henabled, findSome?_eq_some_iff]
  simp only [otherIsLock_eq_none, otherIsLock_eq_some]
  constructor
  · rintro ⟨before, txin, after, hvin, ⟨hash, hconflict⟩, hbefore⟩
    exact ⟨before, txin, after, hash, hvin, hconflict, hbefore⟩
  · rintro ⟨before, txin, after, hash, hvin, hconflict, hbefore⟩
    exact ⟨before, txin, after, hvin, ⟨hash, hconflict⟩, hbefore⟩

/-- The removal leaves no conflict exactly when it covers them all. -/
theorem getConflictingLock_removeChainLockConflictingLock {first : CInstantSendLock} :
    getConflictingLock env
        (removeChainLockConflictingLock db (env.serializeHash first) first) tx = none ↔
      ∀ txin ∈ tx.vin, ∀ hash islock, LockConflict db (env.txHash tx) txin hash islock →
        ∃ hash' removed, RemovedWith env db first hash' removed ∧
          (hash' = hash ∨ txin.prevout ∈ removed.inputs) := by
  rw [getConflictingLock_eq_none henabled]
  refine forall₂_congr fun txin _ => forall₂_congr fun hash islock => ?_
  unfold removeChainLockConflictingLock removeChainedInstantSendLocks
  rw [lockConflict_writeBatch, not_and]
  refine imp_congr_right fun _ => ?_
  simp only [Prod.forall, mem_removals]
  push Not
  refine exists₂_congr fun hash' removed => and_congr_right fun _ => ?_
  exact imp_iff_not_or.trans (by rw [not_not])

end

/-! ### The assert -/

variable {nHeight : Int} {blockHash : Uint256}

theorem noOldLock_iff :
    ¬ (tx.vin.any fun txin =>
      (env.getLockedOutPointTxHash txin.prevout).any (· ≠ env.txHash tx)) = true ↔
      NoOldLock env tx := by
  simp [NoOldLock, Option.any_eq_true]

/-- One transaction brings the node down when the ChainLock makes it remove the first conflicting
lock and another conflict is left. -/
theorem checkInstantSendTx_eq_assert_iff (henabled : isNewInstantSendEnabled env = true) :
    checkInstantSendTx env nHeight blockHash db tx = .error .assert ↔
      env.hasChainLock nHeight blockHash = true ∧ NoOldLock env tx ∧
        ¬ RemovalCoversConflicts env db tx := by
  have hcover : RemovalCoversConflicts env db tx ↔
      ∀ first, getConflictingLock env db tx = some first →
        getConflictingLock env
          (removeChainLockConflictingLock db (env.serializeHash first) first) tx = none := by
    simp only [getConflictingLock_eq_some henabled,
      getConflictingLock_removeChainLockConflictingLock henabled]
    rfl
  rw [hcover]
  unfold checkInstantSendTx
  by_cases hvin : tx.vin = []
  · have hnone : getConflictingLock env db tx = none := by
      rw [getConflictingLock_eq_none henabled, hvin]
      simp
    simp [hvin, hnone, pure, Except.pure]
  rw [if_neg hvin]
  by_cases hold : NoOldLock env tx
  · rw [rejectIf, if_neg (noOldLock_iff.mpr hold)]
    cases hfirst : getConflictingLock env db tx with
    | none => simp [pure, Except.pure]
    | some first =>
      by_cases hlocked : env.hasChainLock nHeight blockHash = true
      · simp only [ok_bind, hlocked, if_true, assertThat, some.injEq, forall_eq', hold, true_and]
        split
        · next hnone => simp [hnone, pure, Except.pure]
        · next hsome => simp [hsome]
      · simp [hlocked, dos]
  · rw [rejectIf, if_pos (not_not.mp fun h => hold (noOldLock_iff.mp h))]
    simp [dos, hold]

theorem checkInstantSendTx_ne_assert (hdisabled : ¬ isNewInstantSendEnabled env = true) :
    checkInstantSendTx env nHeight blockHash db tx ≠ .error .assert := by
  have hnone : getConflictingLock env db tx = none := if_neg hdisabled
  unfold checkInstantSendTx
  simp only [hnone]
  split
  · simp [pure, Except.pure]
  · simp only [rejectIf]
    split
    · simp [dos]
    · simp [pure, Except.pure]

/-- **A block brings the node down exactly when it is ChainLocked and the removal of the first
conflicting lock of some transaction leaves another conflict.** -/
theorem checkInstantSend_ne_assert_iff (env : InstantSendEnv) (nHeight : Int)
    (blockHash : Uint256) (db : CInstantSendDb) (vtx : List CTransaction) :
    checkInstantSend env nHeight blockHash db vtx ≠ .error .assert ↔
      (FiltersBlocks env → env.hasChainLock nHeight blockHash = true →
        ∀ before tx after db', vtx = before ++ tx :: after →
          checkInstantSend env nHeight blockHash db before = .ok db' →
          NoOldLock env tx → RemovalCoversConflicts env db' tx) := by
  by_cases hspork : env.isSporkActive .blockFiltering = true
  swap
  · have hok : checkInstantSend env nHeight blockHash db vtx = .ok db := if_neg hspork
    rw [hok]
    exact ⟨fun _ hfilters => absurd hfilters.blockFiltering hspork, fun _ => by simp⟩
  have hloop : ∀ vtx, checkInstantSend env nHeight blockHash db vtx =
      vtx.foldlM (checkInstantSendTx env nHeight blockHash) db := fun _ => if_pos hspork
  simp only [hloop]
  constructor
  · intro hne hfilters hlocked before tx after db' hvtx hbefore hold
    have henabled : isNewInstantSendEnabled env = true := by
      rw [isNewInstantSendEnabled, hfilters.enabled, hfilters.llmqBased]
      rfl
    by_contra hcover
    refine hne ?_
    rw [hvtx]
    exact foldlM_append_error hbefore
      ((checkInstantSendTx_eq_assert_iff henabled).mpr ⟨hlocked, hold, hcover⟩) after
  · intro h heq
    obtain ⟨before, tx, after, db', hvtx, hbefore, htx⟩ := foldlM_error vtx db heq
    by_cases henabled : isNewInstantSendEnabled env = true
    · obtain ⟨hlocked, hold, hcover⟩ := (checkInstantSendTx_eq_assert_iff henabled).mp htx
      rw [isNewInstantSendEnabled, Bool.and_eq_true] at henabled
      exact hcover (h ⟨henabled.1, hspork, henabled.2⟩ hlocked before tx after db' hvtx hbefore hold)
    · exact checkInstantSendTx_ne_assert henabled htx

/-! ### Two locks, one transaction -/

/-- All sporks are on and every block is ChainLocked.  A transaction is known by the sum of the
hashes it spends from, and a lock by its transaction. -/
def lockedChainEnv : InstantSendEnv where
  txHash := fun tx => (tx.vin.map (·.prevout.hash)).sum
  serializeHash := fun islock => islock.txid
  isSporkActive := fun _ => true
  getLockedOutPointTxHash := fun _ => none
  hasChainLock := fun _ _ => true

/-- A transaction that spends the first outputs of the given ones. -/
def spendAll (hashes : List Uint256) : CTransaction where
  nVersion := 2
  nType := .normal
  vin := hashes.map fun hash => ⟨⟨hash, 0⟩, [], 0⟩
  vout := []
  nLockTime := 0
  vExtraPayload := .malformed []
  vout_size := Nat.zero_le _

/-- A lock of a transaction on one output. -/
def lockOn (hash txid : Uint256) : CInstantSendLock := ⟨[⟨hash, 0⟩], txid, ⟨none⟩⟩

def storeLocks (env : InstantSendEnv) (islocks : List CInstantSendLock) : CInstantSendDb :=
  islocks.foldl (fun db islock => db.writeNewInstantSendLock (env.serializeHash islock) islock)
    .empty

/-- Transactions 101 and 102 are locked on the first outputs of 1 and of 2.  A ChainLocked block
spends both outputs in one transaction: the first lock is removed, the second stays. -/
theorem checkInstantSend_assert_two_locks :
    lockedChainEnv.hasChainLock 10 7 = true ∧
      checkInstantSend lockedChainEnv 10 7
        (storeLocks lockedChainEnv [lockOn 1 101, lockOn 2 102]) [spendAll [1, 2]] =
        .error .assert :=
  ⟨rfl, rfl⟩

end Absolute
