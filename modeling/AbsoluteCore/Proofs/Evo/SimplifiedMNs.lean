/-
Light clients end with the list that the coinbase commits to.

The entries of a list are a partial map from hashes to entries.  The difference has the entries of the
new map that the old one does not have, and the hashes that only the old one has, so that the old map
overwritten with it is the new one; the order of a list follows from its map.
-/
import AbsoluteCore.Proofs.Evo.ListCalls

namespace Absolute

open Fallible KeyedRows List Option CSimplifiedMNListEntry

/-! ### Lists that the operations build -/

namespace CDeterministicMNList

variable {serializeHash : UniqueProperty → Uint256} {l l' : CDeterministicMNList}
  {dmn : CDeterministicMN} {s : CDeterministicMNState} {proTxHash h : Uint256}

theorem Keyed.addMN (hl : l.Keyed) (h : l.addMN serializeHash dmn = .ok l') : l'.Keyed := by
  obtain ⟨m, rfl⟩ := addMN_reindexed h
  exact keyed_insert hl dmn

theorem Keyed.updateMNState (hl : l.Keyed)
    (h : l.updateMNState serializeHash dmn s = .ok l') : l'.Keyed := by
  obtain ⟨m, rfl⟩ := updateMNState_reindexed h
  exact keyed_insert hl { dmn with pdmnState := s }

theorem Keyed.updateMN (hl : l.Keyed)
    (h : l.updateMN serializeHash proTxHash s = .ok l') : l'.Keyed := by
  unfold CDeterministicMNList.updateMN at h
  split at h
  · cases h
  · exact hl.updateMNState h

theorem Keyed.removeMN (hl : l.Keyed)
    (h : l.removeMN serializeHash proTxHash = .ok l') : l'.Keyed := by
  obtain ⟨dmn, hget⟩ := removeMN_present h
  obtain ⟨m, rfl⟩ := removeMN_reindexed hget h
  intro h' d hd
  exact hl h' d (MapTotal.erase_eq_some.mp hd).2

theorem keyed_empty (blockHash : Uint256) (nHeight : Int) (nTotalRegisteredCount : Nat) :
    Keyed { blockHash, nHeight, nTotalRegisteredCount } := by
  intro h d hd
  rw [Std.ExtTreeMap.getElem?_empty] at hd
  cases hd

/-- No operation puts a masternode under another hash than its own. -/
theorem Keyed.run (hl : l.Keyed) {c : ListCall} (h : c.run serializeHash l = .ok l') : l'.Keyed := by
  cases c with
  | addMN dmn => exact hl.addMN h
  | updateMNState oldDmn s => exact hl.updateMNState h
  | updateMN proTxHash s => exact hl.updateMN h
  | updateMNDiff oldDmn d =>
    cases oldDmn with
    | none => cases h
    | some oldDmn => exact hl.updateMNState h
  | removeMN proTxHash => exact hl.removeMN h
  | poSePunish proTxHash penalty =>
    obtain ⟨-, dmn, -, h⟩ := poSePunish_eq_ok.mp h
    exact hl.updateMN h
  | poSeDecrease proTxHash =>
    obtain ⟨dmn, -, -, h⟩ := poSeDecrease_eq_ok.mp h
    exact hl.updateMN h
  | unserialize blockHash nHeight count mns =>
    exact foldlM_inv Keyed mns _ _ (fun _ _ _ _ ht hadd => ht.addMN hadd)
      (keyed_empty blockHash nHeight count) h

theorem keyed_of_run {tr : List (CDeterministicMNList × ListCall × CDeterministicMNList)}
    (hrun : Lts.Run (fun l c l' => c.run serializeHash l = .ok l') {} tr l) : l.Keyed :=
  (hrun.invariant Keyed (fun _ _ _ h hstep => h.run hstep) (keyed_empty 0 (-1) 0)).1

/-! ### Entries -/

def entryOf (l : CDeterministicMNList) (proRegTxHash : Uint256) : Option CSimplifiedMNListEntry :=
  (l.getMN proRegTxHash).map .ofDMN

theorem Keyed.entryOf_eq_some (hl : l.Keyed) {e : CSimplifiedMNListEntry}
    (he : l.entryOf h = some e) : e.proRegTxHash = h := by
  obtain ⟨dmn, hdmn, rfl⟩ := map_eq_some_iff.mp he
  exact hl h dmn hdmn

theorem Keyed.rows (hl : l.Keyed) :
    Rows CSimplifiedMNListEntry.proRegTxHash ((l.forEachMN false).map .ofDMN) l.entryOf where
  nodup := by
    rw [List.map_map]
    exact hl.nodup_forEachMN false
  mem e := by
    rw [List.mem_map, entryOf, map_eq_some_iff]
    constructor
    · intro ⟨dmn, hmem, he⟩
      refine ⟨dmn, ?_, he⟩
      rw [← he]
      exact (hl.mem_forEachMN.mp hmem).1
    · intro ⟨dmn, hget, he⟩
      refine ⟨dmn, hl.mem_forEachMN.mpr ⟨?_, fun h => by cases h⟩, he⟩
      rw [hl _ dmn hget]
      exact hget
  keyed h e he := hl.entryOf_eq_some he

/-! ### Differences -/

variable {target : CDeterministicMNList}

theorem mnList_buildSimplifiedDiff :
    (l.buildSimplifiedDiff target).mnList = ((target.forEachMN false).map .ofDMN).filter
      fun e => l.entryOf e.proRegTxHash ≠ some e := by
  rw [← filterMap_ite]
  refine filterMap_congr ?_
  intro dmn _
  have hentry : l.entryOf (ofDMN dmn).proRegTxHash =
      (l.getMN dmn.proTxHash).map .ofDMN := rfl
  rw [hentry]
  cases l.getMN dmn.proTxHash with
  | none => rfl
  | some fromPtr =>
    by_cases hsame : ofDMN dmn = .ofDMN fromPtr
    · simp [hsame]
    · have hne : ¬ ofDMN fromPtr = .ofDMN dmn := fun h => hsame h.symm
      simp [hsame, hne]

theorem Keyed.mem_deletedMNs (hl : l.Keyed) : h ∈ (l.buildSimplifiedDiff target).deletedMNs ↔
      (∃ e, l.entryOf h = some e) ∧ target.entryOf h = none := by
  unfold buildSimplifiedDiff entryOf
  rw [mem_filterMap, map_eq_none_iff]
  constructor
  · rintro ⟨dmn, hmem, hdeleted⟩
    split at hdeleted
    · next hnone =>
        obtain rfl := some.inj hdeleted
        refine ⟨⟨.ofDMN dmn, ?_⟩, hnone⟩
        rw [getMN, (hl.mem_forEachMN.mp hmem).1]
        rfl
    · cases hdeleted
  · rintro ⟨⟨e, he⟩, hnone⟩
    obtain ⟨dmn, hdmn, -⟩ := map_eq_some_iff.mp he
    have hkey := hl h dmn hdmn
    refine ⟨dmn, hl.mem_forEachMN.mpr ⟨?_, fun h => by cases h⟩, ?_⟩
    · rw [hkey]
      exact hdmn
    · rw [hkey, hnone]

/-- The old entries without the deleted ones, overwritten with the new ones, are those of the
target. -/
theorem Keyed.entryOf_overwritten (hl : l.Keyed) (htarget : target.Keyed) (h : Uint256) :
    (((target.entryOf h).filter fun e => l.entryOf e.proRegTxHash ≠ some e).or
      ((l.entryOf h).filter fun e =>
        e.proRegTxHash ∉ (l.buildSimplifiedDiff target).deletedMNs)) = target.entryOf h := by
  cases hnew : target.entryOf h with
  | none =>
    cases hold : l.entryOf h with
    | none => rfl
    | some e =>
      have hdeleted : h ∈ (l.buildSimplifiedDiff target).deletedMNs :=
        hl.mem_deletedMNs.mpr ⟨⟨e, hold⟩, hnew⟩
      rw [← hl.entryOf_eq_some hold] at hdeleted
      simp [hdeleted]
  | some e =>
    have hkey := htarget.entryOf_eq_some hnew
    have hkept : h ∉ (l.buildSimplifiedDiff target).deletedMNs := by
      intro hdeleted
      have hnone := (hl.mem_deletedMNs.mp hdeleted).2
      rw [hnew] at hnone
      cases hnone
    by_cases hsame : l.entryOf h = some e
    · simp [hkey, hsame, hkept]
    · simp [hkey, hsame]

theorem Keyed.applyDiff_buildSimplifiedDiff (hl : l.Keyed) (htarget : target.Keyed) :
    (CSimplifiedMNList.ofDMNList l).applyDiff (l.buildSimplifiedDiff target) =
      CSimplifiedMNList.ofDMNList target := by
  have hsorted : Rows proRegTxHash
      (CSimplifiedMNList.ofDMNList l).mnList l.entryOf :=
    hl.rows.of_perm (perm_insertionSort _ _)
  have hnew := htarget.rows.filter fun e => l.entryOf e.proRegTxHash ≠ some e
  rw [← mnList_buildSimplifiedDiff] at hnew
  have hrows := ((hsorted.filter fun e =>
    e.proRegTxHash ∉ (l.buildSimplifiedDiff target).deletedMNs).upsertAll hnew).congr
      (hl.entryOf_overwritten htarget)
  have hclient : ∀ entries : List CSimplifiedMNListEntry,
      (entries.mergeSort fun a b => a.proRegTxHash ≤ b.proRegTxHash).Pairwise
        fun a b => a.proRegTxHash ≤ b.proRegTxHash := by
    intro entries
    refine (pairwise_mergeSort (fun a b c hab hbc => ?_) (fun a b => ?_) entries).imp of_decide_eq_true
    · exact decide_eq_true ((of_decide_eq_true hab).trans (of_decide_eq_true hbc))
    · simpa using le_total a.proRegTxHash b.proRegTxHash
  refine congrArg CSimplifiedMNList.mk ((hrows.of_perm (mergeSort_perm _ _)).eq_of_sorted
    (htarget.rows.of_perm (perm_insertionSort _ _)) (hclient _) ?_)
  exact pairwise_insertionSort_key (fun _ _ => Iff.rfl) _

/-- **Differences lose nothing.**  For lists that any operations have built, the list of a client
that applies the difference is the simplified list of the target, with the merkle root of the
coinbase; and two differences in a row do what the one difference does. -/
theorem applyDiff_lossless {l mid target : CDeterministicMNList}
    {tr tr' tr'' : List (CDeterministicMNList × ListCall × CDeterministicMNList)}
    (hl : Lts.Run (fun l c l' => c.run serializeHash l = .ok l') {} tr l)
    (hmid : Lts.Run (fun l c l' => c.run serializeHash l = .ok l') {} tr' mid)
    (htarget : Lts.Run (fun l c l' => c.run serializeHash l = .ok l') {} tr'' target)
    (calcHash : CSimplifiedMNListEntry → Uint256)
    (computeMerkleRoot : List Uint256 → Uint256 × Bool) :
    (CSimplifiedMNList.ofDMNList l).applyDiff (l.buildSimplifiedDiff target) =
        CSimplifiedMNList.ofDMNList target ∧
      ((CSimplifiedMNList.ofDMNList l).applyDiff (l.buildSimplifiedDiff target)).calcMerkleRoot
          calcHash computeMerkleRoot =
        (CSimplifiedMNList.ofDMNList target).calcMerkleRoot calcHash computeMerkleRoot ∧
      ((CSimplifiedMNList.ofDMNList l).applyDiff (l.buildSimplifiedDiff mid)).applyDiff
          (mid.buildSimplifiedDiff target) =
        (CSimplifiedMNList.ofDMNList l).applyDiff (l.buildSimplifiedDiff target) := by
  have hl := keyed_of_run hl
  have hmid := keyed_of_run hmid
  have htarget := keyed_of_run htarget
  have hdirect := hl.applyDiff_buildSimplifiedDiff htarget
  refine ⟨hdirect, by rw [hdirect], ?_⟩
  rw [hl.applyDiff_buildSimplifiedDiff hmid, hmid.applyDiff_buildSimplifiedDiff htarget, hdirect]

/-- One masternode is banned, one is removed and one is new. -/
theorem applyDiff_lossless_banned :
    ∃ l target : CDeterministicMNList,
      [ListCall.addMN (registeredMN 1 0), .addMN (registeredMN 2 1)].foldlM
        (ListCall.run pairingHash) {} = .ok l ∧
      [ListCall.addMN (registeredMN 1 0),
        .updateMN 1 { (registeredMN 1 0).pdmnState with nPoSeBanHeight := 5 },
        .addMN (registeredMN 3 2)].foldlM (ListCall.run pairingHash) {} = .ok target ∧
      (CSimplifiedMNList.ofDMNList l).applyDiff (l.buildSimplifiedDiff target) =
        CSimplifiedMNList.ofDMNList target := by
  obtain ⟨l, hl⟩ : ∃ l, [ListCall.addMN (registeredMN 1 0), .addMN (registeredMN 2 1)].foldlM
      (ListCall.run pairingHash) {} = .ok l := ⟨_, rfl⟩
  obtain ⟨target, htarget⟩ : ∃ target, [ListCall.addMN (registeredMN 1 0),
      .updateMN 1 { (registeredMN 1 0).pdmnState with nPoSeBanHeight := 5 },
      .addMN (registeredMN 3 2)].foldlM (ListCall.run pairingHash) {} = .ok target := ⟨_, rfl⟩
  obtain ⟨tr, hrun, -⟩ := Lts.Run.of_foldlM _ _ _ hl
  obtain ⟨tr', hrun', -⟩ := Lts.Run.of_foldlM _ _ _ htarget
  exact ⟨l, target, hl, htarget,
    (applyDiff_lossless hrun hrun hrun' (fun _ => 0) fun _ => (0, false)).1⟩

end CDeterministicMNList

end Absolute
