/-
The difference of two lists survives being stored.

What `ProcessBlock` writes to the database is read back as it was written, and replayed on
the old list it gives the new one.
-/
import AbsoluteCore.Proofs.Evo.ListDiff
import AbsoluteCore.Proofs.Evo.ListCalls

namespace Absolute

open Fallible CDeterministicMNList CDeterministicMNStateDiff List Std.ExtTreeMap

variable {serializeHash : UniqueProperty → Uint256} {A B l : CDeterministicMNList}
  {dmn : CDeterministicMN} {h : Uint256}

/-! ### Lists that can be stored -/

/-- Every field of the state has a value of its C++ type, and the scripts can be read back. -/
def CDeterministicMNState.Fits (s : CDeterministicMNState) : Prop :=
  (∀ n ∈ [s.nRegisteredHeight, s.nLastPaidHeight, s.nPoSePenalty, s.nPoSeRevivedHeight,
      s.nPoSeBanHeight], -2 ^ 31 ≤ n ∧ n < 2 ^ 31) ∧
    s.nRevocationReason < 256 ^ 2 ∧
    (∀ h ∈ [s.confirmedHash, s.confirmedHashWithProRegTxHash], h < 256 ^ 32) ∧
    (∀ k ∈ [s.keyIDOwner, s.keyIDVoting], k < 256 ^ 20) ∧
    (∀ n ∈ s.pubKeyOperator.impl, 0 < n ∧ n < 256 ^ 48) ∧
    (s.addr.ip < 256 ^ 16 ∧ s.addr.port < 256 ^ 2) ∧
    ∀ script ∈ [s.scriptPayout, s.scriptOperatorPayout], script.length ≤ maxSize

instance (s : CDeterministicMNState) : Decidable s.Fits := by
  unfold CDeterministicMNState.Fits
  infer_instance

/-- Every field of the masternode has a value of its C++ type. -/
def CDeterministicMN.Fits (dmn : CDeterministicMN) : Prop :=
  dmn.proTxHash < 256 ^ 32 ∧ dmn.internalId < 2 ^ 64 ∧
    (dmn.collateralOutpoint.hash < 256 ^ 32 ∧ dmn.collateralOutpoint.n < 256 ^ 4) ∧
    dmn.nOperatorReward < 256 ^ 2 ∧ dmn.pdmnState.Fits

instance (dmn : CDeterministicMN) : Decidable dmn.Fits := by
  unfold CDeterministicMN.Fits
  infer_instance

theorem script_valid {s : CScript} (hs : s.length ≤ maxSize) : Format.script.Valid s := by
  refine ⟨⟨hs, ?_⟩, fun _ _ => trivial⟩
  unfold maxSize at hs
  omega

theorem CDeterministicMNState.Fits.valid {s : CDeterministicMNState} (hs : s.Fits) :
    CDeterministicMNState.format.Valid s := by
  obtain ⟨hheights, hreason, hhashes, hkeys, hpub, haddr, hscripts⟩ := hs
  intro f
  cases f with
  | nRegisteredHeight => exact hheights _ (by simp [StateField.get])
  | nLastPaidHeight => exact hheights _ (by simp [StateField.get])
  | nPoSePenalty => exact hheights _ (by simp [StateField.get])
  | nPoSeRevivedHeight => exact hheights _ (by simp [StateField.get])
  | nPoSeBanHeight => exact hheights _ (by simp [StateField.get])
  | nRevocationReason => exact hreason
  | confirmedHash => exact hhashes _ (by simp [StateField.get])
  | confirmedHashWithProRegTxHash => exact hhashes _ (by simp [StateField.get])
  | keyIDOwner => exact hkeys _ (by simp [StateField.get])
  | pubKeyOperator => exact hpub
  | keyIDVoting => exact hkeys _ (by simp [StateField.get])
  | addr => exact haddr
  | scriptPayout => exact script_valid (hscripts _ (by simp [StateField.get]))
  | scriptOperatorPayout => exact script_valid (hscripts _ (by simp [StateField.get]))

theorem CDeterministicMN.Fits.valid (h : dmn.Fits) : CDeterministicMN.format.Valid dmn :=
  ⟨h.1, h.2.1, h.2.2.1, h.2.2.2.1, h.2.2.2.2.valid⟩

/--
Every member has values of the widths of its fields, there are no more members than
`ReadCompactSize` accepts, and the counter is a `uint32_t`.
-/
structure CDeterministicMNList.Representable (l : CDeterministicMNList) : Prop where
  members : ∀ (h : Uint256) (dmn : CDeterministicMN), l.mnMap[h]? = some dmn → dmn.Fits
  size : l.mnMap.size ≤ maxSize
  count : l.nTotalRegisteredCount < 2 ^ 32

theorem length_forEachMN (l : CDeterministicMNList) :
    (l.forEachMN false).length = l.mnMap.size := by
  simp [forEachMN, length_toList]

theorem CDeterministicMNList.Representable.size_valid (hl : l.Representable) {ids : List Nat}
    (hnodup : ids.Nodup)
    (hsub : ∀ id ∈ ids, id ∈ (l.forEachMN false).map CDeterministicMN.internalId) :
    Format.size.Valid ids.length := by
  have hlen : ids.length ≤ l.mnMap.size := by
    have hle := (hnodup.subperm hsub).length_le
    rwa [length_map, length_forEachMN] at hle
  have hmax := hl.size
  unfold maxSize at hmax
  exact ⟨le_trans hlen hl.size, by omega⟩

theorem CDeterministicMNList.Representable.id_lt (hl : l.Representable)
    (hm : l.mnMap[h]? = some dmn) : dmn.internalId < 2 ^ 64 :=
  (hl.members h dmn hm).2.1

theorem mem_map_internalId (hl : l.Consistent serializeHash) (hm : l.mnMap[h]? = some dmn) :
    dmn.internalId ∈ (l.forEachMN false).map CDeterministicMN.internalId := by
  have hkey := hl.indexed.keyed h dmn hm
  subst hkey
  exact mem_map_of_mem (hl.mem_forEachMN.mpr hm)

theorem addedMNs_valid (hB : B.Consistent serializeHash) (hBrep : B.Representable) :
    (Codec.vector Format.size CDeterministicMN.format).Valid (A.buildDiff B).addedMNs := by
  refine ⟨?_, ?_⟩
  · have hlen : (A.buildDiff B).addedMNs.length ≤ B.mnMap.size := by
      rw [buildDiff_eq, ← length_forEachMN]
      exact (perm_insertionSort _ _).length_eq.trans_le (length_filter_le _ _)
    have hmax := hBrep.size
    refine ⟨le_trans hlen hmax, ?_⟩
    unfold maxSize at hmax
    omega
  · intro dmn hdmn
    exact (hBrep.members _ _ ((mem_addedMNs hB).mp hdmn).1).valid

theorem updatedMNs_valid (hB : B.Consistent serializeHash) (hBrep : B.Representable) :
    (Codec.vector Format.size ((Codec.varInt 64).prod format)).Valid
      (A.buildDiff B).updatedMNs.toList := by
  have hentry : ∀ p ∈ (A.buildDiff B).updatedMNs.toList,
      ∃ (h : Uint256) (a b : CDeterministicMN), A.mnMap[h]? = some a ∧ B.mnMap[h]? = some b ∧
        a.pdmnState ≠ b.pdmnState ∧ p.1 = b.internalId ∧
        p.2 = between a.pdmnState b.pdmnState := by
    intro p hp
    exact (getElem?_updatedMNs hB).mp (mem_toList_iff_getElem?_eq_some.mp hp)
  refine ⟨?_, ?_⟩
  · rw [← length_map (f := Prod.fst)]
    refine hBrep.size_valid (nodup_keys_toList _) ?_
    intro id hid
    obtain ⟨p, hp, hpid⟩ := mem_map.mp hid
    obtain ⟨h, a, b, -, hb, -, hpb, -⟩ := hentry p hp
    rw [← hpid, hpb]
    exact mem_map_internalId hB hb
  · intro p hp
    obtain ⟨h, a, b, -, hb, -, hpb, hdiff⟩ := hentry p hp
    refine ⟨?_, ?_⟩
    · rw [hpb]
      exact hBrep.id_lt hb
    · rw [hdiff]
      exact between_valid _ _ (hBrep.members h b hb).2.2.2.2.valid

theorem removedMns_valid (hA : A.Consistent serializeHash) (hArep : A.Representable) :
    (Codec.vector Format.size (Codec.varInt 64)).Valid (A.buildDiff B).removedMns.toList := by
  have hentry : ∀ id ∈ (A.buildDiff B).removedMns.toList, ∃ (h : Uint256) (a : CDeterministicMN),
        A.mnMap[h]? = some a ∧ B.mnMap[h]? = none ∧ a.internalId = id := by
    intro id hid
    exact (mem_removedMns hA).mp (Std.ExtTreeSet.mem_toList.mp hid)
  have hnodup : (A.buildDiff B).removedMns.toList.Nodup :=
    Std.ExtTreeSet.distinct_toList.imp fun hne heq => hne (Nat.compare_eq_eq.mpr heq)
  refine ⟨hArep.size_valid hnodup ?_, ?_⟩
  · intro id hid
    obtain ⟨h, a, ha, -, rfl⟩ := hentry id hid
    exact mem_map_internalId hA ha
  · intro id hid
    obtain ⟨h, a, ha, -, rfl⟩ := hentry id hid
    exact hArep.id_lt ha

/--
**A stored difference rebuilds the list.** For two consistent lists that follow one another,
what is written for their difference is read back, and applied to the first list it gives
the second one, with all its members and both of its indexes.
-/
theorem applyDiff_of_stored_buildDiff (serializeHash : UniqueProperty → Uint256)
    (A B : CDeterministicMNList) (hA : A.Consistent serializeHash)
    (hB : B.Consistent serializeHash) (hArep : A.Representable) (hBrep : B.Representable)
    (hAB : Follows serializeHash A B) (pindexOfB : CBlockIndex) :
    ∃ diff, CDeterministicMNListDiff.format.get
        (CDeterministicMNListDiff.format.put (A.buildDiff B)) = some (diff, []) ∧
      A.applyDiff serializeHash pindexOfB diff =
        .ok { B with blockHash := pindexOfB.getBlockHash, nHeight := pindexOfB.nHeight } := by
  have hvalid : CDeterministicMNListDiff.format.Valid (A.buildDiff B) :=
    ⟨addedMNs_valid hB hBrep, updatedMNs_valid hB hBrep, removedMns_valid hA hArep⟩
  refine ⟨A.buildDiff B, ?_, applyDiff_buildDiff_ok hA hB hAB hBrep.count pindexOfB⟩
  have hread := CDeterministicMNListDiff.format.get_put (A.buildDiff B) [] hvalid
  rwa [append_nil] at hread

/-! ### Lists read from a stream -/

theorem consistent_unserialize (blockHash : Uint256) (nHeight : Int) (count : Nat)
    (mns : List CDeterministicMN) (hids : (mns.map CDeterministicMN.internalId).Nodup)
    (hok : unserialize serializeHash blockHash nHeight count mns = .ok l) :
    l.Consistent serializeHash := by
  have hexact : Exact serializeHash l :=
    exact_foldlM_addMN mns ⟨Indexed.empty blockHash nHeight count,
      IdsExact.empty blockHash nHeight count⟩ (by intro dmn _ h d hd; simp at hd) hids hok
  have howned := foldlM_inv
    (fun l => l.Indexed serializeHash ∧
      ∀ (h : Uint256) (dmn : CDeterministicMN), l.mnMap[h]? = some dmn → dmn.Owned)
    mns _ l ?_ ⟨Indexed.empty blockHash nHeight count, by intro h d hd; simp at hd⟩ hok
  · exact ⟨hexact.1, hexact.2, howned.2⟩
  · intro new _ t t' ht hadd
    obtain ⟨⟨-, hnew, -⟩, ht'⟩ := ht.1.addMN_decides.of_ok hadd
    refine ⟨ht'.indexed, ?_⟩
    intro h d hd
    rw [ht'.mnMap] at hd
    rcases MapTotal.insert_eq_some.mp hd with ⟨-, rfl⟩ | ⟨-, hd⟩
    · exact hnew
    · exact ht.2 h d hd

theorem mem_toList_of_getElem? (hm : l.mnMap[h]? = some dmn) : (h, dmn) ∈ l.mnMap.toList :=
  mem_toList_iff_getElem?_eq_some.mpr hm

def listOf (mns : List CDeterministicMN) (count : Nat) : CDeterministicMNList :=
  (unserialize pairingHash 0 (-1) count mns).toOption.getD {}

/-- A list before a block. -/
def oldSample : CDeterministicMNList := listOf [registeredMN 1 0, registeredMN 2 1] 2

/-- The list after it: one masternode was paid, one removed and one added. -/
def newSample : CDeterministicMNList :=
  listOf [{ registeredMN 1 0 with
      pdmnState := { (registeredMN 1 0).pdmnState with nLastPaidHeight := 5 } },
    registeredMN 3 2] 3

theorem newSample_follows : Follows pairingHash oldSample newSample where
  kept := by
    intro h a b ha hb
    have hcheck : ∀ p ∈ oldSample.mnMap.toList, ∀ q ∈ newSample.mnMap.toList, p.1 = q.1 →
        q.2.internalId = p.2.internalId ∧ q.2.collateralOutpoint = p.2.collateralOutpoint ∧
          q.2.nOperatorReward = p.2.nOperatorReward := by decide
    exact hcheck _ (mem_toList_of_getElem? ha) _ (mem_toList_of_getElem? hb) rfl
  newIds := by
    intro id
    have hcheck : ∀ q ∈ newSample.mnMap.toList, oldSample.mnMap[q.1]? = none →
        2 ≤ q.2.internalId ∧ q.2.internalId < 3 := by decide
    constructor
    · intro hid
      have htwo : 2 = id := Nat.le_antisymm hid.1 (Nat.le_of_lt_succ hid.2)
      exact ⟨3, registeredMN 3 2, by decide, by decide, htwo⟩
    · intro ⟨h, b, hb, ha, hid⟩
      exact hid ▸ hcheck _ (mem_toList_of_getElem? hb) ha
  count_le := by decide
  unstolen := by
    intro h h' b a k hb ha hkept hkb hka
    have hcheck : ∀ q ∈ newSample.mnMap.toList, ∀ p ∈ oldSample.mnMap.toList,
        (newSample.mnMap[p.1]?).isSome = true → ∀ k ∈ q.2.properties pairingHash,
          k ∈ p.2.properties pairingHash → p.1 = q.1 := by decide
    exact hcheck _ (mem_toList_of_getElem? hb) _ (mem_toList_of_getElem? ha) hkept k hkb hka

theorem applyDiff_of_stored_buildDiff_sample :
    ∃ diff, CDeterministicMNListDiff.format.get
        (CDeterministicMNListDiff.format.put (oldSample.buildDiff newSample)) = some (diff, []) ∧
      oldSample.applyDiff pairingHash (.genesis 7) diff =
        .ok { newSample with blockHash := 7, nHeight := 0 } := by
  have hold : oldSample.Consistent pairingHash :=
    consistent_unserialize 0 (-1) 2 [registeredMN 1 0, registeredMN 2 1] (by decide) rfl
  have hnew : newSample.Consistent pairingHash :=
    consistent_unserialize 0 (-1) 3 [{ registeredMN 1 0 with
      pdmnState := { (registeredMN 1 0).pdmnState with nLastPaidHeight := 5 } },
      registeredMN 3 2] (by decide) rfl
  have hfits : ∀ p ∈ oldSample.mnMap.toList ++ newSample.mnMap.toList, p.2.Fits := by decide
  exact applyDiff_of_stored_buildDiff pairingHash oldSample newSample hold hnew
    ⟨fun h d hd => hfits _ (mem_append_left _ (mem_toList_of_getElem? hd)), by decide, by decide⟩
    ⟨fun h d hd => hfits _ (mem_append_right _ (mem_toList_of_getElem? hd)), by decide, by decide⟩
    newSample_follows (.genesis 7)

end Absolute
