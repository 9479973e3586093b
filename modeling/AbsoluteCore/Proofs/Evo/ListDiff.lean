/-
A list is rebuilt from the list before it and their difference.

`ApplyDiff` removes, adds and updates in an order of its own, so the lists in between are
lists that never existed.  What keeps them free of clashes: a masternode of the second
list has no property that another masternode had in the first one and is still there.
-/
import AbsoluteCore.Proofs.Evo.StateDiff
import AbsoluteCore.Proofs.Evo.ListIndex

namespace Absolute

open Fallible CDeterministicMNList CDeterministicMNStateDiff List Option Std ExtTreeMap MapTotal Nat
  CDeterministicMN

variable {serializeHash : UniqueProperty → Uint256} {A B l l' : CDeterministicMNList}
  {dmn : CDeterministicMN}

/-! ### Consistent lists -/

/-- Both indexes agree with the members, and every member has a collateral and an owner. -/
structure CDeterministicMNList.Consistent (serializeHash : UniqueProperty → Uint256)
    (l : CDeterministicMNList) : Prop where
  indexed : l.Indexed serializeHash
  idsExact : l.IdsExact
  owned : ∀ (h : Uint256) (dmn : CDeterministicMN), l.mnMap[h]? = some dmn → dmn.Owned

namespace CDeterministicMNList.Consistent

section

variable (hl : l.Consistent serializeHash) {h : Uint256}

include hl

theorem id_unique {h₁ h₂ : Uint256} {a b : CDeterministicMN} (ha : l.mnMap[h₁]? = some a)
    (hb : l.mnMap[h₂]? = some b) (hid : a.internalId = b.internalId) : h₁ = h₂ := by
  have h₁' := (hl.idsExact a.internalId h₁).mpr ⟨a, ha, rfl⟩
  have h₂' := (hl.idsExact a.internalId h₂).mpr ⟨b, hb, hid.symm⟩
  rw [h₁', some.injEq] at h₂'
  exact h₂'

theorem getMNByInternalId (hm : l.mnMap[h]? = some dmn) :
    l.getMNByInternalId dmn.internalId = some dmn := by
  have hid := (hl.idsExact dmn.internalId h).mpr ⟨dmn, hm, rfl⟩
  simp [CDeterministicMNList.getMNByInternalId, hid, getMN, hm]

theorem mem_forEachMN : dmn ∈ l.forEachMN false ↔ l.mnMap[dmn.proTxHash]? = some dmn := by
  simp [hl.indexed.mem_forEachMN]

theorem nodup_ids : ((l.forEachMN false).map internalId).Nodup := by
  have hnodup := (hl.indexed.nodup_forEachMN false).of_map
  refine hnodup.map_on ?_
  intro a ha b hb hid
  rw [hl.mem_forEachMN] at ha hb
  have hhash := hl.id_unique ha hb hid
  rw [hhash, hb, some.injEq] at ha
  exact ha.symm

theorem addMN_ok (hnew : l.mnMap[dmn.proTxHash]? = none) (howned : dmn.Owned)
    (hfree : l.Unshared serializeHash dmn) (hunused : l.IdUnused dmn.internalId) :
    ∃ l', l.addMN serializeHash dmn = .ok l' ∧ l'.Consistent serializeHash ∧
      l.WithMembers serializeHash (l.mnMap.insert dmn.proTxHash dmn) l' := by
  obtain ⟨l', hok, hl'⟩ := hl.indexed.addMN_decides.exists_ok ⟨hnew, howned, hfree⟩
  refine ⟨l', hok, ⟨hl'.indexed, hl.idsExact.addMN hl.indexed hunused hok, ?_⟩, hl'⟩
  intro h d hd
  rw [hl'.mnMap] at hd
  rcases insert_eq_some.mp hd with ⟨-, rfl⟩ | ⟨-, hd⟩
  · exact howned
  · exact hl.owned h d hd

theorem removeMN_ok (hm : l.mnMap[h]? = some dmn) :
    ∃ l', l.removeMN serializeHash h = .ok l' ∧ l'.Consistent serializeHash ∧
      l.WithMembers serializeHash (l.mnMap.erase h) l' := by
  obtain ⟨l', hok, hl'⟩ := (hl.indexed.removeMN_decides hm).exists_ok (hl.owned h dmn hm)
  refine ⟨l', hok, ⟨hl'.indexed, hl.idsExact.removeMN hok, ?_⟩, hl'⟩
  intro h' d hd
  rw [hl'.mnMap] at hd
  exact hl.owned h' d (erase_eq_some.mp hd).2

theorem updateMN_ok (hm : l.mnMap[h]? = some dmn) {s : CDeterministicMNState}
    (howned : ({ dmn with pdmnState := s } : CDeterministicMN).Owned)
    (hfree : l.Unshared serializeHash { dmn with pdmnState := s }) :
    ∃ l', l.updateMN serializeHash h s = .ok l' ∧ l'.Consistent serializeHash ∧
      l.WithMembers serializeHash (l.mnMap.insert h { dmn with pdmnState := s }) l' := by
  obtain ⟨l', hok, hl'⟩ := (hl.indexed.updateMN_decides hm).exists_ok hfree
  refine ⟨l', hok, ⟨hl'.indexed, hl.idsExact.updateMN hl.indexed hok, ?_⟩, hl'⟩
  intro h' d hd
  rw [hl'.mnMap] at hd
  rcases insert_eq_some.mp hd with ⟨-, rfl⟩ | ⟨-, hd⟩
  · exact howned
  · exact hl.owned h' d hd

end

end CDeterministicMNList.Consistent

variable {b : CDeterministicMN} {base : CDeterministicMNList} {count id : Nat}
  {done : List CDeterministicMN} {h : Uint256}

/-! ### What a difference holds -/

variable (A)

/-- The entry of `updatedMNs` for a masternode of the second list. -/
def CDeterministicMNList.updatedEntry (b : CDeterministicMN) :
    Option (Nat × CDeterministicMNStateDiff) :=
  (A.getMN b.proTxHash).bind fun a =>
    if (between a.pdmnState b.pdmnState).fields ≠ 0 then
      some (b.internalId, between a.pdmnState b.pdmnState)
    else none

theorem foldl_diffTo (mns : List CDeterministicMN)
    (d : CDeterministicMNListDiff) : mns.foldl A.diffTo d =
      { addedMNs := d.addedMNs ++ mns.filter fun b => (A.getMN b.proTxHash).isNone
        updatedMNs := (mns.filterMap A.updatedEntry).foldl
          (fun m p => m.insertIfNew p.1 p.2) d.updatedMNs
        removedMns := d.removedMns } := by
  induction mns generalizing d with
  | nil => simp
  | cons b mns ih =>
    rw [foldl_cons, ih]
    cases hget : A.getMN b.proTxHash with
    | none => simp [diffTo, updatedEntry, hget]
    | some a =>
      by_cases hfields : (between a.pdmnState b.pdmnState).fields = 0
      · simp [diffTo, updatedEntry, hget, hfields]
      · simp [diffTo, updatedEntry, hget, hfields]

variable (B)

theorem foldl_diffFrom (mns : List CDeterministicMN)
    (d : CDeterministicMNListDiff) : mns.foldl B.diffFrom d =
      { d with
        removedMns := ((mns.filter fun a => (B.getMN a.proTxHash).isNone).map
          internalId).foldl (fun s id => s.insert id) d.removedMns } := by
  induction mns generalizing d with
  | nil => simp
  | cons a mns ih =>
    rw [foldl_cons, ih]
    cases hget : B.getMN a.proTxHash with
    | none => simp [diffFrom, hget]
    | some b => simp [diffFrom, hget]

theorem buildDiff_eq : A.buildDiff B =
      { addedMNs := ((B.forEachMN false).filter fun b => (A.getMN b.proTxHash).isNone).insertionSort
          fun a b => a.internalId ≤ b.internalId
        updatedMNs := emplaceAll ((B.forEachMN false).filterMap A.updatedEntry)
        removedMns := emplaceIds (((A.forEachMN false).filter fun a =>
          (B.getMN a.proTxHash).isNone).map internalId) } := by
  unfold buildDiff
  simp only [foldl_diffTo, foldl_diffFrom, nil_append]
  rfl

variable {B}

variable {A}

theorem mem_removedMns (hA : A.Consistent serializeHash) :
    id ∈ (A.buildDiff B).removedMns ↔
      ∃ (h : Uint256) (a : CDeterministicMN),
        A.mnMap[h]? = some a ∧ B.mnMap[h]? = none ∧ a.internalId = id := by
  rw [buildDiff_eq]
  unfold emplaceIds
  rw [mem_foldl_insert, List.mem_map]
  constructor
  · intro hmem
    rcases hmem with ⟨a, ha, hid⟩ | hempty
    · rw [mem_filter, hA.mem_forEachMN, isNone_iff_eq_none] at ha
      exact ⟨a.proTxHash, a, ha.1, ha.2, hid⟩
    · simp at hempty
  · intro ⟨h, a, ha, hb, hid⟩
    have hkey := hA.indexed.keyed h a ha
    subst hkey
    refine .inl ⟨a, ?_, hid⟩
    rw [mem_filter, hA.mem_forEachMN, isNone_iff_eq_none]
    exact ⟨ha, hb⟩

theorem mem_addedMNs (hB : B.Consistent serializeHash) :
    dmn ∈ (A.buildDiff B).addedMNs ↔
      B.mnMap[dmn.proTxHash]? = some dmn ∧ A.mnMap[dmn.proTxHash]? = none := by
  rw [buildDiff_eq]
  rw [(perm_insertionSort _ _).mem_iff, mem_filter, hB.mem_forEachMN, isNone_iff_eq_none]
  rfl

theorem updatedEntry_eq_some {p : Nat × CDeterministicMNStateDiff} :
    A.updatedEntry b = some p ↔
      ∃ a : CDeterministicMN, A.mnMap[b.proTxHash]? = some a ∧ a.pdmnState ≠ b.pdmnState ∧
        p = (b.internalId, between a.pdmnState b.pdmnState) := by
  unfold updatedEntry getMN
  rw [bind_eq_some_iff]
  constructor
  · intro ⟨a, ha, hp⟩
    split at hp
    · next hfields =>
        rw [ne_eq, fields_between_eq_zero] at hfields
        exact ⟨a, ha, hfields, (some.inj hp).symm⟩
    · simp at hp
  · intro ⟨a, ha, hne, hp⟩
    refine ⟨a, ha, ?_⟩
    rw [if_pos (by rw [ne_eq, fields_between_eq_zero]; exact hne), hp]

theorem nodup_updatedEntries (hB : B.Consistent serializeHash) :
    (((B.forEachMN false).filterMap A.updatedEntry).map Prod.fst).Nodup := by
  have hsub : ∀ mns : List CDeterministicMN, ((mns.filterMap A.updatedEntry).map Prod.fst).Sublist
        (mns.map internalId) := by
    intro mns
    induction mns with
    | nil => simp
    | cons b mns ih =>
      rw [filterMap_cons, map_cons]
      cases hentry : A.updatedEntry b with
      | none => exact ih.cons _
      | some p =>
        obtain ⟨a, -, -, hp⟩ := updatedEntry_eq_some.mp hentry
        rw [map_cons, hp]
        exact ih.cons_cons _
  exact hB.nodup_ids.sublist (hsub _)

theorem getElem?_updatedMNs (hB : B.Consistent serializeHash) {sd : CDeterministicMNStateDiff} :
    (A.buildDiff B).updatedMNs[id]? = some sd ↔
      ∃ (h : Uint256) (a b : CDeterministicMN), A.mnMap[h]? = some a ∧ B.mnMap[h]? = some b ∧
        a.pdmnState ≠ b.pdmnState ∧ id = b.internalId ∧
        sd = between a.pdmnState b.pdmnState := by
  rw [buildDiff_eq]
  rw [getElem?_emplaceAll (nodup_updatedEntries hB), mem_filterMap]
  constructor
  · intro ⟨b, hb, hentry⟩
    obtain ⟨a, ha, hne, hp⟩ := updatedEntry_eq_some.mp hentry
    rw [Prod.mk.injEq] at hp
    exact ⟨b.proTxHash, a, b, ha, hB.mem_forEachMN.mp hb, hne, hp.1, hp.2⟩
  · intro ⟨h, a, b, ha, hb, hne, hid, hsd⟩
    have hkey := hB.indexed.keyed h b hb
    subst hkey
    refine ⟨b, hB.mem_forEachMN.mpr hb, updatedEntry_eq_some.mpr ⟨a, ha, hne, ?_⟩⟩
    rw [hid, hsd]

/-! ### Replaying it -/

/--
What relates a list to the list of the next block: masternodes in both keep their id, their
collateral and their reward, the new ones have the ids that were handed out in between, and
none has a property that another one, which is still there, had before.
-/
structure Follows (serializeHash : UniqueProperty → Uint256) (A B : CDeterministicMNList) :
    Prop where
  kept : ∀ (h : Uint256) (a b : CDeterministicMN), A.mnMap[h]? = some a → B.mnMap[h]? = some b →
    b.internalId = a.internalId ∧ b.collateralOutpoint = a.collateralOutpoint ∧
      b.nOperatorReward = a.nOperatorReward
  newIds : ∀ id : Nat, A.nTotalRegisteredCount ≤ id ∧ id < B.nTotalRegisteredCount ↔
    ∃ (h : Uint256) (b : CDeterministicMN),
      B.mnMap[h]? = some b ∧ A.mnMap[h]? = none ∧ b.internalId = id
  count_le : A.nTotalRegisteredCount ≤ B.nTotalRegisteredCount
  unstolen : ∀ (h h' : Uint256) (b a : CDeterministicMN) (k : Uint256),
    B.mnMap[h]? = some b → A.mnMap[h']? = some a → (B.mnMap[h']?).isSome = true →
    k ∈ b.properties serializeHash → k ∈ a.properties serializeHash → h' = h

/-- A consistent list on the way from `A` to `B`: the masternodes in `done` are as `B` has them and
the others as `A` has them.  The header is that of `base`. -/
structure CDeterministicMNList.Turning (serializeHash : UniqueProperty → Uint256)
    (A B base : CDeterministicMNList) (done : Set Uint256) (count : Nat)
    (l : CDeterministicMNList) : Prop where
  consistent : l.Consistent serializeHash
  new : ∀ h ∈ done, l.mnMap[h]? = B.mnMap[h]?
  old : ∀ h ∉ done, l.mnMap[h]? = A.mnMap[h]?
  blockHash : l.blockHash = base.blockHash
  nHeight : l.nHeight = base.nHeight
  nTotalRegisteredCount : l.nTotalRegisteredCount = count

/-- Every member is one of the second list, or was in the first and is kept by the second. -/
def CDeterministicMNList.Mixes (A B l : CDeterministicMNList) : Prop :=
  ∀ (h : Uint256) (d : CDeterministicMN), l.mnMap[h]? = some d →
    B.mnMap[h]? = some d ∨ (A.mnMap[h]? = some d ∧ (B.mnMap[h]?).isSome = true)

/-- In a mixed list no one else has what a member of the second list has. -/
theorem Follows.unshared (hAB : Follows serializeHash A B) (hB : B.Consistent serializeHash)
    (hl : A.Mixes B l) (hb : B.mnMap[h]? = some b) : l.Unshared serializeHash b := by
  intro k hk o ho
  have hkey := hB.indexed.keyed h b hb
  obtain ⟨d, hd, hkd⟩ := mem_holdings_iff.mp ho
  rcases hl o d hd with hnew | ⟨hold, hkept⟩
  · rw [hkey]
    exact hB.indexed.unique.owner_unique (mem_holdings_iff.mpr ⟨d, hnew, hkd⟩)
      (mem_holdings_iff.mpr ⟨b, hb, hk⟩)
  · rw [hkey]
    exact hAB.unstolen h o b d k hb hold hkept hk hkd

namespace CDeterministicMNList.Turning

variable {done done' : Set Uint256} (hl : Turning serializeHash A B base done count l)

include hl

/-- One masternode is made as `B` has it. -/
theorem step (hl' : l'.Consistent serializeHash) {m : HashMap CDeterministicMN}
    (hwith : l.WithMembers serializeHash m l') (hself : m[h]? = B.mnMap[h]?)
    (hothers : ∀ h', h ≠ h' → m[h']? = l.mnMap[h']?) :
    Turning serializeHash A B base (insert h done) count l' where
  consistent := hl'
  new h' hmem := by
    rw [hwith.mnMap]
    by_cases heq : h = h'
    · rw [← heq, hself]
    · rw [hothers h' heq, hl.new h' (hmem.resolve_left (Ne.symm heq))]
  old h' hmem := by
    obtain ⟨hne, hmem⟩ := not_or.mp hmem
    rw [hwith.mnMap, hothers h' (Ne.symm hne), hl.old h' hmem]
  blockHash := hwith.blockHash.trans hl.blockHash
  nHeight := hwith.nHeight.trans hl.nHeight
  nTotalRegisteredCount := hwith.nTotalRegisteredCount.trans hl.nTotalRegisteredCount

/-- Where the lists agree it does not matter which one is taken. -/
theorem congr (hsame : ∀ h, A.mnMap[h]? ≠ B.mnMap[h]? → (h ∈ done ↔ h ∈ done')) :
    Turning serializeHash A B base done' count l := by
  refine { hl with new := fun h hmem => ?_, old := fun h hmem => ?_ }
  · by_cases hdone : h ∈ done
    · exact hl.new h hdone
    · rw [hl.old h hdone]
      by_contra hne
      exact hdone ((hsame h hne).mpr hmem)
  · by_cases hdone : h ∈ done
    · rw [hl.new h hdone]
      by_contra hne
      exact hmem ((hsame h (Ne.symm hne)).mp hdone)
    · exact hl.old h hdone

theorem mixes (hgone : ∀ h, B.mnMap[h]? = none → h ∈ done) : A.Mixes B l := by
  intro h d hd
  by_cases hmem : h ∈ done
  · exact .inl ((hl.new h hmem).symm.trans hd)
  · refine .inr ⟨(hl.old h hmem).symm.trans hd, isSome_iff_ne_none.mpr fun hnone => ?_⟩
    exact hmem (hgone h hnone)

theorem setTotalRegisteredCount {n : Nat} (hn : n < 2 ^ 32) :
    Turning serializeHash A B base done n (l.setTotalRegisteredCount n) :=
  { hl with
    consistent :=
      { indexed := hl.consistent.indexed.of_maps rfl rfl
        idsExact := hl.consistent.idsExact
        owned := hl.consistent.owned }
    nTotalRegisteredCount := mod_eq_of_lt hn }

end CDeterministicMNList.Turning

variable (l)

/-- The hashes of the members with an id in `ids`. -/
def CDeterministicMNList.withIds (ids : List Nat) : Set Uint256 :=
  {h | ∃ d : CDeterministicMN, l.mnMap[h]? = some d ∧ d.internalId ∈ ids}

theorem withIds_nil : l.withIds [] = ∅ := by
  simp [withIds]

variable {l}

section

variable (hl : l.Consistent serializeHash) (hd : l.mnMap[h]? = some dmn) (ids : List Nat)

include hl hd

theorem withIds_append :
    l.withIds (ids ++ [dmn.internalId]) = insert h (l.withIds ids) := by
  ext h'
  simp only [withIds, Set.mem_ofPred_eq, Set.mem_insert_iff, mem_append,
    mem_singleton]
  constructor
  · rintro ⟨d, hd', hid | hid⟩
    · exact .inr ⟨d, hd', hid⟩
    · exact .inl (hl.id_unique hd' hd hid)
  · rintro (rfl | ⟨d, hd', hid⟩)
    · exact ⟨dmn, hd, .inr rfl⟩
    · exact ⟨d, hd', .inl hid⟩

omit hl in
theorem mem_withIds : h ∈ l.withIds ids ↔ dmn.internalId ∈ ids := by
  simp [withIds, hd]

end

/-- The first loop removes what the second list does not have. -/
theorem applyRemoved_ok (hA : A.Consistent serializeHash)
    (hbase : Turning serializeHash A B base ∅ A.nTotalRegisteredCount base) :
    ∃ l, (A.buildDiff B).removedMns.toList.foldlM (applyRemoved serializeHash) base = .ok l ∧
      Turning serializeHash A B base {h | B.mnMap[h]? = none} A.nTotalRegisteredCount l := by
  obtain ⟨l, hok, hl⟩ := foldlM_ok_done (f := applyRemoved serializeHash)
    (fun done l => Turning serializeHash A B base (A.withIds done) A.nTotalRegisteredCount l)
    (A.buildDiff B).removedMns.toList base (fun done id todo hsplit l hl => by
      have hmem : id ∈ (A.buildDiff B).removedMns := by
        rw [← ExtTreeSet.mem_toList, hsplit]
        simp
      obtain ⟨h, a, ha, hb, rfl⟩ := (mem_removedMns hA).mp hmem
      have hfresh : a.internalId ∉ done := by
        have hdistinct := ExtTreeSet.distinct_toList (t := (A.buildDiff B).removedMns)
        rw [hsplit, pairwise_append] at hdistinct
        intro hdone
        exact hdistinct.2.2 _ hdone _ mem_cons_self (Nat.compare_eq_eq.mpr rfl)
      have hm : l.mnMap[h]? = some a :=
        (hl.old h (mt (mem_withIds ha done).mp hfresh)).trans ha
      obtain ⟨l', hok, hl', hwith⟩ := hl.consistent.removeMN_ok hm
      refine ⟨l', ?_, ?_⟩
      · unfold applyRemoved
        rw [hl.consistent.getMNByInternalId hm]
        show l.removeMN serializeHash a.proTxHash = .ok l'
        rw [hA.indexed.keyed h a ha]
        exact hok
      · rw [withIds_append hA ha]
        exact hl.step hl' hwith (by simp [hb]) fun h' hne => by simp [getElem?_erase, hne])
    (by rwa [withIds_nil])
  refine ⟨l, hok, hl.congr fun h hne => ?_⟩
  simp only [withIds, ExtTreeSet.mem_toList, mem_removedMns hA,
    Set.mem_ofPred_eq]
  constructor
  · rintro ⟨d, hd, h', a, ha, hb, hid⟩
    exact hA.id_unique ha hd hid ▸ hb
  · intro hb
    obtain ⟨a, ha⟩ := ne_none_iff_exists'.mp (hb ▸ hne)
    exact ⟨a, ha, h, a, ha, hb, rfl⟩

/-! #### Adding -/

theorem map_internalId_addedMNs (hB : B.Consistent serializeHash)
    (hAB : Follows serializeHash A B) :
    (A.buildDiff B).addedMNs.map internalId =
      range' A.nTotalRegisteredCount
        (B.nTotalRegisteredCount - A.nTotalRegisteredCount) := by
  have hle := hAB.count_le
  have hsorted : (A.buildDiff B).addedMNs.Pairwise fun a b => a.internalId ≤ b.internalId := by
    have htotal : Std.Total fun a b : CDeterministicMN => a.internalId ≤ b.internalId :=
      ⟨fun a b => Nat.le_total _ _⟩
    have htrans : IsTrans CDeterministicMN fun a b => a.internalId ≤ b.internalId :=
      ⟨fun _ _ _ => Nat.le_trans⟩
    exact pairwise_insertionSort _ _
  have hnodup : ((A.buildDiff B).addedMNs.map internalId).Nodup := by
    rw [buildDiff_eq]
    have hperm := (perm_insertionSort
      (fun a b : CDeterministicMN => a.internalId ≤ b.internalId)
      ((B.forEachMN false).filter fun b => (A.getMN b.proTxHash).isNone)).map
      internalId
    exact hperm.nodup_iff.mpr
      (hB.nodup_ids.sublist (filter_sublist.map internalId))
  have hperm : ((A.buildDiff B).addedMNs.map internalId).Perm
      (range' A.nTotalRegisteredCount
        (B.nTotalRegisteredCount - A.nTotalRegisteredCount)) := by
    rw [perm_ext_iff_of_nodup hnodup (nodup_range' 1)]
    intro id
    rw [List.mem_range'_1, List.mem_map,
      show A.nTotalRegisteredCount + (B.nTotalRegisteredCount - A.nTotalRegisteredCount) =
        B.nTotalRegisteredCount by omega, hAB.newIds]
    constructor
    · intro ⟨b, hb, hid⟩
      rw [mem_addedMNs hB] at hb
      exact ⟨b.proTxHash, b, hb.1, hb.2, hid⟩
    · intro ⟨h, b, hb, ha, hid⟩
      have hkey := hB.indexed.keyed h b hb
      subst hkey
      exact ⟨b, (mem_addedMNs hB).mpr ⟨hb, ha⟩, hid⟩
  exact hperm.eq_of_pairwise (fun a b _ _ => Nat.le_antisymm) (pairwise_map.mpr hsorted)
    (pairwise_le_range' 1)

section

variable (hB : B.Consistent serializeHash) (hAB : Follows serializeHash A B)
  (hcount : B.nTotalRegisteredCount < 2 ^ 32)

include hB hAB hcount

theorem applyAdded_step {todo : List CDeterministicMN}
    (hsplit : (A.buildDiff B).addedMNs = done ++ dmn :: todo)
    (hl : Turning serializeHash A B base
      ({h | B.mnMap[h]? = none} ∪ B.withIds (done.map internalId))
      (A.nTotalRegisteredCount + done.length) l) :
    ∃ l', applyAdded serializeHash l dmn = .ok l' ∧
      Turning serializeHash A B base
        ({h | B.mnMap[h]? = none} ∪ B.withIds ((done ++ [dmn]).map internalId))
        (A.nTotalRegisteredCount + (done ++ [dmn]).length) l' := by
  have hids := map_internalId_addedMNs hB hAB
  obtain ⟨hb, ha⟩ := (mem_addedMNs hB).mp (hsplit ▸ mem_append_right done mem_cons_self)
  have hlen : done.length + todo.length + 1 =
      B.nTotalRegisteredCount - A.nTotalRegisteredCount := by
    have hlength := congrArg length hids
    rw [length_map, length_range', hsplit] at hlength
    simpa [add_assoc] using hlength
  -- the ids are consecutive, so the next one is the counter
  have hid : dmn.internalId = A.nTotalRegisteredCount + done.length := by
    have hget := congrArg (fun ids => ids[done.length]?) hids
    simp only [hsplit, map_append, map_cons] at hget
    rw [getElem?_append_right (by simp), getElem?_range' (by omega)] at hget
    simpa using hget
  have hfresh : dmn.internalId ∉ done.map internalId := by
    have hnodup := nodup_range' 1 (s := A.nTotalRegisteredCount)
      (n := B.nTotalRegisteredCount - A.nTotalRegisteredCount)
    rw [← hids, hsplit, map_append, nodup_append] at hnodup
    exact fun hdone => hnodup.2.2 _ hdone _ mem_cons_self rfl
  have hout : dmn.proTxHash ∉
      {h | B.mnMap[h]? = none} ∪ B.withIds (done.map internalId) := by
    rintro (hnone | hdone)
    · cases hb.symm.trans hnone
    · exact hfresh ((mem_withIds hb _).mp hdone)
  have hmixes : A.Mixes B l := hl.mixes fun h hnone => .inl hnone
  have hunused : l.IdUnused dmn.internalId := by
    intro h d hd heq
    rcases hmixes h d hd with hdb | ⟨hda, hkept⟩
    · obtain rfl := hB.id_unique hdb hb heq
      cases (hl.old _ hout).symm.trans hd ▸ ha
    · obtain ⟨b', hb'⟩ := isSome_iff_exists.mp hkept
      obtain rfl := hB.id_unique hb' hb ((hAB.kept h d b' hda hb').1.trans heq)
      cases ha.symm.trans hda
  obtain ⟨l', hok, hl', hwith⟩ := hl.consistent.addMN_ok ((hl.old _ hout).trans ha)
    (hB.owned _ _ hb) (hAB.unshared hB hmixes hb) hunused
  have hturning := hl.step (h := dmn.proTxHash) hl' hwith (by simp [hb]) fun h' hne => by
    simp [Std.ExtTreeMap.getElem?_insert, hne]
  refine ⟨l'.setTotalRegisteredCount (l'.nTotalRegisteredCount + 1), ?_, ?_⟩
  · unfold applyAdded
    rw [(assertThat_eq_ok (u := ())).mpr (hid.trans hl.nTotalRegisteredCount.symm), ok_bind, hok,
      ok_bind]
    rfl
  · rw [hturning.nTotalRegisteredCount, map_append, map_singleton, withIds_append hB hb,
      Set.union_insert, length_append, length_singleton, ← add_assoc]
    exact hturning.setTotalRegisteredCount (by omega)

/-- The second loop adds what only the second list has. -/
theorem applyAdded_ok
    (hl : Turning serializeHash A B base {h | B.mnMap[h]? = none} A.nTotalRegisteredCount l) :
    ∃ l', (A.buildDiff B).addedMNs.foldlM (applyAdded serializeHash) l = .ok l' ∧
      Turning serializeHash A B base {h | A.mnMap[h]? = none ∨ B.mnMap[h]? = none}
        B.nTotalRegisteredCount l' := by
  obtain ⟨l', hok, hl'⟩ := foldlM_ok_done
    (fun done l => Turning serializeHash A B base
      ({h | B.mnMap[h]? = none} ∪ B.withIds (done.map internalId))
      (A.nTotalRegisteredCount + done.length) l)
    _ l (fun _ _ _ hsplit _ hl => applyAdded_step hB hAB hcount hsplit hl)
    (by rwa [map_nil, withIds_nil, Set.union_empty])
  have hlength := congrArg length (map_internalId_addedMNs hB hAB)
  rw [length_map, length_range'] at hlength
  have hle := hAB.count_le
  have hcounter := hl'.nTotalRegisteredCount
  refine ⟨l', hok, { hl'.congr fun h hne => ?_ with nTotalRegisteredCount := by omega }⟩
  cases hb : B.mnMap[h]? with
  | none => exact iff_of_true (.inl hb) (.inr hb)
  | some b =>
    -- an id of the second list was handed out in between just if its masternode is new
    have hadded : b.internalId ∈ (A.buildDiff B).addedMNs.map internalId ↔
        A.mnMap[h]? = none := by
      rw [map_internalId_addedMNs hB hAB, mem_range'_1, Nat.add_sub_cancel' hle, hAB.newIds]
      constructor
      · rintro ⟨h', b', hb', ha, hid⟩
        exact hB.id_unique hb' hb hid ▸ ha
      · exact fun ha => ⟨h, b, hb, ha, rfl⟩
    simp only [Set.mem_union, Set.mem_ofPred_eq, hb, mem_withIds hb, hadded, reduceCtorEq, false_or,
      or_false]

end

/-! #### Updating -/

theorem Follows.eq_of_state (hAB : Follows serializeHash A B) (hA : A.Consistent serializeHash)
    (hB : B.Consistent serializeHash) {a : CDeterministicMN} (ha : A.mnMap[h]? = some a)
    (hb : B.mnMap[h]? = some b) : ({ a with pdmnState := b.pdmnState } : CDeterministicMN) = b := by
  obtain ⟨hid, hcollateral, hreward⟩ := hAB.kept h a b ha hb
  have hhash : a.proTxHash = b.proTxHash :=
    (hA.indexed.keyed h a ha).trans (hB.indexed.keyed h b hb).symm
  obtain ⟨⟩ := a
  obtain ⟨⟩ := b
  simp_all

section

variable (hA : A.Consistent serializeHash) (hB : B.Consistent serializeHash)
  (hAB : Follows serializeHash A B)

include hA hB hAB

theorem applyUpdated_step {done todo : List (Nat × CDeterministicMNStateDiff)}
    {p : Nat × CDeterministicMNStateDiff}
    (hsplit : (A.buildDiff B).updatedMNs.toList = done ++ p :: todo)
    (hl : Turning serializeHash A B base
      ({h | A.mnMap[h]? = none ∨ B.mnMap[h]? = none} ∪ B.withIds (done.map Prod.fst)) count l) :
    ∃ l', applyUpdated serializeHash l p = .ok l' ∧
      Turning serializeHash A B base
        ({h | A.mnMap[h]? = none ∨ B.mnMap[h]? = none} ∪ B.withIds ((done ++ [p]).map Prod.fst))
        count l' := by
  obtain ⟨id, sd⟩ := p
  have hmem : (A.buildDiff B).updatedMNs[id]? = some sd := by
    rw [← mem_toList_iff_getElem?_eq_some, hsplit]
    simp
  obtain ⟨h, a, b, ha, hb, hne, rfl, rfl⟩ := (getElem?_updatedMNs hB).mp hmem
  have hfresh : b.internalId ∉ done.map Prod.fst := by
    have hnodup := nodup_keys_toList (A.buildDiff B).updatedMNs
    rw [hsplit, map_append, nodup_append] at hnodup
    exact fun hdone => hnodup.2.2 _ hdone _ mem_cons_self rfl
  have hm : l.mnMap[h]? = some a := by
    refine (hl.old h ?_).trans ha
    rintro ((hnone | hnone) | hdone)
    · cases ha.symm.trans hnone
    · cases hb.symm.trans hnone
    · exact hfresh ((mem_withIds hb _).mp hdone)
  have hnew : ({ a with pdmnState := b.pdmnState } : CDeterministicMN) = b :=
    hAB.eq_of_state hA hB ha hb
  obtain ⟨l', hok, hl', hwith⟩ := hl.consistent.updateMN_ok hm (s := b.pdmnState)
    (by rw [hnew]; exact hB.owned h b hb)
    (by rw [hnew]; exact hAB.unshared hB (hl.mixes fun h hnone => .inl (.inr hnone)) hb)
  rw [hnew] at hwith
  refine ⟨l', ?_, ?_⟩
  · have hget : l.getMNByInternalId b.internalId = some a := by
      rw [(hAB.kept h a b ha hb).1]
      exact hl.consistent.getMNByInternalId hm
    unfold applyUpdated
    simp only [hget, updateMNDiff, applyToState_between]
    rw [← updateMN_of_getElem? hm]
    exact hok
  · rw [map_append, map_singleton, withIds_append hB hb, Set.union_insert]
    exact hl.step hl' hwith (by simp [hb]) fun h' hne => by
      simp [Std.ExtTreeMap.getElem?_insert, hne]

/-- **A list is rebuilt from the list before it and their difference.** -/
theorem applyDiff_buildDiff_ok (hcount : B.nTotalRegisteredCount < 2 ^ 32) (pindex : CBlockIndex) :
    A.applyDiff serializeHash pindex (A.buildDiff B) =
      .ok { B with blockHash := pindex.getBlockHash, nHeight := pindex.nHeight } := by
  have hbase : Turning serializeHash A B
      { A with blockHash := pindex.getBlockHash, nHeight := pindex.nHeight } ∅
      A.nTotalRegisteredCount
      { A with blockHash := pindex.getBlockHash, nHeight := pindex.nHeight } :=
    ⟨⟨hA.indexed.of_maps rfl rfl, hA.idsExact, hA.owned⟩, fun _ h => h.elim, fun _ _ => rfl, rfl, rfl,
      rfl⟩
  obtain ⟨l₁, hok₁, hl₁⟩ := applyRemoved_ok hA hbase
  obtain ⟨l₂, hok₂, hl₂⟩ := applyAdded_ok hB hAB hcount hl₁
  obtain ⟨l₃, hok₃, hl₃⟩ := foldlM_ok_done
    (fun done l => Turning serializeHash A B
      { A with blockHash := pindex.getBlockHash, nHeight := pindex.nHeight }
      ({h | A.mnMap[h]? = none ∨ B.mnMap[h]? = none} ∪ B.withIds (done.map Prod.fst))
      B.nTotalRegisteredCount l)
    (A.buildDiff B).updatedMNs.toList l₂
    (fun _ _ _ hsplit _ hl => applyUpdated_step hA hB hAB hsplit hl)
    (by rwa [map_nil, withIds_nil, Set.union_empty])
  have hmap : l₃.mnMap = B.mnMap := by
    refine ext_getElem? fun h => ?_
    by_contra hne
    -- a masternode that is not yet as `B` has it was in both lists and has not been updated
    have hnot := mt (hl₃.new h) hne
    rw [hl₃.old h hnot] at hne
    simp only [Set.mem_union, Set.mem_ofPred_eq, not_or] at hnot
    obtain ⟨a, ha⟩ := ne_none_iff_exists'.mp hnot.1.1
    obtain ⟨b, hb⟩ := ne_none_iff_exists'.mp hnot.1.2
    refine hnot.2 ((mem_withIds hb _).mpr (mem_map.mpr
      ⟨(b.internalId, between a.pdmnState b.pdmnState), ?_, rfl⟩))
    rw [mem_toList_iff_getElem?_eq_some, getElem?_updatedMNs hB]
    refine ⟨h, a, b, ha, hb, fun hstate => hne ?_, rfl, rfl⟩
    rw [ha, hb, ← hAB.eq_of_state hA hB ha hb, ← hstate]
  have heq : l₃ = { B with blockHash := pindex.getBlockHash, nHeight := pindex.nHeight } :=
    hl₃.consistent.indexed.eq (hB.indexed.of_maps rfl rfl) hl₃.consistent.idsExact hB.idsExact
      hmap hl₃.blockHash hl₃.nHeight hl₃.nTotalRegisteredCount
  unfold applyDiff
  simp only [hok₁, hok₂, ok_bind, hok₃, heq]

end

end Absolute
