/-
The two secondary maps of a masternode list are the indexes of its members.

`Indexed` says that `mnUniquePropertyMap` agrees with `mnMap`, and `IdsExact` the same of
`mnInternalIdMap`; no assert depends on the second.
`AddMN`, `UpdateMN` and `RemoveMN` are described once, for an indexed list: when their
asserts hold, and what list they return.  The asserts turn out to say one thing, that
no other member owns a property of the masternode that is added or updated.
-/
import AbsoluteCore.Lib.MapTotal
import AbsoluteCore.Proofs.Evo.UniqueProperties

namespace Absolute

open OwnerIndex Fallible List Function Option Except UniqueProperty CDeterministicMN Std.ExtTreeMap

namespace CDeterministicMNList

variable {serializeHash : UniqueProperty → Uint256}
variable {mnMap : HashMap CDeterministicMN} {proTxHash : Uint256} {s : CDeterministicMNState}

def holdings (serializeHash : UniqueProperty → Uint256) (mnMap : HashMap CDeterministicMN)
    (h : Uint256) : Multiset Uint256 :=
  match mnMap[h]? with
  | some dmn => dmn.properties serializeHash
  | none => 0

/-- The members are kept under their hashes, and the unique-property map is their index. -/
structure Indexed (serializeHash : UniqueProperty → Uint256) (l : CDeterministicMNList) :
    Prop where
  keyed : ∀ (h : Uint256) (dmn : CDeterministicMN), l.mnMap[h]? = some dmn → dmn.proTxHash = h
  unique : Represents l.mnUniquePropertyMap (holdings serializeHash l.mnMap)

/-- The internal-id map is the inverse of the members' ids. -/
def IdsExact (l : CDeterministicMNList) : Prop :=
  ∀ (id : Nat) (h : Uint256), l.mnInternalIdMap[id]? = some h ↔
    ∃ dmn : CDeterministicMN, l.mnMap[h]? = some dmn ∧ dmn.internalId = id

theorem holdings_of_getElem? {h : Uint256} {dmn : CDeterministicMN} (hm : mnMap[h]? = some dmn) :
    holdings serializeHash mnMap h = dmn.properties serializeHash := by
  simp [holdings, hm]

theorem holdings_of_none {h : Uint256} (hm : mnMap[h]? = none) : holdings serializeHash mnMap h = 0 := by
  simp [holdings, hm]

theorem holdings_insert (mnMap) (h : Uint256) (dmn : CDeterministicMN) :
    holdings serializeHash (mnMap.insert h dmn) =
      update (holdings serializeHash mnMap) h (dmn.properties serializeHash) :=
  MapTotal.comp_insert (fun o => match o with | some dmn => dmn.properties serializeHash | none => 0)
    mnMap h dmn

theorem holdings_erase (mnMap) (h : Uint256) :
    holdings serializeHash (mnMap.erase h) = update (holdings serializeHash mnMap) h 0 :=
  MapTotal.comp_erase (fun o => match o with | some dmn => dmn.properties serializeHash | none => 0)
    mnMap h

variable {l l' : CDeterministicMNList} {dmn : CDeterministicMN}

/-! ### Masternodes -/

theorem addMN_eq (l : CDeterministicMNList) (dmn : CDeterministicMN) :
    l.addMN serializeHash dmn = (do
      assertThat (l.mnMap[dmn.proTxHash]? = none)
      dmn.indexedProperties.foldlM (addUniqueProperty serializeHash dmn)
        { l with
          mnMap := l.mnMap.insert dmn.proTxHash dmn
          mnInternalIdMap := l.mnInternalIdMap.insert dmn.internalId dmn.proTxHash }) := by
  unfold addMN addMNWith indexedProperties
  by_cases haddr : dmn.pdmnState.addr = .null <;>
    by_cases hkey : dmn.pdmnState.pubKeyOperator.isValid <;>
    simp [haddr, hkey]

theorem removeMN_eq (hm : l.mnMap[proTxHash]? = some dmn) :
    l.removeMN serializeHash proTxHash = (do
      let l ← dmn.indexedProperties.foldlM (deleteUniqueProperty serializeHash dmn) l
      return { l with
        mnMap := l.mnMap.erase proTxHash
        mnInternalIdMap := l.mnInternalIdMap.erase dmn.internalId }) := by
  unfold removeMN removeMNWith getMN indexedProperties
  by_cases haddr : dmn.pdmnState.addr = .null <;>
    by_cases hkey : dmn.pdmnState.pubKeyOperator.isValid <;>
    simp [hm, haddr, hkey]

theorem addMN_reindexed (hok : l.addMN serializeHash dmn = .ok l') :
    Reindexed { l with
      mnMap := l.mnMap.insert dmn.proTxHash dmn
      mnInternalIdMap := l.mnInternalIdMap.insert dmn.internalId dmn.proTxHash } l' := by
  rw [addMN_eq] at hok
  obtain ⟨-, -, hok⟩ := bind_eq_ok.mp hok
  exact foldlM_inv (Reindexed _) _ _ _
    (fun _ _ _ _ ht hv => ht.trans (reindexed_addUniqueProperty.of_ok hv)) ⟨_, rfl⟩ hok

theorem removeMN_present (hok : l.removeMN serializeHash proTxHash = .ok l') :
    ∃ dmn : CDeterministicMN, l.mnMap[proTxHash]? = some dmn := by
  cases hget : l.mnMap[proTxHash]? with
  | none => simp [removeMN, removeMNWith, getMN, hget] at hok
  | some dmn => exact ⟨dmn, rfl⟩

theorem removeMN_reindexed (hm : l.mnMap[proTxHash]? = some dmn)
    (hok : l.removeMN serializeHash proTxHash = .ok l') :
    Reindexed { l with
      mnMap := l.mnMap.erase proTxHash
      mnInternalIdMap := l.mnInternalIdMap.erase dmn.internalId } l' := by
  rw [removeMN_eq hm, bind_eq_ok] at hok
  obtain ⟨l₁, hdelete, hok⟩ := hok
  have hl₁ : Reindexed l l₁ := foldlM_inv (Reindexed _) _ _ _
    (fun _ _ _ _ ht hv => ht.trans (reindexed_deleteUniqueProperty.of_ok hv)) ⟨_, rfl⟩ hdelete
  obtain ⟨m, rfl⟩ := hl₁
  exact ⟨m, (pure_eq_ok.mp hok).symm⟩

theorem updateMNState_reindexed (hok : l.updateMNState serializeHash dmn s = .ok l') :
    Reindexed { l with mnMap := l.mnMap.insert dmn.proTxHash { dmn with pdmnState := s } } l' := by
  obtain ⟨l₁, h₁, hok⟩ := bind_eq_ok.mp hok
  obtain ⟨l₂, h₂, h₃⟩ := bind_eq_ok.mp hok
  exact ((reindexed_updateUniqueProperty.of_ok h₁).trans
    (reindexed_updateUniqueProperty.of_ok h₂)).trans (reindexed_updateUniqueProperty.of_ok h₃)

/-- `l'` has the members `m` and the header of `l`. -/
structure WithMembers (serializeHash : UniqueProperty → Uint256) (l : CDeterministicMNList)
    (m : HashMap CDeterministicMN) (l' : CDeterministicMNList) : Prop where
  indexed : l'.Indexed serializeHash
  mnMap : l'.mnMap = m
  blockHash : l'.blockHash = l.blockHash
  nHeight : l'.nHeight = l.nHeight
  nTotalRegisteredCount : l'.nTotalRegisteredCount = l.nTotalRegisteredCount

theorem Reindexed.withMembers {ids : Std.ExtTreeMap Nat Uint256 compare}
    (h : Reindexed { l with mnMap := mnMap, mnInternalIdMap := ids } l')
    (hkeyed : ∀ (h : Uint256) (dmn : CDeterministicMN), mnMap[h]? = some dmn → dmn.proTxHash = h)
    (hrep : Represents l'.mnUniquePropertyMap (holdings serializeHash mnMap)) :
    l.WithMembers serializeHash mnMap l' := by
  obtain ⟨m, rfl⟩ := h
  exact ⟨⟨hkeyed, hrep⟩, rfl, rfl, rfl, rfl⟩

/-- No other member has one of the masternode's properties. -/
def Unshared (serializeHash : UniqueProperty → Uint256) (l : CDeterministicMNList)
    (dmn : CDeterministicMN) : Prop :=
  FreeFor (holdings serializeHash l.mnMap) dmn.proTxHash (dmn.properties serializeHash)

theorem keyed_insert
    (h : ∀ (h : Uint256) (dmn : CDeterministicMN), mnMap[h]? = some dmn → dmn.proTxHash = h)
    (new : CDeterministicMN) (h' : Uint256) (d : CDeterministicMN)
    (hd : (mnMap.insert new.proTxHash new)[h']? = some d) : d.proTxHash = h' := by
  rcases MapTotal.insert_eq_some.mp hd with ⟨rfl, rfl⟩ | ⟨-, hd⟩
  · rfl
  · exact h h' d hd

section

variable (h : l.Indexed serializeHash)

include h

/--
**What `AddMN` does to an indexed list.**  Its asserts hold when the masternode is new,
has a collateral and an owner, and none of its properties is another member's.
-/
theorem Indexed.addMN_decides :
    Decides .assert
      (l.mnMap[dmn.proTxHash]? = none ∧ dmn.Owned ∧ l.Unshared serializeHash dmn)
      (l.WithMembers serializeHash (l.mnMap.insert dmn.proTxHash dmn))
      (l.addMN serializeHash dmn) := by
  have heq : l.addMN serializeHash dmn = _ := addMN_eq l dmn
  rw [heq]
  refine ((assertThat_decides _).bind fun _ _ _ =>
    addUniqueProperties_decides _ (l := { l with
      mnMap := l.mnMap.insert dmn.proTxHash dmn
      mnInternalIdMap := l.mnInternalIdMap.insert dmn.internalId dmn.proTxHash }) h.unique).imp
    (and_congr_right fun _ => ?_) fun l' hok hc hrep => ?_
  · rw [forall₂_and, forall_indexedProperties]
    refine and_congr_right fun howned => ?_
    rw [Unshared, ← howned.map_indexedProperties]
    simp [FreeFor]
  · rw [holdings_of_none hc.1, add_zero, hc.2.1.map_indexedProperties, ← holdings_insert] at hrep
    exact (addMN_reindexed (heq.trans hok)).withMembers (keyed_insert h.keyed dmn) hrep

/-- **What `RemoveMN` does to an indexed list.** -/
theorem Indexed.removeMN_decides (hm : l.mnMap[proTxHash]? = some dmn) :
    Decides .assert dmn.Owned (l.WithMembers serializeHash (l.mnMap.erase proTxHash))
      (l.removeMN serializeHash proTxHash) := by
  have hkey := h.keyed _ _ hm
  subst hkey
  have heq : l.removeMN serializeHash dmn.proTxHash = _ := removeMN_eq hm
  rw [heq]
  have hheld : holdings serializeHash l.mnMap dmn.proTxHash = dmn.properties serializeHash :=
    holdings_of_getElem? hm
  refine Decides.map ((deleteUniqueProperties_decides dmn.indexedProperties h.unique).imp
    (d := dmn.Owned) ?_ fun l₁ hok _ h₁ => And.intro hok h₁) fun l₁ howned h₁ => ?_
  · rw [forall_indexedProperties, and_iff_left_iff_imp]
    intro howned
    rw [howned.map_indexedProperties, hheld]
  · obtain ⟨hok, hrep⟩ := h₁
    rw [howned.map_indexedProperties, hheld, tsub_self, ← holdings_erase] at hrep
    refine (removeMN_reindexed hm (heq.trans ?_)).withMembers (fun h' d hd => ?_) hrep
    · rw [hok]
      rfl
    · exact h.keyed h' d (MapTotal.erase_eq_some.mp hd).2

/-- **What `UpdateMN` does to a member of an indexed list.** -/
theorem Indexed.updateMNState_decides (hm : l.mnMap[dmn.proTxHash]? = some dmn) :
    Decides .assert (l.Unshared serializeHash { dmn with pdmnState := s })
      (l.WithMembers serializeHash (l.mnMap.insert dmn.proTxHash { dmn with pdmnState := s }))
      (l.updateMNState serializeHash dmn s) := by
  set new : CDeterministicMN := { dmn with pdmnState := s } with hnew
  set held := holdings serializeHash l.mnMap with hheld
  obtain ⟨C, hC⟩ : ∃ C, (outpoint dmn.collateralOutpoint).entry serializeHash = C := ⟨_, rfl⟩
  obtain ⟨A, hA⟩ : ∃ A, (service dmn.pdmnState.addr).entry serializeHash = A := ⟨_, rfl⟩
  obtain ⟨O, hO⟩ : ∃ O, (keyID dmn.pdmnState.keyIDOwner).entry serializeHash = O := ⟨_, rfl⟩
  obtain ⟨K, hK⟩ : ∃ K, (pubKey dmn.pdmnState.pubKeyOperator).entry serializeHash = K := ⟨_, rfl⟩
  obtain ⟨A', hA'⟩ : ∃ A', (service s.addr).entry serializeHash = A' := ⟨_, rfl⟩
  obtain ⟨O', hO'⟩ : ∃ O', (keyID s.keyIDOwner).entry serializeHash = O' := ⟨_, rfl⟩
  obtain ⟨K', hK'⟩ : ∃ K', (pubKey s.pubKeyOperator).entry serializeHash = K' := ⟨_, rfl⟩
  have hold : held new.proTxHash = C + A + O + K := by
    rw [hheld, hnew, holdings_of_getElem? hm]
    simp only [properties, hC, hA, hO, hK]
  have hprops : new.properties serializeHash = C + A' + O' + K' := by
    simp only [hnew, properties, hC, hA', hO', hK']
  have hfreeC : FreeFor held new.proTxHash C := by
    refine freeFor_of_le h.unique ?_
    rw [hold, add_assoc, add_assoc]
    exact Multiset.le_add_right _ _
  have hrep : Represents { l with mnMap := l.mnMap.insert dmn.proTxHash new }.mnUniquePropertyMap
      held := h.unique
  refine ((updateUniqueProperty_decides (.service dmn.pdmnState.addr) hrep (C + O + K)
    (by rw [hold, hA]; abel)).bind fun l₁ _ h₁ =>
    (updateUniqueProperty_decides (.keyID dmn.pdmnState.keyIDOwner) h₁ (C + K + A')
      (by rw [update_self, hA', hO]; abel)).bind fun l₂ _ h₂ =>
    updateUniqueProperty_decides (.pubKey dmn.pdmnState.pubKeyOperator) h₂ (C + A' + O')
      (by rw [update_self, hO', hK]; abel)).imp ?_ fun l' hok _ hrep' => ?_
  · rw [Unshared, hprops, freeFor_add, freeFor_add, freeFor_add, freeFor_update, freeFor_update,
      hA', hO', hK', freeFor_update]
    tauto
  · rw [update_idem, update_idem, hK', ← hprops, ← holdings_insert] at hrep'
    exact (updateMNState_reindexed hok).withMembers (keyed_insert h.keyed new) hrep'

end

/-! ### The indexes are kept -/

theorem Indexed.empty (blockHash : Uint256) (nHeight : Int) (nTotalRegisteredCount : Nat) :
    Indexed serializeHash
      { blockHash := blockHash, nHeight := nHeight,
        nTotalRegisteredCount := nTotalRegisteredCount } where
  keyed := by intro h dmn hm; simp at hm
  unique := Represents.empty

theorem Indexed.of_maps (h : l.Indexed serializeHash) (hmap : l'.mnMap = l.mnMap)
    (hprops : l'.mnUniquePropertyMap = l.mnUniquePropertyMap) : l'.Indexed serializeHash where
  keyed := by rw [hmap]; exact h.keyed
  unique := by rw [hmap, hprops]; exact h.unique

/-- An indexed list is determined by its header and its members. -/
theorem Indexed.eq (h : l.Indexed serializeHash) (h' : l'.Indexed serializeHash) (hids : l.IdsExact)
    (hids' : l'.IdsExact) (hmap : l.mnMap = l'.mnMap) (hhash : l.blockHash = l'.blockHash)
    (hheight : l.nHeight = l'.nHeight)
    (hcount : l.nTotalRegisteredCount = l'.nTotalRegisteredCount) : l = l' := by
  have hprops : l.mnUniquePropertyMap = l'.mnUniquePropertyMap := by
    refine h.unique.eq ?_
    rw [hmap]
    exact h'.unique
  have hidmap : l.mnInternalIdMap = l'.mnInternalIdMap := by
    refine ext_getElem? fun id => Option.ext fun hash => ?_
    rw [hids, hids', hmap]
  obtain ⟨_, _, _, _, _, _⟩ := l
  obtain ⟨_, _, _, _, _, _⟩ := l'
  simp_all

theorem Indexed.addMN (h : l.Indexed serializeHash) (hok : l.addMN serializeHash dmn = .ok l') :
    l'.Indexed serializeHash :=
  (h.addMN_decides.of_ok hok).2.indexed

theorem IdsExact.empty (blockHash : Uint256) (nHeight : Int) (nTotalRegisteredCount : Nat) :
    IdsExact { blockHash := blockHash, nHeight := nHeight,
               nTotalRegisteredCount := nTotalRegisteredCount } := by
  intro id h
  simp

section

variable (hids : l.IdsExact)

include hids

theorem IdsExact.addMN (h : l.Indexed serializeHash) (hunused : l.IdUnused dmn.internalId)
    (hok : l.addMN serializeHash dmn = .ok l') : l'.IdsExact := by
  obtain ⟨⟨hnew, -⟩, -⟩ := h.addMN_decides.of_ok hok
  obtain ⟨m, rfl⟩ := addMN_reindexed hok
  intro id h'
  simp only [Std.ExtTreeMap.getElem?_insert, Nat.compare_eq_eq]
  by_cases hid : dmn.internalId = id
  · subst hid
    rw [if_pos rfl]
    by_cases hh : dmn.proTxHash = h'
    · simp [hh]
    · simp only [hh, if_false, some.injEq, false_iff]
      rintro ⟨d, hd, heq⟩
      exact hunused h' d hd heq
  · rw [if_neg hid, hids]
    by_cases hh : dmn.proTxHash = h'
    · subst hh
      simp [hnew, hid]
    · simp [hh]

theorem IdsExact.removeMN (hok : l.removeMN serializeHash proTxHash = .ok l') : l'.IdsExact := by
  obtain ⟨dmn, hget⟩ := removeMN_present hok
  obtain ⟨m, rfl⟩ := removeMN_reindexed hget hok
  intro id h'
  simp only [getElem?_erase, Nat.compare_eq_eq]
  by_cases hh : proTxHash = h'
  · subst hh
    simp only [if_true, reduceCtorEq, false_and, exists_false, iff_false]
    by_cases hid : dmn.internalId = id
    · simp [hid]
    · rw [if_neg hid, hids]
      rintro ⟨d, hd, heq⟩
      rw [hget, some.injEq] at hd
      exact hid (hd ▸ heq)
  · rw [if_neg hh]
    by_cases hid : dmn.internalId = id
    · rw [if_pos hid]
      refine ⟨fun hno => by simp at hno, ?_⟩
      rintro ⟨d, hd, heq⟩
      -- both masternodes are what the id map has for `id`
      have h₁ := (hids id proTxHash).mpr ⟨dmn, hget, hid⟩
      have h₂ := (hids id h').mpr ⟨d, hd, heq⟩
      rw [h₁, some.injEq] at h₂
      exact absurd h₂ hh
    · rw [if_neg hid, hids]

theorem IdsExact.updateMNState (hm : l.mnMap[dmn.proTxHash]? = some dmn)
    (hok : l.updateMNState serializeHash dmn s = .ok l') : l'.IdsExact := by
  obtain ⟨m, rfl⟩ := updateMNState_reindexed hok
  intro id h'
  rw [hids, Std.ExtTreeMap.getElem?_insert]
  by_cases hh : dmn.proTxHash = h'
  · subst hh
    simp [hm]
  · simp [hh]

end

/-! ### Updates by hash -/

theorem updateMN_of_getElem? (hm : l.mnMap[proTxHash]? = some dmn) :
    l.updateMN serializeHash proTxHash s = l.updateMNState serializeHash dmn s := by
  simp [updateMN, hm]

theorem updateMN_present (hok : l.updateMN serializeHash proTxHash s = .ok l') :
    ∃ dmn : CDeterministicMN, l.mnMap[proTxHash]? = some dmn := by
  cases hget : l.mnMap[proTxHash]? with
  | none => simp [updateMN, hget] at hok
  | some dmn => exact ⟨dmn, rfl⟩

theorem IdsExact.updateMN (hids : l.IdsExact) (h : l.Indexed serializeHash)
    (hok : l.updateMN serializeHash proTxHash s = .ok l') : l'.IdsExact := by
  obtain ⟨dmn, hm⟩ := updateMN_present hok
  rw [updateMN_of_getElem? hm] at hok
  have hkey := h.keyed _ _ hm
  subst hkey
  exact hids.updateMNState hm hok

theorem poSePunish_eq_ok {penalty : Int} :
    l.poSePunish serializeHash proTxHash penalty = .ok l' ↔
      0 < penalty ∧ ∃ dmn, l.getMN proTxHash = some dmn ∧
        l.updateMN serializeHash proTxHash (l.punishedState dmn.pdmnState penalty) = .ok l' := by
  unfold poSePunish
  simp only [bind_eq_ok, assertThat_eq_ok, exists_const]
  cases hget : l.getMN proTxHash with
  | none => simp
  | some dmn => simp

theorem poSeDecrease_eq_ok :
    l.poSeDecrease serializeHash proTxHash = .ok l' ↔
      ∃ dmn, l.getMN proTxHash = some dmn ∧
        (0 < dmn.pdmnState.nPoSePenalty ∧ dmn.pdmnState.nPoSeBanHeight = -1) ∧
        l.updateMN serializeHash proTxHash
          { dmn.pdmnState with nPoSePenalty := dmn.pdmnState.nPoSePenalty - 1 } = .ok l' := by
  unfold poSeDecrease
  cases hget : l.getMN proTxHash with
  | none => simp
  | some dmn => simp [bind_eq_ok]

/-! ### Operations on members

The same once more, with the secondary maps out of sight: a list is its header and its
members, and an operation says what becomes of the members.
-/

section

variable (h : l.Indexed serializeHash)

include h

theorem Indexed.removeMN_inv (hok : l.removeMN serializeHash proTxHash = .ok l') :
    ∃ dmn : CDeterministicMN, l.mnMap[proTxHash]? = some dmn ∧ dmn.Owned ∧
      l.WithMembers serializeHash (l.mnMap.erase proTxHash) l' := by
  obtain ⟨dmn, hm⟩ := removeMN_present hok
  exact ⟨dmn, hm, (h.removeMN_decides hm).of_ok hok⟩

theorem Indexed.updateMN_decides (hm : l.mnMap[proTxHash]? = some dmn) :
    Decides .assert (l.Unshared serializeHash { dmn with pdmnState := s })
      (l.WithMembers serializeHash (l.mnMap.insert proTxHash { dmn with pdmnState := s }))
      (l.updateMN serializeHash proTxHash s) := by
  have hkey := h.keyed _ _ hm
  subst hkey
  rw [updateMN_of_getElem? hm]
  exact h.updateMNState_decides hm

theorem Indexed.updateMN_inv (hok : l.updateMN serializeHash proTxHash s = .ok l') :
    ∃ dmn : CDeterministicMN, l.mnMap[proTxHash]? = some dmn ∧
      l.Unshared serializeHash { dmn with pdmnState := s } ∧
      l.WithMembers serializeHash (l.mnMap.insert proTxHash { dmn with pdmnState := s }) l' := by
  obtain ⟨dmn, hm⟩ := updateMN_present hok
  exact ⟨dmn, hm, (h.updateMN_decides hm).of_ok hok⟩

theorem Indexed.updateMN (hok : l.updateMN serializeHash proTxHash s = .ok l') :
    l'.Indexed serializeHash := by
  obtain ⟨dmn, -, -, hl'⟩ := h.updateMN_inv hok
  exact hl'.indexed

end

/-- A state with the old unique properties can always be written. -/
theorem Indexed.unshared_of_same (h : l.Indexed serializeHash) (hm : l.mnMap[proTxHash]? = some dmn)
    (haddr : s.addr = dmn.pdmnState.addr) (howner : s.keyIDOwner = dmn.pdmnState.keyIDOwner)
    (hkey : s.pubKeyOperator = dmn.pdmnState.pubKeyOperator) :
    l.Unshared serializeHash { dmn with pdmnState := s } := by
  have hprops : ({ dmn with pdmnState := s } : CDeterministicMN).properties serializeHash =
      dmn.properties serializeHash := by
    simp [properties, haddr, howner, hkey]
  have hself := h.keyed _ _ hm
  subst hself
  unfold Unshared
  rw [hprops]
  exact freeFor_of_le h.unique (le_of_eq (holdings_of_getElem? hm).symm)

/-! ### Looking properties up -/

theorem Indexed.hasUniqueProperty_iff (h : l.Indexed serializeHash) {v : UniqueProperty} :
    l.hasUniqueProperty serializeHash v = true ↔
      ∃ o, serializeHash v ∈ holdings serializeHash l.mnMap o := by
  unfold hasUniqueProperty
  constructor
  · intro hs
    obtain ⟨e, he⟩ := isSome_iff_exists.mp hs
    exact ⟨e.1, h.unique.mem_of_getElem? he⟩
  · rintro ⟨o, ho⟩
    rw [h.unique.getElem?_of_mem ho]
    rfl

theorem mem_holdings_iff {k o : Uint256} :
    k ∈ holdings serializeHash l.mnMap o ↔
      ∃ dmn : CDeterministicMN, l.mnMap[o]? = some dmn ∧ k ∈ dmn.properties serializeHash := by
  cases hget : l.mnMap[o]? with
  | none => simp [holdings, hget]
  | some dmn => simp [holdings, hget]

/-- `GetUniquePropertyMN` returns the member that owns the property. -/
theorem Indexed.getUniquePropertyMN_eq_some (h : l.Indexed serializeHash) {v : UniqueProperty} :
    l.getUniquePropertyMN serializeHash v = some dmn ↔
      l.mnMap[dmn.proTxHash]? = some dmn ∧ serializeHash v ∈ dmn.properties serializeHash := by
  unfold getUniquePropertyMN getMN
  rw [bind_eq_some_iff]
  constructor
  · rintro ⟨e, he, hget⟩
    have hmem := h.unique.mem_of_getElem? he
    rw [holdings_of_getElem? hget] at hmem
    rw [h.keyed _ _ hget]
    exact ⟨hget, hmem⟩
  · rintro ⟨hget, hmem⟩
    rw [← holdings_of_getElem? hget] at hmem
    exact ⟨_, h.unique.getElem?_of_mem hmem, hget⟩

/-! ### Walking over the members -/

def Keyed (l : CDeterministicMNList) : Prop :=
  ∀ (h : Uint256) (dmn : CDeterministicMN), l.mnMap[h]? = some dmn → dmn.proTxHash = h

theorem Keyed.mem_forEachMN (h : l.Keyed) {onlyValid : Bool} :
    dmn ∈ l.forEachMN onlyValid ↔
      l.mnMap[dmn.proTxHash]? = some dmn ∧ (onlyValid = true → isMNValid dmn = true) := by
  unfold forEachMN
  rw [List.mem_filter, List.mem_map]
  refine and_congr ⟨?_, ?_⟩ ?_
  · rintro ⟨⟨k, d⟩, hmem, rfl⟩
    rw [mem_toList_iff_getElem?_eq_some] at hmem
    rwa [h _ _ hmem]
  · intro hget
    exact ⟨(dmn.proTxHash, dmn), mem_toList_iff_getElem?_eq_some.mpr hget, rfl⟩
  · cases onlyValid <;> simp

theorem Keyed.nodup_forEachMN (h : l.Keyed) (onlyValid : Bool) :
    ((l.forEachMN onlyValid).map CDeterministicMN.proTxHash).Nodup := by
  have hkeys : (l.mnMap.toList.map Prod.snd).map proTxHash = l.mnMap.keys := by
    rw [← map_fst_toList_eq_keys, List.map_map]
    refine List.map_congr_left ?_
    rintro ⟨k, d⟩ hmem
    exact h _ _ (mem_toList_iff_getElem?_eq_some.mp hmem)
  have hnodup : ((l.mnMap.toList.map Prod.snd).map proTxHash).Nodup := by
    rw [hkeys]
    exact nodup_keys
  exact hnodup.sublist (filter_sublist.map _)

theorem Indexed.mem_forEachMN (h : l.Indexed serializeHash) {onlyValid : Bool} :
    dmn ∈ l.forEachMN onlyValid ↔
      l.mnMap[dmn.proTxHash]? = some dmn ∧ (onlyValid = true → isMNValid dmn = true) :=
  Keyed.mem_forEachMN h.keyed

theorem Indexed.nodup_forEachMN (h : l.Indexed serializeHash) (onlyValid : Bool) :
    ((l.forEachMN onlyValid).map CDeterministicMN.proTxHash).Nodup :=
  Keyed.nodup_forEachMN h.keyed onlyValid

end CDeterministicMNList

end Absolute
