/-
Every list that the public operations can build is indexed.

The guards of `AddMN` and `RemoveMN`, which ask the operator key whether it is valid, agree with the
comparison of `UpdateMN` on every key that is null or a point.  With the other conditions on the
callers the secondary maps then stay exact through every sequence of calls; without any of them they
do not.
-/
import AbsoluteCore.Lib.Run
import AbsoluteCore.Proofs.Evo.ListIndex

namespace Absolute

open OwnerIndex Fallible Lts CDeterministicMNList List

section

variable {serializeHash : UniqueProperty → Uint256} {decodes : Nat → Bool}
  {l l' : CDeterministicMNList}

/-- Both indexes of the list agree with its members. -/
def Exact (serializeHash : UniqueProperty → Uint256) (l : CDeterministicMNList) : Prop :=
  l.Indexed serializeHash ∧ l.IdsExact

/-- `Unserialize` adds the masternodes of the stream one after the other. -/
theorem exact_foldlM_addMN (mns : List CDeterministicMN) :
    ∀ {l l' : CDeterministicMNList}, Exact serializeHash l →
      (∀ dmn ∈ mns, l.IdUnused dmn.internalId) → (mns.map CDeterministicMN.internalId).Nodup →
      mns.foldlM (addMN serializeHash) l = .ok l' →
      Exact serializeHash l' := by
  induction mns with
  | nil =>
    intro l l' h _ _ hok
    rw [foldlM_nil, pure_eq_ok] at hok
    exact hok ▸ h
  | cons dmn rest ih =>
    intro l l' h hunused hnodup hok
    rw [foldlM_cons, bind_eq_ok] at hok
    obtain ⟨l₁, hadd, hrest⟩ := hok
    rw [map_cons, nodup_cons] at hnodup
    have hexact : Exact serializeHash l₁ :=
      ⟨h.1.addMN hadd, h.2.addMN h.1 (hunused dmn (by simp)) hadd⟩
    refine ih hexact ?_ hnodup.2 hrest
    -- an id of the rest is used neither by an old member nor by the one just added
    intro d hd h' m hm hid
    obtain ⟨props, rfl⟩ := addMN_reindexed hadd
    rcases MapTotal.insert_eq_some.mp hm with ⟨-, rfl⟩ | ⟨-, hm⟩
    · exact hnodup.1 (hid ▸ mem_map_of_mem hd)
    · exact hunused d (by simp [hd]) h' m hm hid

/-! ### Keys that are null or points -/

theorem CBLSPublicKey.Decodes.isValidBytes_eq {key : CBLSPublicKey} (h : key.Decodes decodes) :
    key.isValidBytes decodes = key.isValid := by
  obtain ⟨_ | bytes⟩ := key
  · rfl
  · exact h bytes rfl

/-- The operator keys of the members are null or points. -/
def KeysDecode (decodes : Nat → Bool) (mnMap : HashMap CDeterministicMN) : Prop :=
  ∀ (h : Uint256) (dmn : CDeterministicMN), mnMap[h]? = some dmn →
    dmn.pdmnState.pubKeyOperator.Decodes decodes

theorem KeysDecode.insert {mnMap : HashMap CDeterministicMN} {dmn : CDeterministicMN}
    (hkeys : KeysDecode decodes mnMap) (hdmn : dmn.pdmnState.pubKeyOperator.Decodes decodes)
    (h : Uint256) : KeysDecode decodes (mnMap.insert h dmn) := by
  intro h' d hd
  rcases MapTotal.insert_eq_some.mp hd with ⟨-, rfl⟩ | ⟨-, hd⟩
  · exact hdmn
  · exact hkeys h' d hd

theorem addMNWith_eq {dmn : CDeterministicMN} (h : dmn.pdmnState.pubKeyOperator.Decodes decodes)
    (l : CDeterministicMNList) :
    l.addMNWith serializeHash (CBLSPublicKey.isValidBytes decodes) dmn =
      l.addMN serializeHash dmn := by
  unfold CDeterministicMNList.addMN addMNWith
  rw [h.isValidBytes_eq]

theorem KeysDecode.removeMNWith_eq (hkeys : KeysDecode decodes l.mnMap) (proTxHash : Uint256) :
    l.removeMNWith serializeHash (CBLSPublicKey.isValidBytes decodes) proTxHash =
      l.removeMN serializeHash proTxHash := by
  unfold CDeterministicMNList.removeMN removeMNWith
  cases hget : l.getMN proTxHash with
  | none => rfl
  | some dmn =>
    dsimp only
    rw [(hkeys proTxHash dmn hget).isValidBytes_eq]

theorem foldlM_addMNWith_eq (mns : List CDeterministicMN)
    (h : ∀ dmn ∈ mns, dmn.pdmnState.pubKeyOperator.Decodes decodes) (l : CDeterministicMNList) :
    mns.foldlM (addMNWith serializeHash (CBLSPublicKey.isValidBytes decodes)) l =
      mns.foldlM (addMN serializeHash) l := by
  induction mns generalizing l with
  | nil => rfl
  | cons dmn rest ih =>
    rw [foldlM_cons, foldlM_cons, addMNWith_eq (h dmn mem_cons_self)]
    exact bind_congr fun l₁ => ih (fun d hd => h d (mem_cons_of_mem _ hd)) l₁

/-- For keys that are null or points it does not matter how they are found valid. -/
theorem ListCall.Proper.runWith_eq {c : ListCall} (hkeys : KeysDecode decodes l.mnMap)
    (h : c.Proper decodes l) :
    c.runWith serializeHash l (CBLSPublicKey.isValidBytes decodes) = c.run serializeHash l := by
  cases c with
  | addMN dmn => exact addMNWith_eq h.2 l
  | removeMN proTxHash => exact hkeys.removeMNWith_eq proTxHash
  | unserialize blockHash nHeight count mns => exact foldlM_addMNWith_eq mns h.2 _
  | updateMNState _ _ => rfl
  | updateMN _ _ => rfl
  | updateMNDiff _ _ => rfl
  | poSePunish _ _ => rfl
  | poSeDecrease _ => rfl

/-! ### Sequences of calls -/

/-- A proper call keeps the indexes, and brings in no key that the caller did not hand over. -/
theorem ListCall.Proper.kept {c : ListCall} (hproper : c.Proper decodes l)
    (h : Exact serializeHash l) (hkeys : KeysDecode decodes l.mnMap)
    (hok : c.run serializeHash l = .ok l') : Exact serializeHash l' ∧ KeysDecode decodes l'.mnMap := by
  have hupdate : ∀ proTxHash s, s.pubKeyOperator.Decodes decodes →
      l.updateMN serializeHash proTxHash s = .ok l' →
      Exact serializeHash l' ∧ KeysDecode decodes l'.mnMap := by
    intro proTxHash s hs hok
    obtain ⟨dmn, -, -, hl'⟩ := h.1.updateMN_inv hok
    refine ⟨⟨hl'.indexed, h.2.updateMN h.1 hok⟩, ?_⟩
    rw [hl'.mnMap]
    exact hkeys.insert hs _
  have hstate : ∀ (dmn : CDeterministicMN) s, l.mnMap[dmn.proTxHash]? = some dmn →
      s.pubKeyOperator.Decodes decodes → l.updateMNState serializeHash dmn s = .ok l' →
      Exact serializeHash l' ∧ KeysDecode decodes l'.mnMap := by
    intro dmn s hm hs hok
    rw [← updateMN_of_getElem? hm] at hok
    exact hupdate _ s hs hok
  cases c with
  | addMN dmn =>
    refine ⟨⟨h.1.addMN hok, h.2.addMN h.1 hproper.1 hok⟩, ?_⟩
    obtain ⟨m, rfl⟩ := addMN_reindexed hok
    exact hkeys.insert hproper.2 _
  | updateMNState oldDmn s => exact hstate _ _ hproper.1 hproper.2 hok
  | updateMN proTxHash s => exact hupdate _ _ hproper hok
  | updateMNDiff oldDmn d =>
    cases oldDmn with
    | none => cases hok
    | some oldDmn => exact hstate _ _ hproper.1 hproper.2 hok
  | removeMN proTxHash =>
    obtain ⟨dmn, -, -, hl'⟩ := h.1.removeMN_inv hok
    refine ⟨⟨hl'.indexed, h.2.removeMN hok⟩, fun h' d hd => ?_⟩
    rw [hl'.mnMap] at hd
    exact hkeys h' d (MapTotal.erase_eq_some.mp hd).2
  | poSePunish proTxHash penalty =>
    obtain ⟨-, dmn, hget, hok⟩ := poSePunish_eq_ok.mp hok
    refine hupdate _ _ ?_ hok
    have hkey : (l.punishedState dmn.pdmnState penalty).pubKeyOperator =
        dmn.pdmnState.pubKeyOperator := by
      dsimp only [punishedState]
      split <;> rfl
    rw [hkey]
    exact hkeys _ _ hget
  | poSeDecrease proTxHash =>
    obtain ⟨dmn, hget, -, hok⟩ := poSeDecrease_eq_ok.mp hok
    refine hupdate _ _ ?_ hok
    exact hkeys _ dmn hget
  | unserialize blockHash nHeight count mns =>
    refine ⟨exact_foldlM_addMN mns ⟨Indexed.empty blockHash nHeight count,
      IdsExact.empty blockHash nHeight count⟩ (fun dmn _ h' d hd => by simp at hd) hproper.1 hok, ?_⟩
    refine foldlM_inv (fun l => KeysDecode decodes l.mnMap) mns _ _ (fun dmn hmem t t' ht hadd => ?_)
      (fun h' d hd => by simp at hd) hok
    obtain ⟨m, rfl⟩ := addMN_reindexed hadd
    exact ht.insert (hproper.2 dmn hmem) _

theorem exact_of_run {tr : List (CDeterministicMNList × ListCall × CDeterministicMNList)}
    (hrun : Run (fun l c l' => c.Step serializeHash decodes l l') {} tr l) :
    Exact serializeHash l := by
  refine (hrun.invariant (fun l => Exact serializeHash l ∧ KeysDecode decodes l.mnMap) ?_
    ⟨⟨Indexed.empty 0 (-1) 0, IdsExact.empty 0 (-1) 0⟩, ?_⟩).1.1
  · rintro l c l' ⟨h, hkeys⟩ ⟨hproper, hok⟩
    rw [hproper.runWith_eq hkeys] at hok
    exact hproper.kept h hkeys hok
  · intro h d hd
    simp at hd

/--
**The unique-property map is the index of the members**, after every sequence of proper
calls from the empty list: an entry says that the member it names holds the property
exactly as often as it is counted, and the other way round.  The internal-id map is the
inverse of the id field, a property that is reported has an owner in the list, and no two
members share one.
-/
theorem uniquePropertyMap_exact (serializeHash : UniqueProperty → Uint256) (decodes : Nat → Bool)
    {tr : List (CDeterministicMNList × ListCall × CDeterministicMNList)} {l : CDeterministicMNList}
    (hrun : Run (fun l c l' => c.Step serializeHash decodes l l') {} tr l) :
    (∀ (k o : Uint256) (n : Nat), l.mnUniquePropertyMap[k]? = some (o, n) ↔
      0 < n ∧ ∃ dmn : CDeterministicMN, l.mnMap[o]? = some dmn ∧ dmn.proTxHash = o ∧
        (dmn.properties serializeHash).count k = n) ∧
    (∀ (id : Nat) (h : Uint256), l.mnInternalIdMap[id]? = some h ↔
      ∃ dmn : CDeterministicMN, l.mnMap[h]? = some dmn ∧ dmn.internalId = id) ∧
    (∀ v, l.hasUniqueProperty serializeHash v = true →
      (l.getUniquePropertyMN serializeHash v).isSome = true) ∧
    (∀ (h₁ h₂ : Uint256) (a b : CDeterministicMN), l.mnMap[h₁]? = some a → l.mnMap[h₂]? = some b →
      h₁ ≠ h₂ → Disjoint (a.properties serializeHash) (b.properties serializeHash)) := by
  obtain ⟨h, hids⟩ := exact_of_run hrun
  refine ⟨?_, hids, ?_, ?_⟩
  · intro k o n
    rw [h.unique k o n]
    constructor
    · rintro ⟨hcount, hpos⟩
      obtain ⟨dmn, hget, -⟩ := mem_holdings_iff.mp (Multiset.count_pos.mp (hcount ▸ hpos))
      rw [holdings_of_getElem? hget] at hcount
      exact ⟨hpos, dmn, hget, h.keyed _ _ hget, hcount⟩
    · rintro ⟨hpos, dmn, hget, -, hcount⟩
      rw [holdings_of_getElem? hget]
      exact ⟨hcount, hpos⟩
  · intro v hv
    obtain ⟨o, ho⟩ := h.hasUniqueProperty_iff.mp hv
    obtain ⟨dmn, hget, hmem⟩ := mem_holdings_iff.mp ho
    rw [h.getUniquePropertyMN_eq_some.mpr ⟨by rwa [h.keyed _ _ hget], hmem⟩]
    rfl
  · intro h₁ h₂ a b ha hb hne
    rw [Multiset.disjoint_left]
    intro k hka hkb
    exact hne (h.unique.owner_unique (mem_holdings_iff.mpr ⟨a, ha, hka⟩)
      (mem_holdings_iff.mpr ⟨b, hb, hkb⟩))

end

/-! ### Improper calls -/

/-- A masternode for the runs below. -/
def registeredMN (proTxHash : Uint256) (internalId : Nat) : CDeterministicMN where
  proTxHash := proTxHash
  internalId := internalId
  collateralOutpoint := ⟨proTxHash, 0⟩
  nOperatorReward := 0
  pdmnState := { nRegisteredHeight := 10, keyIDOwner := proTxHash + 1, keyIDVoting := 3,
                 pubKeyOperator := ⟨some proTxHash⟩ }

/-- The bytes of the keys below that are those of a point. -/
def decodesBelow (bound : Nat) (bytes : Nat) : Bool := bytes < bound

/-- Two masternodes are read, one gets an address and another key, and the other one is punished and
removed. -/
theorem uniquePropertyMap_exact_register :
    ∃ tr l, Run (fun l c l' => ListCall.Step pairingHash (decodesBelow 10) l c l') {} tr l ∧
      tr.length = 4 ∧ l.mnMap.size = 1 ∧ l.mnUniquePropertyMap.size = 4 ∧
      ∀ (k o : Uint256) (n : Nat), l.mnUniquePropertyMap[k]? = some (o, n) ↔
        0 < n ∧ ∃ dmn : CDeterministicMN, l.mnMap[o]? = some dmn ∧ dmn.proTxHash = o ∧
          (dmn.properties pairingHash).count k = n := by
  have hkey : (⟨some 5⟩ : CBLSPublicKey).Decodes (decodesBelow 10) := by decide
  obtain ⟨l₁, l₂, l₃, l₄, h₁, h₂, h₃, h₄, hsize, hindex⟩ : ∃ l₁ l₂ l₃ l₄,
      ListCall.Step pairingHash (decodesBelow 10) {}
        (.unserialize 7 100 2 [registeredMN 1 0, registeredMN 2 1]) l₁ ∧
      ListCall.Step pairingHash (decodesBelow 10) l₁
        (.updateMN 1 { (registeredMN 1 0).pdmnState with addr := ⟨1, 9999⟩, pubKeyOperator := ⟨some 5⟩ })
        l₂ ∧
      ListCall.Step pairingHash (decodesBelow 10) l₂ (.poSePunish 2 66) l₃ ∧
      ListCall.Step pairingHash (decodesBelow 10) l₃ (.removeMN 2) l₄ ∧
      l₄.mnMap.size = 1 ∧ l₄.mnUniquePropertyMap.size = 4 :=
    ⟨_, _, _, _, ⟨⟨by decide, by decide⟩, rfl⟩, ⟨hkey, rfl⟩, ⟨trivial, rfl⟩, ⟨trivial, rfl⟩, by decide,
      by decide⟩
  have hrun := Run.cons h₁ (Run.cons h₂ (Run.cons h₃ (Run.single h₄)))
  exact ⟨_, l₄, hrun, rfl, hsize, hindex,
    (uniquePropertyMap_exact pairingHash (decodesBelow 10) hrun).1⟩

/--
Without the conditions on the caller the maps drift apart, and no assert notices: an internal id that
is used twice hides the first masternode from the id map; a masternode that is updated without being in
the list is a member with no entry for its collateral; an operator key that is no point is indexed when
it is updated to, and stays indexed when its masternode is removed.  An update may also clear the owner
key, which then has no entry either.
-/
theorem uniquePropertyMap_not_exact :
    (∃ l, [ListCall.addMN (registeredMN 1 0), .addMN (registeredMN 2 0)].foldlM
        (ListCall.run pairingHash) {} = .ok l ∧
      l.mnMap[1]? = some (registeredMN 1 0) ∧ l.mnInternalIdMap[0]? = some 2) ∧
    (∃ l, [ListCall.updateMNState (registeredMN 1 0) (registeredMN 1 0).pdmnState].foldlM
        (ListCall.run pairingHash) {} = .ok l ∧
      l.mnMap[1]? = some (registeredMN 1 0) ∧
      l.hasUniqueProperty pairingHash (.outpoint (registeredMN 1 0).collateralOutpoint) = false) ∧
    (∃ l, [ListCall.addMN (registeredMN 1 0),
          .updateMN 1 { (registeredMN 1 0).pdmnState with keyIDOwner := 0 }].foldlM
        (ListCall.run pairingHash) {} = .ok l ∧
      (l.mnMap[1]?.map fun dmn => dmn.pdmnState.keyIDOwner) = some 0 ∧
      l.hasUniqueProperty pairingHash (.keyID 0) = false) ∧
    ∃ l, [ListCall.addMN (registeredMN 1 0),
          .updateMN 1 { (registeredMN 1 0).pdmnState with pubKeyOperator := ⟨some 11⟩ },
          .removeMN 1].foldlM
        (fun l c => c.runWith pairingHash l (CBLSPublicKey.isValidBytes (decodesBelow 10))) {} =
          .ok l ∧
      l.mnMap.isEmpty = true ∧ l.hasUniqueProperty pairingHash (.pubKey ⟨some 11⟩) = true ∧
      l.getUniquePropertyMN pairingHash (.pubKey ⟨some 11⟩) = none := by
  refine ⟨⟨_, rfl, ?_, ?_⟩, ⟨_, rfl, ?_, ?_⟩, ⟨_, rfl, ?_, ?_⟩, ⟨_, rfl, ?_, ?_, ?_⟩⟩ <;> decide

end Absolute
