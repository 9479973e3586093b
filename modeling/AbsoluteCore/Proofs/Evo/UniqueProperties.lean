/-
The unique properties of masternodes and the map that indexes them.

A masternode's properties are a multiset of hashes, and `mnUniquePropertyMap` is an
ownership index over them.  `AddUniqueProperty`, `DeleteUniqueProperty` and
`UpdateUniqueProperty` are described by what they do to those multisets: when their
asserts hold, and what map they leave.  They change nothing else.
-/
import AbsoluteCore.Lib.Fallible
import AbsoluteCore.Lib.OwnerIndex
import AbsoluteCore.Spec.MasternodeLists

namespace Absolute

open OwnerIndex Fallible List Function UniqueProperty Nat CBLSPublicKey

@[simp] theorem assertThat_eq_ok {c : Prop} [Decidable c] {u : Unit} :
    assertThat c = .ok u ↔ c := by
  unfold assertThat
  split <;> simp_all

theorem assertThat_decides (c : Prop) [Decidable c] :
    Decides .assert c (fun _ => True) (assertThat c) := by
  unfold assertThat
  split
  · next hc => exact ⟨hc, trivial⟩
  · next hc => exact ⟨hc, rfl⟩

variable {serializeHash : UniqueProperty → Uint256} {v : UniqueProperty}

/-! ### The properties of a masternode -/

/-- The properties `AddMN` indexes and `RemoveMN` takes out again, in their order. -/
def CDeterministicMN.indexedProperties (dmn : CDeterministicMN) : List UniqueProperty :=
  [.outpoint dmn.collateralOutpoint] ++
    (if dmn.pdmnState.addr ≠ .null then [.service dmn.pdmnState.addr] else []) ++
    [.keyID dmn.pdmnState.keyIDOwner] ++
    (if dmn.pdmnState.pubKeyOperator.isValid then [.pubKey dmn.pdmnState.pubKeyOperator] else [])

theorem UniqueProperty.entry_of_isNull (h : v.isNull = true) : v.entry serializeHash = 0 := by
  simp [entry, h]

theorem UniqueProperty.entry_of_not_isNull (h : v.isNull = false) :
    v.entry serializeHash = {serializeHash v} := by
  simp [entry, h]

/-- A masternode that `AddMN` accepts: it has a collateral and an owner. -/
structure CDeterministicMN.Owned (dmn : CDeterministicMN) : Prop where
  collateral : dmn.collateralOutpoint ≠ .null
  owner : dmn.pdmnState.keyIDOwner ≠ 0

namespace CDeterministicMN

theorem forall_indexedProperties (dmn : CDeterministicMN) :
    (∀ v ∈ dmn.indexedProperties, v.isNull = false) ↔ dmn.Owned := by
  have haddr : ∀ v ∈ (if dmn.pdmnState.addr ≠ .null then
      [service dmn.pdmnState.addr] else []), v.isNull = false := by
    intro v hv
    split at hv <;> simp_all [isNull]
  have hkey : ∀ v ∈ (if dmn.pdmnState.pubKeyOperator.isValid then
      [pubKey dmn.pdmnState.pubKeyOperator] else []), v.isNull = false := by
    intro v hv
    split at hv <;> simp_all [isNull, isValid_iff]
  constructor
  · intro h
    have hcoll := h (.outpoint dmn.collateralOutpoint) (by simp [indexedProperties])
    have howner := h (.keyID dmn.pdmnState.keyIDOwner) (by simp [indexedProperties])
    exact ⟨by simpa [isNull] using hcoll, by simpa [isNull] using howner⟩
  · intro h v hv
    simp only [indexedProperties, mem_append, mem_singleton] at hv
    rcases hv with ((rfl | hv) | rfl) | hv
    · simpa [isNull] using h.collateral
    · exact haddr v hv
    · simpa [isNull] using h.owner
    · exact hkey v hv

variable {dmn : CDeterministicMN}

/-- With a collateral and an owner, the indexed properties are the properties that are set. -/
theorem Owned.map_indexedProperties (h : dmn.Owned) :
    (dmn.indexedProperties.map serializeHash : Multiset Uint256) =
      dmn.properties serializeHash := by
  have hcoll : (outpoint dmn.collateralOutpoint).isNull = false := by
    simpa [isNull] using h.collateral
  have howner : (keyID dmn.pdmnState.keyIDOwner).isNull = false := by
    simpa [isNull] using h.owner
  have haddr : ((if dmn.pdmnState.addr ≠ .null then [service dmn.pdmnState.addr]
      else []).map serializeHash : Multiset Uint256) =
      (service dmn.pdmnState.addr).entry serializeHash := by
    by_cases hn : dmn.pdmnState.addr = .null <;> simp [hn, entry, isNull]
  have hkey : ((if dmn.pdmnState.pubKeyOperator.isValid then
      [pubKey dmn.pdmnState.pubKeyOperator] else []).map serializeHash :
      Multiset Uint256) =
      (pubKey dmn.pdmnState.pubKeyOperator).entry serializeHash := by
    by_cases hn : dmn.pdmnState.pubKeyOperator = .null
    · simp [hn, entry, isNull, isValid,
        null]
    · simp [hn, entry, isNull, isValid_iff.mpr hn]
  unfold indexedProperties properties
  rw [map_append, map_append, map_append, ← Multiset.coe_add, ← Multiset.coe_add,
    ← Multiset.coe_add, haddr, hkey, entry_of_not_isNull hcoll,
    entry_of_not_isNull howner]
  rfl

/-- The masternode has this value in the field that holds such values. -/
def Has (dmn : CDeterministicMN) : UniqueProperty → Prop
  | .outpoint v => dmn.collateralOutpoint = v
  | .service v => dmn.pdmnState.addr = v
  | .keyID v => dmn.pdmnState.keyIDOwner = v
  | .pubKey v => dmn.pdmnState.pubKeyOperator = v

theorem mem_properties {k : Uint256} : k ∈ dmn.properties serializeHash ↔
      ∃ v : UniqueProperty, v.isNull = false ∧ dmn.Has v ∧ serializeHash v = k := by
  have hentry : ∀ v : UniqueProperty,
      k ∈ v.entry serializeHash ↔ v.isNull = false ∧ serializeHash v = k := by
    intro v
    cases hnull : v.isNull with
    | true => simp [entry, hnull]
    | false => simp [entry, hnull, eq_comm]
  simp only [properties, Multiset.mem_add, hentry]
  constructor
  · rintro (((⟨hn, hk⟩ | ⟨hn, hk⟩) | ⟨hn, hk⟩) | ⟨hn, hk⟩)
    · exact ⟨_, hn, rfl, hk⟩
    · exact ⟨_, hn, rfl, hk⟩
    · exact ⟨_, hn, rfl, hk⟩
    · exact ⟨_, hn, rfl, hk⟩
  · rintro ⟨v, hn, hv, hk⟩
    cases v with
    | outpoint v => exact .inl (.inl (.inl ⟨hv ▸ hn, hv ▸ hk⟩))
    | service v => exact .inl (.inl (.inr ⟨hv ▸ hn, hv ▸ hk⟩))
    | keyID v => exact .inl (.inr ⟨hv ▸ hn, hv ▸ hk⟩)
    | pubKey v => exact .inr ⟨hv ▸ hn, hv ▸ hk⟩

theorem hash_mem_properties (hinj : Injective serializeHash) {v : UniqueProperty} :
    serializeHash v ∈ dmn.properties serializeHash ↔ v.isNull = false ∧ dmn.Has v := by
  rw [mem_properties]
  constructor
  · rintro ⟨w, hn, hw, hk⟩
    rw [← hinj hk]
    exact ⟨hn, hw⟩
  · rintro ⟨hn, hv⟩
    exact ⟨v, hn, hv, rfl⟩

end CDeterministicMN

namespace CDeterministicMNList

/-- `l'` is `l` with another index. -/
def Reindexed (l l' : CDeterministicMNList) : Prop := ∃ m, l' = { l with mnUniquePropertyMap := m }

variable {l : CDeterministicMNList} {held : Uint256 → Multiset Uint256} {new : UniqueProperty}

theorem Reindexed.trans {l' l'' : CDeterministicMNList} (h : Reindexed l l')
    (h' : Reindexed l' l'') : Reindexed l l'' := by
  obtain ⟨m, rfl⟩ := h
  obtain ⟨m', rfl⟩ := h'
  exact ⟨m', rfl⟩

/-- The keys in `s` belong to nobody but `o`. -/
def FreeFor (held : Uint256 → Multiset Uint256) (o : Uint256) (s : Multiset Uint256) : Prop :=
  ∀ k ∈ s, ∀ o', k ∈ held o' → o' = o

variable {l l' : CDeterministicMNList} {dmn : CDeterministicMN} {v : UniqueProperty}
  {held : Uint256 → Multiset Uint256} {o : Uint256} {s t : Multiset Uint256}
  (vs : List UniqueProperty)

theorem freeFor_singleton {k : Uint256} : FreeFor held o {k} ↔ ∀ o', k ∈ held o' → o' = o := by
  simp [FreeFor]

theorem freeFor_update : FreeFor (update held o s) o t ↔ FreeFor held o t := by
  refine forall₂_congr fun k _ => forall_congr' fun o' => ?_
  by_cases ho : o' = o
  · simp [ho]
  · rw [update_of_ne ho]

theorem freeFor_add : FreeFor held o (s + t) ↔ FreeFor held o s ∧ FreeFor held o t := by
  simp only [FreeFor, Multiset.mem_add, or_imp, forall_and]

theorem freeFor_of_le {m : HashMap (Uint256 × Nat)} (h : Represents m held) (hs : s ≤ held o) :
    FreeFor held o s :=
  fun _ hk _ ho => h.owner_unique ho (Multiset.mem_of_le hs hk)

/-! ### One property at a time -/

theorem reindexed_addUniqueProperty :
    Ends (Reindexed l) (fun _ => True) (addUniqueProperty serializeHash dmn l v) :=
  Ends.bind_any _ fun _ => Ends.bind_any _ fun _ => ⟨_, rfl⟩

theorem reindexed_deleteUniqueProperty :
    Ends (Reindexed l) (fun _ => True) (deleteUniqueProperty serializeHash dmn l v) := by
  refine Ends.bind_any _ fun _ => ?_
  dsimp only
  split
  · trivial
  · refine Ends.bind_any _ fun _ => ?_
    split <;> exact ⟨_, rfl⟩

/-- `AddUniqueProperty` goes through when the property is not null and no one else's. -/
theorem addUniqueProperty_decides (h : Represents l.mnUniquePropertyMap held) :
    Decides .assert (v.isNull = false ∧ FreeFor held dmn.proTxHash {serializeHash v})
      (fun l' => Represents l'.mnUniquePropertyMap
        (update held dmn.proTxHash (serializeHash v ::ₘ held dmn.proTxHash)))
      (addUniqueProperty serializeHash dmn l v) := by
  have howner : (∀ e ∈ l.mnUniquePropertyMap[serializeHash v]?, e.1 = dmn.proTxHash) ↔
      FreeFor held dmn.proTxHash {serializeHash v} := by
    rw [freeFor_singleton]
    exact ⟨fun he o ho => he _ (h.getElem?_of_mem ho), fun ho e he => ho e.1 (h.mem_of_getElem? he)⟩
  refine (assertThat_decides _).bind fun _ _ _ => ?_
  refine ((assertThat_decides _).bind (d := True) fun _ hfree _ => ?_).imp
    ((and_iff_left trivial).trans howner) fun _ _ _ hr => hr
  exact ⟨trivial, h.acquire (freeFor_singleton.mp (howner.mp hfree))⟩

/-- `DeleteUniqueProperty` goes through when the masternode holds the property. -/
theorem deleteUniqueProperty_decides (h : Represents l.mnUniquePropertyMap held) :
    Decides .assert (v.isNull = false ∧ serializeHash v ∈ held dmn.proTxHash)
      (fun l' => Represents l'.mnUniquePropertyMap
        (update held dmn.proTxHash ((held dmn.proTxHash).erase (serializeHash v))))
      (deleteUniqueProperty serializeHash dmn l v) := by
  refine (assertThat_decides _).bind fun _ _ _ => ?_
  dsimp only
  cases he : l.mnUniquePropertyMap[serializeHash v]? with
  | none => exact ⟨fun hmem => by simp [h.getElem?_of_mem hmem] at he, rfl⟩
  | some p =>
    obtain ⟨o, n⟩ := p
    have hmem := h.mem_of_getElem? he
    refine ((assertThat_decides (o = dmn.proTxHash)).bind (d := True) fun _ ho _ => ?_).imp
      ⟨fun ho => ho.1 ▸ hmem, fun ho => ⟨h.owner_unique hmem ho, trivial⟩⟩ fun _ _ _ hr => hr
    subst ho
    have hrelease := h.release hmem
    rw [((h _ _ _).mp he).1, OwnerIndex.release] at hrelease
    split_ifs at hrelease ⊢ <;> exact ⟨trivial, hrelease⟩

/-! ### Several properties, and replacing one -/

theorem addUniqueProperties_decides (h : Represents l.mnUniquePropertyMap held) :
    Decides .assert (∀ v ∈ vs, v.isNull = false ∧ FreeFor held dmn.proTxHash {serializeHash v})
      (fun l' => Represents l'.mnUniquePropertyMap
        (update held dmn.proTxHash (vs.map serializeHash + held dmn.proTxHash)))
      (vs.foldlM (addUniqueProperty serializeHash dmn) l) := by
  induction vs generalizing l held with
  | nil => exact ⟨by simp, by simpa using h⟩
  | cons v rest ih =>
    refine ((addUniqueProperty_decides h).bind fun l₁ _ h₁ => ih h₁).imp ?_ fun l' _ _ h' => ?_
    · simp only [freeFor_update, forall_mem_cons]
    · -- taking up the rest on top of `v` is the same as taking up both at once
      rwa [update_idem, update_self, Multiset.add_cons, ← Multiset.cons_add] at h'

theorem deleteUniqueProperties_decides (h : Represents l.mnUniquePropertyMap held) :
    Decides .assert ((∀ v ∈ vs, v.isNull = false) ∧ vs.map serializeHash ≤ held dmn.proTxHash)
      (fun l' => Represents l'.mnUniquePropertyMap
        (update held dmn.proTxHash (held dmn.proTxHash - vs.map serializeHash)))
      (vs.foldlM (deleteUniqueProperty serializeHash dmn) l) := by
  induction vs generalizing l held with
  | nil => exact ⟨by simp, by simpa using h⟩
  | cons v rest ih =>
    refine ((deleteUniqueProperty_decides h).bind fun l₁ _ h₁ => ih h₁).imp ?_ fun l' _ _ h' => ?_
    · rw [update_self, forall_mem_cons, map_cons, ← Multiset.cons_coe]
      constructor
      · rintro ⟨⟨hnull, hmem⟩, hrest, hle⟩
        refine ⟨⟨hnull, hrest⟩, ?_⟩
        rwa [← Multiset.cons_erase hmem, Multiset.cons_le_cons_iff]
      · rintro ⟨⟨hnull, hrest⟩, hle⟩
        have hmem := Multiset.mem_of_le hle (Multiset.mem_cons_self _ _)
        rw [← Multiset.cons_erase hmem, Multiset.cons_le_cons_iff] at hle
        exact ⟨⟨hnull, hmem⟩, hrest, hle⟩
    · rwa [update_idem, update_self, ← Multiset.sub_cons] at h'

/--
`UpdateUniqueProperty` exchanges one entry of the masternode for another.

The source guards deletion and addition with a comparison to the default value, which
is the same test as `isNull`.
-/
theorem updateUniqueProperty_decides (old : UniqueProperty)
    (h : Represents l.mnUniquePropertyMap held) (rest : Multiset Uint256)
    (hrest : held dmn.proTxHash = rest + old.entry serializeHash) :
    Decides .assert (FreeFor held dmn.proTxHash (new.entry serializeHash))
      (fun l' => Represents l'.mnUniquePropertyMap
        (update held dmn.proTxHash (rest + new.entry serializeHash)))
      (updateUniqueProperty serializeHash dmn l old new) := by
  unfold updateUniqueProperty
  by_cases heq : old = new
  · subst heq
    rw [if_pos rfl, ← hrest, update_eq_self]
    exact ⟨freeFor_of_le h (by rw [hrest]; exact Multiset.le_add_left _ _), h⟩
  rw [if_neg heq]
  have hdelete : Decides .assert True
      (fun l₁ => Represents l₁.mnUniquePropertyMap (update held dmn.proTxHash rest))
      (if old.isNull then pure l else deleteUniqueProperty serializeHash dmn l old) := by
    cases hnull : old.isNull with
    | true =>
      rw [entry_of_isNull hnull, add_zero] at hrest
      rw [← hrest, update_eq_self]
      exact ⟨trivial, h⟩
    | false =>
      rw [entry_of_not_isNull hnull, add_comm, Multiset.singleton_add] at hrest
      refine (deleteUniqueProperty_decides h).imp (iff_of_true ⟨hnull, by simp [hrest]⟩ trivial)
        fun l₁ _ _ h₁ => ?_
      rwa [hrest, Multiset.erase_cons_head] at h₁
  refine (hdelete.bind (d := FreeFor held dmn.proTxHash (new.entry serializeHash))
    fun l₁ _ h₁ => ?_).imp (and_iff_right trivial) fun _ _ _ hr => hr
  cases hnull : new.isNull with
  | true =>
    rw [entry_of_isNull hnull, add_zero]
    exact ⟨by simp [FreeFor], h₁⟩
  | false =>
    rw [entry_of_not_isNull hnull]
    refine (addUniqueProperty_decides h₁).imp ?_ fun l' _ _ h' => ?_
    · rw [freeFor_update]
      exact and_iff_right hnull
    · rwa [update_idem, update_self, ← Multiset.singleton_add, add_comm] at h'

theorem reindexed_updateUniqueProperty {old : UniqueProperty} :
    Ends (Reindexed l) (fun _ => True) (updateUniqueProperty serializeHash dmn l old new) := by
  unfold updateUniqueProperty
  split
  · exact ⟨_, rfl⟩
  · refine Ends.bind (P := Reindexed l) ?_ (fun l₁ h₁ => ?_) fun _ he => he
    · split
      · exact ⟨_, rfl⟩
      · exact reindexed_deleteUniqueProperty
    · split
      · exact h₁
      · exact reindexed_addUniqueProperty.imp (fun _ h' => h₁.trans h') fun _ he => he

end CDeterministicMNList

/-! ### A hash to compute with -/

/-- An injective `::SerializeHash`: the type of the property and the number it encodes to. -/
def pairingHash : UniqueProperty → Uint256
  | .outpoint v => 4 * Nat.pair v.hash v.n
  | .service v => 4 * Nat.pair v.ip v.port + 1
  | .keyID v => 4 * v + 2
  | .pubKey v => 4 * (v.impl.elim 0 fun p => p + 1) + 3

theorem pairingHash_injective : Injective pairingHash := by
  intro a b heq
  have h : @Eq Nat (pairingHash a) (pairingHash b) := heq
  rcases a with a | a | a | a <;> rcases b with b | b | b | b <;> simp only [pairingHash] at h
  case outpoint.outpoint =>
      have hpair : pair a.hash a.n = pair b.hash b.n := by omega
      obtain ⟨_, _⟩ := a
      obtain ⟨_, _⟩ := b
      simp_all
  case service.service =>
      have hpair : pair a.ip a.port = pair b.ip b.port := by omega
      obtain ⟨_, _⟩ := a
      obtain ⟨_, _⟩ := b
      simp_all
  case keyID.keyID =>
      have hkey : @Eq Nat a b := by omega
      rw [show a = b from hkey]
  case pubKey.pubKey =>
      obtain ⟨_ | a⟩ := a <;> obtain ⟨_ | b⟩ := b <;> simp at h ⊢
      exact h
  all_goals omega

end Absolute
