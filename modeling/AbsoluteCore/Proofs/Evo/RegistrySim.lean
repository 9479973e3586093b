/-
The masternode list simulates the register.

Every transaction that passed `CheckSpecialTx` does to the evolving list what it does to
the register, and is refused exactly where the register refuses it.  The one exception is
a `ProUpRegTx` that takes another masternode's operator key: the register lets two
masternodes have the key, the list stops the process.
-/
import AbsoluteCore.Spec.Registry
import AbsoluteCore.Proofs.Evo.Checks
import AbsoluteCore.Proofs.Evo.StateSteps

namespace Absolute

open Fallible CDeterministicMNList OwnerIndex List Function Option Std ExtTreeMap MapTotal UniqueProperty
  CDeterministicMN Registry

variable {env : Env} {lists : CBlockIndex → CDeterministicMNList} {pindexPrev : CBlockIndex}
  {tx : CTransaction} {l l' : CDeterministicMNList} {dmn : CDeterministicMN} {proTxHash : Uint256}
variable {h : Uint256}

/--
A well-formed list: its index is exact, its masternodes have a collateral and an owner, and
a masternode under the hash of a `ProRegTx` has the collateral and owner of that transaction.
-/
structure WellFormed (env : Env) (l : CDeterministicMNList) : Prop where
  indexed : l.Indexed env.serializeHash
  owned : ∀ (h : Uint256) (dmn : CDeterministicMN), l.mnMap[h]? = some dmn → dmn.Owned
  origin : ∀ (dmn : CDeterministicMN) (tx : CTransaction) (ptx : CProRegTx),
    l.mnMap[env.txHash tx]? = some dmn → tx.getProRegTx = some ptx →
    dmn.collateralOutpoint = proRegCollateral env tx ptx ∧
      dmn.pdmnState.keyIDOwner = ptx.keyIDOwner

theorem wellFormed_empty (env : Env) (blockHash : Uint256) :
    WellFormed env { blockHash := blockHash } where
  indexed := Indexed.empty blockHash (-1) 0
  owned := by intro h d hd; simp at hd
  origin := by intro d tx p hd; simp at hd

/-! ### Reading the register off the list -/

theorem registry_eq_some {r : Registration} :
    l.registry h = some r ↔ ∃ dmn : CDeterministicMN, l.mnMap[h]? = some dmn ∧ dmn.registration = r := by
  unfold registry
  rw [map_eq_some_iff]

theorem registry_of_getElem? (hm : l.mnMap[h]? = some dmn) :
    l.registry h = some dmn.registration := by
  simp [registry, hm]

theorem registry_of_none (hm : l.mnMap[h]? = none) : l.registry h = none := by
  simp [registry, hm]

theorem registry_insert (hmap : l'.mnMap = l.mnMap.insert h dmn) :
    l'.registry = update l.registry h (some dmn.registration) := by
  funext h'
  simp only [registry, hmap, Std.ExtTreeMap.getElem?_insert, update_apply,
    Std.LawfulEqCmp.compare_eq_iff_eq, eq_comm (a := h)]
  split_ifs <;> rfl

/-! ### Properties of members, with an injective hash -/

section Injective

variable {serializeHash : UniqueProperty → Uint256} (hinj : Injective serializeHash)
variable {v : UniqueProperty}

include hinj

theorem hasUniqueProperty_iff_exists (h : l.Indexed serializeHash) :
    l.hasUniqueProperty serializeHash v = true ↔
      v.isNull = false ∧ ∃ (o : Uint256) (d : CDeterministicMN), l.mnMap[o]? = some d ∧ d.Has v := by
  rw [h.hasUniqueProperty_iff]
  constructor
  · rintro ⟨o, ho⟩
    obtain ⟨d, hd, hmem⟩ := mem_holdings_iff.mp ho
    obtain ⟨hnull, hhas⟩ := (hash_mem_properties hinj).mp hmem
    exact ⟨hnull, o, d, hd, hhas⟩
  · rintro ⟨hnull, o, d, hd, hhas⟩
    exact ⟨o, mem_holdings_iff.mpr
      ⟨d, hd, (hash_mem_properties hinj).mpr ⟨hnull, hhas⟩⟩⟩

theorem getUniquePropertyMN_iff (h : l.Indexed serializeHash) :
    l.getUniquePropertyMN serializeHash v = some dmn ↔
      l.mnMap[dmn.proTxHash]? = some dmn ∧ v.isNull = false ∧ dmn.Has v := by
  rw [h.getUniquePropertyMN_eq_some, hash_mem_properties hinj]

theorem has_unique (h : l.Indexed serializeHash) (hnull : v.isNull = false) {h₁ h₂ : Uint256}
    {a b : CDeterministicMN} (ha : l.mnMap[h₁]? = some a) (hb : l.mnMap[h₂]? = some b)
    (hav : a.Has v) (hbv : b.Has v) : h₁ = h₂ :=
  h.unique.owner_unique
    (mem_holdings_iff.mpr ⟨a, ha, (hash_mem_properties hinj).mpr ⟨hnull, hav⟩⟩)
    (mem_holdings_iff.mpr ⟨b, hb, (hash_mem_properties hinj).mpr ⟨hnull, hbv⟩⟩)

theorem unshared_iff {l : CDeterministicMNList} {dmn : CDeterministicMN} :
    l.Unshared serializeHash dmn ↔
      ∀ v : UniqueProperty, v.isNull = false → dmn.Has v →
        ∀ (o : Uint256) (d : CDeterministicMN), l.mnMap[o]? = some d → d.Has v →
          o = dmn.proTxHash := by
  constructor
  · intro h v hnull hv o d hd hdv
    refine h _ ((hash_mem_properties hinj).mpr ⟨hnull, hv⟩) o ?_
    exact mem_holdings_iff.mpr
      ⟨d, hd, (hash_mem_properties hinj).mpr ⟨hnull, hdv⟩⟩
  · intro h k hk o ho
    obtain ⟨v, hnull, hv, rfl⟩ := mem_properties.mp hk
    obtain ⟨d, hd, hmem⟩ := mem_holdings_iff.mp ho
    exact h v hnull hv o d hd ((hash_mem_properties hinj).mp hmem).2

end Injective

variable {h : Uint256} {p : CProRegTx} {s : CDeterministicMNState}

/-! ### Well-formedness is kept -/

theorem WellFormed.of_maps (hwf : WellFormed env l) (hmap : l'.mnMap = l.mnMap)
    (hprops : l'.mnUniquePropertyMap = l.mnUniquePropertyMap) : WellFormed env l' where
  indexed := hwf.indexed.of_maps hmap hprops
  owned := by rw [hmap]; exact hwf.owned
  origin := by rw [hmap]; exact hwf.origin

theorem WellFormed.insert (hwf : WellFormed env l) {new : CDeterministicMN} (howned : new.Owned)
    (horigin : ∀ (tx : CTransaction) (ptx : CProRegTx), env.txHash tx = proTxHash →
      tx.getProRegTx = some ptx → new.collateralOutpoint = proRegCollateral env tx ptx ∧
        new.pdmnState.keyIDOwner = ptx.keyIDOwner)
    (hl' : l.WithMembers env.serializeHash (l.mnMap.insert proTxHash new) l') :
    WellFormed env l' where
  indexed := hl'.indexed
  owned := by
    intro h d hd
    rw [hl'.mnMap] at hd
    rcases insert_eq_some.mp hd with ⟨-, rfl⟩ | ⟨-, hd⟩
    · exact howned
    · exact hwf.owned h d hd
  origin := by
    intro d tx ptx hd hptx
    rw [hl'.mnMap] at hd
    rcases insert_eq_some.mp hd with ⟨heq, rfl⟩ | ⟨-, hd⟩
    · exact horigin tx ptx heq hptx
    · exact hwf.origin d tx ptx hd hptx

theorem WellFormed.erase (hwf : WellFormed env l)
    (hl' : l.WithMembers env.serializeHash (l.mnMap.erase proTxHash) l') : WellFormed env l' where
  indexed := hl'.indexed
  owned := by
    intro h d hd
    rw [hl'.mnMap] at hd
    exact hwf.owned h d (erase_eq_some.mp hd).2
  origin := by
    intro d tx ptx hd hptx
    rw [hl'.mnMap] at hd
    exact hwf.origin d tx ptx (erase_eq_some.mp hd).2 hptx

/-- A new state with the old owner is written whenever no one else has its properties. -/
theorem WellFormed.updateMN_ok (hwf : WellFormed env l) (hm : l.mnMap[proTxHash]? = some dmn)
    (howner : s.keyIDOwner = dmn.pdmnState.keyIDOwner)
    (hfree : l.Unshared env.serializeHash { dmn with pdmnState := s }) :
    ∃ l', l.updateMN env.serializeHash proTxHash s = .ok l' ∧ WellFormed env l' ∧
      l'.registry = update l.registry proTxHash
        (some { dmn with pdmnState := s }.registration) := by
  obtain ⟨l', hok, hl'⟩ := (hwf.indexed.updateMN_decides hm).exists_ok hfree
  refine ⟨l', hok, hwf.insert ?_ ?_ hl', registry_insert hl'.mnMap⟩
  · have howned := hwf.owned _ _ hm
    exact ⟨howned.collateral, by rw [howner]; exact howned.owner⟩
  · intro tx ptx htx hptx
    have horigin := hwf.origin dmn tx ptx (by rw [htx]; exact hm) hptx
    exact ⟨horigin.1, howner.trans horigin.2⟩

/-- A new state with the old properties is always written, and the register stays as it is. -/
theorem WellFormed.updateMN_same (hwf : WellFormed env l) (hm : l.mnMap[proTxHash]? = some dmn)
    (haddr : s.addr = dmn.pdmnState.addr) (howner : s.keyIDOwner = dmn.pdmnState.keyIDOwner)
    (hkey : s.pubKeyOperator = dmn.pdmnState.pubKeyOperator) :
    ∃ l', l.updateMN env.serializeHash proTxHash s = .ok l' ∧ WellFormed env l' ∧
      l'.registry = l.registry := by
  obtain ⟨l', hok, hwf', hreg⟩ := hwf.updateMN_ok hm howner
    (hwf.indexed.unshared_of_same hm haddr howner hkey)
  refine ⟨l', hok, hwf', ?_⟩
  have hsame : ({ dmn with pdmnState := s } : CDeterministicMN).registration =
      dmn.registration := by
    simp [registration, haddr, howner, hkey]
  rw [hreg, hsame, ← registry_of_getElem? hm, update_eq_self]

/-! ### Updates of one masternode -/

/-- A step of the list and a step of the register agree. -/
def Simulates (env : Env) (x : Except Fail CDeterministicMNList) (y : Option Registry) : Prop :=
  (y = none ∧ ∃ level code reason, x = .error (.reject level code reason)) ∨
  ∃ l', x = .ok l' ∧ WellFormed env l' ∧ y = some l'.registry

section

variable (hinj : Injective env.serializeHash) (hwf : WellFormed env l)

include hinj hwf

theorem unshared_of_free (hm : l.mnMap[proTxHash]? = some dmn) {s : CDeterministicMNState}
    (howner : s.keyIDOwner = dmn.pdmnState.keyIDOwner)
    (haddr : s.addr ≠ .null → ∀ (o : Uint256) (d : CDeterministicMN), l.mnMap[o]? = some d →
      d.pdmnState.addr = s.addr → o = proTxHash)
    (hkey : s.pubKeyOperator ≠ .null → ∀ (o : Uint256) (d : CDeterministicMN),
      l.mnMap[o]? = some d → d.pdmnState.pubKeyOperator = s.pubKeyOperator → o = proTxHash) :
    l.Unshared env.serializeHash { dmn with pdmnState := s } := by
  have hself : dmn.proTxHash = proTxHash := hwf.indexed.keyed _ _ hm
  rw [unshared_iff hinj]
  intro v hnull hv o d hd hdv
  rw [hself]
  cases v with
  | outpoint v => exact has_unique hinj hwf.indexed hnull hd hm hdv hv
  | service v =>
    have hv : s.addr = v := hv
    subst hv
    exact haddr (by simpa [isNull] using hnull) o d hd hdv
  | keyID v =>
    have hv : s.keyIDOwner = v := hv
    exact has_unique hinj hwf.indexed hnull hd hm hdv (howner.symm.trans hv)
  | pubKey v =>
    have hv : s.pubKeyOperator = v := hv
    subst hv
    exact hkey (by simpa [isNull] using hnull) o d hd hdv

omit hinj in
/-- The end of every update: a masternode that is not there is refused, the state of any other is
written. -/
theorem updateMN_sim (f : CDeterministicMNState → CDeterministicMNState) {y : Option Registry}
    (hnone : l.registry proTxHash = none → y = none)
    (hsome : ∀ dmn, l.mnMap[proTxHash]? = some dmn →
      (f dmn.pdmnState).keyIDOwner = dmn.pdmnState.keyIDOwner ∧
      l.Unshared env.serializeHash { dmn with pdmnState := f dmn.pdmnState } ∧
      y = some (update l.registry proTxHash
        (some { dmn with pdmnState := f dmn.pdmnState }.registration))) :
    Simulates env (do
      let dmn ← orReject (l.getMN proTxHash) 100 .invalid "bad-protx-hash"
      l.updateMN env.serializeHash proTxHash (f dmn.pdmnState)) y := by
  unfold getMN
  cases hget : l.mnMap[proTxHash]? with
  | none => exact .inl ⟨hnone (registry_of_none hget), 100, .invalid, "bad-protx-hash", rfl⟩
  | some dmn =>
    obtain ⟨howner, hfree, rfl⟩ := hsome dmn hget
    obtain ⟨l', hok, hwf', hreg⟩ := hwf.updateMN_ok hget howner hfree
    exact .inr ⟨l', hok, hwf', by rw [hreg]⟩

/-- The first check of the `ProUpServTx` branch: is the address another masternode's? -/
theorem otherAddr_cases (proTxHash : Uint256) {a : CService} (ha : a ≠ .null) :
    let check : Except Fail Unit :=
      if l.hasUniqueProperty env.serializeHash (.service a) then do
        let other ← deref (l.getUniquePropertyMN env.serializeHash (.service a))
        rejectIf (other.proTxHash ≠ proTxHash) 100 .conflict "bad-protx-dup-addr"
      else pure ()
    (check = .ok () ∧ ∀ (o : Uint256) (d : CDeterministicMN), l.mnMap[o]? = some d →
      d.pdmnState.addr = a → o = proTxHash) ∨
    (check = dos 100 .conflict "bad-protx-dup-addr" ∧ ∃ (o : Uint256) (d : CDeterministicMN),
      o ≠ proTxHash ∧ l.mnMap[o]? = some d ∧ d.pdmnState.addr = a) := by
  intro check
  have hnull : (service a).isNull = false := by
    simpa [isNull] using ha
  by_cases hhas : l.hasUniqueProperty env.serializeHash (.service a) = true
  · obtain ⟨-, o, d, hd, hdv⟩ := (hasUniqueProperty_iff_exists hinj hwf.indexed).mp hhas
    have hself : d.proTxHash = o := hwf.indexed.keyed _ _ hd
    have hget : l.getUniquePropertyMN env.serializeHash (.service a) = some d :=
      (getUniquePropertyMN_iff hinj hwf.indexed).mpr ⟨by rw [hself]; exact hd, hnull, hdv⟩
    have hcheck : check = rejectIf (o ≠ proTxHash) 100 .conflict "bad-protx-dup-addr" := by
      simp only [check, hhas, if_true, hget, deref, ok_bind, hself]
    by_cases ho : o = proTxHash
    · left
      refine ⟨by rw [hcheck, rejectIf, if_neg (by simpa using ho)], fun o' d' hd' ha' => ?_⟩
      rw [← ho]
      exact has_unique hinj hwf.indexed hnull hd' hd ha' hdv
    · right
      exact ⟨by rw [hcheck, rejectIf, if_pos ho], o, d, ho, hd, hdv⟩
  · left
    refine ⟨by simp only [check, hhas, if_false, Bool.false_eq_true]; rfl, fun o d hd hdv => ?_⟩
    exact absurd ((hasUniqueProperty_iff_exists hinj hwf.indexed).mpr ⟨hnull, o, d, hd, hdv⟩) hhas

theorem processProUpServTx_sim {p : CProUpServTx} (hp : tx.getProUpServTx = some p)
    (hvalid : p.addr.isValid = true) (nHeight : Int) :
    Simulates env (processProUpServTx env nHeight l tx)
      (l.registry.setService p.proTxHash p.addr) := by
  unfold processProUpServTx
  rw [hp]
  simp only [deref, ok_bind]
  rcases otherAddr_cases hinj hwf p.proTxHash (CService.ne_null_of_isValid hvalid) with
    ⟨hcheck, hfree⟩ | ⟨hcheck, o, d, ho, hd, hda⟩
  · simp only [deref] at hcheck
    rw [hcheck, ok_bind]
    refine updateMN_sim hwf (updServState nHeight p) (fun hnone => by
      rw [setService, hnone, bind_none]) fun dmn hget => ⟨by simp, ?_, ?_⟩
    · refine unshared_of_free hinj hwf hget (by simp)
        (fun _ o d hd hda => hfree o d hd (by simpa using hda)) fun hnull o d hd hdk => ?_
      exact has_unique hinj hwf.indexed (v := .pubKey _) (by simpa [isNull] using hnull) hd hget hdk
        (updServState_frame _ _ _).2.2.1.symm
    · have hnone : ¬∃ h' r', h' ≠ p.proTxHash ∧ l.registry h' = some r' ∧ r'.addr = p.addr := by
        rintro ⟨h', r', hne, hr', hra⟩
        obtain ⟨d, hd, rfl⟩ := registry_eq_some.mp hr'
        exact hne (hfree h' d hd hra)
      rw [setService, registry_of_getElem? hget, bind_some, if_neg hnone]
      simp [registration]
  · simp only [deref] at hcheck
    rw [hcheck]
    refine .inl ⟨?_, 100, .conflict, "bad-protx-dup-addr", rfl⟩
    unfold setService
    cases hr : l.registry p.proTxHash with
    | none => rfl
    | some r =>
      rw [bind_some, if_pos ⟨o, d.registration, ho, registry_of_getElem? hd, hda⟩]

theorem processProUpRevTx_sim {p : CProUpRevTx} (hp : tx.getProUpRevTx = some p) (nHeight : Int) :
    Simulates env (processProUpRevTx env nHeight l tx) (l.registry.revoke p.proTxHash) := by
  unfold processProUpRevTx
  rw [hp]
  refine updateMN_sim hwf (updRevState nHeight p) (fun hnone => by simp [revoke, hnone])
    fun dmn hget => ⟨by simp, unshared_of_free hinj hwf hget (by simp) (by simp) (by simp), ?_⟩
  rw [revoke, registry_of_getElem? hget]
  simp [registration]

end

/-- The register as a `ProUpRegTx` finds it: another masternode has the key. -/
def Registry.HeldByOther (reg : Registry) (h : Uint256) (k : CBLSPublicKey) : Prop :=
  ∃ h' r, h' ≠ h ∧ reg h' = some r ∧ r.operatorKey = k

/-- Giving a masternode another one's operator key trips the assert of `AddUniqueProperty`. -/
theorem processProUpRegTx_assert (hinj : Injective env.serializeHash)
    (hwf : WellFormed env l) {p : CProUpRegTx} (hp : tx.getProUpRegTx = some p)
    (hkey : p.pubKeyOperator.isValid = true) (nHeight : Int)
    (hpresent : (l.registry p.proTxHash).isSome = true)
    (hheld : l.registry.HeldByOther p.proTxHash p.pubKeyOperator) :
    processProUpRegTx env nHeight l tx = .error .assert := by
  obtain ⟨r, hr⟩ := isSome_iff_exists.mp hpresent
  obtain ⟨dmn, hget, rfl⟩ := registry_eq_some.mp hr
  obtain ⟨h', r', hne, hr', hk⟩ := hheld
  obtain ⟨d, hd, rfl⟩ := registry_eq_some.mp hr'
  unfold processProUpRegTx
  rw [hp]
  simp only [deref, ok_bind, getMN, hget, orReject]
  refine (hwf.indexed.updateMN_decides hget).eq_error fun hunshared => hne ?_
  rw [unshared_iff hinj] at hunshared
  rw [← hwf.indexed.keyed _ _ hget]
  exact hunshared (.pubKey p.pubKeyOperator)
    (by simpa [isNull] using CBLSPublicKey.isValid_iff.mp hkey) rfl h' d hd hk

theorem processProUpRegTx_sim (hinj : Injective env.serializeHash)
    (hwf : WellFormed env l) {p : CProUpRegTx} (hp : tx.getProUpRegTx = some p) (nHeight : Int)
    (hfree : (l.registry p.proTxHash).isSome = true →
      ¬l.registry.HeldByOther p.proTxHash p.pubKeyOperator) :
    Simulates env (processProUpRegTx env nHeight l tx)
      (l.registry.setOperator p.proTxHash p.pubKeyOperator) := by
  unfold processProUpRegTx
  rw [hp]
  refine updateMN_sim hwf (updRegState nHeight p)
    (fun hnone => by simp [setOperator, hnone]) fun dmn hget => ⟨by simp, ?_, ?_⟩
  · refine unshared_of_free hinj hwf hget (by simp) ?_ fun _ o d hd hdk => ?_
    · rw [updRegState_addr]
      split
      · intro hnull o d hd hda
        exact has_unique hinj hwf.indexed (v := .service _) (by simpa [isNull] using hnull) hd hget
          hda rfl
      · intro hnull
        exact absurd rfl hnull
    · by_contra hne
      exact hfree (by rw [registry_of_getElem? hget]; rfl)
        ⟨o, d.registration, hne, registry_of_getElem? hd, hdk⟩
  · rw [setOperator, registry_of_getElem? hget, map_some]
    by_cases hsame : dmn.pdmnState.pubKeyOperator = p.pubKeyOperator
    · simp [registration, hsame, updRegState_addr]
    · simp [registration, hsame, updRegState_addr]

/-! ### Registrations -/

/-- After `removeReplaced` the members are those on other collaterals. -/
theorem removeReplaced_ok (hinj : Injective env.serializeHash) (hwf : WellFormed env l)
    (c : COutPoint) :
    ∃ l₁, removeReplaced env l c = .ok l₁ ∧ WellFormed env l₁ ∧
      ∀ h : Uint256, l₁.mnMap[h]? =
        (l.mnMap[h]?).filter fun d : CDeterministicMN => d.collateralOutpoint ≠ c := by
  have hkeep : ∀ h : Uint256, (∀ d : CDeterministicMN, l.mnMap[h]? = some d →
      d.collateralOutpoint ≠ c) → l.mnMap[h]? =
        (l.mnMap[h]?).filter fun d : CDeterministicMN => d.collateralOutpoint ≠ c := by
    intro h hne
    cases hd : l.mnMap[h]? with
    | none => rfl
    | some d => exact (if_pos (decide_eq_true (hne d hd))).symm
  unfold removeReplaced getMNByCollateral
  cases hget : l.getUniquePropertyMN env.serializeHash (.outpoint c) with
  | none =>
    refine ⟨l, rfl, hwf, fun h => hkeep h fun d hd heq => ?_⟩
    have hnull : (outpoint c).isNull = false := by
      simpa [isNull, ← heq] using (hwf.owned _ _ hd).collateral
    cases hget.symm.trans ((getUniquePropertyMN_iff hinj hwf.indexed).mpr
      ⟨by rw [hwf.indexed.keyed _ _ hd]; exact hd, hnull, heq⟩)
  | some d =>
    obtain ⟨hd, hnull, hdc⟩ := (getUniquePropertyMN_iff hinj hwf.indexed).mp hget
    obtain ⟨l₁, hok, hl₁⟩ := (hwf.indexed.removeMN_decides hd).exists_ok (hwf.owned _ _ hd)
    refine ⟨l₁, hok, hwf.erase hl₁, fun h => ?_⟩
    rw [hl₁.mnMap, getElem?_erase]
    by_cases hh : d.proTxHash = h
    · subst hh
      simp [hd, Option.filter, show d.collateralOutpoint = c from hdc]
    · rw [if_neg (by simpa using hh)]
      exact hkeep h fun d' hd' heq => hh (has_unique hinj hwf.indexed hnull hd hd' hdc heq)

/-- The register has none of them left on the collateral either. -/
theorem registry_withoutCollateral {l₁ : CDeterministicMNList} {c : COutPoint}
    (hmap : ∀ h : Uint256, l₁.mnMap[h]? =
        (l.mnMap[h]?).filter fun d : CDeterministicMN => d.collateralOutpoint ≠ c) :
    l₁.registry = l.registry.withoutCollateral c := by
  funext h
  unfold withoutCollateral registry
  rw [hmap h]
  cases l.mnMap[h]? with
  | none => rfl
  | some d =>
    by_cases hc : d.collateralOutpoint = c
    · simp [Option.filter, registration, hc]
    · simp [Option.filter, registration, hc]

theorem proRegCollateral_ne_null (h : ProRegChecked env lists pindexPrev tx p) :
    proRegCollateral env tx p ≠ .null := by
  unfold proRegCollateral COutPoint.null
  split
  · next hnull =>
      have hindex := h.index hnull
      have hsize := tx.vout_size
      intro heq
      simp only [COutPoint.mk.injEq] at heq
      unfold maxSize at hsize
      omega
  · next hext =>
      intro heq
      exact hext (by rw [heq])

section

variable (hinj : Injective env.serializeHash)

include hinj

/-- The checks of the `ProRegTx` branch find exactly the conflicts. -/
theorem conflicts_iff (hwf : WellFormed env l) (howner : p.keyIDOwner ≠ 0)
    (hkey : p.pubKeyOperator.isValid = true) (c : COutPoint) :
    l.registry.Conflicts ⟨c, p.addr, p.keyIDOwner, p.pubKeyOperator⟩ ↔
      l.hasUniqueProperty env.serializeHash (.service p.addr) = true ∨
      l.hasUniqueProperty env.serializeHash (.keyID p.keyIDOwner) = true ∨
      l.hasUniqueProperty env.serializeHash (.pubKey p.pubKeyOperator) = true := by
  have hkeyNull : (pubKey p.pubKeyOperator).isNull = false := by
    simpa [isNull] using CBLSPublicKey.isValid_iff.mp hkey
  have hownerNull : (keyID p.keyIDOwner).isNull = false := by
    simpa [isNull] using howner
  simp only [hasUniqueProperty_iff_exists hinj hwf.indexed, hkeyNull, hownerNull, true_and]
  constructor
  · rintro ⟨h, r, hr, hconf⟩
    obtain ⟨d, hd, rfl⟩ := registry_eq_some.mp hr
    rcases hconf with ⟨hnull, ha⟩ | ho | hk
    · exact .inl ⟨by simpa [isNull] using hnull, h, d, hd, ha⟩
    · exact .inr (.inl ⟨h, d, hd, ho⟩)
    · exact .inr (.inr ⟨h, d, hd, hk⟩)
  · rintro (⟨hnull, h, d, hd, ha⟩ | ⟨h, d, hd, ho⟩ | ⟨h, d, hd, hk⟩)
    · exact ⟨h, _, registry_of_getElem? hd,
        .inl ⟨by simpa [isNull] using hnull, ha⟩⟩
    · exact ⟨h, _, registry_of_getElem? hd, .inr (.inl ho)⟩
    · exact ⟨h, _, registry_of_getElem? hd, .inr (.inr hk)⟩

/-- A masternode that conflicts with no one is added. -/
theorem addNewMN_ok (htx : Injective env.txHash) (hwf : WellFormed env l)
    (hp : ProRegChecked env lists pindexPrev tx p)
    (hcoll : ∀ (o : Uint256) (d : CDeterministicMN), l.mnMap[o]? = some d →
      d.collateralOutpoint ≠ proRegCollateral env tx p)
    (hconf : ¬l.registry.Conflicts
      ⟨proRegCollateral env tx p, p.addr, p.keyIDOwner, p.pubKeyOperator⟩)
    (id : Nat) (nHeight : Int) :
    ∃ l', l.addMN env.serializeHash (newMN env tx p id nHeight) = .ok l' ∧ WellFormed env l' ∧
      l'.registry = update l.registry (env.txHash tx)
        (some ⟨proRegCollateral env tx p, p.addr, p.keyIDOwner, p.pubKeyOperator⟩) := by
  have howned : (newMN env tx p id nHeight).Owned := ⟨proRegCollateral_ne_null hp, hp.owner⟩
  have hnew : l.mnMap[env.txHash tx]? = none := by
    cases hm : l.mnMap[env.txHash tx]? with
    | none => rfl
    | some d => exact absurd (hwf.origin d tx p hm hp.payload).1 (hcoll _ _ hm)
  have hfree : l.Unshared env.serializeHash (newMN env tx p id nHeight) := by
    rw [unshared_iff hinj]
    intro v hnull hv o d hd hdv
    exfalso
    cases v with
    | outpoint v => exact hcoll o d hd (Eq.trans hdv (Eq.symm hv))
    | service v =>
      have hv : p.addr = v := hv
      have hdv : d.pdmnState.addr = v := hdv
      refine hconf ⟨o, _, registry_of_getElem? hd, .inl ⟨?_, hdv.trans hv.symm⟩⟩
      rw [hv]
      simpa [isNull] using hnull
    | keyID v =>
      have hv : p.keyIDOwner = v := hv
      exact hconf ⟨o, _, registry_of_getElem? hd, .inr (.inl (Eq.trans hdv hv.symm))⟩
    | pubKey v =>
      have hv : p.pubKeyOperator = v := hv
      exact hconf ⟨o, _, registry_of_getElem? hd, .inr (.inr (Eq.trans hdv hv.symm))⟩
  obtain ⟨l', hok, hl'⟩ := hwf.indexed.addMN_decides.exists_ok ⟨hnew, howned, hfree⟩
  refine ⟨l', hok, hwf.insert howned ?_ hl', registry_insert hl'.mnMap⟩
  intro tx' p' htx' hp'
  have heq : tx' = tx := htx htx'
  subst heq
  rw [hp.payload, some.injEq] at hp'
  subst hp'
  exact ⟨rfl, rfl⟩

theorem processProRegTx_sim (htx : Injective env.txHash) (hwf : WellFormed env l)
    (hp : ProRegChecked env lists pindexPrev tx p) (nHeight : Int) :
    Simulates env (processProRegTx env pindexPrev nHeight l tx)
      (l.registry.register (env.txHash tx)
        ⟨proRegCollateral env tx p, p.addr, p.keyIDOwner, p.pubKeyOperator⟩) := by
  have hcoin : ¬(p.collateralOutpoint.hash ≠ 0 ∧
      ((env.getUTXOCoin pindexPrev (proRegCollateral env tx p)).all fun c =>
        c.out.nValue != 2500 * coin) = true) := by
    rintro ⟨hext, hall⟩
    obtain ⟨c, hc, hvalue⟩ := hp.coin hext
    rw [proRegCollateral, if_neg hext, hc] at hall
    simp [hvalue] at hall
  have hwf₀ : WellFormed env (l.setTotalRegisteredCount (l.nTotalRegisteredCount + 1)) :=
    hwf.of_maps rfl rfl
  obtain ⟨l₁, hremove, hwf₁, hmap⟩ := removeReplaced_ok hinj hwf₀ (proRegCollateral env tx p)
  have hreg₁ : l₁.registry = l.registry.withoutCollateral (proRegCollateral env tx p) :=
    registry_withoutCollateral hmap
  have hcoll : ∀ (o : Uint256) (d : CDeterministicMN), l₁.mnMap[o]? = some d →
      d.collateralOutpoint ≠ proRegCollateral env tx p := by
    intro o d hd
    rw [hmap] at hd
    simpa using (Option.filter_eq_some_iff.mp hd).2
  unfold processProRegTx
  rw [hp.payload]
  simp only [deref, ok_bind]
  rw [rejectIf, if_neg hcoin, ok_bind, hremove, ok_bind]
  unfold register
  rw [← hreg₁]
  have hconf := conflicts_iff hinj hwf₁ hp.owner hp.operator (proRegCollateral env tx p)
  by_cases haddr : l₁.hasUniqueProperty env.serializeHash (.service p.addr) = true
  · rw [if_pos (hconf.mpr (.inl haddr)), rejectIf, if_pos haddr]
    exact .inl ⟨rfl, _, _, _, rfl⟩
  · rw [rejectIf, if_neg haddr, ok_bind]
    by_cases hkeys : l₁.hasUniqueProperty env.serializeHash (.keyID p.keyIDOwner) = true ∨
        l₁.hasUniqueProperty env.serializeHash (.pubKey p.pubKeyOperator) = true
    · rw [if_pos (hconf.mpr (.inr hkeys)), rejectIf, if_pos hkeys]
      exact .inl ⟨rfl, _, _, _, rfl⟩
    · have hnone : ¬l₁.registry.Conflicts
          ⟨proRegCollateral env tx p, p.addr, p.keyIDOwner, p.pubKeyOperator⟩ := by
        rw [hconf]
        exact not_or.mpr ⟨haddr, hkeys⟩
      rw [if_neg hnone, rejectIf, if_neg hkeys, ok_bind]
      obtain ⟨l', hok, hwf', hreg'⟩ := addNewMN_ok hinj htx hwf₁ hp hcoll hnone
        l.nTotalRegisteredCount nHeight
      exact .inr ⟨l', hok, hwf', by rw [hreg']⟩

end

/-! ### Commitments -/

/-- The list may have changed, but not in what the register keeps. -/
structure SameRegistry (env : Env) (reg : Registry) (l : CDeterministicMNList) : Prop where
  wellFormed : WellFormed env l
  registry : l.registry = reg

theorem calcPenalty_ok (l : CDeterministicMNList) :
    ∃ penalty, l.calcPenalty 66 = .ok penalty ∧ 0 < penalty := by
  refine ⟨(l.calcMaxPoSePenalty * 66).tdiv 100, rfl, ?_⟩
  have hmax : 100 ≤ l.calcMaxPoSePenalty := le_max_left _ _
  rw [Int.tdiv_eq_ediv_of_nonneg (by omega)]
  omega

theorem punishMember_ok {reg : Registry} (h : SameRegistry env reg l) (p : CDeterministicMN × Bool) :
    ∃ l', punishMember env l p = .ok l' ∧ SameRegistry env reg l' := by
  unfold punishMember
  split
  · next hp =>
      obtain ⟨penalty, hpenalty, hpos⟩ := calcPenalty_ok l
      obtain ⟨dmn, hget⟩ := isSome_iff_exists.mp hp.1
      obtain ⟨l', hok, hwf', hreg⟩ := h.wellFormed.updateMN_same
        (s := l.punishedState dmn.pdmnState penalty) hget (by simp) (by simp) (by simp)
      refine ⟨l', ?_, hwf', hreg.trans h.registry⟩
      rw [hpenalty, ok_bind]
      exact poSePunish_eq_ok.mpr ⟨hpos, dmn, hget, hok⟩
  · exact ⟨l, rfl, h⟩

theorem calculateQuorum_length_le (sha256 : Uint256 → Uint256 → Uint256) (l : CDeterministicMNList)
    (maxSize : Nat) (modifier : Uint256) :
    (l.calculateQuorum sha256 maxSize modifier).length ≤ maxSize := by
  unfold calculateQuorum
  rw [length_take]
  exact min_le_left _ _

theorem handleQuorumCommitment_ok {reg : Registry} (h : SameRegistry env reg l)
    {qc : CFinalCommitment} {params : LLMQParams} (htype : env.llmqs qc.llmqType = some params)
    (hsize : qc.validMembers.length = params.size) (pindexQuorum : CBlockIndex) :
    ∃ l', handleQuorumCommitment env lists qc pindexQuorum l = .ok l' ∧
      SameRegistry env reg l' := by
  unfold handleQuorumCommitment getAllQuorumMembers
  simp only [htype, deref, ok_bind, pure_bind]
  rw [assertThat, if_pos (by rw [hsize]; exact calculateQuorum_length_le _ _ _ _), ok_bind]
  exact foldlM_ok (SameRegistry env reg) _ l (fun p _ t ht => punishMember_ok ht p) h

theorem processCommitment_sim (hwf : WellFormed env l) {qc : CFinalCommitmentTxPayload}
    {params : LLMQParams} (hqc : CommitmentChecked env tx qc params) :
    (CommitmentRefused env pindexPrev qc ∧ ∃ level code reason,
      processCommitment env lists pindexPrev l tx = .error (.reject level code reason)) ∨
    (¬CommitmentRefused env pindexPrev qc ∧ ∃ l',
      processCommitment env lists pindexPrev l tx = .ok l' ∧ SameRegistry env l.registry l') := by
  unfold processCommitment Registry.CommitmentRefused
  simp only [hqc.payload, deref, ok_bind, hqc.type, some.injEq, forall_eq']
  by_cases hnull : qc.commitment.isNull = true
  · refine .inr ⟨by simp [hnull], l, by simp [hnull], hwf, rfl⟩
  · have hnull' : qc.commitment.isNull = false := by simpa using hnull
    simp only [hnull', Bool.false_eq_true, if_false, true_and]
    cases hanc : pindexPrev.getAncestor (qc.nHeight - qc.nHeight % params.dkgInterval : Nat) with
    | none => exact .inl ⟨by simp, _, _, _, rfl⟩
    | some quorumIndex =>
      simp only [orReject, ok_bind, map_some, ne_eq, some.injEq]
      by_cases hhash : quorumIndex.getBlockHash = qc.commitment.quorumHash
      · rw [rejectIf, if_neg (by simpa using hhash), ok_bind]
        exact .inr ⟨by simpa using hhash, handleQuorumCommitment_ok ⟨hwf, rfl⟩ hqc.type
          (hqc.size hnull') quorumIndex⟩
      · rw [rejectIf, if_pos hhash]
        exact .inl ⟨hhash, _, _, _, rfl⟩

/-! ### Registrations are new -/

section

variable (hinj : Injective env.serializeHash)

include hinj

theorem not_has_of_fresh (hidx : l.Indexed env.serializeHash) {v : UniqueProperty}
    (hnull : v.isNull = false) (hfresh : l.hasUniqueProperty env.serializeHash v = false)
    {a : CDeterministicMN} (ha : l.mnMap[h]? = some a) : ¬a.Has v := by
  intro hhas
  rw [(hasUniqueProperty_iff_exists hinj hidx).mpr ⟨hnull, h, a, ha, hhas⟩] at hfresh
  simp at hfresh

theorem ProRegChecked.owner_ne (hidx : (lists pindexPrev).Indexed env.serializeHash)
    (hp : ProRegChecked env lists pindexPrev tx p) {a : CDeterministicMN}
    (ha : (lists pindexPrev).mnMap[h]? = some a) : a.pdmnState.keyIDOwner ≠ p.keyIDOwner := by
  have hnull : (keyID p.keyIDOwner).isNull = false := by
    simpa [isNull] using hp.owner
  exact not_has_of_fresh hinj hidx hnull hp.ownerFresh ha

/-- A checked `ProRegTx` is not registered already: its owner key would be taken. -/
theorem ProRegChecked.absent (hwf : WellFormed env (lists pindexPrev))
    (hp : ProRegChecked env lists pindexPrev tx p) :
    (lists pindexPrev).mnMap[env.txHash tx]? = none := by
  cases ha : (lists pindexPrev).mnMap[env.txHash tx]? with
  | none => rfl
  | some a =>
    exact absurd (hwf.origin a tx p ha hp.payload).2 (hp.owner_ne hinj hwf.indexed ha)

theorem TxChecked.absent (hwf : WellFormed env (lists pindexPrev))
    (h : TxChecked env lists pindexPrev tx)
    (hspecial : ¬ (tx.nVersion ≠ 3 ∨ tx.nType = .normal ∨ tx.nType = .coinbase))
    (hp : tx.getProRegTx = some p) : (lists pindexPrev).mnMap[env.txHash tx]? = none := by
  rw [getProRegTx_eq_some] at hp
  cases h with
  | plain hplain => exact absurd hplain hspecial
  | register _ _ _ hchecked => exact hchecked.absent hinj hwf
  | updateService _ _ _ hchecked =>
    have hpayload := getProUpServTx_eq_some.mp hchecked.payload
    simp [hp] at hpayload
  | updateRegistrar _ _ _ hchecked =>
    have hpayload := getProUpRegTx_eq_some.mp hchecked.payload
    simp [hp] at hpayload
  | revoke _ _ _ hchecked =>
    have hpayload := getProUpRevTx_eq_some.mp hchecked.payload
    simp [hp] at hpayload
  | commitment _ _ _ _ hchecked =>
    have hpayload := getCommitment_eq_some.mp hchecked.payload
    simp [hp] at hpayload

end

end Absolute
