/-
When the difference that `ProcessBlock` stores can be replayed.

The counter of registrations goes up with every `ProRegTx`, while the difference only has
the masternodes that are still there at the end of the block.  As long as every masternode
that a block registers survives the block, the two agree, and the list is rebuilt from the
one before it.
-/
import AbsoluteCore.Spec.Chain
import AbsoluteCore.Proofs.Evo.ListDiff
import AbsoluteCore.Proofs.Evo.BlockEvents
import AbsoluteCore.Proofs.Evo.NewList
import AbsoluteCore.Proofs.Evo.ListHeader

namespace Absolute

open Fallible Lts CDeterministicMNList List Function Option Except UniqueProperty CDeterministicMN
  Std.ExtTreeMap Chain.Connect ListEvent MapTotal Chain Nat

variable {env : Env} {lists : CBlockIndex → CDeterministicMNList} {pindexPrev : CBlockIndex}
  {tx : CTransaction} {A l l' : CDeterministicMNList} {nHeight : Int} {e : ListEvent}
  {done : List COutPoint}
variable {d : CDeterministicMN} {h : Uint256} {p : CProRegTx} {reserved : Nat}
  {f : CDeterministicMNState → CDeterministicMNState}

/-! ### Members of the evolving list -/

/-- A masternode of the old list that is still there; what it has, no other one had. -/
structure Kept (A : CDeterministicMNList) (h : Uint256) (d : CDeterministicMN) : Prop where
  fixed : ∃ a : CDeterministicMN, A.mnMap[h]? = some a ∧ d.internalId = a.internalId ∧
    d.collateralOutpoint = a.collateralOutpoint ∧ d.nOperatorReward = a.nOperatorReward
  own : ∀ v : UniqueProperty, v.isNull = false → d.Has v → ∀ (h' : Uint256) (a : CDeterministicMN),
    A.mnMap[h']? = some a → a.Has v → h' = h

/--
A masternode that the block registered on one of the collaterals in `done`.  What it has, at most
the masternode that it replaced had.
-/
structure Fresh (A : CDeterministicMNList) (done : List COutPoint) (h : Uint256)
    (d : CDeterministicMN) : Prop where
  absent : A.mnMap[h]? = none
  id : A.nTotalRegisteredCount ≤ d.internalId
  collateral : d.collateralOutpoint ∈ done
  own : ∀ v : UniqueProperty, v.isNull = false → d.Has v → ∀ (h' : Uint256) (a : CDeterministicMN),
    A.mnMap[h']? = some a → a.Has v → a.collateralOutpoint = d.collateralOutpoint

/--
The evolving list when masternodes on the collaterals in `done` have been registered: each
of them is still there, with the ids that were handed out.  `reserved` ids have been taken
for masternodes that are not in the list yet.
-/
structure Descends (env : Env) (A : CDeterministicMNList) (done : List COutPoint) (reserved : Nat)
    (l : CDeterministicMNList) : Prop where
  wellFormed : WellFormed env l
  idsExact : l.IdsExact
  count : l.nTotalRegisteredCount = A.nTotalRegisteredCount + done.length + reserved
  member : ∀ (h : Uint256) (d : CDeterministicMN), l.mnMap[h]? = some d →
    d.internalId < A.nTotalRegisteredCount + done.length ∧ (Kept A h d ∨ Fresh A done h d)
  complete : ∀ id : Nat, A.nTotalRegisteredCount ≤ id →
    id < A.nTotalRegisteredCount + done.length → ∃ (h : Uint256) (d : CDeterministicMN),
      l.mnMap[h]? = some d ∧ A.mnMap[h]? = none ∧ d.internalId = id

theorem Kept.ne_none (hd : Kept A h d) : A.mnMap[h]? ≠ none := by
  obtain ⟨a, ha, -⟩ := hd.fixed
  simp [ha]

/-- A new state, each property of which the masternode had before, or no other one had. -/
theorem Kept.write {s : CDeterministicMNState} (hd : Kept A h d)
    (hown : ∀ v : UniqueProperty, v.isNull = false →
      ({ d with pdmnState := s } : CDeterministicMN).Has v → d.Has v ∨
        ∀ (h' : Uint256) (a : CDeterministicMN), A.mnMap[h']? = some a → a.Has v → h' = h) :
    Kept A h { d with pdmnState := s } := by
  refine ⟨hd.fixed, fun v hnull hv h' a ha hav => ?_⟩
  rcases hown v hnull hv with hold | hnew
  · exact hd.own v hnull hold h' a ha hav
  · exact hnew h' a ha hav

/-! ### Writes and removals -/

/-- What an event that registers no one has to respect. -/
inductive Harmless (env : Env) (nHeight : Int) (A : CDeterministicMNList) (done : List COutPoint)
    (l : CDeterministicMNList) (e : ListEvent) : Prop
  | write {h : Uint256} {f : CDeterministicMNState → CDeterministicMNState}
      (hwrite : e.write env nHeight l = some (h, f))
      (hmember : ∀ d, Kept A h d ∨ Fresh A done h d →
        Kept A h { d with pdmnState := f d.pdmnState } ∨
          Fresh A done h { d with pdmnState := f d.pdmnState })
  | drop {h : Uint256} (he : e = .drop h)
      (hnew : ∀ d : CDeterministicMN, l.mnMap[h]? = some d → d.collateralOutpoint ∉ done)

theorem Descends.step (htx : Injective env.txHash)
    (hl : Descends env A done reserved l) (hstep : ListStep env nHeight l e l')
    (he : Harmless env nHeight A done l e) : Descends env A done reserved l' := by
  have hidx := hl.wellFormed.indexed
  have hkind : e ≠ .reserveId ∧ ∀ tx p id, e ≠ .add tx p id := by
    constructor
    · rintro rfl
      rcases he with ⟨hwrite, -⟩ | ⟨heq, -⟩
      · cases hwrite
      · cases heq
    · rintro tx p id rfl
      rcases he with ⟨hwrite, -⟩ | ⟨heq, -⟩
      · cases hwrite
      · cases heq
  have hwf := hstep.wellFormed htx (fun tx p id heq => absurd heq (hkind.2 tx p id)) hl.wellFormed
  cases hstep with
  | reserveId => exact absurd rfl hkind.1
  | add _ => exact absurd rfl (hkind.2 _ _ _)
  | @write _ _ h d _ hwrite hd hok =>
    rcases he with ⟨hwrite', hmember⟩ | ⟨rfl, -⟩
    swap
    · cases hwrite
    obtain ⟨rfl, rfl⟩ := Prod.mk.inj (some.inj (hwrite.symm.trans hwrite'))
    obtain ⟨d', hsame, -, hl'⟩ := hidx.updateMN_inv hok
    obtain rfl := some.inj (hd.symm.trans hsame)
    refine ⟨hwf, hl.idsExact.updateMN hidx hok, hl'.nTotalRegisteredCount.trans hl.count, ?_, ?_⟩
    · intro o d' hd'
      rw [hl'.mnMap] at hd'
      rcases insert_eq_some.mp hd' with ⟨rfl, rfl⟩ | ⟨-, hd'⟩
      · exact ⟨(hl.member _ _ hd).1, hmember _ (hl.member _ _ hd).2⟩
      · exact hl.member _ _ hd'
    · intro id hle hlt
      obtain ⟨o, d', hd', habsent, hid⟩ := hl.complete id hle hlt
      rw [hl'.mnMap]
      by_cases ho : o = h
      · subst ho
        obtain rfl := some.inj (hd.symm.trans hd')
        exact ⟨_, _, getElem?_insert_self, habsent, hid⟩
      · exact ⟨o, d', insert_eq_some.mpr (.inr ⟨ho, hd'⟩), habsent, hid⟩
  | drop hok =>
    rcases he with ⟨hwrite, -⟩ | ⟨heq, hnew⟩
    · cases hwrite
    obtain rfl := drop.inj heq
    obtain ⟨d, hd, -, hl'⟩ := hidx.removeMN_inv hok
    refine ⟨hwf, hl.idsExact.removeMN hok, hl'.nTotalRegisteredCount.trans hl.count, ?_, ?_⟩
    · intro o d' hd'
      rw [hl'.mnMap] at hd'
      exact hl.member _ _ (erase_eq_some.mp hd').2
    · intro id hle hlt
      obtain ⟨o, d', hd', habsent, hid⟩ := hl.complete id hle hlt
      rw [hl'.mnMap]
      refine ⟨o, d', erase_eq_some.mpr ⟨?_, hd'⟩, habsent, hid⟩
      rintro rfl
      rcases (hl.member o d' hd').2 with hkept | hfresh
      · exact hkept.ne_none habsent
      · exact hnew d' hd' hfresh.collateral

/-- An event that changes neither an address nor a key. -/
theorem harmless_of_same (hwrite : e.write env nHeight l = some (h, f))
    (hsame : ∀ s, (f s).addr = s.addr ∧ (f s).pubKeyOperator = s.pubKeyOperator) :
    Harmless env nHeight A done l e := by
  refine .write hwrite fun d hd => ?_
  have hhas : ∀ v : UniqueProperty,
      ({ d with pdmnState := f d.pdmnState } : CDeterministicMN).Has v → d.Has v := by
    intro v hv
    cases v with
    | outpoint _ => exact hv
    | service _ => exact (hsame d.pdmnState).1.symm.trans hv
    | keyID _ => exact (write_keyIDOwner hwrite d.pdmnState).symm.trans hv
    | pubKey _ => exact (hsame d.pdmnState).2.symm.trans hv
  rcases hd with hkept | hfresh
  · exact .inl (hkept.write fun v _ hv => .inl (hhas v hv))
  · exact .inr { hfresh with own := fun v hnull hv => hfresh.own v hnull (hhas v hv) }

/-- An event that writes a masternode of the old list. -/
theorem harmless_of_kept {a : CDeterministicMN}
    (hwrite : e.write env nHeight l = some (h, f)) (ha : A.getMN h = some a)
    (hmember : ∀ d, Kept A h d → Kept A h { d with pdmnState := f d.pdmnState }) :
    Harmless env nHeight A done l e := by
  refine .write hwrite fun d hd => ?_
  rcases hd with hkept | hfresh
  · exact .inl (hmember d hkept)
  · rw [getMN, hfresh.absent] at ha
    cases ha

theorem harmless_preparation (hemit : Emitted env pindexPrev A .preparation l e) :
    Harmless env nHeight A done l e := by
  cases hemit with
  | confirm _ _ => exact harmless_of_same rfl fun _ => ⟨rfl, rfl⟩
  | decrease _ _ _ => exact harmless_of_same rfl fun _ => ⟨rfl, rfl⟩

theorem harmless_payment (hemit : Emitted env pindexPrev A .payment l e) :
    Harmless env nHeight A done l e := by
  cases hemit with
  | pay _ => exact harmless_of_same rfl fun _ => ⟨rfl, rfl⟩

theorem harmless_spending {prevout : COutPoint} (hnew : prevout ∉ done)
    (hemit : Emitted env pindexPrev A (.spending prevout) l e) : Harmless env nHeight A done l e := by
  cases hemit with
  | spend hm =>
    refine .drop rfl fun d hd => ?_
    rw [hm, some.injEq] at hd
    exact hd ▸ hnew

/-! ### Transactions that register no one -/

section

variable (hinj : Injective env.serializeHash)

include hinj

theorem checked_of_has (hA : A.Indexed env.serializeHash) {v : UniqueProperty}
    {P : CDeterministicMN → Prop}
    (hcheck : A.hasUniqueProperty env.serializeHash v = true →
      ∃ dmn, A.getUniquePropertyMN env.serializeHash v = some dmn ∧ P dmn)
    (hnull : v.isNull = false) {a : CDeterministicMN} (ha : A.mnMap[h]? = some a) (hhas : a.Has v) :
    P a := by
  obtain ⟨dmn, hget, hP⟩ := hcheck
    ((hasUniqueProperty_iff_exists hinj hA).mpr ⟨hnull, h, a, ha, hhas⟩)
  have hself : A.getUniquePropertyMN env.serializeHash v = some a :=
    (getUniquePropertyMN_iff hinj hA).mpr ⟨by rw [hA.keyed h a ha]; exact ha, hnull, hhas⟩
  rw [hself, some.injEq] at hget
  exact hget ▸ hP

theorem harmless_updateService (hA : (lists pindexPrev).Indexed env.serializeHash)
    {p : CProUpServTx} (hp : ProUpServChecked env lists pindexPrev tx p) :
    Harmless env nHeight (lists pindexPrev) done l (.updateService p) := by
  obtain ⟨dmn, hdmn, -⟩ := hp.signed
  refine harmless_of_kept rfl hdmn fun d hkept => hkept.write fun v hnull hv => ?_
  cases v with
  | outpoint _ => exact .inl hv
  | keyID _ => exact .inl (by simpa [CDeterministicMN.Has] using hv)
  | pubKey _ => exact .inl (by simpa [CDeterministicMN.Has] using hv)
  | service addr =>
    obtain rfl : p.addr = addr := by simpa [CDeterministicMN.Has] using hv
    refine .inr fun h' a ha hav => ?_
    rw [← hA.keyed h' a ha]
    exact checked_of_has hinj hA (P := fun dmn => dmn.proTxHash = p.proTxHash) hp.addr hnull ha hav

theorem harmless_updateRegistrar (hA : (lists pindexPrev).Indexed env.serializeHash)
    {p : CProUpRegTx} (hp : ProUpRegChecked env lists pindexPrev tx p) :
    Harmless env nHeight (lists pindexPrev) done l (.updateRegistrar p) := by
  obtain ⟨dmn, hdmn⟩ := hp.present
  refine harmless_of_kept rfl hdmn fun d hkept => hkept.write fun v hnull hv => ?_
  cases v with
  | outpoint _ => exact .inl hv
  | keyID _ => exact .inl (by simpa [CDeterministicMN.Has] using hv)
  | service addr =>
    have hv : (updRegState nHeight p d.pdmnState).addr = addr := hv
    rw [updRegState_addr] at hv
    split at hv
    · exact .inl hv
    · simp [isNull, ← hv] at hnull
  | pubKey key =>
    obtain rfl : p.pubKeyOperator = key := by simpa [CDeterministicMN.Has] using hv
    refine .inr fun h' a ha hav => ?_
    rw [← hA.keyed h' a ha]
    exact checked_of_has hinj hA (P := fun dmn => dmn.proTxHash = p.proTxHash) hp.operatorOwn hnull
      ha hav

end

theorem harmless_revoke {p : CProUpRevTx} (hp : ProUpRevChecked env lists pindexPrev tx p) :
    Harmless env nHeight (lists pindexPrev) done l (.revoke p) := by
  obtain ⟨dmn, hdmn, -⟩ := hp.signed
  refine harmless_of_kept rfl hdmn fun d hkept => hkept.write fun v hnull hv => ?_
  cases v with
  | outpoint _ => exact .inl hv
  | keyID _ => exact .inl (by simpa [CDeterministicMN.Has] using hv)
  | service _ => simp_all [CDeterministicMN.Has, isNull]
  | pubKey _ => simp_all [CDeterministicMN.Has, isNull]

theorem harmless_punish {penalty : Int} : Harmless env nHeight A done l (.punish h penalty) :=
  harmless_of_same rfl fun _ => by simp

theorem Descends.run (htx : Injective env.txHash) {source : EventSource}
    (hl : Descends env (lists pindexPrev) done reserved l)
    (hharmless : ∀ l e, Emitted env pindexPrev (lists pindexPrev) source l e →
      Harmless env (pindexPrev.nHeight + 1) (lists pindexPrev) done l e)
    {tr : List (CDeterministicMNList × ListEvent × CDeterministicMNList)}
    (hrun : Run (StepFrom env lists pindexPrev source) l tr l') :
    Descends env (lists pindexPrev) done reserved l' :=
  (hrun.invariant (Descends env (lists pindexPrev) done reserved)
    (fun l e _ hl hs => hl.step htx hs.2 (hharmless l e hs.1)) hl).1

/-- What has been checked of the payload of a transaction that is no `ProRegTx`. -/
def PayloadChecked (env : Env) (lists : CBlockIndex → CDeterministicMNList)
    (pindexPrev : CBlockIndex) (tx : CTransaction) : TxPayload → Prop
  | .proReg _ => False
  | .proUpServ p => ProUpServChecked env lists pindexPrev tx p
  | .proUpReg p => ProUpRegChecked env lists pindexPrev tx p
  | .proUpRev p => ProUpRevChecked env lists pindexPrev tx p
  | _ => True

theorem harmless_transaction (hinj : Injective env.serializeHash)
    (hA : (lists pindexPrev).Indexed env.serializeHash)
    (hemit : Emitted env pindexPrev (lists pindexPrev) (.transaction tx) l e)
    (hchecked : PayloadChecked env lists pindexPrev tx tx.vExtraPayload) :
    Harmless env nHeight (lists pindexPrev) done l e := by
  cases hemit with
  | reserveId hpayload =>
    rw [getProRegTx_eq_some.mp hpayload] at hchecked
    exact hchecked.elim
  | replace hpayload _ _ =>
    rw [getProRegTx_eq_some.mp hpayload] at hchecked
    exact hchecked.elim
  | add hpayload _ =>
    rw [getProRegTx_eq_some.mp hpayload] at hchecked
    exact hchecked.elim
  | updateService hpayload =>
    rw [getProUpServTx_eq_some.mp hpayload] at hchecked
    exact harmless_updateService hinj hA hchecked
  | updateRegistrar hpayload =>
    rw [getProUpRegTx_eq_some.mp hpayload] at hchecked
    exact harmless_updateRegistrar hinj hA hchecked
  | revoke hpayload =>
    rw [getProUpRevTx_eq_some.mp hpayload] at hchecked
    exact harmless_revoke hchecked
  | punish _ _ => exact harmless_punish

/-! ### Registrations -/

theorem Descends.reserveId (hl : Descends env A done 0 l)
    (hcount : A.nTotalRegisteredCount + done.length + 1 < 2 ^ 32) :
    Descends env A done 1 (l.setTotalRegisteredCount (l.nTotalRegisteredCount + 1)) where
  wellFormed := hl.wellFormed.of_maps rfl rfl
  idsExact := hl.idsExact
  count := by
    rw [hl.count]
    exact mod_eq_of_lt hcount
  member := hl.member
  complete := hl.complete

section

variable (hinj : Injective env.serializeHash)

include hinj

theorem fresh_newMN (hA : WellFormed env (lists pindexPrev))
    (hp : ProRegChecked env lists pindexPrev tx p) {id : Nat}
    (hid : (lists pindexPrev).nTotalRegisteredCount ≤ id) :
    Fresh (lists pindexPrev) (done ++ [proRegCollateral env tx p]) (env.txHash tx)
      (newMN env tx p id nHeight) := by
  refine ⟨hp.absent hinj hA, hid, by simp [newMN], fun v hnull hv h' a ha hav => ?_⟩
  cases v with
  | outpoint _ => exact Eq.trans hav (Eq.symm hv)
  | service _ =>
    obtain rfl := hv
    exact checked_of_has hinj hA.indexed
      (P := fun dmn => dmn.collateralOutpoint = proRegCollateral env tx p) hp.addr hnull ha hav
  | keyID _ =>
    obtain rfl := hv
    exact absurd hav (not_has_of_fresh hinj hA.indexed hnull hp.ownerFresh ha)
  | pubKey _ =>
    obtain rfl := hv
    exact absurd hav (not_has_of_fresh hinj hA.indexed hnull hp.operatorFresh ha)

theorem Descends.add (htx : Injective env.txHash) (hA : WellFormed env (lists pindexPrev))
    (hl : Descends env (lists pindexPrev) done 1 l) (hp : ProRegChecked env lists pindexPrev tx p)
    (hok : l.addMN env.serializeHash (newMN env tx p
      ((lists pindexPrev).nTotalRegisteredCount + done.length) nHeight) = .ok l') :
    Descends env (lists pindexPrev) (done ++ [proRegCollateral env tx p]) 0 l' := by
  have hidx := hl.wellFormed.indexed
  have hwf : WellFormed env l' := by
    refine (ListStep.add hok : ListStep env nHeight l _ l').wellFormed htx ?_ hl.wellFormed
    rintro tx' p' id' heq
    obtain ⟨rfl, rfl, -⟩ := add.inj heq
    exact hp.payload
  have hfresh : Fresh (lists pindexPrev) (done ++ [proRegCollateral env tx p]) (env.txHash tx)
      (newMN env tx p ((lists pindexPrev).nTotalRegisteredCount + done.length) nHeight) :=
    fresh_newMN hinj hA hp (le_add_right _ _)
  have hunused : l.IdUnused ((lists pindexPrev).nTotalRegisteredCount + done.length) :=
    fun h d hd => (hl.member h d hd).1.ne
  have hids := hl.idsExact.addMN hidx hunused hok
  obtain ⟨⟨hnew, -⟩, -⟩ := hidx.addMN_decides.of_ok hok
  obtain ⟨m, rfl⟩ := addMN_reindexed hok
  have hcount := hl.count
  refine ⟨hwf, hids, ?_, ?_, ?_⟩
  · rw [length_append, length_singleton, ← add_assoc]
    exact hcount
  · intro h d' hd'
    rw [length_append, length_singleton]
    rcases insert_eq_some.mp hd' with ⟨rfl, rfl⟩ | ⟨-, hd⟩
    · exact ⟨lt_succ_self _, .inr hfresh⟩
    · obtain ⟨hlt, hmember⟩ := hl.member h d' hd
      refine ⟨lt_succ_of_lt hlt, hmember.imp_right fun hold => ?_⟩
      exact { hold with collateral := mem_append_left _ hold.collateral }
  · intro id hle hlt
    rw [length_append, length_singleton] at hlt
    by_cases hid : id < (lists pindexPrev).nTotalRegisteredCount + done.length
    · obtain ⟨h, d, hd, habsent, hdid⟩ := hl.complete id hle hid
      refine ⟨h, d, insert_eq_some.mpr (.inr ⟨?_, hd⟩), habsent, hdid⟩
      rintro rfl
      cases hd.symm.trans hnew
    · refine ⟨env.txHash tx, _, getElem?_insert_self, hfresh.absent, ?_⟩
      show (lists pindexPrev).nTotalRegisteredCount + done.length = id
      omega

/-- A `ProRegTx` on a collateral that no earlier one of the block has registered. -/
theorem Descends.register (htx : Injective env.txHash)
    (hA : WellFormed env (lists pindexPrev)) (hl : Descends env (lists pindexPrev) done 0 l)
    (hp : ProRegChecked env lists pindexPrev tx p) (hnew : proRegCollateral env tx p ∉ done)
    (hcount : (lists pindexPrev).nTotalRegisteredCount + done.length + 1 < 2 ^ 32)
    (hok : processProRegTx env pindexPrev nHeight l tx = .ok l') :
    Descends env (lists pindexPrev) (done ++ [proRegCollateral env tx p]) 0 l' := by
  unfold processProRegTx at hok
  simp only [bind_eq_ok, deref_eq_ok, rejectIf_eq_ok, exists_const, hp.payload,
    some.injEq, exists_eq_left'] at hok
  obtain ⟨-, l₁, hremove, -, -, hadd⟩ := hok
  have hl₀ := hl.reserveId hcount
  have hl₁ : Descends env (lists pindexPrev) done 1 l₁ := by
    rcases removeReplaced_inv hinj hl₀.wellFormed.indexed hremove with rfl | ⟨d, hd, hcoll, hremove⟩
    · exact hl₀
    · have hdrop : ListStep env nHeight _ (.drop d.proTxHash) l₁ := ListStep.drop hremove
      refine hl₀.step htx hdrop (.drop rfl fun d' hd' => ?_)
      rw [hd, some.injEq] at hd'
      rw [← hd', hcoll]
      exact hnew
  have hid : l.nTotalRegisteredCount = (lists pindexPrev).nTotalRegisteredCount + done.length := by
    rw [hl.count, add_zero]
  rw [hid] at hadd
  exact hl₁.add hinj htx hA hp hadd

end

/-! ### The transactions of a block -/

section

variable (hinj : Injective env.serializeHash) (htx : Injective env.txHash)
  (hA : WellFormed env (lists pindexPrev))

include hinj htx hA

theorem Descends.transaction (hl : Descends env (lists pindexPrev) done 0 l)
    (hnone : registeredCollateral env tx = none)
    (hchecked : PayloadChecked env lists pindexPrev tx tx.vExtraPayload)
    (hok : processTx env lists pindexPrev l tx = .ok l') :
    Descends env (lists pindexPrev) (done ++ (registeredCollateral env tx).toList) 0 l' := by
  obtain ⟨tr, hrun⟩ := processTx_run hinj hl.wellFormed.indexed hok
  rw [hnone, toList_none, append_nil]
  exact hl.run htx (fun l e hemit => harmless_transaction hinj hA.indexed hemit hchecked) hrun

theorem processTx_descends (hl : Descends env (lists pindexPrev) done 0 l)
    (hcheck : checkSpecialTx env lists tx pindexPrev = .ok ())
    (hnew : ∀ c ∈ registeredCollateral env tx, c ∉ done ∧
      (lists pindexPrev).nTotalRegisteredCount + done.length + 1 < 2 ^ 32)
    (hok : processTx env lists pindexPrev l tx = .ok l') :
    Descends env (lists pindexPrev) (done ++ (registeredCollateral env tx).toList) 0 l' := by
  cases checkSpecialTx_cases hcheck with
  | plain hplain =>
    have hnone : registeredCollateral env tx = none := by
      rcases hplain with h | h | h
      · simp [registeredCollateral, h]
      · simp [registeredCollateral, h]
      · simp [registeredCollateral, h]
    rw [processTx_of_plain hplain l, ok.injEq] at hok
    rw [hnone, toList_none, append_nil, ← hok]
    exact hl
  | register h3 htype p hp =>
    have hsome : registeredCollateral env tx = some (proRegCollateral env tx p) := by
      simp [registeredCollateral, h3, htype, hp.payload]
    obtain ⟨hfree, hcount⟩ := hnew _ hsome
    have hproc : processProRegTx env pindexPrev (pindexPrev.nHeight + 1) l tx = .ok l' := by
      simpa [processTx, h3, htype] using hok
    rw [hsome]
    exact hl.register hinj htx hA hp hfree hcount hproc
  | updateService h3 htype p hp =>
    refine hl.transaction hinj htx hA (by simp [registeredCollateral, htype]) ?_ hok
    rw [getProUpServTx_eq_some.mp hp.payload]
    exact hp
  | updateRegistrar h3 htype p hp =>
    refine hl.transaction hinj htx hA (by simp [registeredCollateral, htype]) ?_ hok
    rw [getProUpRegTx_eq_some.mp hp.payload]
    exact hp
  | revoke h3 htype p hp =>
    refine hl.transaction hinj htx hA (by simp [registeredCollateral, htype]) ?_ hok
    rw [getProUpRevTx_eq_some.mp hp.payload]
    exact hp
  | commitment h3 htype qc params hqc =>
    refine hl.transaction hinj htx hA (by simp [registeredCollateral, htype]) ?_ hok
    rw [getCommitment_eq_some.mp hqc.payload]
    trivial

theorem processTxs_descends (txs : List CTransaction) :
    ∀ {done : List COutPoint} {l : CDeterministicMNList}, Descends env (lists pindexPrev) done 0 l →
      (∀ tx ∈ txs, checkSpecialTx env lists tx pindexPrev = .ok ()) →
      (done ++ registeredCollaterals env txs).Nodup →
      (lists pindexPrev).nTotalRegisteredCount +
        (done ++ registeredCollaterals env txs).length < 2 ^ 32 →
      txs.foldlM (processTx env lists pindexPrev) l = .ok l' →
      Descends env (lists pindexPrev) (done ++ registeredCollaterals env txs) 0 l' := by
  induction txs with
  | nil =>
    intro done l hl _ _ _ hok
    rw [foldlM_nil, pure_eq_ok] at hok
    rw [← hok]
    simpa [registeredCollaterals] using hl
  | cons tx txs ih =>
    intro done l hl hcheck hnodup hcount hok
    rw [foldlM_cons, bind_eq_ok] at hok
    obtain ⟨l₁, htx₁, hrest⟩ := hok
    have hsplit : registeredCollaterals env (tx :: txs) =
        (registeredCollateral env tx).toList ++ registeredCollaterals env txs := by
      unfold registeredCollaterals
      cases hc : registeredCollateral env tx with
      | none => simp [hc]
      | some c => simp [hc]
    rw [hsplit, ← append_assoc] at hnodup hcount ⊢
    refine ih (processTx_descends hinj htx hA hl (hcheck tx (by simp)) ?_ htx₁)
      (fun t ht => hcheck t (by simp [ht])) hnodup hcount hrest
    intro c hc
    rw [mem_def] at hc
    rw [hc, toList_some] at hnodup hcount
    refine ⟨?_, ?_⟩
    · intro hmem
      exact (nodup_append.mp (nodup_append.mp hnodup).1).2.2 c hmem c (by simp) rfl
    · simp only [length_append, length_singleton] at hcount
      omega

end

/-! ### The block -/

/-- A list whose ids are those its counter has handed out. -/
structure Numbered (env : Env) (l : CDeterministicMNList) : Prop where
  wellFormed : WellFormed env l
  idsExact : l.IdsExact
  below : ∀ (h : Uint256) (d : CDeterministicMN), l.mnMap[h]? = some d →
    d.internalId < l.nTotalRegisteredCount

theorem Numbered.consistent (h : Numbered env l) : l.Consistent env.serializeHash :=
  ⟨h.wellFormed.indexed, h.idsExact, h.wellFormed.owned⟩

theorem Descends.numbered (h : Descends env A done 0 l) : Numbered env l where
  wellFormed := h.wellFormed
  idsExact := h.idsExact
  below := by
    intro o d hd
    have hlt := (h.member o d hd).1
    have hcount := h.count
    omega

section

variable (hinj : Injective env.serializeHash)

include hinj

theorem Descends.start (hA : Numbered env (lists pindexPrev)) :
    Descends env (lists pindexPrev) [] 0 (blockStart lists pindexPrev) where
  wellFormed := hA.wellFormed.of_maps rfl rfl
  idsExact := hA.idsExact
  count := rfl
  member := by
    intro h d hd
    have hd : (lists pindexPrev).mnMap[h]? = some d := hd
    refine ⟨hA.below h d hd, .inl ⟨⟨d, hd, rfl, rfl, rfl⟩, fun v hnull hv h' a ha hav => ?_⟩⟩
    exact has_unique hinj hA.wellFormed.indexed hnull ha hd hav hv
  complete := by
    intro id hle hlt
    rw [length_nil] at hlt
    omega

theorem buildNewListFromBlock_descends (htx : Injective env.txHash)
    (hA : Numbered env (lists pindexPrev)) {block : CBlock}
    (hcheck : ∀ tx ∈ block.vtx, checkSpecialTx env lists tx pindexPrev = .ok ())
    (hsurvive : RegistrationsSurvive env (lists pindexPrev) block)
    (hok : buildNewListFromBlock env lists block pindexPrev = .ok l') :
    Descends env (lists pindexPrev) (registeredCollaterals env block.vtx.tail) 0 l' := by
  unfold buildNewListFromBlock listAfter at hok
  simp only [bind_eq_ok] at hok
  obtain ⟨l₂, ⟨l₁, hprepare, htxs⟩, l₃, hspend, hpay⟩ := hok
  obtain ⟨-, tr₁, hrun₁⟩ := prepareList_run hA.wellFormed.indexed hprepare
  have hl₁ : Descends env (lists pindexPrev) [] 0 l₁ :=
    (Descends.start hinj hA).run htx (fun _ _ hemit => harmless_preparation hemit) hrun₁
  have hl₂ := processTxs_descends hinj htx hA.wellFormed block.vtx.tail hl₁
    (fun tx hmem => hcheck tx (mem_of_mem_tail hmem)) hsurvive.distinct hsurvive.count htxs
  rw [nil_append] at hl₂
  have hl₃ := foldlM_inv (Descends env (lists pindexPrev)
      (registeredCollaterals env block.vtx.tail) 0) _ l₂ l₃ ?_ hl₂ hspend
  · obtain ⟨tr₄, hrun₄⟩ := payMN_run hpay
    exact hl₃.run htx (fun _ _ hemit => harmless_payment hemit) hrun₄
  · intro prevout hprevout t t' ht hspent
    obtain ⟨tr, hrun⟩ := spendCollateral_run hinj ht.wellFormed.indexed hspent
    refine ht.run htx (fun _ _ hemit => harmless_spending ?_ hemit) hrun
    exact fun hmem => hsurvive.unspent prevout hmem hprevout

/-- What descends from a list without losing a registration follows it. -/
theorem Descends.follows {B : CDeterministicMNList} (hB : Descends env A done 0 B) :
    Follows env.serializeHash A B := by
  have hkept : ∀ (h : Uint256) (a b : CDeterministicMN), A.mnMap[h]? = some a →
      B.mnMap[h]? = some b → b.internalId = a.internalId ∧
        b.collateralOutpoint = a.collateralOutpoint ∧ b.nOperatorReward = a.nOperatorReward := by
    intro h a b ha hb
    rcases (hB.member h b hb).2 with hk | hf
    · obtain ⟨a', ha', hfixed⟩ := hk.fixed
      rw [ha, some.injEq] at ha'
      exact ha' ▸ hfixed
    · rw [hf.absent] at ha
      simp at ha
  have hcount := hB.count
  refine ⟨hkept, ?_, by omega, ?_⟩
  · intro id
    constructor
    · intro hid
      exact hB.complete id hid.1 (by omega)
    · intro ⟨h, b, hb, habsent, hid⟩
      obtain ⟨hlt, hk | hf⟩ := hB.member h b hb
      · exact absurd habsent hk.ne_none
      · have hle := hf.id
        omega
  · intro h h' b a k hb ha hsome hkb hka
    obtain ⟨v, hnull, hbv, rfl⟩ := mem_properties.mp hkb
    obtain ⟨-, hav⟩ := (hash_mem_properties hinj).mp hka
    rcases (hB.member h b hb).2 with hk | hf
    · exact hk.own v hnull hbv h' a ha hav
    -- one collateral, one masternode: the other one still has its own
    · have hcollateral := hf.own v hnull hbv h' a ha hav
      obtain ⟨b', hb'⟩ := isSome_iff_exists.mp hsome
      have hownedColl := (hB.wellFormed.owned h b hb).collateral
      exact has_unique hinj hB.wellFormed.indexed (v := .outpoint b.collateralOutpoint)
        (beq_eq_false_iff_ne.mpr hownedColl) hb' hb
        (((hkept h' a b' ha hb').2.1).trans hcollateral) rfl

end

/-! ### The chain -/

theorem numbered_empty (env : Env) (blockHash : Uint256) :
    Numbered env { blockHash := blockHash } where
  wellFormed := wellFormed_empty env blockHash
  idsExact := IdsExact.empty blockHash (-1) 0
  below := by intro h d hd; simp at hd

/--
**The stored differences replay.**  In a chain of blocks in which every masternode survives
the block that registers it, the difference stored for a block gives, applied to the list of
the block before, the list of the block, and trips no assert.
-/
theorem applyDiff_of_connected (env : Env) (hinj : Function.Injective env.serializeHash)
    (htx : Function.Injective env.txHash) (blockHash : Uint256) (tr : List (Chain × CBlock × Chain))
    (c : Chain) (hrun : Run (Chain.Connect env) (Chain.genesis blockHash) tr c)
    (hsurvive : ∀ x ∈ tr, RegistrationsSurvive env x.1.list x.2.1) :
    ∀ x ∈ tr, env.dip0003Height ≤ x.2.2.tip.nHeight →
      x.1.list.applyDiff env.serializeHash x.2.2.tip (x.1.list.buildDiff x.2.2.list) =
        .ok x.2.2.list := by
  have hinv := list_invariant (Numbered env) (numbered_empty env)
    (fun c block c' newList hcond hA hcheck hbuild => by
      have hdesc := buildNewListFromBlock_descends hinj htx hA hcheck hcond hbuild
      have hnum := hdesc.numbered
      exact ⟨hnum.wellFormed.of_maps rfl rfl, hnum.idsExact, hnum.below⟩)
    hrun hsurvive
  intro x hx hactive
  obtain ⟨⟨hA, hahead⟩, hconnect⟩ := hinv.2 x hx
  have hheight := hconnect.nHeight_eq
  rcases hconnect.list_cases hahead with ⟨hinactive, -⟩ | ⟨-, hcheck, newList, hbuild, hlist⟩
  · omega
  have hdesc := buildNewListFromBlock_descends hinj htx hA hcheck (hsurvive x hx) hbuild
  have hcount : newList.nTotalRegisteredCount < 2 ^ 32 := by
    rw [hdesc.count]
    exact (hsurvive x hx).count
  have hnHeight : newList.nHeight = x.2.2.tip.nHeight := by
    rw [hheight]
    exact height_buildNewListFromBlock env _ hbuild
  have hdiff : x.1.list.buildDiff x.2.2.list = x.1.list.buildDiff newList := by
    rw [hlist]
    rfl
  rw [hdiff, applyDiff_buildDiff_ok hA.consistent hdesc.numbered.consistent
    (hdesc.follows hinj) hcount, hlist, ← hnHeight, hconnect.tip_eq]
  rfl

/-! ### A block whose difference does not replay -/

/-- A `ProRegTx` with this address, owner and operator key, on an output of its own. -/
def registerAt (addr : CService) (key : Nat) : CTransaction :=
  { sampleTx .providerRegister (.proReg
      { nVersion := 1, nType := 0, nMode := 0, collateralOutpoint := ⟨0, 0⟩, addr := addr,
        keyIDOwner := key, pubKeyOperator := ⟨some key⟩, keyIDVoting := 3, nOperatorReward := 0,
        scriptPayout := samplePayout, inputsHash := 0, vchSig := [] }) with
    vout := [⟨2500 * coin, samplePayout⟩]
    vout_size := by decide }

/-- A `ProRegTx` without an address. -/
def registerTx (key : Nat) : CTransaction := registerAt .null key

def spendTx (prevout : COutPoint) : CTransaction :=
  { sampleCoinbase with vin := [⟨prevout, [], 0⟩] }

/-- Surroundings in which the `ProRegTx` below have the hashes 100 and 101. -/
noncomputable def chainEnv : Env := sampleEnv [registerTx 5, registerTx 6]

/-- The chain before the first block that can register a masternode. -/
def shortChain : Chain := { Chain.genesis 40 with tip := .next 41 (.genesis 40) }

theorem shortChain_connect : Chain.Connect chainEnv (Chain.genesis 40) ⟨41, []⟩ shortChain :=
  inactive (by decide)

def registerBlock : CBlock where
  hash := 42
  vtx := [sampleCoinbase, registerTx 5]

/-- Registers two masternodes and spends the collateral of the first one. -/
def lostBlock : CBlock where
  hash := 42
  vtx := [sampleCoinbase, registerTx 5, spendTx ⟨100, 0⟩, registerTx 6]

/-- The chain after `registerBlock`: masternode 100 with operator key 5, banned for want of an address. -/
noncomputable def registeredChain : Chain := shortChain.connect chainEnv registerBlock

theorem registeredChain_run : Run (Chain.Connect chainEnv) (Chain.genesis 40)
    [(Chain.genesis 40, ⟨41, []⟩, shortChain), (shortChain, registerBlock, registeredChain)]
    registeredChain :=
  .cons shortChain_connect (.single (connect_of_accepts rfl (by decide +kernel)))

theorem registerBlock_survives : RegistrationsSurvive chainEnv shortChain.list registerBlock := by
  have hcollaterals : registeredCollaterals chainEnv registerBlock.vtx.tail = [⟨100, 0⟩] := rfl
  refine ⟨?_, ?_, ?_⟩
  · rw [hcollaterals]
    decide
  · rw [hcollaterals]
    decide
  · rw [hcollaterals]
    decide

theorem applyDiff_of_connected_register :
    ∃ tr c, Run (Chain.Connect chainEnv) (Chain.genesis 40) tr c ∧ tr.length = 2 ∧
      ∀ x ∈ tr, chainEnv.dip0003Height ≤ x.2.2.tip.nHeight →
        x.1.list.applyDiff chainEnv.serializeHash x.2.2.tip (x.1.list.buildDiff x.2.2.list) =
          .ok x.2.2.list := by
  refine ⟨_, _, registeredChain_run, rfl, applyDiff_of_connected chainEnv pairingHash_injective
    (numberedTxHash_injective _) 40 _ _ registeredChain_run ?_⟩
  intro x hx
  simp only [mem_cons, not_mem_nil, or_false] at hx
  rcases hx with rfl | rfl
  · exact ⟨nodup_nil, by intro c hc; simp [registeredCollaterals] at hc, by decide⟩
  · exact registerBlock_survives

/-- The block is accepted, and the difference stored for it stops whoever replays it. -/
theorem applyDiff_of_connected_lost :
    Function.Injective chainEnv.serializeHash ∧ Function.Injective chainEnv.txHash ∧
      ∃ tr c, Run (Chain.Connect chainEnv) (Chain.genesis 40) tr c ∧
        ∃ x ∈ tr, chainEnv.dip0003Height ≤ x.2.2.tip.nHeight ∧
          x.1.list.applyDiff chainEnv.serializeHash x.2.2.tip (x.1.list.buildDiff x.2.2.list) =
            .error .assert := by
  have hstep : Chain.Connect chainEnv shortChain lostBlock (shortChain.connect chainEnv lostBlock) :=
    connect_of_accepts rfl (by decide +kernel)
  refine ⟨pairingHash_injective, numberedTxHash_injective _, _, _,
    Run.cons shortChain_connect (Run.single hstep), _, mem_cons_of_mem _ mem_cons_self, ?_, ?_⟩
  · show (2 : Int) ≤ (CBlockIndex.next 42 shortChain.tip).nHeight
    decide
  · dsimp only
    rw [list_connect]
    rfl

end Absolute
