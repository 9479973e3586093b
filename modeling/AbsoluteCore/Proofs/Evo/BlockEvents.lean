/-
Every list that `BuildNewListFromBlock` returns comes from the old list by events.

The loops of the function are matched one by one with runs of `BlockStep`.
-/
import AbsoluteCore.Spec.ListEvent
import AbsoluteCore.Proofs.Evo.RegistrySim

namespace Absolute

open Fallible Lts CDeterministicMNList List Except ListStep Emitted Run Or Function

variable {env : Env} {lists : CBlockIndex → CDeterministicMNList} {pindexPrev : CBlockIndex}
  {tx : CTransaction} {l l' : CDeterministicMNList} {nHeight : Int} {e : ListEvent}
variable {d d' : CDeterministicMN} {o : Uint256} {source : EventSource} {txs : List CTransaction}
  {tr : List (CDeterministicMNList × ListEvent × CDeterministicMNList)}

/-! ### What one event does -/

section

variable (h : ListStep env nHeight l e l') (hidx : l.Indexed env.serializeHash)

include h hidx

/-- The members after an event, for every kind of event. -/
theorem ListStep.members :
    (∃ (o : Uint256) (f : CDeterministicMNState → CDeterministicMNState) (dmn : CDeterministicMN),
      e.write env nHeight l = some (o, f) ∧ l.mnMap[o]? = some dmn ∧
      l.WithMembers env.serializeHash
        (l.mnMap.insert o { dmn with pdmnState := f dmn.pdmnState }) l') ∨
    (e = .reserveId ∧ l' = l.setTotalRegisteredCount (l.nTotalRegisteredCount + 1)) ∨
    (∃ (o : Uint256) (dmn : CDeterministicMN), e = .drop o ∧ l.mnMap[o]? = some dmn ∧
      l.WithMembers env.serializeHash (l.mnMap.erase o) l') ∨
    (∃ (tx : CTransaction) (p : CProRegTx) (id : Nat), e = .add tx p id ∧
      l.mnMap[env.txHash tx]? = none ∧
      l.WithMembers env.serializeHash
        (l.mnMap.insert (env.txHash tx) (newMN env tx p id nHeight)) l') := by
  cases h with
  | write hwrite hm hok =>
    obtain ⟨d, hd, -, hl'⟩ := hidx.updateMN_inv hok
    rw [hm, Option.some.injEq] at hd
    subst hd
    exact inl ⟨_, _, _, hwrite, hm, hl'⟩
  | reserveId => exact inr (inl ⟨rfl, rfl⟩)
  | drop hok =>
    obtain ⟨d, hd, -, hl'⟩ := hidx.removeMN_inv hok
    exact inr (inr (inl ⟨_, d, rfl, hd, hl'⟩))
  | add hok =>
    obtain ⟨⟨hnew, -⟩, hl'⟩ := hidx.addMN_decides.of_ok hok
    exact inr (inr (inr ⟨_, _, _, rfl, hnew, hl'⟩))

theorem ListStep.indexed : l'.Indexed env.serializeHash := by
  rcases h.members hidx with ⟨_, _, _, -, -, hl'⟩ | ⟨-, rfl⟩ | ⟨_, _, -, -, hl'⟩ | ⟨_, _, _, -, -, hl'⟩
  · exact hl'.indexed
  · exact hidx.of_maps rfl rfl
  · exact hl'.indexed
  · exact hl'.indexed

/-- Where a masternode comes from: it was there, its state was written, or it is new. -/
theorem ListStep.origin (hd' : l'.mnMap[o]? = some d') :
    l.mnMap[o]? = some d' ∨
    (∃ d f, e.write env nHeight l = some (o, f) ∧ l.mnMap[o]? = some d ∧
      d' = { d with pdmnState := f d.pdmnState }) ∨
    ∃ tx p id, e = .add tx p id ∧ o = env.txHash tx ∧ l.mnMap[o]? = none ∧
      d' = newMN env tx p id nHeight := by
  rcases h.members hidx with ⟨o', f, dmn, hwrite, hm, hl'⟩ | ⟨-, rfl⟩ | ⟨o', dmn, -, hm, hl'⟩ |
    ⟨tx, p, id, he, hnew, hl'⟩
  · rw [hl'.mnMap] at hd'
    rcases MapTotal.insert_eq_some.mp hd' with ⟨rfl, rfl⟩ | ⟨-, hd'⟩
    · exact inr (inl ⟨dmn, f, hwrite, hm, rfl⟩)
    · exact inl hd'
  · exact inl hd'
  · rw [hl'.mnMap] at hd'
    exact inl (MapTotal.erase_eq_some.mp hd').2
  · rw [hl'.mnMap] at hd'
    rcases MapTotal.insert_eq_some.mp hd' with ⟨rfl, rfl⟩ | ⟨-, hd'⟩
    · exact inr (inr ⟨tx, p, id, he, rfl, hnew, rfl⟩)
    · exact inl hd'

/--
**What an event does to a masternode that survives it**: it writes the masternode's state,
or leaves the masternode as it is.
-/
theorem ListStep.survivor (hd : l.mnMap[o]? = some d) (hd' : l'.mnMap[o]? = some d') :
    d' = d ∨ ∃ f, e.write env nHeight l = some (o, f) ∧
      d' = { d with pdmnState := f d.pdmnState } := by
  rcases h.origin hidx hd' with hsame | ⟨dmn, f, hwrite, hm, heq⟩ | ⟨_, _, _, -, -, hnew, -⟩
  · exact inl (Option.some.inj (hsame.symm.trans hd))
  · rw [hd, Option.some.injEq] at hm
    exact inr ⟨f, hwrite, hm ▸ heq⟩
  · rw [hd] at hnew
    cases hnew

/-- A masternode that an event brings in is the one its `ProRegTx` registers. -/
theorem ListStep.newcomer (hd : l.mnMap[o]? = none) (hd' : l'.mnMap[o]? = some d') :
    ∃ tx p id, e = .add tx p id ∧ o = env.txHash tx ∧ d' = newMN env tx p id nHeight := by
  rcases h.origin hidx hd' with hm | ⟨_, _, -, hm, -⟩ | ⟨tx, p, id, he, ho, -, heq⟩
  · rw [hd] at hm
    cases hm
  · rw [hd] at hm
    cases hm
  · exact ⟨tx, p, id, he, ho, heq⟩

end

theorem ListEvent.write_keyIDOwner {f : CDeterministicMNState → CDeterministicMNState}
    (h : e.write env nHeight l = some (o, f)) (s : CDeterministicMNState) :
    (f s).keyIDOwner = s.keyIDOwner := by
  cases e <;> simp only [ListEvent.write, Option.some.injEq, Prod.mk.injEq, reduceCtorEq] at h <;>
    obtain ⟨-, rfl⟩ := h <;> simp [CDeterministicMNState.updateConfirmedHash]

/-- A masternode keeps its id, its collateral, its reward and its owner. -/
theorem ListStep.survivor_fixed (h : ListStep env nHeight l e l')
    (hidx : l.Indexed env.serializeHash) (hd : l.mnMap[o]? = some d)
    (hd' : l'.mnMap[o]? = some d') :
    d'.internalId = d.internalId ∧ d'.collateralOutpoint = d.collateralOutpoint ∧
      d'.nOperatorReward = d.nOperatorReward ∧
      d'.pdmnState.keyIDOwner = d.pdmnState.keyIDOwner := by
  rcases h.survivor hidx hd hd' with rfl | ⟨f, hwrite, rfl⟩
  · exact ⟨rfl, rfl, rfl, rfl⟩
  · exact ⟨rfl, rfl, rfl, ListEvent.write_keyIDOwner hwrite _⟩

/-- An added masternode has a collateral and an owner, or `AddMN` would have stopped. -/
theorem ListStep.newcomer_owned (h : ListStep env nHeight l e l')
    (hidx : l.Indexed env.serializeHash) (hd : l.mnMap[o]? = none) (hd' : l'.mnMap[o]? = some d') :
    d'.Owned := by
  obtain ⟨tx, p, id, rfl, rfl, rfl⟩ := h.newcomer hidx hd hd'
  cases h with
  | write hwrite _ _ => simp [ListEvent.write] at hwrite
  | add hok =>
    obtain ⟨⟨-, howned, -⟩, -⟩ := hidx.addMN_decides.of_ok hok
    exact howned

theorem ListStep.wellFormed (htx : Injective env.txHash)
    (hstep : ListStep env nHeight l e l')
    (hpayload : ∀ tx p id, e = .add tx p id → tx.getProRegTx = some p) (hwf : WellFormed env l) :
    WellFormed env l' := by
  refine ⟨hstep.indexed hwf.indexed, ?_, ?_⟩
  · intro o d' hd'
    cases hd : l.mnMap[o]? with
    | none => exact hstep.newcomer_owned hwf.indexed hd hd'
    | some d =>
      obtain ⟨-, hcoll, -, howner⟩ := hstep.survivor_fixed hwf.indexed hd hd'
      have howned := hwf.owned o d hd
      exact ⟨by rw [hcoll]; exact howned.collateral, by rw [howner]; exact howned.owner⟩
  · intro d' tx p hd' hp
    cases hd : l.mnMap[env.txHash tx]? with
    | some d =>
      obtain ⟨-, hcoll, -, howner⟩ := hstep.survivor_fixed hwf.indexed hd hd'
      have horigin := hwf.origin d tx p hd hp
      exact ⟨hcoll.trans horigin.1, howner.trans horigin.2⟩
    | none =>
      obtain ⟨tx', p', id, rfl, hhash, rfl⟩ := hstep.newcomer hwf.indexed hd hd'
      have heq : tx = tx' := htx hhash
      subst heq
      have hp' := hpayload tx p' id rfl
      rw [hp, Option.some.injEq] at hp'
      subst hp'
      exact ⟨rfl, rfl⟩

/-- **Events keep a list well-formed.** -/
theorem StepFrom.wellFormed (htx : Injective env.txHash)
    (h : StepFrom env lists pindexPrev source l e l') (hwf : WellFormed env l) :
    WellFormed env l' := by
  refine h.2.wellFormed htx ?_ hwf
  intro tx p id he
  subst he
  cases h.1 with
  | add hpayload _ => exact hpayload

/-! ### Transactions -/

/-- `removeReplaced` removes the masternode on the collateral, if there is one. -/
theorem removeReplaced_inv (hinj : Injective env.serializeHash)
    (hidx : l.Indexed env.serializeHash) {c : COutPoint} (hok : removeReplaced env l c = .ok l') :
    l' = l ∨ ∃ d : CDeterministicMN, l.mnMap[d.proTxHash]? = some d ∧ d.collateralOutpoint = c ∧
      l.removeMN env.serializeHash d.proTxHash = .ok l' := by
  unfold removeReplaced getMNByCollateral at hok
  split at hok
  · next d hget =>
      obtain ⟨hd, -, hcoll⟩ := (getUniquePropertyMN_iff hinj hidx).mp hget
      exact inr ⟨d, hd, hcoll, hok⟩
  · rw [ok.injEq] at hok
    exact inl hok.symm

/-- `processProRegTx` after its checks: an id is taken, a masternode may be replaced, one is added. -/
theorem processProRegTx_run (hinj : Injective env.serializeHash)
    (hidx : l.Indexed env.serializeHash)
    (hok : processProRegTx env pindexPrev (pindexPrev.nHeight + 1) l tx = .ok l') :
    ∃ tr, Run (StepFrom env lists pindexPrev (.transaction tx)) l tr l' := by
  unfold processProRegTx at hok
  simp only [bind_eq_ok, deref_eq_ok, rejectIf_eq_ok, exists_const] at hok
  obtain ⟨p, hp, -, l₁, hremove, -, -, hadd⟩ := hok
  have hreserve : StepFrom env lists pindexPrev (.transaction tx) l .reserveId
      (l.setTotalRegisteredCount (l.nTotalRegisteredCount + 1)) :=
    ⟨reserveId hp, reserveId l⟩
  have hidx₀ : (l.setTotalRegisteredCount (l.nTotalRegisteredCount + 1)).Indexed
      env.serializeHash := hidx.of_maps rfl rfl
  rcases removeReplaced_inv hinj hidx₀ hremove with rfl | ⟨d, hd, hcoll, hremove⟩
  swap
  · obtain ⟨-, -, -, hl₁⟩ := hidx₀.removeMN_inv hremove
    have hdrop : StepFrom env lists pindexPrev (.transaction tx) _ (.drop d.proTxHash) l₁ :=
      ⟨replace hp hd hcoll, drop hremove⟩
    have haddStep : StepFrom env lists pindexPrev (.transaction tx) l₁
        (.add tx p l.nTotalRegisteredCount) l' :=
      ⟨add hp hl₁.nTotalRegisteredCount, add hadd⟩
    exact ⟨_, cons hreserve (cons hdrop (single haddStep))⟩
  · have haddStep : StepFrom env lists pindexPrev (.transaction tx)
        (l.setTotalRegisteredCount (l.nTotalRegisteredCount + 1))
        (.add tx p l.nTotalRegisteredCount) l' :=
      ⟨add hp rfl, add hadd⟩
    exact ⟨_, cons hreserve (single haddStep)⟩

theorem processProUpServTx_run
    (hok : processProUpServTx env (pindexPrev.nHeight + 1) l tx = .ok l') :
    ∃ tr, Run (StepFrom env lists pindexPrev (.transaction tx)) l tr l' := by
  unfold processProUpServTx at hok
  simp only [bind_eq_ok, deref_eq_ok, orReject_eq_ok] at hok
  obtain ⟨p, hp, -, -, dmn, hget, hupdate⟩ := hok
  exact ⟨_, single ⟨updateService hp, write rfl hget hupdate⟩⟩

theorem processProUpRegTx_run (hok : processProUpRegTx env (pindexPrev.nHeight + 1) l tx = .ok l') :
    ∃ tr, Run (StepFrom env lists pindexPrev (.transaction tx)) l tr l' := by
  unfold processProUpRegTx at hok
  simp only [bind_eq_ok, deref_eq_ok, orReject_eq_ok] at hok
  obtain ⟨p, hp, dmn, hget, hupdate⟩ := hok
  exact ⟨_, single ⟨updateRegistrar hp, write rfl hget hupdate⟩⟩

theorem processProUpRevTx_run (hok : processProUpRevTx env (pindexPrev.nHeight + 1) l tx = .ok l') :
    ∃ tr, Run (StepFrom env lists pindexPrev (.transaction tx)) l tr l' := by
  unfold processProUpRevTx at hok
  simp only [bind_eq_ok, deref_eq_ok, orReject_eq_ok] at hok
  obtain ⟨p, hp, dmn, hget, hupdate⟩ := hok
  exact ⟨_, single ⟨revoke hp, write rfl hget hupdate⟩⟩

theorem run_of_ok {ε : Type} (hok : (Except.ok l : Except ε CDeterministicMNList) = .ok l') :
    ∃ tr, Run (StepFrom env lists pindexPrev source) l tr l' :=
  ⟨[], ok.inj hok ▸ nil l⟩

theorem punishMember_run {p : CDeterministicMN × Bool} {qc : CFinalCommitmentTxPayload}
    (hpayload : tx.getCommitment = some qc) (hok : punishMember env l p = .ok l') :
    ∃ tr, Run (StepFrom env lists pindexPrev (.transaction tx)) l tr l' := by
  unfold punishMember at hok
  split at hok
  · rw [bind_eq_ok] at hok
    obtain ⟨penalty, hpenalty, hpunish⟩ := hok
    obtain ⟨-, dmn, hget, hupdate⟩ := poSePunish_eq_ok.mp hpunish
    exact ⟨_, single ⟨punish hpayload hpenalty, write rfl hget hupdate⟩⟩
  · exact run_of_ok hok

theorem processCommitment_run (hok : processCommitment env lists pindexPrev l tx = .ok l') :
    ∃ tr, Run (StepFrom env lists pindexPrev (.transaction tx)) l tr l' := by
  unfold processCommitment at hok
  rw [bind_eq_ok] at hok
  obtain ⟨qc, hqc, hok⟩ := hok
  split at hok
  · rw [pure_eq_ok] at hok
    subst hok
    exact ⟨[], nil l⟩
  · simp only [handleQuorumCommitment, bind_eq_ok] at hok
    obtain ⟨-, -, -, -, -, -, members, -, -, -, hfold⟩ := hok
    exact (of_foldlM_inv (fun _ => True) _ l l'
      (fun _ _ _ _ _ hpunish => ⟨trivial, punishMember_run (deref_eq_ok.mp hqc) hpunish⟩) trivial hfold).2

/-- **Every transaction is a run of its events.** -/
theorem processTx_run (hinj : Injective env.serializeHash)
    (hidx : l.Indexed env.serializeHash) (hok : processTx env lists pindexPrev l tx = .ok l') :
    ∃ tr, Run (StepFrom env lists pindexPrev (.transaction tx)) l tr l' := by
  unfold processTx at hok
  split at hok
  · exact run_of_ok hok
  · split at hok
    · exact processProRegTx_run hinj hidx hok
    · exact processProUpServTx_run hok
    · exact processProUpRegTx_run hok
    · exact processProUpRevTx_run hok
    · exact processCommitment_run hok
    · exact run_of_ok hok

theorem indexed_of_run (hrun : Run (StepFrom env lists pindexPrev source) l tr l')
    (hidx : l.Indexed env.serializeHash) : l'.Indexed env.serializeHash :=
  (hrun.invariant (fun l => l.Indexed env.serializeHash)
    (fun _ _ _ h hs => hs.2.indexed h) hidx).1

/-- The source cannot register the masternode `h` again. -/
def NotReadded (env : Env) (h : Uint256) (source : EventSource) : Prop :=
  ∀ tx p, source = .transaction tx → tx.getProRegTx = some p → env.txHash tx ≠ h

/-- **What every write of a source keeps of a masternode's state, its runs keep.** -/
theorem state_of_run {P : CDeterministicMNState → Prop} {h : Uint256}
    (hrun : Run (StepFrom env lists pindexPrev source) l tr l')
    (hidx : l.Indexed env.serializeHash) (hadd : NotReadded env h source)
    (hwrite : ∀ l e f s, Emitted env pindexPrev (lists pindexPrev) source l e →
      e.write env (pindexPrev.nHeight + 1) l = some (h, f) → P s → P (f s))
    (hl : ∀ d : CDeterministicMN, l.mnMap[h]? = some d → P d.pdmnState) :
    ∀ d : CDeterministicMN, l'.mnMap[h]? = some d → P d.pdmnState := by
  refine (hrun.invariant (fun l => l.Indexed env.serializeHash ∧
    ∀ d : CDeterministicMN, l.mnMap[h]? = some d → P d.pdmnState) ?_ ⟨hidx, hl⟩).1.2
  rintro l e l' ⟨hidx, hl⟩ ⟨hemit, hlist⟩
  refine ⟨hlist.indexed hidx, fun d' hd' => ?_⟩
  rcases hlist.origin hidx hd' with hd | ⟨d, f, hw, hd, rfl⟩ | ⟨tx, p, id, rfl, hhash, -⟩
  · exact hl d' hd
  · exact hwrite l e f _ hemit hw (hl d hd)
  · cases hemit with
    | add hpayload _ => exact absurd hhash.symm (hadd tx p rfl hpayload)

theorem TxChecked.notReadded (hinj : Injective env.serializeHash)
    (hwf : WellFormed env (lists pindexPrev)) (htx : TxChecked env lists pindexPrev tx)
    (hspecial : ¬ (tx.nVersion ≠ 3 ∨ tx.nType = .normal ∨ tx.nType = .coinbase)) {h : Uint256}
    (hd : (lists pindexPrev).mnMap[h]? = some d) : NotReadded env h (.transaction tx) := by
  rintro tx' p heq hp rfl
  obtain rfl := EventSource.transaction.inj heq
  have habsent := htx.absent hinj hwf hspecial hp
  rw [hd] at habsent
  simp at habsent

theorem listAfter_snoc (txs tx) : listAfter env lists pindexPrev (txs ++ [tx]) =
      (listAfter env lists pindexPrev txs >>= fun l => processTx env lists pindexPrev l tx) := by
  unfold listAfter
  simp only [foldlM_append, foldlM_cons, foldlM_nil, bind_assoc, bind_pure]

/-- The rule for the evolving list: from the prepared list, transaction by transaction. -/
theorem listAfter_inv (P : List CTransaction → CDeterministicMNList → Prop)
    (hprepare : ∀ l, prepareList env lists pindexPrev = .ok l → P [] l)
    (hstep : ∀ done tx l l', listAfter env lists pindexPrev done = .ok l → P done l →
      processTx env lists pindexPrev l tx = .ok l' → P (done ++ [tx]) l') :
    ∀ txs l, listAfter env lists pindexPrev txs = .ok l → P txs l := by
  intro txs
  induction txs using reverseRecOn with
  | nil =>
    intro l hl
    refine hprepare l ?_
    simpa [listAfter] using hl
  | append_singleton done tx ih =>
    intro l' hl'
    rw [listAfter_snoc, bind_eq_ok] at hl'
    obtain ⟨l, hl, hprocess⟩ := hl'
    exact hstep done tx l l' hl (ih l hl) hprocess

/-! ### Before and after the transactions -/

/-- The members the confirmation pass has not reached are those of the old list. -/
structure Unconfirmed (env : Env) (old : CDeterministicMNList) (done : List CDeterministicMN)
    (l : CDeterministicMNList) : Prop where
  indexed : l.Indexed env.serializeHash
  rest : ∀ (h : Uint256) (dmn : CDeterministicMN), old.mnMap[h]? = some dmn →
    h ∉ done.map CDeterministicMN.proTxHash → l.mnMap[h]? = some dmn

theorem confirmMN_run {old : CDeterministicMNList} (hold : old.Indexed env.serializeHash)
    (heq : lists pindexPrev = old) {done todo : List CDeterministicMN} {dmn : CDeterministicMN}
    (hsplit : old.forEachMN false = done ++ dmn :: todo) (hl : Unconfirmed env old done l)
    (hok : confirmMN env pindexPrev l dmn = .ok l') :
    Unconfirmed env old (done ++ [dmn]) l' ∧
      ∃ tr, Run (StepFrom env lists pindexPrev .preparation) l tr l' := by
  have hmem : old.mnMap[dmn.proTxHash]? = some dmn :=
    (hold.mem_forEachMN.mp (by rw [hsplit]; simp : dmn ∈ old.forEachMN false)).1
  have hnotDone : dmn.proTxHash ∉ done.map CDeterministicMN.proTxHash := by
    have hnodup := hold.nodup_forEachMN false
    rw [hsplit, map_append, nodup_append] at hnodup
    intro hdone
    exact hnodup.2.2 _ hdone dmn.proTxHash (by simp) rfl
  unfold confirmMN at hok
  split at hok
  · next hconfirmed =>
      have hm := hl.rest _ _ hmem hnotDone
      have hstep : StepFrom env lists pindexPrev .preparation l
          (.confirm dmn.proTxHash pindexPrev.getBlockHash) l' :=
        ⟨confirm (by rw [heq]; exact hmem) hconfirmed, write rfl hm hok⟩
      refine ⟨⟨hl.indexed.updateMN hok, ?_⟩, _, single hstep⟩
      intro h d hd hnot
      obtain ⟨_, -, -, hl'⟩ := hl.indexed.updateMN_inv hok
      simp only [map_append, map_cons, map_nil, mem_append,
        mem_singleton, not_or] at hnot
      rw [hl'.mnMap, Std.ExtTreeMap.getElem?_insert, if_neg, hl.rest h d hd hnot.1]
      rw [Nat.compare_eq_eq]
      exact fun h' => hnot.2 h'.symm
  · rw [ok.injEq] at hok
    subst hok
    refine ⟨⟨hl.indexed, ?_⟩, [], nil l⟩
    intro h d hd hnot
    refine hl.rest h d hd fun hdone => hnot ?_
    rw [map_append]
    exact mem_append_left _ hdone

theorem poSeDecrease_run {h : Uint256} (hok : l.poSeDecrease env.serializeHash h = .ok l') :
    ∃ tr, Run (StepFrom env lists pindexPrev .preparation) l tr l' := by
  obtain ⟨dmn, hget, ⟨hpenalty, hban⟩, hupdate⟩ := poSeDecrease_eq_ok.mp hok
  exact ⟨_, single ⟨decrease hget hpenalty hban, write rfl hget hupdate⟩⟩

def blockStart (lists : CBlockIndex → CDeterministicMNList) (pindexPrev : CBlockIndex) :
    CDeterministicMNList :=
  { lists pindexPrev with blockHash := 0, nHeight := pindexPrev.nHeight + 1 }

theorem prepareList_run (hidx : (lists pindexPrev).Indexed env.serializeHash)
    (hok : prepareList env lists pindexPrev = .ok l) :
    l.Indexed env.serializeHash ∧
      ∃ tr, Run (StepFrom env lists pindexPrev .preparation) (blockStart lists pindexPrev) tr l := by
  unfold prepareList at hok
  rw [bind_eq_ok] at hok
  obtain ⟨l₁, hconfirm, hdecrease⟩ := hok
  have hstart : Unconfirmed env (lists pindexPrev) [] (blockStart lists pindexPrev) :=
    ⟨hidx.of_maps rfl rfl, fun _ _ hd _ => hd⟩
  obtain ⟨hl₁, tr₁, hrun₁⟩ := of_foldlM_done (Unconfirmed env (lists pindexPrev)) _ _ _
    (fun _ _ _ hsplit _ _ hl hx => confirmMN_run hidx rfl hsplit hl hx) hstart hconfirm
  obtain ⟨hl₂, tr₂, hrun₂⟩ := of_foldlM_inv (fun l => l.Indexed env.serializeHash) _ _ _
    (fun _ _ u u' hu hx => by
      have hdec : ∃ tr, Run (StepFrom env lists pindexPrev .preparation) u tr u' :=
        poSeDecrease_run hx
      exact ⟨indexed_of_run hdec.choose_spec hu, hdec⟩) hl₁.indexed hdecrease
  exact ⟨hl₂, tr₁ ++ tr₂, hrun₁.append hrun₂⟩

theorem spendCollateral_run (hinj : Injective env.serializeHash)
    (hidx : l.Indexed env.serializeHash) {prevout : COutPoint}
    (hok : spendCollateral env l prevout = .ok l') :
    ∃ tr, Run (StepFrom env lists pindexPrev (.spending prevout)) l tr l' := by
  unfold spendCollateral getMNByCollateral at hok
  split at hok
  · next d hget =>
      split at hok
      · next hcoll =>
          subst hcoll
          obtain ⟨hd, -, -⟩ := (getUniquePropertyMN_iff hinj hidx).mp hget
          exact ⟨_, single ⟨spend hd, drop hok⟩⟩
      · exact run_of_ok hok
  · exact run_of_ok hok

theorem payMN_run (hok : payMN env (pindexPrev.nHeight + 1) (lists pindexPrev).getMNPayee l = .ok l') :
    ∃ tr, Run (StepFrom env lists pindexPrev .payment) l tr l' := by
  unfold payMN at hok
  split at hok
  · exact run_of_ok hok
  · next payee hpayee =>
      split at hok
      · exact run_of_ok hok
      · next dmn hget =>
          exact ⟨_, single ⟨pay hpayee, write rfl hget hok⟩⟩

/-! ### The whole block -/

/-- An event of a block before its payment. -/
def EarlyStep (env : Env) (lists : CBlockIndex → CDeterministicMNList) (pindexPrev : CBlockIndex)
    (txs : List CTransaction) (l : CDeterministicMNList) (x : EventSource × ListEvent)
    (l' : CDeterministicMNList) : Prop :=
  x.1 ≠ .payment ∧ BlockStep env lists pindexPrev txs l x l'

theorem earlyStep_of_run {txs : List CTransaction} (hsource : source ≠ .payment)
    (hof : source.Of txs) (hrun : Run (StepFrom env lists pindexPrev source) l tr l') :
    ∃ tr', Run (EarlyStep env lists pindexPrev txs) l tr' l' :=
  ⟨_, hrun.relabel (fun e => (source, e)) fun _ _ _ h => ⟨hsource, hof, h⟩⟩

/-- A loop whose passes are runs is a run, and the list stays indexed. -/
theorem indexed_foldlM_run {β : Type} (lists) (pindexPrev txs)
    {f : CDeterministicMNList → β → Except Fail CDeterministicMNList} (source : β → EventSource)
    (hsource : ∀ x, source x ≠ .payment) {xs : List β} (hof : ∀ x ∈ xs, (source x).Of txs)
    (hbody : ∀ x ∈ xs, ∀ u u', u.Indexed env.serializeHash → f u x = .ok u' →
      ∃ tr, Run (StepFrom env lists pindexPrev (source x)) u tr u')
    (hidx : l.Indexed env.serializeHash) (hok : xs.foldlM f l = .ok l') :
    l'.Indexed env.serializeHash ∧ ∃ tr, Run (EarlyStep env lists pindexPrev txs) l tr l' :=
  of_foldlM_inv (fun l => l.Indexed env.serializeHash) xs l l'
    (fun x hx u u' hu hf => by
      obtain ⟨tr, hrun⟩ := hbody x hx u u' hu hf
      exact ⟨indexed_of_run hrun hu, earlyStep_of_run (hsource x) (hof x hx) hrun⟩) hidx hok

/--
**A block is a run of its events**, and the payment is the last of them: the list that
`BuildNewListFromBlock` returns is what `payMN` makes of a list that events of the other
sources lead to.
-/
theorem buildNewListFromBlock_run (hinj : Injective env.serializeHash)
    (hidx : (lists pindexPrev).Indexed env.serializeHash) {block : CBlock}
    (hok : buildNewListFromBlock env lists block pindexPrev = .ok l') :
    ∃ l tr, Run (EarlyStep env lists pindexPrev block.vtx.tail) (blockStart lists pindexPrev) tr l ∧
      l.Indexed env.serializeHash ∧
      payMN env (pindexPrev.nHeight + 1) (lists pindexPrev).getMNPayee l = .ok l' := by
  unfold buildNewListFromBlock listAfter at hok
  simp only [bind_eq_ok] at hok
  obtain ⟨l₂, ⟨l₁, hprepare, htxs⟩, l₃, hspend, hpay⟩ := hok
  obtain ⟨hl₁, _, hrun₁⟩ := prepareList_run hidx hprepare
  obtain ⟨_, hrun₁⟩ : ∃ tr, Run (EarlyStep env lists pindexPrev block.vtx.tail) _ tr l₁ :=
    earlyStep_of_run (by simp) (by trivial) hrun₁
  obtain ⟨hl₂, _, hrun₂⟩ := indexed_foldlM_run lists pindexPrev block.vtx.tail
    EventSource.transaction (by simp) (fun _ htx => htx)
    (fun tx _ u u' hu hx => processTx_run hinj hu hx) hl₁ htxs
  obtain ⟨hl₃, _, hrun₃⟩ := indexed_foldlM_run lists pindexPrev block.vtx.tail
    EventSource.spending (by simp) (fun _ hprevout => hprevout)
    (fun o _ u u' hu hx => spendCollateral_run hinj hu hx) hl₂ hspend
  exact ⟨l₃, _, (hrun₁.append hrun₂).append hrun₃, hl₃, hpay⟩

theorem wellFormed_buildNewListFromBlock (hinj : Injective env.serializeHash)
    (htx : Injective env.txHash) (hwf : WellFormed env (lists pindexPrev)) {block : CBlock}
    (hok : buildNewListFromBlock env lists block pindexPrev = .ok l') : WellFormed env l' := by
  obtain ⟨l, tr, hrun, hidx, hpay⟩ := buildNewListFromBlock_run hinj hwf.indexed hok
  have hl : WellFormed env l := (hrun.invariant (WellFormed env)
    (fun _ _ _ h hs => StepFrom.wellFormed htx hs.2.2 h) (hwf.of_maps rfl rfl)).1
  obtain ⟨tr', hrun'⟩ := payMN_run hpay
  exact (hrun'.invariant (WellFormed env) (fun _ _ _ h hs => StepFrom.wellFormed htx hs h) hl).1

end Absolute
