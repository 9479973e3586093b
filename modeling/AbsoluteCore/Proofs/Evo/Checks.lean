/-
What a transaction that passed `CheckSpecialTx` is known to satisfy.

One structure for each kind of special transaction, with the facts the later passes
over the block rely on: which keys are set, what the previous block's list says about
the masternode, its address and its keys, and under which key the payload is signed.
-/
import AbsoluteCore.Evo.DeterministicMNManager
import AbsoluteCore.Proofs.Evo.ListIndex

namespace Absolute

open Fallible CDeterministicMNList CTransaction

/-! ### Guards -/

variable {reason : String} {code : RejectCode} {level : Nat} {u : Unit} {α : Type} {a : α}
  {x : Option α} {c : CTxDestination × CKeyID} {ptx : CProRegTx}

@[simp] theorem rejectIf_eq_ok {c : Prop} [Decidable c]
    : rejectIf c level code reason = .ok u ↔ ¬c := by
  unfold rejectIf dos
  split <;> simp_all

@[simp] theorem orReject_eq_ok : orReject x level code reason = .ok a ↔ x = some a := by
  unfold orReject dos
  split <;> simp_all

@[simp] theorem deref_eq_ok : deref x = .ok a ↔ x = some a := by
  unfold deref
  split <;> simp_all

theorem guard_eq_ok {c : Prop} [Decidable c] {x : Except Fail Unit} :
    (if c then x else pure ()) = .ok u ↔ (c → x = .ok ()) := by
  split <;> simp_all

/-! ### Provider transactions -/

variable {env : Env} {lists : CBlockIndex → CDeterministicMNList} {pindexPrev : CBlockIndex}
  {tx : CTransaction}

structure ProRegChecked (env : Env) (lists : CBlockIndex → CDeterministicMNList)
    (pindexPrev : CBlockIndex) (tx : CTransaction) (ptx : CProRegTx) : Prop where
  payload : tx.getProRegTx = some ptx
  owner : ptx.keyIDOwner ≠ 0
  operator : ptx.pubKeyOperator.isValid = true
  /-- The collateral's own output exists, or the coin of the external one does. -/
  index : ptx.collateralOutpoint.hash = 0 → ptx.collateralOutpoint.n < tx.vout.length
  coin : ptx.collateralOutpoint.hash ≠ 0 → ∃ c,
    env.getUTXOCoin pindexPrev ptx.collateralOutpoint = some c ∧ c.out.nValue = 2500 * coin
  /-- An address that is taken belongs to the masternode that is about to be replaced. -/
  addr : (lists pindexPrev).hasUniqueProperty env.serializeHash (.service ptx.addr) = true →
    ∃ dmn, (lists pindexPrev).getUniquePropertyMN env.serializeHash (.service ptx.addr) = some dmn ∧
      dmn.collateralOutpoint = proRegCollateral env tx ptx
  ownerFresh : (lists pindexPrev).hasUniqueProperty env.serializeHash (.keyID ptx.keyIDOwner) = false
  operatorFresh :
    (lists pindexPrev).hasUniqueProperty env.serializeHash (.pubKey ptx.pubKeyOperator) = false

structure ProUpServChecked (env : Env) (lists : CBlockIndex → CDeterministicMNList)
    (pindexPrev : CBlockIndex) (tx : CTransaction) (ptx : CProUpServTx) : Prop where
  payload : tx.getProUpServTx = some ptx
  valid : ptx.addr.isValid = true
  /-- An address that is taken is the masternode's own. -/
  addr : (lists pindexPrev).hasUniqueProperty env.serializeHash (.service ptx.addr) = true →
    ∃ dmn, (lists pindexPrev).getUniquePropertyMN env.serializeHash (.service ptx.addr) = some dmn ∧
      dmn.proTxHash = ptx.proTxHash
  signed : ∃ dmn, (lists pindexPrev).getMN ptx.proTxHash = some dmn ∧
    env.verifyInsecure ptx.sig dmn.pdmnState.pubKeyOperator (env.payloadHash (.proUpServ ptx)) = true

structure ProUpRegChecked (env : Env) (lists : CBlockIndex → CDeterministicMNList)
    (pindexPrev : CBlockIndex) (tx : CTransaction) (ptx : CProUpRegTx) : Prop where
  payload : tx.getProUpRegTx = some ptx
  operator : ptx.pubKeyOperator.isValid = true
  /-- An operator key that is taken is the masternode's own. -/
  operatorOwn :
    (lists pindexPrev).hasUniqueProperty env.serializeHash (.pubKey ptx.pubKeyOperator) = true →
    ∃ dmn, (lists pindexPrev).getUniquePropertyMN env.serializeHash (.pubKey ptx.pubKeyOperator) =
      some dmn ∧ dmn.proTxHash = ptx.proTxHash
  present : ∃ dmn, (lists pindexPrev).getMN ptx.proTxHash = some dmn

structure ProUpRevChecked (env : Env) (lists : CBlockIndex → CDeterministicMNList)
    (pindexPrev : CBlockIndex) (tx : CTransaction) (ptx : CProUpRevTx) : Prop where
  payload : tx.getProUpRevTx = some ptx
  signed : ∃ dmn, (lists pindexPrev).getMN ptx.proTxHash = some dmn ∧
    env.verifyInsecure ptx.sig dmn.pdmnState.pubKeyOperator (env.payloadHash (.proUpRev ptx)) = true

theorem checkCollateral_index
    (h : checkCollateral env tx ptx pindexPrev = .ok c) (hnull : ptx.collateralOutpoint.hash = 0) :
    ptx.collateralOutpoint.n < tx.vout.length := by
  unfold checkCollateral at h
  rw [if_neg (by simpa using hnull), bind_eq_ok] at h
  obtain ⟨out, hout, -⟩ := h
  rw [orReject_eq_ok] at hout
  exact (List.getElem?_eq_some_iff.mp hout).1

theorem checkCollateral_coin
    (h : checkCollateral env tx ptx pindexPrev = .ok c) (hext : ptx.collateralOutpoint.hash ≠ 0) :
    ∃ c, env.getUTXOCoin pindexPrev ptx.collateralOutpoint = some c ∧ c.out.nValue = 2500 * coin := by
  unfold checkCollateral at h
  rw [if_pos hext, bind_eq_ok] at h
  obtain ⟨c', hc', h⟩ := h
  rw [bind_eq_ok] at h
  obtain ⟨_, hvalue, -⟩ := h
  rw [orReject_eq_ok] at hc'
  rw [rejectIf_eq_ok, not_not] at hvalue
  exact ⟨c', hc', hvalue⟩

theorem checkProRegTx_ok (h : checkProRegTx env lists tx pindexPrev = .ok ()) :
    ∃ ptx, ProRegChecked env lists pindexPrev tx ptx := by
  unfold checkProRegTx checkProRegList at h
  simp only [bind_eq_ok, rejectIf_eq_ok, orReject_eq_ok, deref_eq_ok, guard_eq_ok, exists_const,
    not_or, not_not, Bool.not_eq_true, Bool.not_eq_false] at h
  obtain ⟨-, ptx, hptx, -, -, -, hkeys, -, dest, -, -, -, -, c, hc, -, ⟨haddr, hfresh, -⟩, -⟩ := h
  exact ⟨ptx, hptx, hkeys.1, hkeys.2.1, checkCollateral_index hc, checkCollateral_coin hc, haddr,
    hfresh.1, hfresh.2⟩

theorem checkService_valid {addr : CService} (h : checkService env addr = .ok ()) :
    addr.isValid = true := by
  unfold checkService at h
  rw [bind_eq_ok] at h
  obtain ⟨_, hvalid, -⟩ := h
  simpa using hvalid

theorem checkProUpServTx_ok (h : checkProUpServTx env lists tx pindexPrev = .ok ()) :
    ∃ ptx, ProUpServChecked env lists pindexPrev tx ptx := by
  unfold checkProUpServTx checkHashSigBLS at h
  simp only [bind_eq_ok, rejectIf_eq_ok, orReject_eq_ok, deref_eq_ok, guard_eq_ok, exists_const,
    not_not, Bool.not_eq_false] at h
  obtain ⟨-, ptx, hptx, -, _, hserv, mn, hmn, haddr, -, -, _, -, hsig⟩ := h
  exact ⟨ptx, hptx, checkService_valid hserv, haddr, mn, hmn, hsig⟩

theorem checkProUpRegTx_ok (h : checkProUpRegTx env lists tx pindexPrev = .ok ()) :
    ∃ ptx, ProUpRegChecked env lists pindexPrev tx ptx := by
  unfold checkProUpRegTx at h
  simp only [bind_eq_ok, rejectIf_eq_ok, orReject_eq_ok, deref_eq_ok, guard_eq_ok, exists_const,
    not_or, not_not, Bool.not_eq_false] at h
  obtain ⟨-, ptx, hptx, -, -, hkeys, -, dest, -, dmn, hdmn, -, c, -, cdest, -, -, hkey, -⟩ := h
  refine ⟨ptx, hptx, hkeys.1, ?_, dmn, hdmn⟩
  intro hhas
  obtain ⟨other, hother, heq⟩ := hkey hhas
  exact ⟨other, hother, heq.symm⟩

theorem checkProUpRevTx_ok (h : checkProUpRevTx env lists tx pindexPrev = .ok ()) :
    ∃ ptx, ProUpRevChecked env lists pindexPrev tx ptx := by
  unfold checkProUpRevTx checkHashSigBLS at h
  simp only [bind_eq_ok, rejectIf_eq_ok, orReject_eq_ok, exists_const, not_not,
    Bool.not_eq_false] at h
  obtain ⟨-, ptx, hptx, -, -, dmn, hdmn, _, -, hsig⟩ := h
  exact ⟨ptx, hptx, dmn, hdmn, hsig⟩

/-! ### Commitments -/

structure CommitmentChecked (env : Env) (tx : CTransaction) (qc : CFinalCommitmentTxPayload)
    (params : LLMQParams) : Prop where
  payload : tx.getCommitment = some qc
  type : env.llmqs qc.commitment.llmqType = some params
  size : qc.commitment.isNull = false → qc.commitment.validMembers.length = params.size

theorem checkLLMQCommitment_ok (h : checkLLMQCommitment env lists tx pindexPrev = .ok ()) :
    ∃ qc params, CommitmentChecked env tx qc params := by
  unfold checkLLMQCommitment at h
  simp only [bind_eq_ok, rejectIf_eq_ok, orReject_eq_ok, exists_const] at h
  obtain ⟨qc, hqc, -, -, pindexQuorum, -, -, params, hparams, h⟩ := h
  refine ⟨qc, params, hqc, hparams, fun hnull => ?_⟩
  rw [if_neg (by simp [hnull]), bind_eq_ok] at h
  obtain ⟨members, -, hverify⟩ := h
  rw [rejectIf_eq_ok, Bool.not_eq_false] at hverify
  simp only [CFinalCommitment.verify, CFinalCommitment.verifySizes, Bool.and_eq_true,
    beq_iff_eq] at hverify
  exact hverify.1.1.1.1.1.1.1.1.2.2

/-! ### Payloads -/

theorem getProRegTx_eq_some {p : CProRegTx} :
    tx.getProRegTx = some p ↔ tx.vExtraPayload = .proReg p := by
  unfold getProRegTx
  split <;> simp_all

theorem getProUpServTx_eq_some {p : CProUpServTx} :
    tx.getProUpServTx = some p ↔ tx.vExtraPayload = .proUpServ p := by
  unfold getProUpServTx
  split <;> simp_all

theorem getProUpRegTx_eq_some {p : CProUpRegTx} :
    tx.getProUpRegTx = some p ↔ tx.vExtraPayload = .proUpReg p := by
  unfold getProUpRegTx
  split <;> simp_all

theorem getProUpRevTx_eq_some {p : CProUpRevTx} :
    tx.getProUpRevTx = some p ↔ tx.vExtraPayload = .proUpRev p := by
  unfold getProUpRevTx
  split <;> simp_all

theorem getCommitment_eq_some {p : CFinalCommitmentTxPayload} :
    tx.getCommitment = some p ↔ tx.vExtraPayload = .commitment p := by
  unfold getCommitment
  split <;> simp_all

/-! ### Dispatch -/

/-- What a transaction that passed `CheckSpecialTx` is, and what is known of its payload. -/
inductive TxChecked (env : Env) (lists : CBlockIndex → CDeterministicMNList)
    (pindexPrev : CBlockIndex) (tx : CTransaction) : Prop
  | plain (hplain : tx.nVersion ≠ 3 ∨ tx.nType = .normal ∨ tx.nType = .coinbase)
  | register (h3 : tx.nVersion = 3) (htype : tx.nType = .providerRegister) (p : CProRegTx)
      (hp : ProRegChecked env lists pindexPrev tx p)
  | updateService (h3 : tx.nVersion = 3) (htype : tx.nType = .providerUpdateService)
      (p : CProUpServTx) (hp : ProUpServChecked env lists pindexPrev tx p)
  | updateRegistrar (h3 : tx.nVersion = 3) (htype : tx.nType = .providerUpdateRegistrar)
      (p : CProUpRegTx) (hp : ProUpRegChecked env lists pindexPrev tx p)
  | revoke (h3 : tx.nVersion = 3) (htype : tx.nType = .providerUpdateRevoke) (p : CProUpRevTx)
      (hp : ProUpRevChecked env lists pindexPrev tx p)
  | commitment (h3 : tx.nVersion = 3) (htype : tx.nType = .quorumCommitment)
      (qc : CFinalCommitmentTxPayload) (params : LLMQParams)
      (hqc : CommitmentChecked env tx qc params)

theorem checkSpecialTx_cases (hcheck : checkSpecialTx env lists tx pindexPrev = .ok ()) :
    TxChecked env lists pindexPrev tx := by
  by_cases hplain : tx.nVersion ≠ 3 ∨ tx.nType = .normal
  · exact .plain (hplain.imp_right .inl)
  unfold checkSpecialTx at hcheck
  rw [if_neg hplain] at hcheck
  split at hcheck
  · simp [dos] at hcheck
  rw [not_or, not_not] at hplain
  obtain ⟨h3, hnormal⟩ := hplain
  cases htype : tx.nType with
  | normal => exact absurd htype hnormal
  | coinbase => exact .plain (.inr (.inr htype))
  | unknown n => simp [htype, dos] at hcheck
  | providerRegister =>
    rw [htype] at hcheck
    obtain ⟨p, hp⟩ := checkProRegTx_ok hcheck
    exact .register h3 htype p hp
  | providerUpdateService =>
    rw [htype] at hcheck
    obtain ⟨p, hp⟩ := checkProUpServTx_ok hcheck
    exact .updateService h3 htype p hp
  | providerUpdateRegistrar =>
    rw [htype] at hcheck
    obtain ⟨p, hp⟩ := checkProUpRegTx_ok hcheck
    exact .updateRegistrar h3 htype p hp
  | providerUpdateRevoke =>
    rw [htype] at hcheck
    obtain ⟨p, hp⟩ := checkProUpRevTx_ok hcheck
    exact .revoke h3 htype p hp
  | quorumCommitment =>
    rw [htype] at hcheck
    obtain ⟨qc, params, hqc⟩ := checkLLMQCommitment_ok hcheck
    exact .commitment h3 htype qc params hqc

theorem processTx_of_plain (hplain : tx.nVersion ≠ 3 ∨ tx.nType = .normal ∨ tx.nType = .coinbase)
    (l : CDeterministicMNList) : processTx env lists pindexPrev l tx = .ok l := by
  rcases hplain with h | h | h
  · simp [processTx, h]
  · simp [processTx, h]
  · simp [processTx, h]

end Absolute
