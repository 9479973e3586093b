/-
When `BuildNewListFromBlock` stops the process.

Every transaction of a block is checked against the list of the previous block but applied
to a list that the earlier transactions have changed already.  Of the four provider
branches, three check again before they write.  The `ProUpRegTx` branch does not, and so
two masternodes can be given one operator key within a block.

Through the register this is the whole story: the asserts of `AddMN`, `UpdateMN`,
`RemoveMN` and of the property index fail exactly when there is such a clash, and in every
other case the function returns a list or refuses the block.
-/
import AbsoluteCore.Proofs.Evo.ListCalls
import AbsoluteCore.Proofs.Evo.RegistrySim

namespace Absolute

open Fallible CDeterministicMNList OwnerIndex List Option Function Registry

variable {env : Env} {lists : CBlockIndex → CDeterministicMNList} {pindexPrev : CBlockIndex}
  {tx : CTransaction} {l l' : CDeterministicMNList}
variable {reg : Registry} (txs : List CTransaction)

/-! ### One transaction -/

theorem not_takesKey_of_type (reg : Registry) (h : tx.nType ≠ .providerUpdateRegistrar) :
    ¬reg.TakesKey tx := fun htakes => h htakes.2.1

/--
**One transaction of a block.**  It takes another masternode's operator key and stops the
process, or it does to the list what it does to the register.
-/
theorem processTx_sim (hinj : Injective env.serializeHash)
    (htx : Injective env.txHash) (hwf : WellFormed env l)
    (hcheck : checkSpecialTx env lists tx pindexPrev = .ok ()) :
    (l.registry.TakesKey tx ∧ processTx env lists pindexPrev l tx = .error .assert) ∨
    (¬l.registry.TakesKey tx ∧ Simulates env (processTx env lists pindexPrev l tx)
      (l.registry.apply env pindexPrev tx)) := by
  cases checkSpecialTx_cases hcheck with
  | plain hplain =>
    refine .inr ⟨?_, .inr ⟨l, processTx_of_plain hplain l, hwf, ?_⟩⟩
    · rintro ⟨h3, htype, -⟩
      rcases hplain with h | h | h
      · exact h h3
      · simp [h] at htype
      · simp [h] at htype
    · rcases hplain with h | h | h
      · simp [apply, h]
      · simp [apply, h]
      · simp [apply, h]
  | register h3 htype p hp =>
    refine .inr ⟨not_takesKey_of_type _ (by simp [htype]), ?_⟩
    simpa [processTx, apply, h3, htype, getProRegTx_eq_some.mp hp.payload] using
      processProRegTx_sim hinj htx hwf hp (pindexPrev.nHeight + 1)
  | updateService h3 htype p hp =>
    refine .inr ⟨not_takesKey_of_type _ (by simp [htype]), ?_⟩
    simpa [processTx, apply, h3, htype, getProUpServTx_eq_some.mp hp.payload] using
      processProUpServTx_sim hinj hwf hp.payload hp.valid (pindexPrev.nHeight + 1)
  | revoke h3 htype p hp =>
    refine .inr ⟨not_takesKey_of_type _ (by simp [htype]), ?_⟩
    simpa [processTx, apply, h3, htype, getProUpRevTx_eq_some.mp hp.payload] using
      processProUpRevTx_sim hinj hwf hp.payload (pindexPrev.nHeight + 1)
  | commitment h3 htype qc params hqc =>
    have happly : l.registry.apply env pindexPrev tx =
        open Classical in if Registry.CommitmentRefused env pindexPrev qc then none
        else some l.registry := by
      simp [apply, h3, htype, getCommitment_eq_some.mp hqc.payload]
    have hprocess : processTx env lists pindexPrev l tx =
        processCommitment env lists pindexPrev l tx := by
      simp [processTx, h3, htype]
    refine .inr ⟨not_takesKey_of_type _ (by simp [htype]), ?_⟩
    rw [happly, hprocess]
    rcases processCommitment_sim hwf hqc with ⟨href, hrej⟩ | ⟨hacc, l', hok, hl'⟩
    · rw [if_pos href]
      exact .inl ⟨rfl, hrej⟩
    · rw [if_neg hacc]
      exact .inr ⟨l', hok, hl'.wellFormed, by rw [hl'.registry]⟩
  | updateRegistrar h3 htype p hp =>
    have happly : l.registry.apply env pindexPrev tx =
        l.registry.setOperator p.proTxHash p.pubKeyOperator := by
      simp [apply, h3, htype, getProUpRegTx_eq_some.mp hp.payload]
    have hprocess : processTx env lists pindexPrev l tx =
        processProUpRegTx env (pindexPrev.nHeight + 1) l tx := by
      simp [processTx, h3, htype]
    rw [happly, hprocess]
    by_cases htakes : (l.registry p.proTxHash).isSome = true ∧
        l.registry.HeldByOther p.proTxHash p.pubKeyOperator
    · refine .inl ⟨⟨h3, htype, p, hp.payload, htakes⟩, ?_⟩
      exact processProUpRegTx_assert hinj hwf hp.payload hp.operator _ htakes.1 htakes.2
    · refine .inr ⟨?_, processProUpRegTx_sim hinj hwf hp.payload _ (not_and.mp htakes)⟩
      rintro ⟨-, -, p', hp', htakes'⟩
      obtain rfl := some.inj (hp.payload.symm.trans hp')
      exact htakes htakes'

/-! ### All transactions -/

theorem keyClash_cons {txs : List CTransaction} :
    Registry.KeyClash env pindexPrev reg (tx :: txs) ↔
      reg.TakesKey tx ∨ ∃ reg', reg.apply env pindexPrev tx = some reg' ∧
        Registry.KeyClash env pindexPrev reg' txs := by
  constructor
  · rintro ⟨pre, tx', post, reg', htxs, hpre, htakes⟩
    cases pre with
    | nil =>
      simp only [nil_append, cons.injEq] at htxs
      simp only [foldlM_nil, Option.pure_def, some.injEq] at hpre
      rw [htxs.1, hpre]
      exact .inl htakes
    | cons t pre =>
      simp only [cons_append, cons.injEq] at htxs
      rw [foldlM_cons, ← htxs.1, bind_eq_bind, bind_eq_some_iff] at hpre
      obtain ⟨reg₁, happly, hfold⟩ := hpre
      exact .inr ⟨reg₁, happly, pre, tx', post, reg', htxs.2, hfold, htakes⟩
  · rintro (htakes | ⟨reg₁, happly, pre, tx', post, reg', rfl, hfold, htakes⟩)
    · exact ⟨[], tx, txs, reg, rfl, rfl, htakes⟩
    · refine ⟨tx :: pre, tx', post, reg', rfl, ?_, htakes⟩
      rw [foldlM_cons, happly, bind_eq_bind, bind_some, hfold]

/-- The loop over the transactions, seen through the register. -/
theorem processTxs_sim (hinj : Injective env.serializeHash)
    (htx : Injective env.txHash) (txs) : ∀ {l : CDeterministicMNList}, WellFormed env l →
      (∀ tx ∈ txs, checkSpecialTx env lists tx pindexPrev = .ok ()) →
      (Registry.KeyClash env pindexPrev l.registry txs ∧
        txs.foldlM (processTx env lists pindexPrev) l = .error .assert) ∨
      (¬Registry.KeyClash env pindexPrev l.registry txs ∧
        ((∃ level code reason, txs.foldlM (processTx env lists pindexPrev) l =
          .error (.reject level code reason)) ∨
        ∃ l', txs.foldlM (processTx env lists pindexPrev) l = .ok l' ∧ WellFormed env l')) := by
  induction txs with
  | nil =>
    intro l hwf _
    refine .inr ⟨?_, .inr ⟨l, rfl, hwf⟩⟩
    rintro ⟨pre, tx, post, reg', htxs, -⟩
    simp at htxs
  | cons tx rest ih =>
    intro l hwf hcheck
    rw [foldlM_cons, keyClash_cons]
    rcases processTx_sim hinj htx hwf (hcheck tx (by simp)) with ⟨htakes, hassert⟩ | ⟨hno, hsim⟩
    · rw [hassert]
      exact .inl ⟨.inl htakes, rfl⟩
    rcases hsim with ⟨hnone, level, code, reason, hrej⟩ | ⟨l₁, hok, hwf₁, hsome⟩
    · rw [hrej]
      refine .inr ⟨?_, .inl ⟨level, code, reason, rfl⟩⟩
      rintro (htakes | ⟨reg', hreg', -⟩)
      · exact hno htakes
      · rw [hnone] at hreg'
        simp at hreg'
    · rw [hok, ok_bind]
      have hiff : (l.registry.TakesKey tx ∨ ∃ reg', l.registry.apply env pindexPrev tx = some reg' ∧
          Registry.KeyClash env pindexPrev reg' rest) ↔
          Registry.KeyClash env pindexPrev l₁.registry rest := by
        simp [hno, hsome]
      rw [hiff]
      exact ih hwf₁ fun t ht => hcheck t (by simp [ht])

/-! ### Before and after the transactions -/

theorem confirmMN_ok (pindexPrev) {dmn : CDeterministicMN}
    (h : SameRegistry env reg l) (hdmn : reg dmn.proTxHash = some dmn.registration) :
    ∃ l', confirmMN env pindexPrev l dmn = .ok l' ∧ SameRegistry env reg l' := by
  unfold confirmMN
  split
  · rw [← h.registry] at hdmn
    obtain ⟨d, hd, hreg⟩ := registry_eq_some.mp hdmn
    simp only [CDeterministicMN.registration, Registration.mk.injEq] at hreg
    obtain ⟨l', hok, hwf', hreg'⟩ := h.wellFormed.updateMN_same
      (s := dmn.pdmnState.updateConfirmedHash env.sha256 dmn.proTxHash pindexPrev.getBlockHash)
      hd hreg.2.1.symm hreg.2.2.1.symm hreg.2.2.2.symm
    exact ⟨l', hok, hwf', hreg'.trans h.registry⟩
  · exact ⟨l, rfl, h⟩

/-- A member whose penalty `DecreasePoSePenalties` lowers. -/
def Decreasable (l : CDeterministicMNList) (h : Uint256) : Prop :=
  ∃ dmn : CDeterministicMN, l.mnMap[h]? = some dmn ∧ 0 < dmn.pdmnState.nPoSePenalty ∧
    dmn.pdmnState.nPoSeBanHeight = -1

theorem poSeDecrease_ok {h : Uint256} (hl : SameRegistry env reg l) (hdec : Decreasable l h) :
    ∃ l', l.poSeDecrease env.serializeHash h = .ok l' ∧ SameRegistry env reg l' ∧
      ∀ h', h' ≠ h → l'.mnMap[h']? = l.mnMap[h']? := by
  obtain ⟨dmn, hget, hpen, hban⟩ := hdec
  obtain ⟨l', hok, hwf', hreg'⟩ := hl.wellFormed.updateMN_same
    (s := { dmn.pdmnState with nPoSePenalty := dmn.pdmnState.nPoSePenalty - 1 }) hget rfl rfl rfl
  refine ⟨l', poSeDecrease_eq_ok.mpr ⟨dmn, hget, ⟨hpen, hban⟩, hok⟩,
    ⟨hwf', hreg'.trans hl.registry⟩, ?_⟩
  intro h' hne
  obtain ⟨_, -, -, hl'⟩ := hl.wellFormed.indexed.updateMN_inv hok
  rw [hl'.mnMap, Std.ExtTreeMap.getElem?_insert, if_neg (by simpa using Ne.symm hne)]

theorem foldlM_poSeDecrease_ok (hs : List Uint256) :
    ∀ {l : CDeterministicMNList}, SameRegistry env reg l → hs.Nodup → (∀ h ∈ hs, Decreasable l h) →
      ∃ l', hs.foldlM (poSeDecrease env.serializeHash) l = .ok l' ∧ SameRegistry env reg l' := by
  induction hs with
  | nil => intro l hl _ _; exact ⟨l, rfl, hl⟩
  | cons h rest ih =>
    intro l hl hnodup hdec
    rw [nodup_cons] at hnodup
    obtain ⟨l₁, hok, hl₁, hother⟩ := poSeDecrease_ok hl (hdec h (by simp))
    rw [foldlM_cons, hok, ok_bind]
    refine ih hl₁ hnodup.2 fun h' hh' => ?_
    -- the hashes are different, so the others still are as they were
    obtain ⟨d, hd, hrest⟩ := hdec h' (by simp [hh'])
    refine ⟨d, ?_, hrest⟩
    rw [hother h' (fun heq => hnodup.1 (heq ▸ hh')), hd]

theorem decreasePoSePenalties_ok (h : SameRegistry env reg l) :
    ∃ l', decreasePoSePenalties env l = .ok l' ∧ SameRegistry env reg l' := by
  refine foldlM_poSeDecrease_ok _ h ?_ ?_
  · exact (h.wellFormed.indexed.nodup_forEachMN true).sublist (filter_sublist.map _)
  · intro hash hmem
    obtain ⟨dmn, hdmn, rfl⟩ := mem_map.mp hmem
    rw [mem_filter, h.wellFormed.indexed.mem_forEachMN] at hdmn
    obtain ⟨⟨hget, -⟩, hcond⟩ := hdmn
    simp only [Bool.and_eq_true, decide_eq_true_eq, beq_iff_eq] at hcond
    exact ⟨dmn, hget, hcond.1, hcond.2⟩

theorem prepareList_ok (hwf : WellFormed env (lists pindexPrev)) :
    ∃ l, prepareList env lists pindexPrev = .ok l ∧
      SameRegistry env (lists pindexPrev).registry l := by
  have hstart : SameRegistry env (lists pindexPrev).registry
      { lists pindexPrev with blockHash := 0, nHeight := pindexPrev.nHeight + 1 } :=
    ⟨hwf.of_maps rfl rfl, rfl⟩
  obtain ⟨l₁, hconfirm, hl₁⟩ := foldlM_ok (SameRegistry env (lists pindexPrev).registry)
    ((lists pindexPrev).forEachMN false) _ (fun dmn hdmn t ht => confirmMN_ok pindexPrev
      ht (registry_of_getElem? (hwf.indexed.mem_forEachMN.mp hdmn).1)) hstart
  obtain ⟨l₂, hdec, hl₂⟩ := decreasePoSePenalties_ok hl₁
  refine ⟨l₂, ?_, hl₂⟩
  unfold prepareList
  simp only [hconfirm, ok_bind, hdec]

theorem spendCollateral_ok (hinj : Injective env.serializeHash) (hwf : WellFormed env l)
    (prevout : COutPoint) : ∃ l', spendCollateral env l prevout = .ok l' ∧ WellFormed env l' := by
  unfold spendCollateral getMNByCollateral
  cases hget : l.getUniquePropertyMN env.serializeHash (.outpoint prevout) with
  | none => exact ⟨l, rfl, hwf⟩
  | some dmn =>
    obtain ⟨hd, -, hcoll⟩ := (getUniquePropertyMN_iff hinj hwf.indexed).mp hget
    have hcoll : dmn.collateralOutpoint = prevout := hcoll
    obtain ⟨l', hok, hl'⟩ := (hwf.indexed.removeMN_decides hd).exists_ok (hwf.owned _ _ hd)
    exact ⟨l', by simp [hcoll, hok], hwf.erase hl'⟩

theorem payMN_ok (hwf : WellFormed env l) (nHeight : Int) (payee : Option CDeterministicMN) :
    ∃ l', payMN env nHeight payee l = .ok l' := by
  unfold payMN
  cases payee with
  | none => exact ⟨l, rfl⟩
  | some payee =>
    cases hget : l.mnMap[payee.proTxHash]? with
    | none => exact ⟨l, by simp [getMN, hget]⟩
    | some dmn =>
      obtain ⟨l', hok, -, -⟩ := hwf.updateMN_same
        (s := { dmn.pdmnState with nLastPaidHeight := nHeight }) hget rfl rfl rfl
      exact ⟨l', by simp [getMN, hget, hok]⟩

/-! ### The block -/

/--
**When `BuildNewListFromBlock` runs into a failing assert**: exactly when a `ProUpRegTx` of
the block asks for an operator key that, after the transactions before it, another
masternode has.  In every other case it refuses the block or returns a list.
-/
theorem buildNewListFromBlock_ne_assert (env : Env) (hinj : Function.Injective env.serializeHash)
    (htx : Function.Injective env.txHash) (lists : CBlockIndex → CDeterministicMNList)
    (pindexPrev : CBlockIndex) (hwf : WellFormed env (lists pindexPrev)) (block : CBlock)
    (hcheck : ∀ tx ∈ block.vtx, checkSpecialTx env lists tx pindexPrev = .ok ()) :
    buildNewListFromBlock env lists block pindexPrev ≠ .error .assert ↔
      ¬Registry.KeyClash env pindexPrev (lists pindexPrev).registry block.vtx.tail := by
  obtain ⟨l₀, hprep, hl₀⟩ := prepareList_ok hwf
  have hafter : listAfter env lists pindexPrev block.vtx.tail =
      block.vtx.tail.foldlM (processTx env lists pindexPrev) l₀ := by
    unfold listAfter
    rw [hprep, ok_bind]
  unfold buildNewListFromBlock
  simp only [hafter]
  rw [← hl₀.registry]
  rcases processTxs_sim hinj htx block.vtx.tail hl₀.wellFormed
      (fun tx hmem => hcheck tx (mem_of_mem_tail hmem)) with
    ⟨hclash, hassert⟩ | ⟨hno, ⟨level, code, reason, hrej⟩ | ⟨l₁, hok, hwf₁⟩⟩
  · rw [hassert]
    simp [hclash]
  · rw [hrej]
    simp [hno]
  · obtain ⟨l₂, hspend, hwf₂⟩ := foldlM_ok (WellFormed env) (spentOutpoints block.vtx.tail) l₁
      (fun o _ t ht => spendCollateral_ok hinj ht o) hwf₁
    obtain ⟨l₃, hpay⟩ := payMN_ok hwf₂ (pindexPrev.nHeight + 1) (lists pindexPrev).getMNPayee
    rw [hok, ok_bind, hspend, ok_bind, hpay]
    simp [hno]

/-! ### A block that stops the process -/

/-- An injective `tx.GetHash()` under which the given transactions are numbered from 100. -/
noncomputable def numberedTxHash (tx : CTransaction) : Uint256 :=
  if tx ∈ txs then 100 + txs.idxOf tx
  else 100 + txs.length + (exists_injective_nat CTransaction).choose tx

theorem numberedTxHash_injective : Injective (numberedTxHash txs) := by
  intro a b hab
  have h : @Eq Nat (numberedTxHash txs a) (numberedTxHash txs b) := hab
  unfold numberedTxHash at h
  by_cases ha : a ∈ txs <;> by_cases hb : b ∈ txs
  · rw [if_pos ha, if_pos hb] at h
    exact (idxOf_inj ha).mp (by omega)
  · rw [if_pos ha, if_neg hb] at h
    have := idxOf_lt_length_of_mem ha
    omega
  · rw [if_neg ha, if_pos hb] at h
    have := idxOf_lt_length_of_mem hb
    omega
  · rw [if_neg ha, if_neg hb] at h
    exact (exists_injective_nat CTransaction).choose_spec (by omega)

/--
Surroundings for concrete runs: a regression-test network where a BLS signature is the key
it was made with, every owner signature is accepted and every coin is a collateral.
-/
noncomputable def sampleEnv : Env where
  network := .regtest
  dip0003Height := 2
  dip0003EnforcementHeight := 0
  dip0003EnforcementHash := 0
  nMasternodeMinimumConfirmations := 15
  llmqs := fun _ => none
  fAllowPrivateNet := true
  serializeHash := pairingHash
  txHash := numberedTxHash txs
  sha256 := fun a b => a + b
  quorumModifier := fun _ _ => 0
  calcTxInputsHash := fun _ => 0
  payloadHash := fun _ => 0
  verifyHash := fun _ _ _ => true
  verifyMessage := fun _ _ _ => true
  blsVerify := fun sig key _ => sig == key
  extractDestination := fun _ => some (.scriptID 0)
  getUTXOCoin := fun _ _ => some { out := ⟨2500 * coin, []⟩ }
  mapBlockIndex := fun _ => none
  dip0008Active := fun _ => false

/-- A payout script: pay to public key hash. -/
def samplePayout : CScript :=
  [0x76, 0xa9, 0x14, 0, 0, 0, 0, 0, 0, 0, 0, 0, 0, 0, 0, 0, 0, 0, 0, 0, 0, 0, 0, 0x88, 0xac]

/-- A transaction with this payload and nothing else of interest. -/
def sampleTx (nType : TxType) (payload : TxPayload) : CTransaction where
  nVersion := 3
  nType := nType
  vin := []
  vout := []
  nLockTime := 0
  vExtraPayload := payload
  vout_size := Nat.zero_le _

/-- A transaction that is not special, in the place of the coinbase. -/
def sampleCoinbase : CTransaction := { sampleTx .normal (.malformed []) with nVersion := 1 }

/-- A `ProUpRegTx` that gives the masternode this operator key. -/
def operatorKeyTx (proTxHash : Uint256) (key : Nat) : CTransaction :=
  sampleTx .providerUpdateRegistrar (.proUpReg
    { nVersion := 1, proTxHash := proTxHash, nMode := 0, pubKeyOperator := ⟨some key⟩,
      keyIDVoting := 3, scriptPayout := samplePayout, inputsHash := 0, vchSig := [] })

/-- The masternodes `registeredMN 1 0` and `registeredMN 2 1`. -/
def twoMNs : CDeterministicMNList :=
  ([registeredMN 1 0, registeredMN 2 1].foldlM (addMN pairingHash)
    { nTotalRegisteredCount := 2 }).toOption.getD {}

theorem twoMNs_eq : [registeredMN 1 0, registeredMN 2 1].foldlM (addMN pairingHash)
    { nTotalRegisteredCount := 2 } = .ok twoMNs := rfl

theorem twoMNs_wellFormed : WellFormed (sampleEnv txs) twoMNs := by
  have hexact : Exact pairingHash twoMNs := by
    refine exact_foldlM_addMN _ ⟨Indexed.empty 0 (-1) 2, IdsExact.empty 0 (-1) 2⟩ ?_ (by decide)
      twoMNs_eq
    intro dmn _ h d hd
    simp at hd
  have hmem : ∀ (h : Uint256) (d : CDeterministicMN), twoMNs.mnMap[h]? = some d →
      d = registeredMN 1 0 ∨ d = registeredMN 2 1 := by
    intro h d hd
    rw [← Std.ExtTreeMap.mem_toList_iff_getElem?_eq_some] at hd
    have hlist : twoMNs.mnMap.toList = [(1, registeredMN 1 0), (2, registeredMN 2 1)] := by decide
    rw [hlist] at hd
    simp only [mem_cons, Prod.mk.injEq, not_mem_nil, or_false] at hd
    exact hd.imp (fun h => h.2) (fun h => h.2)
  refine ⟨hexact.1, ?_, ?_⟩
  · intro h d hd
    rcases hmem h d hd with rfl | rfl
    · exact ⟨by decide, by decide⟩
    · exact ⟨by decide, by decide⟩
  · intro d tx ptx hd _
    -- both masternodes have hashes below those of all transactions
    have hkey := hexact.1.keyed _ _ hd
    have hlarge : 100 ≤ numberedTxHash txs tx := by
      unfold numberedTxHash
      split
      · exact Nat.le_add_right _ _
      · exact le_trans (Nat.le_add_right _ _) (Nat.le_add_right _ _)
    have hhash : numberedTxHash txs tx = d.proTxHash := hkey.symm
    rw [hhash] at hlarge
    rcases hmem _ d hd with rfl | rfl
    · exact absurd hlarge (by decide)
    · exact absurd hlarge (by decide)

/-- Two masternodes are given the operator key 9 in one block. -/
def sharedKeyBlock : CBlock where
  hash := 50
  vtx := [sampleCoinbase, operatorKeyTx 1 9, operatorKeyTx 2 9]

/-- The block below `sharedKeyBlock`. -/
def sampleIndex : CBlockIndex := .next 41 (.genesis 40)

theorem sharedKeyBlock_checked : ∀ tx ∈ sharedKeyBlock.vtx,
    checkSpecialTx (sampleEnv []) (fun _ => twoMNs) tx sampleIndex = .ok () := by
  intro tx htx
  simp only [sharedKeyBlock, mem_cons, not_mem_nil, or_false] at htx
  rcases htx with rfl | rfl | rfl
  · rfl
  · rfl
  · rfl

theorem buildNewListFromBlock_ne_assert_sharedKey :
    buildNewListFromBlock (sampleEnv []) (fun _ => twoMNs) sharedKeyBlock sampleIndex ≠
        .error .assert ↔
      ¬Registry.KeyClash (sampleEnv []) sampleIndex twoMNs.registry sharedKeyBlock.vtx.tail :=
  buildNewListFromBlock_ne_assert (sampleEnv []) pairingHash_injective (numberedTxHash_injective [])
    (fun _ => twoMNs) sampleIndex (twoMNs_wellFormed []) sharedKeyBlock sharedKeyBlock_checked

/-- Every transaction of the block passes its checks, and the block stops the process. -/
theorem buildNewListFromBlock_sharedKey :
    Function.Injective (sampleEnv []).serializeHash ∧ WellFormed (sampleEnv []) twoMNs ∧
      (∀ tx ∈ sharedKeyBlock.vtx,
        checkSpecialTx (sampleEnv []) (fun _ => twoMNs) tx sampleIndex = .ok ()) ∧
      buildNewListFromBlock (sampleEnv []) (fun _ => twoMNs) sharedKeyBlock sampleIndex =
        .error .assert :=
  ⟨pairingHash_injective, twoMNs_wellFormed [], sharedKeyBlock_checked, rfl⟩

end Absolute
