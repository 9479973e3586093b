/-
When operator signatures verify under the key of the moment.

The key a masternode has in the evolving list is the one of the old list, or the last one
that the block has given it.  So a signature that was checked against the old list verifies
under the key of the moment exactly when it verifies under the last change before it.
-/
import AbsoluteCore.Spec.OperatorKey
import AbsoluteCore.Proofs.Evo.Payees

namespace Absolute

open Fallible Lts CDeterministicMNList List Function Option Except Chain.Connect

variable {env : Env} {lists : CBlockIndex → CDeterministicMNList} {pindexPrev : CBlockIndex}
  {tx : CTransaction} {l l' : CDeterministicMNList} {nHeight : Int} {e : ListEvent} {h : Uint256}
  {key : CBLSPublicKey}
variable {hash : Uint256} {sig : CBLSSignature} {d : CDeterministicMN}
  {txs post pre : List CTransaction}

/-! ### The key in the evolving list -/

/-- If the masternode is in the list, this is its operator key. -/
def HoldsKey (l : CDeterministicMNList) (h : Uint256) (key : CBLSPublicKey) : Prop :=
  ∀ d : CDeterministicMN, l.mnMap[h]? = some d → d.pdmnState.pubKeyOperator = key

theorem ListEvent.write_pubKeyOperator {o : Uint256}
    {f : CDeterministicMNState → CDeterministicMNState} (hwrite : e.write env nHeight l = some (o, f))
    (hreg : ∀ p, e ≠ .updateRegistrar p) (hrev : ∀ p, e ≠ .revoke p) (s : CDeterministicMNState) :
    (f s).pubKeyOperator = s.pubKeyOperator := by
  cases e with
  | updateRegistrar p => exact absurd rfl (hreg p)
  | revoke p => exact absurd rfl (hrev p)
  | _ =>
    simp only [ListEvent.write, some.injEq, Prod.mk.injEq, reduceCtorEq] at hwrite <;>
      obtain ⟨-, rfl⟩ := hwrite <;> simp [CDeterministicMNState.updateConfirmedHash]

section

variable (hl : HoldsKey l h key) (hidx : l.Indexed env.serializeHash)

include hl hidx

theorem HoldsKey.run {source : EventSource}
    {tr : List (CDeterministicMNList × ListEvent × CDeterministicMNList)}
    (hrun : Run (StepFrom env lists pindexPrev source) l tr l') (hadd : NotReadded env h source)
    (hreg : ∀ tx p, source = .transaction tx → tx.getProUpRegTx ≠ some p)
    (hrev : ∀ tx p, source = .transaction tx → tx.getProUpRevTx ≠ some p) : HoldsKey l' h key := by
  refine state_of_run (P := (·.pubKeyOperator = key)) hrun hidx hadd ?_ hl
  intro l e f s hemit hwrite hs
  rw [← hs]
  refine ListEvent.write_pubKeyOperator hwrite ?_ ?_ s
  · rintro p rfl
    cases hemit with
    | updateRegistrar hpayload => exact hreg _ p rfl hpayload
  · rintro p rfl
    cases hemit with
    | revoke hpayload => exact hrev _ p rfl hpayload

/-- A transaction that writes one state writes the key of that masternode. -/
theorem HoldsKey.updateMN {o : Uint256} {s : CDeterministicMNState}
    (hok : l.updateMN env.serializeHash o s = .ok l') :
    HoldsKey l' h (if o = h then s.pubKeyOperator else key) := by
  obtain ⟨d, hd, -, hl'⟩ := hidx.updateMN_inv hok
  intro d' hd'
  rw [hl'.mnMap] at hd'
  rcases MapTotal.insert_eq_some.mp hd' with ⟨rfl, rfl⟩ | ⟨hne, hd'⟩
  · rw [if_pos rfl]
  · rw [if_neg (Ne.symm hne)]
    exact hl d' hd'

end

/-- **A transaction changes the key as it says.** -/
theorem holdsKey_processTx (hinj : Injective env.serializeHash)
    (hwf : WellFormed env (lists pindexPrev)) (hd : (lists pindexPrev).mnMap[h]? = some d)
    (hcheck : checkSpecialTx env lists tx pindexPrev = .ok ()) (hidx : l.Indexed env.serializeHash)
    (hl : HoldsKey l h key) (hok : processTx env lists pindexPrev l tx = .ok l') :
    HoldsKey l' h ((operatorChange tx h).getD key) := by
  have hchecked := checkSpecialTx_cases hcheck
  -- transactions of the other kinds are runs of events that leave the key alone
  have hother : ¬ (tx.nVersion ≠ 3 ∨ tx.nType = .normal ∨ tx.nType = .coinbase) →
      operatorChange tx h = none → (∀ p, tx.vExtraPayload ≠ .proUpReg p) →
      (∀ p, tx.vExtraPayload ≠ .proUpRev p) → HoldsKey l' h ((operatorChange tx h).getD key) := by
    intro hspecial hnone hreg hrev
    obtain ⟨tr, hrun⟩ := processTx_run hinj hidx hok
    rw [hnone]
    refine hl.run hidx hrun (hchecked.notReadded hinj hwf hspecial hd) ?_ ?_
    · rintro tx' p heq
      obtain rfl := EventSource.transaction.inj heq
      exact mt getProUpRegTx_eq_some.mp (hreg p)
    · rintro tx' p heq
      obtain rfl := EventSource.transaction.inj heq
      exact mt getProUpRevTx_eq_some.mp (hrev p)
  -- the others write a state with a new key
  have hupdated : ∀ (proTxHash : Uint256) (f : CDeterministicMNState → CDeterministicMNState)
      (new : CBLSPublicKey), (∀ s, (f s).pubKeyOperator = new) →
      (do let dmn ← orReject (l.getMN proTxHash) 100 .invalid "bad-protx-hash"
          l.updateMN env.serializeHash proTxHash (f dmn.pdmnState)) = .ok l' →
      operatorChange tx h = (if proTxHash = h then some new else none) →
      HoldsKey l' h ((operatorChange tx h).getD key) := by
    intro proTxHash f new hf hproc hchange
    obtain ⟨dmn, -, hupdate⟩ := bind_eq_ok.mp hproc
    have hnew := hl.updateMN hidx hupdate
    rw [hf] at hnew
    rw [hchange, apply_ite (Option.getD · key)]
    exact hnew
  cases hchecked with
  | plain hplain =>
    rw [processTx_of_plain hplain, ok.injEq] at hok
    have hnone : operatorChange tx h = none := by
      rcases hplain with h' | h' | h'
      · simp [operatorChange, h']
      · simp [operatorChange, h']
      · simp [operatorChange, h']
    rw [hnone, ← hok]
    exact hl
  | register h3 htype p hp =>
    have hpayload := getProRegTx_eq_some.mp hp.payload
    exact hother (by simp [h3, htype]) (by simp [operatorChange, htype])
      (by simp [hpayload]) (by simp [hpayload])
  | updateService h3 htype p hp =>
    have hpayload := getProUpServTx_eq_some.mp hp.payload
    exact hother (by simp [h3, htype]) (by simp [operatorChange, htype])
      (by simp [hpayload]) (by simp [hpayload])
  | commitment h3 htype qc params hqc =>
    have hpayload := getCommitment_eq_some.mp hqc.payload
    exact hother (by simp [h3, htype]) (by simp [operatorChange, htype])
      (by simp [hpayload]) (by simp [hpayload])
  | updateRegistrar h3 htype p hp =>
    refine hupdated p.proTxHash (updRegState (pindexPrev.nHeight + 1) p) p.pubKeyOperator
      (fun _ => (updRegState_frame ..).1) ?_ (by simp [operatorChange, h3, htype, hp.payload])
    simpa [processTx, h3, htype, processProUpRegTx, hp.payload, deref] using hok
  | revoke h3 htype p hp =>
    refine hupdated p.proTxHash (updRevState (pindexPrev.nHeight + 1) p) .null
      (fun _ => (updRevState_frame ..).2.1) ?_ (by simp [operatorChange, h3, htype, hp.payload])
    simpa [processTx, h3, htype, processProUpRevTx, hp.payload, deref] using hok

theorem lastOperatorChange_snoc (txs tx h) : lastOperatorChange (txs ++ [tx]) h =
      (operatorChange tx h).or (lastOperatorChange txs h) := by
  simp [lastOperatorChange]

/-- **The key of the moment** is the last one the block has set, or the one of the old list. -/
theorem holdsKey_listAfter (hinj : Injective env.serializeHash)
    (hwf : WellFormed env (lists pindexPrev)) (hd : (lists pindexPrev).mnMap[h]? = some d)
    (hcheck : ∀ tx ∈ txs, checkSpecialTx env lists tx pindexPrev = .ok ())
    (hl : listAfter env lists pindexPrev txs = .ok l) : l.Indexed env.serializeHash ∧
      HoldsKey l h ((lastOperatorChange txs h).getD d.pdmnState.pubKeyOperator) := by
  refine listAfter_inv (fun done l => (∀ tx ∈ done, checkSpecialTx env lists tx pindexPrev = .ok ()) →
    l.Indexed env.serializeHash ∧
      HoldsKey l h ((lastOperatorChange done h).getD d.pdmnState.pubKeyOperator)) ?_ ?_ txs l hl hcheck
  · intro l hprepare _
    obtain ⟨hidx, tr, hrun⟩ := prepareList_run hwf.indexed hprepare
    have hstartIdx : (blockStart lists pindexPrev).Indexed env.serializeHash :=
      hwf.indexed.of_maps rfl rfl
    have hstart : HoldsKey (blockStart lists pindexPrev) h d.pdmnState.pubKeyOperator := by
      intro d' hd'
      have hsame : (lists pindexPrev).mnMap[h]? = some d' := hd'
      rw [hd, some.injEq] at hsame
      rw [hsame]
    exact ⟨hidx, hstart.run hstartIdx hrun (by simp [NotReadded]) (by simp) (by simp)⟩
  · intro done tx l l' _ ih hprocess hchecks
    obtain ⟨hidx, hl⟩ := ih fun tx htx => hchecks tx (mem_append_left _ htx)
    obtain ⟨tr, hrun⟩ := processTx_run hinj hidx hprocess
    refine ⟨indexed_of_run hrun hidx, ?_⟩
    have hnew := holdsKey_processTx hinj hwf hd (hchecks tx (by simp)) hidx hl hprocess
    rw [lastOperatorChange_snoc]
    cases hchange : operatorChange tx h with
    | none =>
      rw [hchange] at hnew
      exact hnew
    | some k =>
      rw [hchange] at hnew
      exact hnew

/-! ### Signatures -/

section

variable (hcheck : checkSpecialTx env lists tx pindexPrev = .ok ())
  (hsigned : operatorSigned env tx = some (h, sig, hash))

include hcheck hsigned

/-- The two kinds of transactions with an operator signature. -/
theorem operatorSigned_cases :
    (∃ p, tx.nVersion = 3 ∧ tx.nType = .providerUpdateService ∧
      ProUpServChecked env lists pindexPrev tx p ∧
      p.proTxHash = h ∧ p.sig = sig ∧ env.payloadHash (.proUpServ p) = hash) ∨
    (∃ p, tx.nVersion = 3 ∧ tx.nType = .providerUpdateRevoke ∧
      ProUpRevChecked env lists pindexPrev tx p ∧
      p.proTxHash = h ∧ p.sig = sig ∧ env.payloadHash (.proUpRev p) = hash) := by
  cases checkSpecialTx_cases hcheck with
  | plain hplain => rcases hplain with h' | h' | h' <;> simp [operatorSigned, h'] at hsigned
  | register _ htype _ _ => simp [operatorSigned, htype] at hsigned
  | updateRegistrar _ htype _ _ => simp [operatorSigned, htype] at hsigned
  | commitment _ htype _ _ _ => simp [operatorSigned, htype] at hsigned
  | updateService h3 htype p hp =>
    refine .inl ⟨p, h3, htype, hp, ?_⟩
    simpa [operatorSigned, h3, htype, hp.payload] using hsigned
  | revoke h3 htype p hp =>
    refine .inr ⟨p, h3, htype, hp, ?_⟩
    simpa [operatorSigned, h3, htype, hp.payload] using hsigned

/-- What the check of a transaction with an operator signature says about the old list. -/
theorem operatorSigned_checked :
    ∃ d : CDeterministicMN, (lists pindexPrev).mnMap[h]? = some d ∧
      env.verifyInsecure sig d.pdmnState.pubKeyOperator hash = true := by
  rcases operatorSigned_cases hcheck hsigned with
    ⟨p, -, -, hp, rfl, rfl, rfl⟩ | ⟨p, -, -, hp, rfl, rfl, rfl⟩
  · exact hp.signed
  · exact hp.signed

/-- A transaction with an operator signature is refused without its masternode. -/
theorem processTx_present (hok : processTx env lists pindexPrev l tx = .ok l') :
    ∃ d : CDeterministicMN, l.mnMap[h]? = some d := by
  rcases operatorSigned_cases hcheck hsigned with
    ⟨p, h3, htype, hp, rfl, -, -⟩ | ⟨p, h3, htype, hp, rfl, -, -⟩
  · have hproc : processProUpServTx env (pindexPrev.nHeight + 1) l tx = .ok l' := by
      simpa [processTx, h3, htype] using hok
    simp only [processProUpServTx, hp.payload, bind_eq_ok, deref_eq_ok, orReject_eq_ok,
      some.injEq] at hproc
    obtain ⟨p', rfl, -, -, d, hget, -⟩ := hproc
    exact ⟨d, hget⟩
  · have hproc : processProUpRevTx env (pindexPrev.nHeight + 1) l tx = .ok l' := by
      simpa [processTx, h3, htype] using hok
    simp only [processProUpRevTx, hp.payload, bind_eq_ok, deref_eq_ok, orReject_eq_ok,
      some.injEq] at hproc
    obtain ⟨p', rfl, d, hget, -⟩ := hproc
    exact ⟨d, hget⟩

end

theorem listAfter_prefix (hok : listAfter env lists pindexPrev (pre ++ tx :: post) = .ok l') :
    ∃ l l₁, listAfter env lists pindexPrev pre = .ok l ∧
      processTx env lists pindexPrev l tx = .ok l₁ := by
  unfold listAfter at hok ⊢
  simp only [foldlM_append, foldlM_cons, bind_eq_ok] at hok
  obtain ⟨l₀, hprepare, l, hpre, l₁, hprocess, -⟩ := hok
  exact ⟨l, l₁, by rw [hprepare, ok_bind, hpre], hprocess⟩

/-- At one place of the block. -/
theorem signed_iff (hinj : Injective env.serializeHash) (hwf : WellFormed env (lists pindexPrev))
    (hcheck : ∀ tx ∈ txs, checkSpecialTx env lists tx pindexPrev = .ok ())
    (hok : listAfter env lists pindexPrev txs = .ok l') (hsplit : txs = pre ++ tx :: post)
    (hsigned : operatorSigned env tx = some (h, sig, hash)) :
    (∃ (l : CDeterministicMNList) (dmn : CDeterministicMN),
      listAfter env lists pindexPrev pre = .ok l ∧ l.mnMap[h]? = some dmn ∧
        env.verifyInsecure sig dmn.pdmnState.pubKeyOperator hash = true) ↔
    ∀ key, lastOperatorChange pre h = some key → env.verifyInsecure sig key hash = true := by
  subst hsplit
  have htxCheck := hcheck tx (by simp)
  obtain ⟨d, hd, holdSigned⟩ := operatorSigned_checked htxCheck hsigned
  obtain ⟨l, l₁, hl, hprocess⟩ := listAfter_prefix hok
  obtain ⟨-, hholds⟩ := holdsKey_listAfter hinj hwf hd
    (fun tx htx => hcheck tx (mem_append_left _ htx)) hl
  obtain ⟨dmn, hdmn⟩ := processTx_present htxCheck hsigned hprocess
  have hkey := hholds dmn hdmn
  constructor
  · rintro ⟨l', dmn', hl', hdmn', hverify⟩ key hchange
    rw [hl, ok.injEq] at hl'
    subst hl'
    rw [hdmn, some.injEq] at hdmn'
    subst hdmn'
    rw [hkey, hchange] at hverify
    exact hverify
  · intro hchanges
    refine ⟨l, dmn, hl, hdmn, ?_⟩
    rw [hkey]
    cases hchange : lastOperatorChange pre h with
    | none => exact holdSigned
    | some key => exact hchanges key hchange

/--
**Operator signatures.**  In a block that is accepted on top of any chain, all `ProUpServTx`
and `ProUpRevTx` are signed under the key their masternode has when they are applied, if and
only if the block itself changes no key to one that a later signature fails under.
-/
theorem signedByHolder_iff (env : Env) (hinj : Function.Injective env.serializeHash)
    (htx : Function.Injective env.txHash) (blockHash : Uint256)
    (tr : List (Chain × CBlock × Chain)) (c : Chain)
    (hrun : Run (Chain.Connect env) (Chain.genesis blockHash) tr c) (block : CBlock) (c' : Chain)
    (hconnect : Chain.Connect env c block c') (hactive : env.dip0003Height ≤ c.tip.nHeight + 1) :
    SignedByHolder env c.lists c.tip block.vtx.tail ↔ SignedUnderChanges env block.vtx.tail := by
  have hc := paying_of_run hinj htx hrun
  rcases hconnect.list_cases hc.ahead with ⟨hinactive, -⟩ | ⟨-, hcheck, newList, hbuild, -⟩
  · omega
  have hchecks : ∀ tx ∈ block.vtx.tail, checkSpecialTx env c.lists tx c.tip = .ok () :=
    fun tx htx => hcheck tx (mem_of_mem_tail htx)
  unfold buildNewListFromBlock at hbuild
  simp only [bind_eq_ok] at hbuild
  obtain ⟨l, hl, -⟩ := hbuild
  constructor
  · intro hholder pre post tx hsplit h sig hash hsigned
    exact (signed_iff hinj hc.wellFormed hchecks hl hsplit hsigned).mp
      (hholder pre post tx hsplit h sig hash hsigned)
  · intro hchanges pre post tx hsplit h sig hash hsigned
    exact (signed_iff hinj hc.wellFormed hchecks hl hsplit hsigned).mpr
      (hchanges pre post tx hsplit h sig hash hsigned)

/-! ### A replaced operator signs -/

/-- A `ProUpServTx` of masternode 100, signed with key 5. -/
def serviceTx : CTransaction :=
  sampleTx .providerUpdateService (.proUpServ
    { nVersion := 1, proTxHash := 100, addr := sampleAddr 7, scriptOperatorPayout := [],
      inputsHash := 0, sig := ⟨some 5⟩ })

/-- The operator announces an address. -/
def serviceBlock : CBlock where
  hash := 43
  vtx := [sampleCoinbase, serviceTx]

/-- The owner replaces operator key 5 by 9, and then the replaced operator announces an address. -/
def replacedBlock : CBlock where
  hash := 43
  vtx := [sampleCoinbase, operatorKeyTx 100 9, serviceTx]

theorem serviceBlock_connect : ∃ c', Chain.Connect chainEnv registeredChain serviceBlock c' :=
  ⟨_, Chain.connect_of_accepts rfl (by decide +kernel)⟩

theorem signedByHolder_iff_service :
    SignedByHolder chainEnv registeredChain.lists registeredChain.tip serviceBlock.vtx.tail := by
  obtain ⟨c', hconnect⟩ := serviceBlock_connect
  refine (signedByHolder_iff chainEnv pairingHash_injective (numberedTxHash_injective _) 40 _ _
    registeredChain_run serviceBlock c' hconnect (by decide)).mpr ?_
  intro pre post tx hsplit h sig hash _ key hchange
  -- nothing stands before the only transaction
  have hpre : pre = [] := by
    cases pre with
    | nil => rfl
    | cons t pre => simp [serviceBlock] at hsplit
  rw [hpre] at hchange
  simp [lastOperatorChange] at hchange

/-- The block is accepted, and the replaced operator revives the masternode. -/
theorem signedByHolder_iff_replaced :
    (∃ tr, Run (Chain.Connect chainEnv) (Chain.genesis 40) tr registeredChain) ∧
    ∃ newList : CDeterministicMNList, Chain.Connect chainEnv registeredChain replacedBlock
        { tip := .next 43 registeredChain.tip
          lists := update registeredChain.lists (.next 43 registeredChain.tip)
            { newList with blockHash := 43 } } ∧
      (newList.mnMap[(100 : Uint256)]?).map (fun d => (d.pdmnState.pubKeyOperator,
        d.pdmnState.addr, isMNValid d)) = some (⟨some 9⟩, sampleAddr 7, true) ∧
      ¬ SignedByHolder chainEnv registeredChain.lists registeredChain.tip
        replacedBlock.vtx.tail := by
  refine ⟨⟨_, registeredChain_run⟩, _, Chain.connect_of_accepts rfl (by decide +kernel), rfl,
    fun hsigned => ?_⟩
  obtain ⟨l, dmn, hl, hdmn, hverify⟩ :=
    hsigned [operatorKeyTx 100 9] [] serviceTx rfl 100 ⟨some 5⟩ 0 rfl
  have hkey : (listAfter chainEnv registeredChain.lists registeredChain.tip
      [operatorKeyTx 100 9]).map (fun l => (l.mnMap[(100 : Uint256)]?).map
        (·.pdmnState.pubKeyOperator)) = .ok (some ⟨some 9⟩) := rfl
  rw [hl] at hkey
  have hkey' : (l.mnMap[(100 : Uint256)]?).map (·.pdmnState.pubKeyOperator) =
      some ⟨some 9⟩ := ok.inj hkey
  rw [hdmn, map_some, some.injEq] at hkey'
  rw [hkey'] at hverify
  exact absurd hverify (by decide)

end Absolute
