/-
What the signatures of a mixing session are checked against.

An entry comes over the network without the scripts of the coins it spends, and
nothing fills them in, so `IsInputScriptSigValid` runs the script of a signature
against an empty one, at the place of the input among the entries.  What it lets
through is what leaves true on the stack by itself.  That is a check of the
signatures for coins whose scripts are empty, in the order of the entries.
-/
import AbsoluteCore.Proofs.PrivateSend.Session

namespace Absolute

open Fallible List Option CMutableTransaction CPrivateSendServer MixingEnv CTxIn

variable {env : MixingEnv}
variable {tx tx' : CMutableTransaction}

/-! ### Scripts of inputs do not matter for signatures -/

theorem CMutableTransaction.withoutSigs_modify (tx : CMutableTransaction) (nIn : Nat)
    (scriptSig : CScript) :
    ({ tx with vin := tx.vin.modify nIn fun t => { t with scriptSig := scriptSig } } :
      CMutableTransaction).withoutSigs = tx.withoutSigs := by
  have hvin : (tx.vin.modify nIn fun t => { t with scriptSig := scriptSig }).map
      (fun txin => { txin with scriptSig := [] })
      = tx.vin.map fun txin => { txin with scriptSig := [] } := by
    refine ext_getElem? fun j => ?_
    rw [getElem?_map, getElem?_map, getElem?_modify]
    cases tx.vin[j]? with
    | none => rfl
    | some txin => by_cases hj : nIn = j <;> simp [hj]
  simp [withoutSigs, hvin]

theorem MixingEnv.verifyInput_congr (h : tx'.withoutSigs = tx.withoutSigs) (nIn : Nat)
    (scriptSig scriptPubKey : CScript) :
    env.verifyInput tx' nIn scriptSig scriptPubKey = env.verifyInput tx nIn scriptSig scriptPubKey := by
  rw [verifyInput, checker, h]
  rfl

theorem map_key_of_withoutSigs (h : tx'.withoutSigs = tx.withoutSigs) :
    tx'.vin.map key = tx.vin.map key := by
  have hvin : tx'.withoutSigs.vin.map key = tx.withoutSigs.vin.map key := by rw [h]
  simp only [withoutSigs, List.map_map] at hvin
  exact hvin

/-- An input is satisfied at a place with its key. -/
theorem MixingEnv.satisfies_iff {txin : CTxIn} :
    env.Satisfies tx txin ↔ ∃ nIn out, (tx.vin.map key)[nIn]? = some txin.key ∧
      env.output txin.prevout = some out ∧
      env.verifyInput tx nIn txin.scriptSig out.scriptPubKey = true := by
  constructor
  · rintro ⟨nIn, at', out, hat, hprevout, hsequence, hout, hverify⟩
    refine ⟨nIn, out, ?_, hout, hverify⟩
    rw [getElem?_map, hat, map_some, key, key, hprevout, hsequence]
  · rintro ⟨nIn, out, hkey, hout, hverify⟩
    rw [getElem?_map, map_eq_some_iff] at hkey
    obtain ⟨at', hat, hkey⟩ := hkey
    rw [key_eq] at hkey
    exact ⟨nIn, at', out, hat, hkey.1, hkey.2, hout, hverify⟩

theorem MixingEnv.satisfies_congr (h : tx'.withoutSigs = tx.withoutSigs) (txin : CTxIn) :
    env.Satisfies tx' txin ↔ env.Satisfies tx txin := by
  simp only [satisfies_iff, map_key_of_withoutSigs h, verifyInput_congr h]

namespace CPrivateSendServer

variable {s s' : CPrivateSendServer} {txin : CTxIn} {i : ServerInput}
  {tr : List (CPrivateSendServer × ServerInput × CPrivateSendServer)}

/-! ### What one call checks -/

/-- No input knows the script of its coin. -/
def NoPrevPubKey (s : CPrivateSendServer) : Prop := ∀ txdsin ∈ s.inputs, txdsin.prevPubKey = []

/-- The check of a signature is one of its script alone. -/
theorem isInputScriptSigValid_iff (hs : NoPrevPubKey s) (txin : CTxIn) :
    s.isInputScriptSigValid env txin = true ↔ s.TrueAlone env txin := by
  unfold isInputScriptSigValid TrueAlone
  rw [LastMatch.find_map]
  cases hfind : LastMatch.find (fun txdsin : CTxDSIn => txdsin.prevout == txin.prevout) s.inputs with
  | none => simp
  | some x =>
    obtain ⟨nIn, txdsin⟩ := x
    obtain ⟨hget, hprevout⟩ := LastMatch.getElem?_of_find hfind
    have hkey : txdsin.prevPubKey = [] := hs txdsin (mem_of_getElem? hget)
    simp only [map_some, some.injEq, Prod.mk.injEq, beq_iff_eq.mp hprevout, and_true,
      hkey, verifyInput_congr (withoutSigs_modify s.entriesTx nIn _)]
    exact ⟨fun h => ⟨nIn, rfl, h⟩, fun ⟨_, h, hverify⟩ => h ▸ hverify⟩

/-! ### What signatures leave alone -/

theorem Signed.map_key (h : Signed s s') :
    (s'.inputs.map fun txdsin => txdsin.key) = s.inputs.map fun txdsin => txdsin.key :=
  h.map_inputs fun _ => rfl

theorem hasInput_iff : s.HasInput txin ↔ txin.key ∈ s.inputs.map fun txdsin => txdsin.key := by
  simp only [HasInput, List.mem_map, key, Prod.mk.injEq]

theorem Signed.entriesTx (h : Signed s s') :
    s'.entriesTx.withoutSigs = s.entriesTx.withoutSigs := by
  have hvin := h.map_inputs (f := fun txdsin => ({ txdsin.toCTxIn with scriptSig := [] } : CTxIn))
    fun _ => rfl
  have hvout := h.map_entries (f := CPrivateSendEntry.vecTxOut) fun _ => rfl
  simp only [withoutSigs, CPrivateSendServer.entriesTx, List.map_map,
    Function.comp_def, flatMap_def, hvin, hvout]

theorem Signed.trueAlone_iff (h : Signed s s') (txin : CTxIn) :
    s'.TrueAlone env txin ↔ s.TrueAlone env txin := by
  have hprevout := h.map_inputs (f := fun txdsin => txdsin.prevout) fun _ => rfl
  simp only [TrueAlone, hprevout, verifyInput_congr h.entriesTx]

theorem Signed.plainCoins (h : Signed s s') (hs : PlainCoins env s) : PlainCoins env s' := by
  have hprevout := h.map_inputs (f := fun txdsin => txdsin.prevout) fun _ => rfl
  refine ⟨hprevout ▸ hs.distinct, fun x hx => ?_, ?_⟩
  · have hmem := mem_map_of_mem (f := fun txdsin : CTxDSIn => txdsin.prevout) hx
    rw [hprevout] at hmem
    obtain ⟨a, ha, heq⟩ := mem_map.mp hmem
    rw [← heq]
    exact hs.scripts a ha
  · rw [h.final, h.entriesTx, hs.order]

/-- For plain coins the check is that of the coin. -/
theorem PlainCoins.satisfies (hs : PlainCoins env s) (hinput : s.HasInput txin)
    (halone : s.TrueAlone env txin) : env.Satisfies s.finalMutableTransaction txin := by
  obtain ⟨nIn, hfind, hverify⟩ := halone
  obtain ⟨txdsin, hmem, hprevout, hsequence⟩ := hinput
  obtain ⟨j, hj⟩ := mem_iff_getElem?.mp hmem
  -- the place that the check finds is the only one with this coin
  have hget : (s.inputs.map fun txdsin => txdsin.prevout)[j]? = some txin.prevout := by
    rw [getElem?_map, hj, map_some, hprevout]
  obtain rfl : j = nIn := (List.getElem?_inj (List.getElem?_eq_some_iff.mp hget).1 hs.distinct).mp
    (hget.trans (LastMatch.getElem?_of_find hfind).1.symm)
  obtain ⟨out, hout, hscript⟩ := map_eq_some_iff.mp (hs.scripts txdsin hmem)
  refine satisfies_iff.mpr ⟨j, out, ?_, hprevout ▸ hout, ?_⟩
  · rw [map_key_of_withoutSigs hs.order, CPrivateSendServer.entriesTx, List.map_map, getElem?_map, hj]
    exact congrArg some (key_eq.mpr ⟨hprevout, hsequence⟩)
  · rw [hscript, verifyInput_congr hs.order]
    exact hverify

theorem Signed.noPrevPubKey (h : Signed s s') (hs : NoPrevPubKey s) : NoPrevPubKey s' := by
  intro x hx
  have hmem := mem_map_of_mem (f := CTxDSIn.prevPubKey) hx
  rw [h.map_inputs fun _ => rfl] at hmem
  obtain ⟨a, ha, heq⟩ := mem_map.mp hmem
  rw [← heq]
  exact hs a ha

theorem Signed.nState (h : Signed s s') : s'.nState = s.nState := by
  obtain ⟨_, _, rfl⟩ := h.rest
  rfl

/-- The inputs of an accepted entry are as they came over the network. -/
theorem Accepts.mem_inputs {entry : CPrivateSendEntry}
    (h : Accepts env s i entry s') {x : CTxDSIn} (hx : x ∈ s'.inputs) : x ∈ s.inputs ∨ ∃ txin, x = CTxDSIn.unserialize txin := by
  obtain ⟨-, rfl⟩ := h.passes
  obtain ⟨pfrom, msg, -, -, rfl, -⟩ := h
  rw [inputs, flatMap_append] at hx
  refine (mem_append.mp hx).imp_right fun hnew => ?_
  simp only [CPrivateSendEntry.unserialize, flatMap_singleton, List.mem_map] at hnew
  obtain ⟨txin, -, rfl⟩ := hnew
  exact ⟨txin, rfl⟩

theorem Step.noPrevPubKey (h : Step env s i s') (hs : NoPrevPubKey s) : NoPrevPubKey s' := by
  refine Step.invariant (fun t ht => ?_) (fun t t' hmove ht => ?_) h
  · cases ht with
    | nothing => exact hs
    | entry haccept =>
      intro x hx
      rcases haccept.mem_inputs hx with hold | ⟨txin, rfl⟩
      · exact hs x hold
      · rfl
    | signatures hmsg hversion =>
      exact (signed_addScriptSigs env _ s).noPrevPubKey hs
  · unfold NoPrevPubKey inputs
    rcases hmove.vecEntries with heq | hnil
    · rw [heq]
      exact ht
    · rw [hnil]
      exact fun txdsin htxdsin => by cases htxdsin

/-! ### What the final transaction has -/

/-- No signature came in before the final transaction was made, and since then only good ones. -/
structure WellSigned (env : MixingEnv) (s : CPrivateSendServer) : Prop where
  inputs : s.nState = .signing → (s.finalMutableTransaction.vin.map CTxIn.key).Perm
    (s.inputs.map fun txdsin => txdsin.key)
  unsigned : s.nState ≠ .signing → ∀ txdsin ∈ s.inputs, txdsin.fHasSig = false
  signed : s.nState = .signing → ∀ txdsin ∈ s.inputs, txdsin.fHasSig = true →
    ∀ txin ∈ s.finalMutableTransaction.vin, txin.key = txdsin.key →
      env.Satisfies s.finalMutableTransaction txin

theorem mem_map_key {vin : List CTxIn} (h : txin ∈ vin) : txin.key ∈ vin.map key :=
  mem_map_of_mem h

/-- A signature for plain coins keeps the session well signed. -/
theorem WellSigned.addScriptSig (hs : WellSigned env s) (hstate : s.nState = .signing)
    (hprev : NoPrevPubKey s) (hplain : PlainCoins env s) : WellSigned env (s.addScriptSig env txin).1 := by
  have hsigned := signed_addScriptSig env s txin
  have hstate' : (s.addScriptSig env txin).1.nState = .signing := hsigned.nState.trans hstate
  refine ⟨fun _ => ?_, fun hne => absurd hstate' hne, fun _ => ?_⟩
  · rw [map_key_of_withoutSigs hsigned.final, hsigned.map_key]
    exact hs.inputs hstate
  · intro txdsin' hmem' hsig x' hx' hkey
    rw [satisfies_congr hsigned.final]
    rcases addScriptSig_cases env s txin with heq | ⟨hvalid, heq⟩
    · rw [heq] at hmem' hx'
      exact hs.signed hstate txdsin' hmem' hsig x' hx' hkey
    · rw [heq] at hmem' hx'
      have halone : s.TrueAlone env txin := (isInputScriptSigValid_iff hprev txin).mp hvalid
      -- the inputs that took the signature are those like `txin`
      have hold : txdsin'.key ≠ txin.key → txdsin' ∈ s.inputs := fun hne =>
        (mem_withSig hmem').resolve_right fun htaken => hne htaken.1
      obtain ⟨x, hx, rfl⟩ := mem_map.mp hx'
      have hinput : s.HasInput x := by
        rw [hasInput_iff]
        exact (hs.inputs hstate).mem_iff.mp (mem_map_key hx)
      by_cases hsame : x.prevout = txin.prevout ∧ x.nSequence = txin.nSequence
      · have hnew : setFinalSig txin x = txin := by
          rw [setFinalSig, if_pos hsame, hsame.1, hsame.2]
        rw [hnew]
        refine hplain.satisfies ?_ halone
        rw [hasInput_iff] at hinput ⊢
        rwa [key, hsame.1, hsame.2] at hinput
      · rw [setFinalSig, if_neg hsame] at hkey ⊢
        refine hs.signed hstate txdsin' (hold fun heq => hsame ?_) hsig x hx hkey
        rw [← hkey] at heq
        exact key_eq.mp heq

theorem WellSigned.addScriptSigs {vecTxIn : List CTxIn} :
    ∀ {s : CPrivateSendServer}, WellSigned env s → s.nState = .signing → NoPrevPubKey s →
      PlainCoins env s → WellSigned env (addScriptSigs env vecTxIn s).1 := by
  induction vecTxIn with
  | nil => intro s hs _ _ _; exact hs
  | cons txin rest ih =>
    intro s hs hstate hprev hplain
    have hstep : WellSigned env (s.addScriptSig env txin).1 := hs.addScriptSig hstate hprev hplain
    have hsigned := signed_addScriptSig env s txin
    rw [CPrivateSendServer.addScriptSigs]
    cases hadd : s.addScriptSig env txin with
    | mk t taken =>
      rw [hadd] at hstep hsigned
      cases taken with
      | true =>
        exact ih hstep (hsigned.nState.trans hstate) (hsigned.noPrevPubKey hprev)
          (hsigned.plainCoins hplain)
      | false => exact hstep

/-- What is known of a session before its final transaction is made. -/
theorem wellSigned_of_unsigned (hstate : s.nState ≠ .signing)
    (h : ∀ txdsin ∈ s.inputs, txdsin.fHasSig = false) : WellSigned env s where
  inputs := fun h => absurd h hstate
  unsigned := fun _ => h
  signed := fun h => absurd h hstate

theorem WellSigned.move (h : Move s s') (hwf : WellFormed s) (hs : WellSigned env s) :
    WellSigned env s' := by
  cases h with
  | clear view _ => exact wellSigned_of_unsigned (by simp [setNull]) (fun _ h => by cases h)
  | queues _ q => exact ⟨hs.inputs, hs.unsigned, hs.signed⟩
  | start view _ id max dsa hid =>
    refine wellSigned_of_unsigned (by simp) fun txdsin htxdsin => ?_
    rw [CPrivateSendServer.inputs, (hwf hid).entries] at htxdsin
    cases htxdsin
  | join _ c hne => exact ⟨hs.inputs, hs.unsigned, hs.signed⟩
  | resize _ n hstate =>
    have hne : s.nState ≠ .signing := by rcases hstate with h | h <;> simp [h]
    exact wellSigned_of_unsigned hne (hs.unsigned hne)
  | accept view _ hstate =>
    exact wellSigned_of_unsigned (by simp [setState]) (hs.unsigned (by simp [hstate]))
  | finalise view _ hstate hfull =>
    have hunsigned := hs.unsigned (by simp [hstate])
    refine ⟨fun _ => ?_, fun hne => absurd rfl hne, fun _ => ?_⟩
    · have hperm := (perm_insertionSort leBIP69 (s.inputs.map CTxDSIn.toCTxIn)).map
        key
      rwa [List.map_map] at hperm
    · intro txdsin htxdsin hsig
      rw [hunsigned txdsin htxdsin] at hsig
      cases hsig

theorem WellSigned.incoming (h : Incoming env s i s') (hfull : Full s)
    (hprev : NoPrevPubKey s) (hgood : GoodSignatures env s i) (hs : WellSigned env s) :
    WellSigned env s' := by
  cases h with
  | nothing => exact hs
  | entry haccept =>
    obtain ⟨hpass, rfl⟩ := haccept.passes
    have hne : s.nState ≠ .signing := fun hstate =>
      absurd hpass.room (Nat.not_lt.mpr (hfull hstate))
    refine wellSigned_of_unsigned hne fun x hx => ?_
    rcases haccept.mem_inputs hx with hold | ⟨txin, rfl⟩
    · exact hs.unsigned hne x hold
    · rfl
  | signatures hmsg hversion =>
    obtain ⟨hstate, hplain⟩ := hgood _ _ hmsg
    exact hs.addScriptSigs hstate hprev hplain

/-- What holds along a run whose signatures are good. -/
theorem wellSigned_of_run
    (h : Run env tr s) (hgood : ∀ x ∈ tr, GoodSignatures env x.1 x.2.1) : WellSigned env s := by
  have hinv := (h.and_mem hgood).invariant
    (fun t => WellFormed t ∧ Full t ∧ NoPrevPubKey t ∧ WellSigned env t) ?_ ?_
  · exact hinv.1.2.2.2
  · intro t i t' ht hstep
    obtain ⟨hwf, hfull, hprev, hsigned⟩ := ht
    refine ⟨hstep.1.wellFormed hwf, hstep.1.full hfull, hstep.1.noPrevPubKey hprev, ?_⟩
    exact (Step.invariant (I := fun t => WellFormed t ∧ WellSigned env t)
      (fun u hu => ⟨hwf.incoming hu, hsigned.incoming hu hfull hprev hstep.2⟩)
      (fun u u' hmove hu => ⟨hu.1.move hmove, hu.2.move hmove hu.1⟩) hstep.1).2
  · refine ⟨fun _ => ⟨rfl, rfl, rfl⟩, fun hstate => (by cases hstate), ?_, ?_⟩
    · intro txdsin h
      cases h
    · refine wellSigned_of_unsigned (by decide) fun txdsin h => ?_
      cases h

theorem noPrevPubKey_of_run (h : Run env tr s) : NoPrevPubKey s :=
  (h.invariant NoPrevPubKey (fun _ _ _ ht hstep => hstep.noPrevPubKey ht) fun _ h => by cases h).1

/--
**Signatures for plain coins.**  In every run whose messages with signatures come for a final
transaction of plain coins, `AddScriptSig` takes only signatures that satisfy the coin they are for,
and a transaction that is complete after some of them is validly signed.
-/
theorem addScriptSig_satisfies (env : MixingEnv) {s : CPrivateSendServer}
    {tr : List (CPrivateSendServer × ServerInput × CPrivateSendServer)} (h : Run env tr s)
    (hgood : ∀ x ∈ tr, GoodSignatures env x.1 x.2.1) (hstate : s.nState = .signing)
    (hplain : PlainCoins env s) :
    (∀ txin, (s.addScriptSig env txin).2 = true → env.Satisfies s.finalMutableTransaction txin) ∧
    ∀ vecTxIn, (addScriptSigs env vecTxIn s).1.isSignaturesComplete = true →
      ∀ txin ∈ (addScriptSigs env vecTxIn s).1.finalMutableTransaction.vin,
        env.Satisfies (addScriptSigs env vecTxIn s).1.finalMutableTransaction txin := by
  have hprev := noPrevPubKey_of_run h
  refine ⟨fun txin htaken => ?_, fun vecTxIn hcomplete txin htxin => ?_⟩
  · obtain ⟨hvalid, hinput⟩ := of_addScriptSig_eq_true htaken
    exact hplain.satisfies hinput ((isInputScriptSigValid_iff hprev txin).mp hvalid)
  · have hsigned : WellSigned env (addScriptSigs env vecTxIn s).1 :=
      (wellSigned_of_run h hgood).addScriptSigs hstate hprev hplain
    have hstate' := (signed_addScriptSigs env vecTxIn s).nState.trans hstate
    have hkey := (hsigned.inputs hstate').mem_iff.mp (mem_map_key htxin)
    obtain ⟨txdsin, htxdsin, hkey⟩ := mem_map.mp hkey
    have hsig : txdsin.fHasSig = true := all_eq_true.mp hcomplete txdsin htxdsin
    exact hsigned.signed hstate' txdsin htxdsin hsig txin htxin hkey.symm

/-! ### Sessions with and without bad signatures -/

/-- Three clients register and send an entry with one coin each. -/
def untilSigning : List ServerInput :=
  registration ++
    [send 1 (.dsVin (client 1) (clientEntry 1 [0])), send 1 (.dsVin (client 2) (clientEntry 2 [0])),
      send 1 (.dsVin (client 3) (clientEntry 3 [0]))]

/-- Coins with empty scripts. -/
def plainEnv : MixingEnv :=
  { mixingEnv with
    transactions := fun hash =>
      some { vout := List.replicate 2 ⟨if hash < 10 then 100001 else 40000, []⟩ } }

/-- After the signature of a first client, those of the others make the transaction complete. -/
theorem addScriptSig_satisfies_plain :
    let inputs := untilSigning ++ [send 2 (.dsSignFinalTx (client 1) [⟨⟨1, 0⟩, [0x51], 0⟩])]
    let vecTxIn : List CTxIn := [⟨⟨2, 0⟩, [0x52], 0⟩, ⟨⟨3, 0⟩, [0x53], 0⟩]
    ∃ s, Run plainEnv (trace plainEnv inputs {}) s ∧
      (addScriptSigs plainEnv vecTxIn s).1.isSignaturesComplete = true ∧
      (addScriptSigs plainEnv vecTxIn s).1.finalMutableTransaction.vin.length = 3 ∧
      ∀ txin ∈ (addScriptSigs plainEnv vecTxIn s).1.finalMutableTransaction.vin,
        plainEnv.Satisfies (addScriptSigs plainEnv vecTxIn s).1.finalMutableTransaction txin := by
  intro inputs vecTxIn
  obtain ⟨s, hs, hstate, hplain, hcomplete, hlength⟩ :
      ∃ s, replay plainEnv inputs {} = .ok s ∧ s.nState = .signing ∧ PlainCoins plainEnv s ∧
        (addScriptSigs plainEnv vecTxIn s).1.isSignaturesComplete = true ∧
        (addScriptSigs plainEnv vecTxIn s).1.finalMutableTransaction.vin.length = 3 :=
    ⟨_, rfl, rfl, ⟨by decide, by decide, rfl⟩, rfl, rfl⟩
  have hall : ∀ x ∈ trace plainEnv inputs {}, (match x.2.1.message with
      | .dsSignFinalTx _ _ => decide (x.1.nState = .signing ∧ PlainCoins plainEnv x.1)
      | _ => true) = true := by
    decide +kernel
  have hgood : ∀ x ∈ trace plainEnv inputs {}, GoodSignatures plainEnv x.1 x.2.1 := by
    intro x hx pfrom vecTxIn hmsg
    have hplain := hall x hx
    rw [hmsg] at hplain
    exact of_decide_eq_true hplain
  exact ⟨s, run_of_replay hs, hcomplete, hlength,
    (addScriptSig_satisfies plainEnv (run_of_replay hs) hgood hstate hplain).2 vecTxIn hcomplete⟩

/-- Anybody can occupy the input of a client with a script that pushes true. -/
theorem addScriptSig_takes_badSig :
    ∃ tr s, Run mixingEnv tr s ∧ s.nState = .signing ∧
      (s.addScriptSig mixingEnv ⟨⟨1, 0⟩, [0x51], 0⟩).2 = true ∧
      ¬ mixingEnv.Satisfies s.finalMutableTransaction ⟨⟨1, 0⟩, [0x51], 0⟩ := by
  obtain ⟨s, hs, hstate, htaken, hlength, hverify⟩ :
      ∃ s, replay mixingEnv untilSigning {} = .ok s ∧ s.nState = .signing ∧
        (s.addScriptSig mixingEnv ⟨⟨1, 0⟩, [0x51], 0⟩).2 = true ∧
        s.finalMutableTransaction.vin.length = 3 ∧
        ∀ nIn < 3, mixingEnv.verifyInput s.finalMutableTransaction nIn [0x51] (clientScript 1)
          = false :=
    ⟨_, rfl, rfl, rfl, rfl, by decide⟩
  refine ⟨_, s, run_of_replay hs, hstate, htaken, ?_⟩
  rintro ⟨nIn, at', out, hat, -, -, hout, hsatisfied⟩
  obtain rfl : ⟨100001, clientScript 1⟩ = out := some.inj hout
  cases hsatisfied

end CPrivateSendServer

end Absolute
