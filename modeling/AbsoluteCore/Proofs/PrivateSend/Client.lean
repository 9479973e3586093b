/-
A client that signs is paid what it puts in.

The check counts the pairs of an output of the transaction and an equal output of
the entry, and adds up their values.  For an entry without a repeated output the
pairs are the outputs of the transaction that go to the entry, so the sum that has
to agree with the entry is what they are worth.  Nothing in the loop changes the
outputs of the transaction, so a comparison made for one input holds for all of them.
-/
import AbsoluteCore.Spec.Mixing

namespace Absolute

open Fallible List Option Except

namespace CPrivateSendClientSession

/-! ### The two sums -/

theorem eq_of_addAmount {nValue x v : Int} (h : addAmount nValue x = .ok v) : v = nValue + x := by
  unfold addAmount at h
  by_cases hfits : FitsAmount (nValue + x)
  · rw [if_pos hfits, ok.injEq] at h
    exact h.symm
  · rw [if_neg hfits] at h
    cases h

/-- The inner loop adds the value of the output once for each equal one of the entry. -/
theorem foldlM_compareOutput {txoutFinal : CTxOut} {vecTxOut : List CTxOut} {found found' : Nat × Int}
    (h : vecTxOut.foldlM (compareOutput txoutFinal) found = .ok found') :
    found'.2 = found.2 + vecTxOut.count txoutFinal * txoutFinal.nValue := by
  rw [foldlM_sum Prod.snd (fun txout => if txout = txoutFinal then txout.nValue else 0) ?_ h,
    sum_map_ite_eq]
  · simp
  · intro found txout found' hpass
    unfold compareOutput at hpass
    by_cases heq : txoutFinal = txout
    · rw [if_pos heq, bind_eq_ok] at hpass
      obtain ⟨v, hv, hpass⟩ := hpass
      rw [← pure_eq_ok.mp hpass, if_pos heq.symm, ← heq]
      exact eq_of_addAmount hv
    · rw [if_neg heq, pure_eq_ok] at hpass
      rw [← hpass, if_neg (Ne.symm heq), add_zero]

variable {vout vecTxOut : List CTxOut} {txdsin : CTxDSIn} {env : ClientEnv}

/-- `nValue1`, for an entry whose outputs are all different. -/
theorem findOutputs_value (hnodup : vecTxOut.Nodup)
    {n : Nat} {nValue1 : Int} (h : findOutputs vout vecTxOut = .ok (n, nValue1)) :
    nValue1 = sumOutputs (vout.filter fun txout => txout ∈ vecTxOut) := by
  have hsum := foldlM_sum Prod.snd (fun txout => if txout ∈ vecTxOut then txout.nValue else 0) ?_ h
  · simpa [sum_map_ite, sumOutputs] using hsum
  · intro found txoutFinal found' hpass
    rw [foldlM_compareOutput hpass]
    by_cases hmem : txoutFinal ∈ vecTxOut
    · simp [hmem, count_eq_one_of_mem hnodup hmem]
    · simp [hmem, count_eq_zero_of_not_mem hmem]

theorem entryValue_value {nValue2 : Int}
    (h : entryValue vecTxOut = .ok nValue2) : nValue2 = sumOutputs vecTxOut := by
  have hsum := foldlM_sum id CTxOut.nValue (fun _ _ _ hpass => eq_of_addAmount hpass) h
  simpa [sumOutputs] using hsum

/-! ### One entry -/

theorem getElem?_of_findMyInput {vin : List CTxIn} {i : Nat}
    (h : findMyInput vin txdsin = some i) : vin[i]? = some txdsin.toCTxIn := by
  obtain ⟨⟨j, txin⟩, hfind, rfl⟩ := map_eq_some_iff.mp h
  obtain ⟨hget, heq⟩ := LastMatch.getElem?_of_find hfind
  rw [hget, beq_iff_eq.mp heq]

/-- What the loop over the inputs of an entry keeps: outputs, and what the signatures are for. -/
structure SignedFor (entry : CPrivateSendEntry) (vout : List CTxOut)
    (st : CMutableTransaction × List CTxIn) : Prop where
  vout_eq : st.1.vout = vout
  signs : ∀ sig ∈ st.2, entry.Signs sig
  paid : st.2 ≠ [] → entry.PaidBy vout

theorem SignedFor.signInput {entry : CPrivateSendEntry}
    {st st' : CMutableTransaction × List CTxIn} (hnodup : entry.vecTxOut.Nodup)
    (hmem : txdsin ∈ entry.vecTxDSIn) (hst : SignedFor entry vout st)
    (h : signInput env entry st txdsin = .ok st') : SignedFor entry vout st' := by
  unfold CPrivateSendClientSession.signInput at h
  cases hfind : findMyInput st.1.vin txdsin with
  | none =>
    rw [hfind, pure_eq_ok] at h
    exact h ▸ hst
  | some i =>
    simp only [hfind, bind_eq_ok] at h
    obtain ⟨⟨n, nValue1⟩, hfound, nValue2, hvalue, h⟩ := h
    by_cases hrefuse : n < entry.vecTxOut.length ∨ nValue1 ≠ nValue2
    · rw [if_pos hrefuse] at h
      cases h
    · rw [if_neg hrefuse, pure_eq_ok] at h
      have hequal : nValue1 = nValue2 := not_not.mp (not_or.mp hrefuse).2
      have hpaid : entry.PaidBy vout := by
        unfold CPrivateSendEntry.PaidBy
        rw [← hst.vout_eq, ← findOutputs_value hnodup hfound, hequal, entryValue_value hvalue]
      subst h
      refine ⟨hst.vout_eq, fun sig hsig => ?_, fun _ => hpaid⟩
      rcases mem_append.mp hsig with hsig | hsig
      · exact hst.signs sig hsig
      · -- the new signature is the input that was found, with another script
        rw [mem_toList, setScriptSig, getElem?_modify_eq, getElem?_of_findMyInput hfind] at hsig
        obtain rfl := some.inj hsig
        exact ⟨txdsin, hmem, rfl, rfl⟩

/-! ### All entries -/

theorem forall₂_signEntries (entries : List CPrivateSendEntry) :
    ∀ {tx tx' : CMutableTransaction} {groups : List (List CTxIn)},
      (∀ entry ∈ entries, entry.vecTxOut.Nodup) → tx.vout = vout →
      signEntries env entries tx = .ok (tx', groups) →
      Forall₂ (fun entry sigs => (∀ sig ∈ sigs, entry.Signs sig) ∧
        (sigs ≠ [] → entry.PaidBy vout)) entries groups := by
  induction entries with
  | nil =>
    intro tx tx' groups _ _ h
    rw [signEntries, pure_eq_ok, Prod.mk.injEq] at h
    rw [← h.2]
    exact List.Forall₂.nil
  | cons entry rest ih =>
    intro tx tx' groups hnodup hvout h
    simp only [signEntries, bind_eq_ok, pure_eq_ok, Prod.mk.injEq] at h
    obtain ⟨⟨mid, sigs⟩, hentry, ⟨last, groups'⟩, hrest, _, rfl⟩ := h
    have hdone : SignedFor entry vout (mid, sigs) :=
      foldlM_inv (SignedFor entry vout) entry.vecTxDSIn (tx, []) (mid, sigs)
        (fun _ ht _ _ hst hst' => hst.signInput (hnodup entry mem_cons_self) ht hst')
        ⟨hvout, by simp, by simp⟩ hentry
    exact List.Forall₂.cons ⟨hdone.signs, hdone.paid⟩
      (ih (fun e he => hnodup e (mem_cons_of_mem _ he)) hdone.vout_eq hrest)

/-- Sorting a transaction changes nothing about who is paid. -/
theorem paidBy_sortBIP69 (entry : CPrivateSendEntry) (tx : CMutableTransaction) :
    entry.PaidBy tx.sortBIP69.vout ↔ entry.PaidBy tx.vout := by
  have hperm : (tx.sortBIP69.vout.filter fun txout => txout ∈ entry.vecTxOut).Perm
      (tx.vout.filter fun txout => txout ∈ entry.vecTxOut) :=
    (perm_insertionSort _ _).filter _
  unfold CPrivateSendEntry.PaidBy
  rw [sumOutputs, (hperm.map CTxOut.nValue).sum_eq, ← sumOutputs]

/-- A call that sends signatures has gone through all entries. -/
theorem signFinalTransaction_eq_some {s s' : CPrivateSendClientSession}
    {finalTransactionNew : CTransaction} {sigs : List CTxIn}
    (h : s.signFinalTransaction env finalTransactionNew = .ok (s', some sigs)) :
    ∃ tx groups, signEntries env s.vecEntries finalTransactionNew.toMutable.sortBIP69
      = .ok (tx, groups) ∧ sigs = groups.flatten := by
  unfold signFinalTransaction at h
  by_cases hmn : (!s.mixingMasternode) = true
  · simp [hmn] at h
  · rw [if_neg hmn] at h
    by_cases hhash : env.getHash finalTransactionNew.toMutable.sortBIP69
        ≠ env.getHash finalTransactionNew.toMutable
    · simp [hhash] at h
    · simp only [if_neg hhash] at h
      cases hsign : signEntries env s.vecEntries finalTransactionNew.toMutable.sortBIP69 with
      | error e => cases e <;> simp [hsign] at h
      | ok r =>
        obtain ⟨tx, groups⟩ := r
        simp only [hsign] at h
        by_cases hempty : groups.flatten.isEmpty = true
        · simp [hempty] at h
        · simp only [if_neg hempty, ok.injEq, Prod.mk.injEq, some.injEq] at h
          exact ⟨tx, groups, rfl, h.2.symm⟩

/--
If `SignFinalTransaction` sends signatures, they are the ones made for the entries, one group for
each: the signatures of a group are for inputs of its entry, and an entry with a signature gets
from the proposed transaction exactly what its outputs are worth.
-/
theorem signFinalTransaction_paid (env : ClientEnv) (s s' : CPrivateSendClientSession)
    (finalTransactionNew : CTransaction) (sigs : List CTxIn)
    (hnodup : ∀ entry ∈ s.vecEntries, entry.vecTxOut.Nodup)
    (h : s.signFinalTransaction env finalTransactionNew = .ok (s', some sigs)) :
    ∃ tx groups, signEntries env s.vecEntries finalTransactionNew.toMutable.sortBIP69
        = .ok (tx, groups) ∧ sigs = groups.flatten ∧
      List.Forall₂ (fun entry group => (∀ sig ∈ group, entry.Signs sig) ∧
        (group ≠ [] → entry.PaidBy finalTransactionNew.vout)) s.vecEntries groups := by
  obtain ⟨tx, groups, hsign, hsigs⟩ := signFinalTransaction_eq_some h
  refine ⟨tx, groups, hsign, hsigs, ?_⟩
  refine (forall₂_signEntries s.vecEntries hnodup rfl hsign).imp fun entry group hgroup => ?_
  refine ⟨hgroup.1, fun hne => ?_⟩
  exact (paidBy_sortBIP69 entry finalTransactionNew.toMutable).mp (hgroup.2 hne)

/-- A wallet that numbers its signatures. -/
def numberingWallet : ClientEnv where
  getHash := fun tx => (tx.vin.map fun txin => txin.prevout.hash).foldl (fun h n => 100 * h + n) 0
  signSignature := fun _ _ nIn => [UInt8.ofNat (nIn + 1)]
  time := 100

/-- Two inputs of 10 coins each and two outputs of the same value. -/
def twoTens : CPrivateSendEntry where
  vecTxDSIn := [{ prevout := ⟨5, 0⟩, scriptSig := [], nSequence := 0 },
    { prevout := ⟨3, 1⟩, scriptSig := [], nSequence := 0 }]
  vecTxOut := [⟨1000010000, [1]⟩, ⟨1000010000, [2]⟩]
  txCollateral := {}

/-- A transaction with the two inputs and outputs, and with those of somebody else. -/
def mixedTens : CTransaction where
  nVersion := 2
  nType := .normal
  vin := [⟨⟨3, 1⟩, [], 0⟩, ⟨⟨4, 0⟩, [], 0⟩, ⟨⟨5, 0⟩, [], 0⟩]
  vout := [⟨1000010000, [1]⟩, ⟨1000010000, [2]⟩, ⟨1000010000, [3]⟩]
  nLockTime := 0
  vExtraPayload := .malformed []

theorem signFinalTransaction_paid_twoTens :
    ∃ s' sigs, ({ vecEntries := [twoTens], mixingMasternode := true } :
        CPrivateSendClientSession).signFinalTransaction numberingWallet mixedTens
          = .ok (s', some sigs) ∧ sigs.length = 2 ∧
      ∃ tx groups, signEntries numberingWallet [twoTens] mixedTens.toMutable.sortBIP69
          = .ok (tx, groups) ∧ sigs = groups.flatten ∧
        List.Forall₂ (fun entry group => (∀ sig ∈ group, entry.Signs sig) ∧
          (group ≠ [] → entry.PaidBy mixedTens.vout)) [twoTens] groups :=
  ⟨_, _, rfl, rfl, signFinalTransaction_paid numberingWallet
    { vecEntries := [twoTens], mixingMasternode := true } _ mixedTens _ (by decide) rfl⟩

end CPrivateSendClientSession

end Absolute
