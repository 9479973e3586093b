/-
What an accepted coinbase pays to the masternode.

`IsTransactionValid` looks each expected payment up among all outputs.  Two payments that are the
same output are found at one place, so the masternode is paid in full exactly if it and its
operator do not expect the same output (`isTransactionValid_paysMasternode_iff`).
-/
import AbsoluteCore.Spec.MasternodePayments
import AbsoluteCore.Proofs.Evo.NewList
import AbsoluteCore.Proofs.Validation.Amounts

namespace Absolute

open Fallible List Option Except Int

namespace MNPaymentsEnv

variable {mp : MNPaymentsEnv} {dmn : CDeterministicMN} {op share nBlockHeight blockReward : Int}

/-! ### The share of the operator -/

/-- The quotient lies between nothing and the whole, on whichever side of zero the whole is. -/
theorem tdiv_bounds (share : Int) {n : Nat} (hn : n ≤ 10000) :
    (0 ≤ share → 0 ≤ (share * n).tdiv 10000 ∧ (share * n).tdiv 10000 ≤ share) ∧
      (share ≤ 0 → share ≤ (share * n).tdiv 10000 ∧ (share * n).tdiv 10000 ≤ 0) := by
  have hcast : (n : Int) ≤ 10000 := by exact_mod_cast hn
  have hnonneg : (0 : Int) ≤ n := Int.natCast_nonneg n
  constructor
  · intro hshare
    have hlow : 0 ≤ share * n := mul_nonneg hshare hnonneg
    have hhigh : share * n ≤ share * 10000 := mul_le_mul_of_nonneg_left hcast hshare
    rw [Int.tdiv_eq_ediv_of_nonneg hlow]
    omega
  · intro hshare
    have hhigh : share * n ≤ 0 := mul_nonpos_of_nonpos_of_nonneg hshare hnonneg
    have hlow : share * 10000 ≤ share * n := mul_le_mul_of_nonpos_left hcast hshare
    have hneg : (share * n).tdiv 10000 = -(-(share * n) / 10000) := by
      rw [← Int.tdiv_eq_ediv_of_nonneg (by omega), Int.neg_tdiv, neg_neg]
    omega

theorem operatorReward_cases (h : operatorReward dmn share = .ok op) :
    (dmn.nOperatorReward ≠ 0 ∧ dmn.pdmnState.scriptOperatorPayout ≠ [] ∧
      FitsAmount (share * dmn.nOperatorReward) ∧ op = (share * dmn.nOperatorReward).tdiv 10000) ∨
      op = 0 := by
  unfold operatorReward at h
  split at h
  · next hoperator =>
      obtain ⟨product, hproduct, hop⟩ := bind_eq_ok.mp h
      obtain ⟨hfits, rfl⟩ := amount_eq_ok.mp hproduct
      rw [pure_eq_ok] at hop
      exact .inl ⟨hoperator.1, hoperator.2, hfits, hop.symm⟩
  · rw [pure_eq_ok] at h
    exact .inr h.symm

theorem operatorReward_bounds (hreward : dmn.nOperatorReward ≤ 10000)
    (h : operatorReward dmn share = .ok op) :
    (0 ≤ share → 0 ≤ op ∧ op ≤ share) ∧ (share ≤ 0 → share ≤ op ∧ op ≤ 0) := by
  rcases operatorReward_cases h with ⟨-, -, -, rfl⟩ | rfl
  · exact tdiv_bounds share hreward
  · omega

/-! ### The expected payments -/

theorem sumValues_payment (nValue : Int) (script : CScript) :
    sumValues (payment nValue script) = max nValue 0 := by
  unfold payment
  split
  · show nValue + 0 = max nValue 0
    omega
  · rw [sumValues_nil]
    omega

theorem mem_payment {nValue : Int} {script : CScript} {out : CTxOut} :
    out ∈ payment nValue script ↔ 0 < nValue ∧ out = ⟨nValue, script⟩ := by
  unfold payment
  split
  · next hpos => simp [hpos]
  · next hpos => simp [hpos]

/-- The payments that `GetBlockTxOuts` returns for a payee, with the share of its operator. -/
theorem getBlockTxOuts_eq_ok {expected : Option (List CTxOut)}
    (hpayee : (mp.getListBefore nBlockHeight).getMNPayee = some dmn)
    (h : mp.getBlockTxOuts nBlockHeight blockReward = .ok expected) :
    ∃ op, operatorReward dmn (mp.getMasternodePayment nBlockHeight blockReward) = .ok op ∧
      expected = some (payment (mp.getMasternodePayment nBlockHeight blockReward - op)
        dmn.pdmnState.scriptPayout ++ payment op dmn.pdmnState.scriptOperatorPayout) := by
  unfold getBlockTxOuts at h
  rw [hpayee] at h
  obtain ⟨op, hop, hexpected⟩ := bind_eq_ok.mp h
  rw [pure_eq_ok] at hexpected
  exact ⟨op, hop, hexpected.symm⟩

section

variable {share op : Int}

theorem sumValues_expected (hreward : dmn.nOperatorReward ≤ 10000)
    (hop : operatorReward dmn share = .ok op) :
    sumValues (payment (share - op) dmn.pdmnState.scriptPayout ++
      payment op dmn.pdmnState.scriptOperatorPayout) = max share 0 := by
  obtain ⟨hpos, hneg⟩ := operatorReward_bounds hreward hop
  rw [sumValues_append, sumValues_payment, sumValues_payment]
  omega

theorem equalShares_of_not_nodup (hop : operatorReward dmn share = .ok op)
    (hdup : ¬ (payment (share - op) dmn.pdmnState.scriptPayout ++
      payment op dmn.pdmnState.scriptOperatorPayout).Nodup) : EqualShares dmn share := by
  have hboth : ∃ out, out ∈ payment (share - op) dmn.pdmnState.scriptPayout ∧
      out ∈ payment op dmn.pdmnState.scriptOperatorPayout := by
    by_contra hnone
    push Not at hnone
    apply hdup
    rw [nodup_append]
    refine ⟨?_, ?_, ?_⟩
    · unfold payment
      split <;> simp
    · unfold payment
      split <;> simp
    · intro a ha b hb hab
      subst hab
      exact hnone a ha hb
  obtain ⟨out, hmn, hoper⟩ := hboth
  obtain ⟨hmnpos, rfl⟩ := mem_payment.mp hmn
  obtain ⟨hoppos, hsame⟩ := mem_payment.mp hoper
  simp only [CTxOut.mk.injEq] at hsame
  obtain ⟨hvalue, hscript⟩ := hsame
  rcases operatorReward_cases hop with ⟨-, hne, hfits, hdiv⟩ | hzero
  · have hnonneg : 0 ≤ share * dmn.nOperatorReward :=
      mul_nonneg (by omega) (natCast_nonneg _)
    rw [tdiv_eq_ediv_of_nonneg hnonneg] at hdiv
    exact ⟨hscript.symm, hne, hfits, by omega, by omega⟩
  · omega

theorem expected_of_equalShares (h : EqualShares dmn share) :
    ∃ out : CTxOut, operatorReward dmn share = .ok (share * dmn.nOperatorReward / 10000) ∧
      payment (share - share * dmn.nOperatorReward / 10000) dmn.pdmnState.scriptPayout = [out] ∧
      payment (share * dmn.nOperatorReward / 10000) dmn.pdmnState.scriptOperatorPayout =
        [out] := by
  have hpos := h.pos
  have hhalf := h.half
  have hne : dmn.nOperatorReward ≠ 0 := by
    intro hzero
    rw [hzero] at hpos
    simp at hpos
  have hnonneg : 0 ≤ share * dmn.nOperatorReward := mul_nonneg (by omega) (natCast_nonneg _)
  refine ⟨⟨share * dmn.nOperatorReward / 10000, dmn.pdmnState.scriptPayout⟩, ?_, ?_, ?_⟩
  · unfold operatorReward
    rw [if_pos ⟨hne, h.nonempty⟩, amount_eq_ok.mpr ⟨h.fits, rfl⟩, ok_bind,
      tdiv_eq_ediv_of_nonneg hnonneg]
    rfl
  · have hrest : share - share * dmn.nOperatorReward / 10000 =
        share * dmn.nOperatorReward / 10000 := by omega
    rw [hrest, payment, if_pos hpos]
  · rw [h.script, payment, if_pos hpos]

end

variable {expected vout : List CTxOut} (scriptOperatorPayout : CScript)

/-! ### Accepted coinbases -/

theorem findPayees_eq_true :
    mp.findPayees vout expected = .ok true ↔ ∀ out ∈ expected, out ∈ vout := by
  induction expected with
  | nil => simp [findPayees]
  | cons out expected ih =>
    rw [findPayees, forall_mem_cons]
    by_cases hmem : out ∈ vout
    · rw [if_pos hmem, ih]
      simp [hmem]
    · simp only [hmem, false_and, iff_false]
      intro h
      obtain ⟨_, -, hfalse⟩ := bind_eq_ok.mp h
      cases hfalse

theorem exists_injective_of_nodup (hnodup : expected.Nodup)
    (hfound : ∀ out ∈ expected, out ∈ vout) :
    ∃ f : Fin expected.length → Fin vout.length,
      Function.Injective f ∧ ∀ i, vout.get (f i) = expected.get i := by
  have hplace : ∀ i : Fin expected.length, ∃ j, vout.get j = expected.get i := by
    intro i
    exact mem_iff_get.mp (hfound _ (get_mem expected i))
  choose f hf using hplace
  refine ⟨f, ?_, hf⟩
  intro i j hij
  apply hnodup.injective_get
  rw [← hf i, ← hf j, hij]

theorem paidTo_ge (hnodup : expected.Nodup) (hfound : ∀ out ∈ expected, out ∈ vout)
    (hscript : ∀ out ∈ expected, out.scriptPubKey = dmn.pdmnState.scriptPayout ∨
      out.scriptPubKey = dmn.pdmnState.scriptOperatorPayout)
    (hnonneg : ∀ out ∈ vout, 0 ≤ out.nValue) : sumValues expected ≤ paidTo dmn vout := by
  have hsub : expected.Subperm (vout.filter fun out =>
      out.scriptPubKey = dmn.pdmnState.scriptPayout ∨
        out.scriptPubKey = dmn.pdmnState.scriptOperatorPayout) := by
    apply subperm_of_subset hnodup
    intro out hout
    rw [mem_filter]
    exact ⟨hfound out hout, decide_eq_true (hscript out hout)⟩
  obtain ⟨l, hperm, hsublist⟩ := hsub
  have hsum : sumValues expected = (l.map (·.nValue)).sum :=
    (hperm.symm.map _).sum_eq
  rw [hsum]
  apply (hsublist.map (·.nValue)).sum_le_sum
  intro v hv
  obtain ⟨out, hout, rfl⟩ := mem_map.mp hv
  exact hnonneg out (mem_filter.mp hout).1

theorem paysMasternode_of_nodup (hreward : dmn.nOperatorReward ≤ 10000)
    (hop : operatorReward dmn share = .ok op)
    (hnodup : (payment (share - op) dmn.pdmnState.scriptPayout ++
      payment op dmn.pdmnState.scriptOperatorPayout).Nodup)
    (hfound : ∀ out ∈ payment (share - op) dmn.pdmnState.scriptPayout ++
      payment op dmn.pdmnState.scriptOperatorPayout, out ∈ vout) :
    PaysMasternode dmn share (payment (share - op) dmn.pdmnState.scriptPayout ++
      payment op dmn.pdmnState.scriptOperatorPayout) vout := by
  refine ⟨exists_injective_of_nodup hnodup hfound, ?_⟩
  intro hnonneg
  have hsum := sumValues_expected hreward hop
  have hscript : ∀ out ∈ payment (share - op) dmn.pdmnState.scriptPayout ++
      payment op dmn.pdmnState.scriptOperatorPayout, out.scriptPubKey = dmn.pdmnState.scriptPayout ∨
        out.scriptPubKey = dmn.pdmnState.scriptOperatorPayout := by
    intro out hout
    rcases mem_append.mp hout with hout | hout
    · obtain ⟨-, rfl⟩ := mem_payment.mp hout
      exact .inl rfl
    · obtain ⟨-, rfl⟩ := mem_payment.mp hout
      exact .inr rfl
  have hle := paidTo_ge hnodup hfound hscript hnonneg
  omega

theorem isTransactionValid_of_getBlockTxOuts {txNew : CTransaction}
    (henforced : mp.env.isDIP3Enforced nBlockHeight = true)
    (houts : mp.getBlockTxOuts nBlockHeight blockReward = .ok (some expected)) :
    mp.isTransactionValid txNew nBlockHeight blockReward = mp.findPayees txNew.vout expected := by
  unfold isTransactionValid
  rw [henforced, if_neg (by simp), houts]
  rfl

/-- A coinbase whose only output is the given one. -/
def onePayment (out : CTxOut) : CTransaction where
  nVersion := 2
  nType := .normal
  vin := [⟨COutPoint.null, [], 0xffffffff⟩]
  vout := [out]
  nLockTime := 0
  vExtraPayload := .malformed []
  vout_size := by simp [maxSize]

/-- Each coinbase that is accepted pays the masternode in full, in outputs of their own, exactly
if the masternode and its operator do not expect the same output. -/
theorem isTransactionValid_paysMasternode_iff (mp : MNPaymentsEnv) (dmn : CDeterministicMN)
    (nBlockHeight blockReward : Int) (henforced : mp.env.isDIP3Enforced nBlockHeight = true)
    (hpayee : (mp.getListBefore nBlockHeight).getMNPayee = some dmn)
    (hreward : dmn.nOperatorReward ≤ 10000) :
    (∀ txNew, mp.isTransactionValid txNew nBlockHeight blockReward = .ok true →
        ∃ expected, mp.getBlockTxOuts nBlockHeight blockReward = .ok (some expected) ∧
          PaysMasternode dmn (mp.getMasternodePayment nBlockHeight blockReward) expected
            txNew.vout) ↔
      ¬ EqualShares dmn (mp.getMasternodePayment nBlockHeight blockReward) := by
  constructor
  · intro h hequal
    obtain ⟨out, hop, hmn, hoper⟩ := expected_of_equalShares hequal
    have houts : mp.getBlockTxOuts nBlockHeight blockReward = .ok (some [out, out]) := by
      unfold getBlockTxOuts
      rw [hpayee]
      dsimp only
      rw [hop, ok_bind, hmn, hoper]
      rfl
    have hvalid : mp.isTransactionValid (onePayment out) nBlockHeight blockReward = .ok true := by
      rw [isTransactionValid_of_getBlockTxOuts henforced houts, findPayees_eq_true]
      simp [onePayment]
    obtain ⟨expected, hexpected, hpays⟩ := h (onePayment out) hvalid
    rw [houts] at hexpected
    obtain rfl := some.inj (ok.inj hexpected)
    -- the one output would have to stand at two places
    obtain ⟨f, hinj, -⟩ := hpays.distinct
    have hcard := Fintype.card_le_of_injective f hinj
    simp [onePayment] at hcard
  · intro hunequal txNew hvalid
    obtain ⟨expected, hexpected⟩ :
        ∃ expected, mp.getBlockTxOuts nBlockHeight blockReward = .ok expected := by
      unfold isTransactionValid at hvalid
      rw [henforced, if_neg (by simp)] at hvalid
      obtain ⟨expected, hexpected, -⟩ := bind_eq_ok.mp hvalid
      exact ⟨expected, hexpected⟩
    obtain ⟨op, hop, rfl⟩ := getBlockTxOuts_eq_ok hpayee hexpected
    refine ⟨_, hexpected, ?_⟩
    rw [isTransactionValid_of_getBlockTxOuts henforced hexpected, findPayees_eq_true] at hvalid
    apply paysMasternode_of_nodup hreward hop _ hvalid
    by_contra hdup
    exact hunequal (equalShares_of_not_nodup hop hdup)

/-! ### Half of the share for the operator -/

/-- A masternode that shares its reward with its operator in equal parts. -/
def halvingMN : CDeterministicMN :=
  { registeredMN 1 0 with
    nOperatorReward := 5000
    pdmnState := { (registeredMN 1 0).pdmnState with
      scriptPayout := [1]
      scriptOperatorPayout := scriptOperatorPayout } }

noncomputable def halvingEnv : MNPaymentsEnv where
  env := sampleEnv []
  nMasternodePaymentsIncreaseBlock := 6720
  nMasternodePaymentsIncreasePeriod := 6720
  getListBefore := fun _ => { mnMap := Std.ExtTreeMap.ofList [(1, halvingMN scriptOperatorPayout)] }

theorem isTransactionValid_paysMasternode_twoScripts :
    ((halvingEnv [2]).getListBefore 100).getMNPayee = some (halvingMN [2]) ∧
    ∀ txNew, (halvingEnv [2]).isTransactionValid txNew 100 (30 * coin) = .ok true →
      ∃ expected, (halvingEnv [2]).getBlockTxOuts 100 (30 * coin) = .ok (some expected) ∧
        PaysMasternode (halvingMN [2]) ((halvingEnv [2]).getMasternodePayment 100 (30 * coin))
          expected txNew.vout := by
  refine ⟨rfl, (isTransactionValid_paysMasternode_iff (halvingEnv [2]) (halvingMN [2]) 100
    (30 * coin) rfl rfl (by decide)).mpr ?_⟩
  intro h
  exact absurd h.script (by decide)

/-- The masternode gets six coins in place of twelve where both parts go to one script. -/
theorem isTransactionValid_oneScript :
    (halvingEnv [1]).getBlockTxOuts 100 (30 * coin) =
        .ok (some [⟨6 * coin, [1]⟩, ⟨6 * coin, [1]⟩]) ∧
      (halvingEnv [1]).isTransactionValid (onePayment ⟨6 * coin, [1]⟩) 100 (30 * coin) =
        .ok true ∧
      (halvingEnv [1]).getMasternodePayment 100 (30 * coin) = 12 * coin ∧
      paidTo (halvingMN [1]) (onePayment ⟨6 * coin, [1]⟩).vout = 6 * coin := by
  refine ⟨rfl, rfl, rfl, ?_⟩
  decide

end MNPaymentsEnv

end Absolute
