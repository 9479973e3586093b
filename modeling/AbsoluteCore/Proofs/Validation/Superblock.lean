/-
What the outputs of an accepted superblock pay.

The search of `CSuperblock::IsValid` goes on at the output it has just found, so that output can
stand for the next payment too.  The outputs therefore contain, in order, the payments without
those that repeat the one before them (`findPayments_iff`).  The other payees are left out.
-/
import AbsoluteCore.Spec.Superblock
import AbsoluteCore.Proofs.Validation.Amounts

namespace Absolute

open Fallible List Function CGovernancePayment

variable {p : CGovernancePayment} (ps : List CGovernancePayment) {vout : List CTxOut}

/-! ### The search for the payments -/

theorem CGovernancePayment.out_injective : Injective CGovernancePayment.out := by
  intro p q h
  cases p
  cases q
  simp only [out, CTxOut.mk.injEq] at h
  simp [h.1, h.2]

theorem findPayments_cons_eq (p ps vout) :
    findPayments (p :: ps) (p.out :: vout) = findPayments ps (p.out :: vout) := by
  rw [findPayments, dropWhile_cons_of_neg]
  simp [out]

theorem findPayments_cons_ne {out : CTxOut} (h : p.out ≠ out) (ps vout) :
    findPayments (p :: ps) (out :: vout) = findPayments (p :: ps) vout := by
  rw [findPayments, dropWhile_cons_of_pos, findPayments]
  simp only [Bool.not_eq_true', Bool.and_eq_false_iff, beq_eq_false_iff_ne]
  by_contra hcon
  push Not at hcon
  exact h (by rw [CGovernancePayment.out, hcon.1, hcon.2])

/-- The payments that the search finds an output for, if the first of them is found. -/
def distinctFrom (p : CGovernancePayment) (ps : List CGovernancePayment) :
    List CGovernancePayment :=
  ps.destutter' (· ≠ ·) p

theorem distinctFrom_cons_self (p ps) : distinctFrom p (p :: ps) = distinctFrom p ps :=
  destutter'_cons_neg ps (not_not.mpr rfl)

theorem distinctFrom_cons_of_ne {q : CGovernancePayment} (h : p ≠ q) (ps) :
    distinctFrom p (q :: ps) = p :: distinctFrom q ps :=
  destutter'_cons_pos ps h

theorem exists_distinctFrom (p ps) : ∃ rest, distinctFrom p ps = p :: rest := by
  induction ps with
  | nil => exact ⟨[], rfl⟩
  | cons q ps ih =>
    by_cases h : p = q
    · subst h
      rw [distinctFrom_cons_self]
      exact ih
    · exact ⟨distinctFrom q ps, distinctFrom_cons_of_ne h ps⟩

/-- The search skips the outputs before the first match. -/
theorem findPayments_cons_iff {ps : List CGovernancePayment}
    (hfound : ∀ rest, findPayments ps (p.out :: rest) = true ↔
      ((distinctFrom p ps).map (·.out)).Sublist (p.out :: rest)) (vout) :
    findPayments (p :: ps) vout = true ↔ ((distinctFrom p ps).map (·.out)).Sublist vout := by
  obtain ⟨l, hl⟩ := exists_distinctFrom p ps
  induction vout with
  | nil => simp [findPayments, hl]
  | cons out vout ih =>
    by_cases h : p.out = out
    · subst h
      rw [findPayments_cons_eq]
      exact hfound vout
    · rw [findPayments_cons_ne h, ih, hl, map_cons, cons_sublist_cons']
      simp [h]

/-- Behind an output that is found, that output may be found again. -/
theorem findPayments_found_iff (p) (rest : List CTxOut) : findPayments ps (p.out :: rest) = true ↔
      ((distinctFrom p ps).map (·.out)).Sublist (p.out :: rest) := by
  induction ps generalizing p rest with
  | nil => simp [findPayments, distinctFrom]
  | cons q ps ih =>
    by_cases h : p = q
    · subst h
      rw [findPayments_cons_eq, distinctFrom_cons_self]
      exact ih p rest
    · have hout : q.out ≠ p.out := fun heq => h (out_injective heq).symm
      rw [findPayments_cons_ne hout, distinctFrom_cons_of_ne h, map_cons, cons_sublist_cons]
      exact findPayments_cons_iff (ih q) rest

/-- The outputs that the search goes through hold the payments without the repeated ones. -/
theorem findPayments_iff (vout) :
    findPayments ps vout = true ↔ ((withoutRepeats ps).map (·.out)).Sublist vout := by
  cases ps with
  | nil => simp [findPayments, withoutRepeats]
  | cons p ps =>
    exact findPayments_cons_iff (findPayments_found_iff ps p) vout

/-! ### The total of the payments -/

def sumPayments : Int := (ps.map (·.nAmount)).sum

theorem sumValues_map_out : sumValues (ps.map (·.out)) = sumPayments ps := by
  simp [sumValues, sumPayments, out, comp_def]

theorem foldl_payments (total : Int) :
    ps.foldl (fun total payment => (total + payment.nAmount).bmod (2 ^ 64)) (total.bmod (2 ^ 64)) =
      (total + sumPayments ps).bmod (2 ^ 64) := by
  induction ps generalizing total with
  | nil => simp [sumPayments]
  | cons p ps ih =>
    rw [foldl_cons, Int.bmod_add_bmod, ih]
    simp [sumPayments, add_assoc]

/-- `GetPaymentsTotalAmount` wraps around where the sum does not fit. -/
theorem getPaymentsTotalAmount_eq (sb : CSuperblock) :
    sb.getPaymentsTotalAmount = (sumPayments sb.vecPayments).bmod (2 ^ 64) := by
  have h := foldl_payments sb.vecPayments 0
  rw [zero_add] at h
  exact h

theorem getPaymentsTotalAmount_of_le {sb : CSuperblock} (hlow : 0 ≤ sumPayments sb.vecPayments)
    (hhigh : sumPayments sb.vecPayments ≤ maxMoney) :
    sb.getPaymentsTotalAmount = sumPayments sb.vecPayments := by
  rw [maxMoney_eq] at hhigh
  rw [getPaymentsTotalAmount_eq]
  exact Int.bmod_eq_of_le (by omega) (by omega)

theorem fitsAmount_getPaymentsTotalAmount (sb : CSuperblock) :
    FitsAmount sb.getPaymentsTotalAmount := by
  rw [getPaymentsTotalAmount_eq]
  have hlow := Int.le_bmod (x := sumPayments sb.vecPayments) (m := 2 ^ 64) (by omega)
  have hhigh := Int.bmod_lt (x := sumPayments sb.vecPayments) (m := 2 ^ 64) (by omega)
  unfold FitsAmount
  omega

/-! ### Accepted superblocks -/

section

variable {params : RewardParams} {sb : CSuperblock} {txNew : CTransaction}
  {nBlockHeight blockReward : Int}
variable {ps : List CGovernancePayment} {p : CGovernancePayment}

/-- What `CSuperblock::IsValid` has checked when it returns true. -/
structure Accepted (params : RewardParams) (sb : CSuperblock) (txNew : CTransaction)
    (nBlockHeight blockReward : Int) : Prop where
  height : isValidBlockHeight params nBlockHeight = true
  size : sb.vecPayments.length ≤ txNew.vout.length
  limit : sb.getPaymentsTotalAmount ≤ getPaymentsLimit params nBlockHeight
  money : AllMoney txNew.vout
  range : sumValues txNew.vout ≤ maxMoney
  fits : FitsAmount (blockReward + sb.getPaymentsTotalAmount)
  value : sumValues txNew.vout ≤ blockReward + sb.getPaymentsTotalAmount
  found : ((withoutRepeats sb.vecPayments).map (·.out)).Sublist txNew.vout

theorem isValid_eq_true_iff :
    sb.isValid params txNew nBlockHeight blockReward = .ok true ↔
      Accepted params sb txNew nBlockHeight blockReward := by
  unfold CSuperblock.isValid
  constructor
  · intro h
    by_cases hheight : isValidBlockHeight params nBlockHeight = false
    · simp [hheight] at h
    by_cases hsize : txNew.vout.length < sb.vecPayments.length
    · simp [hheight, hsize] at h
    by_cases hlimit : sb.getPaymentsTotalAmount > getPaymentsLimit params nBlockHeight
    · simp [hheight, hsize, hlimit] at h
    simp only [hheight, hsize, hlimit, if_false] at h
    obtain ⟨nBlockValue, hvalue, h⟩ := bind_eq_ok.mp h
    obtain ⟨limit, hadd, h⟩ := bind_eq_ok.mp h
    obtain ⟨hmoney, hrange, rfl⟩ := getValueOut_eq_ok.mp hvalue
    obtain ⟨hfits, rfl⟩ := amount_eq_ok.mp hadd
    by_cases hle : sumValues txNew.vout > blockReward + sb.getPaymentsTotalAmount
    · simp [hle] at h
    · rw [if_neg hle, pure_eq_ok, findPayments_iff] at h
      exact ⟨Bool.eq_true_of_not_eq_false hheight, by omega, by omega, hmoney, hrange, hfits,
        by omega, h⟩
  · intro h
    have hheight : ¬ isValidBlockHeight params nBlockHeight = false := by simp [h.height]
    have hsize : ¬ txNew.vout.length < sb.vecPayments.length := by
      have := h.size
      omega
    have hlimit : ¬ sb.getPaymentsTotalAmount > getPaymentsLimit params nBlockHeight := by
      have := h.limit
      omega
    have hle : ¬ sumValues txNew.vout > blockReward + sb.getPaymentsTotalAmount := by
      have := h.value
      omega
    simp only [hheight, hsize, hlimit, if_false]
    rw [getValueOut_eq_ok.mpr ⟨h.money, h.range, rfl⟩, ok_bind,
      amount_eq_ok.mpr ⟨h.fits, rfl⟩, ok_bind, if_neg hle, (findPayments_iff _ _).mpr h.found]
    rfl

theorem mem_withoutRepeats (h : p ∈ ps) : p ∈ withoutRepeats ps := by
  cases ps with
  | nil => exact absurd h not_mem_nil
  | cons q ps =>
    show p ∈ distinctFrom q ps
    induction ps generalizing q with
    | nil => exact h
    | cons r ps ih =>
      by_cases hqr : q = r
      · subst hqr
        rw [distinctFrom_cons_self]
        apply ih q
        simpa using h
      · rw [distinctFrom_cons_of_ne hqr]
        rcases mem_cons.mp h with rfl | h
        · exact mem_cons_self
        · exact mem_cons_of_mem _ (ih r h)

theorem allMoney_map_out (h : ∀ p ∈ ps, moneyRange p.nAmount = true) : AllMoney (ps.map (·.out)) := by
  intro out hout
  obtain ⟨p, hp, rfl⟩ := mem_map.mp hout
  exact h p hp

theorem sumPayments_nonneg (h : ∀ p ∈ ps, moneyRange p.nAmount = true) : 0 ≤ sumPayments ps := by
  rw [← sumValues_map_out]
  exact sumValues_nonneg (allMoney_map_out h)

theorem valueWithoutRepeats_nonneg (h : ∀ p ∈ sb.vecPayments, moneyRange p.nAmount = true) :
    0 ≤ valueWithoutRepeats sb :=
  sumPayments_nonneg fun p hp => h p ((destutter_sublist _ sb.vecPayments).subset hp)

namespace Accepted

section

variable (h : Accepted params sb txNew nBlockHeight blockReward)

include h

theorem amounts : ∀ p ∈ sb.vecPayments, moneyRange p.nAmount = true := by
  intro p hp
  have hout : p.out ∈ (withoutRepeats sb.vecPayments).map (·.out) :=
    mem_map_of_mem (mem_withoutRepeats hp)
  exact h.money p.out (h.found.subset hout)

/-- A trigger for which some coinbase is accepted is payable. -/
theorem payable (hreward : FitsAmount blockReward) : Payable params sb nBlockHeight := by
  have hvalue : valueWithoutRepeats sb ≤ sumValues txNew.vout := by
    have hle := sumValues_le_of_sublist h.found h.money
    rwa [sumValues_map_out] at hle
  have hnonneg := valueWithoutRepeats_nonneg h.amounts
  refine ⟨h.height, h.limit, h.amounts, hvalue.trans h.range, h.size.trans txNew.vout_size, ?_⟩
  have htotal := fitsAmount_getPaymentsTotalAmount sb
  have hcover := h.value
  unfold FitsAmount at *
  omega

/-- Without repeated payments the outputs pay every payee, and the rest of them the reward. -/
theorem paysEveryPayee (hdistinct : NoRepeats sb.vecPayments) :
    PaysEveryPayee sb txNew blockReward := by
  have hfound := h.found
  rw [withoutRepeats, destutter_of_isChain _ _ hdistinct] at hfound
  have hsum : sumPayments sb.vecPayments ≤ sumValues txNew.vout := by
    have hle := sumValues_le_of_sublist hfound h.money
    rwa [sumValues_map_out] at hle
  have htotal : sb.getPaymentsTotalAmount = sumPayments sb.vecPayments :=
    getPaymentsTotalAmount_of_le (sumPayments_nonneg h.amounts) (hsum.trans h.range)
  obtain ⟨g, hg⟩ := sublist_iff_exists_fin_orderEmbedding_get_eq.mp hfound
  have hlen : sb.vecPayments.length = (sb.vecPayments.map (·.out)).length := by simp
  let f : Fin sb.vecPayments.length → Fin txNew.vout.length := fun i => g (i.cast hlen)
  have hmono : StrictMono f := fun i j hij => g.strictMono hij
  have hpays : ∀ i, txNew.vout.get (f i) = (sb.vecPayments.get i).out := by
    intro i
    rw [← hg (i.cast hlen)]
    simp
  refine ⟨f, hmono, hpays, ?_⟩
  have hused : ∑ j ∈ Finset.univ.image f, (txNew.vout.get j).nValue =
      sumPayments sb.vecPayments := by
    rw [Finset.sum_image fun i _ j _ hij => hmono.injective hij]
    simp only [hpays]
    exact Fin.sum_univ_fun_getElem sb.vecPayments (·.nAmount)
  have hall : ∑ j, (txNew.vout.get j).nValue = sumValues txNew.vout :=
    Fin.sum_univ_fun_getElem txNew.vout (·.nValue)
  have hsplit := Finset.sum_compl_add_sum (Finset.univ.image f) fun j => (txNew.vout.get j).nValue
  have hvalue := h.value
  omega

end

end Accepted

variable {ps : List CGovernancePayment}

/-! ### A coinbase that leaves payees out -/

def unusedScript (ps : List CGovernancePayment) : CScript :=
  List.replicate ((ps.map (·.script.length)).sum + 1) 0

theorem ne_unusedScript (h : p ∈ ps) : p.script ≠ unusedScript ps := by
  intro heq
  have hle : p.script.length ≤ (ps.map (·.script.length)).sum :=
    le_sum_of_mem (mem_map_of_mem h)
  have hlen := congrArg List.length heq
  rw [unusedScript, length_replicate] at hlen
  omega

/-- One output for each run of equal payments, and empty outputs up to the number of payments. -/
def sharedOutputs (ps : List CGovernancePayment) : List CTxOut :=
  (withoutRepeats ps).map (·.out) ++
    List.replicate (ps.length - (withoutRepeats ps).length) ⟨0, unusedScript ps⟩

theorem length_withoutRepeats_le (ps) : (withoutRepeats ps).length ≤ ps.length :=
  (destutter_sublist _ ps).length_le

theorem length_sharedOutputs (ps) : (sharedOutputs ps).length = ps.length := by
  have := length_withoutRepeats_le ps
  simp only [sharedOutputs, length_append, length_map, length_replicate]
  omega

theorem sumValues_sharedOutputs (ps) :
    sumValues (sharedOutputs ps) = sumPayments (withoutRepeats ps) := by
  rw [← sumValues_map_out]
  simp [sharedOutputs, sumValues]

theorem allMoney_sharedOutputs (h : ∀ p ∈ ps, moneyRange p.nAmount = true) :
    AllMoney (sharedOutputs ps) := by
  intro out hout
  rcases mem_append.mp hout with hout | hout
  · apply allMoney_map_out _ out hout
    intro p hp
    exact h p ((destutter_sublist _ ps).subset hp)
  · rw [eq_of_mem_replicate hout]
    rfl

/-- The shared outputs do not pay every payee. -/
theorem not_sublist_sharedOutputs (h : ¬ NoRepeats ps) :
    ¬ (ps.map (·.out)).Sublist (sharedOutputs ps) := by
  intro hsub
  -- Both lists are of one length, so they are equal, and the last output goes to a payee.
  have heq : ps.map (·.out) = sharedOutputs ps :=
    hsub.eq_of_length_le (by rw [length_sharedOutputs, length_map])
  have hshort : (withoutRepeats ps).length < ps.length := by
    apply lt_of_le_of_ne (length_withoutRepeats_le ps)
    intro hlen
    have hself : withoutRepeats ps = ps := (destutter_sublist _ ps).eq_of_length hlen
    exact h ((destutter_eq_self_iff _ ps).mp hself)
  have hmem : (⟨0, unusedScript ps⟩ : CTxOut) ∈ sharedOutputs ps :=
    mem_append_right _ (mem_replicate.mpr ⟨by omega, rfl⟩)
  rw [← heq] at hmem
  obtain ⟨p, hp, hout⟩ := mem_map.mp hmem
  exact ne_unusedScript hp (congrArg CTxOut.scriptPubKey hout)

theorem PaysEveryPayee.sublist (h : PaysEveryPayee sb txNew blockReward) :
    (sb.vecPayments.map (·.out)).Sublist txNew.vout := by
  obtain ⟨f, hmono, hpays, -⟩ := h
  rw [sublist_iff_exists_fin_orderEmbedding_get_eq]
  have hlen : (sb.vecPayments.map (·.out)).length = sb.vecPayments.length := by simp
  refine ⟨OrderEmbedding.ofStrictMono (fun i => f (i.cast hlen)) fun i j hij => hmono hij, ?_⟩
  intro i
  show _ = txNew.vout.get (f (i.cast hlen))
  rw [hpays]
  simp

def superblockCoinbase (vout : List CTxOut) (h : vout.length ≤ maxSize) : CTransaction where
  nVersion := 2
  nType := .normal
  vin := [⟨COutPoint.null, [], 0xffffffff⟩]
  vout := vout
  nLockTime := 0
  vExtraPayload := .malformed []
  vout_size := h

/-- Every superblock that is accepted pays every payee exactly if the trigger has no equal
neighbours among its payments, or cannot be paid at the height. -/
theorem isValid_paysEveryPayee_iff (params : RewardParams) (sb : CSuperblock) (nBlockHeight : Int) :
    (∀ txNew blockReward, FitsAmount blockReward →
        sb.isValid params txNew nBlockHeight blockReward = .ok true →
          PaysEveryPayee sb txNew blockReward) ↔
      (Payable params sb nBlockHeight → NoRepeats sb.vecPayments) := by
  constructor
  · intro h hpay
    by_contra hrepeats
    have hsize : (sharedOutputs sb.vecPayments).length ≤ maxSize := by
      rw [length_sharedOutputs]
      exact hpay.size
    let txNew := superblockCoinbase (sharedOutputs sb.vecPayments) hsize
    have hvalue : sumValues txNew.vout = valueWithoutRepeats sb :=
      sumValues_sharedOutputs sb.vecPayments
    have haccepted : Accepted params sb txNew nBlockHeight
        (valueWithoutRepeats sb - sb.getPaymentsTotalAmount) :=
      { height := hpay.height
        size := le_of_eq (length_sharedOutputs _).symm
        limit := hpay.limit
        money := allMoney_sharedOutputs hpay.amounts
        range := hvalue ▸ hpay.value
        fits := by
          have hnonneg := valueWithoutRepeats_nonneg hpay.amounts
          have hmax := hpay.value
          rw [maxMoney_eq] at hmax
          exact fitsAmount_of_bounds (by omega) (by omega)
        value := by
          omega
        found := sublist_append_left _ _ }
    have hpays := h txNew _ hpay.reward (isValid_eq_true_iff.mpr haccepted)
    exact not_sublist_sharedOutputs hrepeats hpays.sublist
  · intro h txNew blockReward hreward hvalid
    have haccepted := isValid_eq_true_iff.mp hvalid
    exact haccepted.paysEveryPayee (h (haccepted.payable hreward))

end

/-- A trigger that pays one coin twice to the same payee. -/
def paidTwice : CSuperblock where
  nBlockHeight := 102200
  vecPayments := [⟨[1], coin⟩, ⟨[1], coin⟩]
  fCachedFunding := true
  nAbsoluteYesCount := 1

/-- The payee gets one coin, and the miner the other one on top of the reward. -/
def paidOnce : CTransaction := superblockCoinbase [⟨coin, [1]⟩, ⟨31 * coin, [2]⟩] (by decide)

theorem isValid_paidOnce :
    paidTwice.isValid mainRewardParams paidOnce 102200 (30 * coin) = .ok true ∧
      ¬ PaysEveryPayee paidTwice paidOnce (30 * coin) := by
  refine ⟨rfl, ?_⟩
  intro h
  have hsub := h.sublist
  revert hsub
  decide

end Absolute
