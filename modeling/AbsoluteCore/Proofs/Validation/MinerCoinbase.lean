/-
The coinbase of a miner passes the checks of its own node.

`FillBlockPayments` and the two validators ask the same questions about sporks and triggers, but
only the validators look at the budget.  The coinbase is therefore valid exactly if the trigger
with the most votes can be paid (`minerCoinbaseValid_iff`).
-/
import AbsoluteCore.Proofs.Validation.MasternodePayments
import AbsoluteCore.Proofs.Validation.Superblock

namespace Absolute

open Fallible MNPaymentsEnv List Option Except

variable {params : RewardParams} {gov : GovernanceState} {mp : MNPaymentsEnv}
  {nBlockHeight blockReward : Int}
variable {coinbase : CTransaction} {limit nValueOut : Int} {sb : CSuperblock}
  {expected : Option (List CTxOut)}

/-! ### The share of the masternodes -/

theorem tdiv_nonpos {a b : Int} (ha : a ≤ 0) (hb : 0 ≤ b) : a.tdiv b ≤ 0 := by
  have hneg : 0 ≤ (-a).tdiv b := Int.tdiv_nonneg (by omega) hb
  rw [Int.neg_tdiv] at hneg
  omega

/-- The masternodes get at most the whole reward. -/
theorem getMasternodePayment_le (mp : MNPaymentsEnv) (nHeight blockValue : Int) :
    mp.getMasternodePayment nHeight blockValue ≤ max blockValue 0 := by
  unfold getMasternodePayment
  dsimp only
  rcases le_or_gt 0 blockValue with hvalue | hvalue
  · rw [Int.tdiv_eq_ediv_of_nonneg (a := 2 * blockValue) (by omega),
      Int.tdiv_eq_ediv_of_nonneg (a := blockValue) hvalue]
    split_ifs <;> omega
  · have hfifth : (2 * blockValue).tdiv 5 ≤ 0 := tdiv_nonpos (by omega) (by omega)
    have htenth : blockValue.tdiv 10 ≤ 0 := tdiv_nonpos (by omega) (by omega)
    split_ifs <;> omega

theorem getBlockTxOuts_bounds (hproper : ProperPayee mp nBlockHeight)
    (h : mp.getBlockTxOuts nBlockHeight blockReward = .ok expected) :
    (∀ out ∈ expected.getD [], 0 < out.nValue) ∧
      sumValues (expected.getD []) ≤ max blockReward 0 ∧ (expected.getD []).length ≤ 2 := by
  cases hpayee : (mp.getListBefore nBlockHeight).getMNPayee with
  | none =>
    unfold getBlockTxOuts at h
    rw [hpayee] at h
    obtain rfl := ok.inj h
    simp
  | some dmn =>
    obtain ⟨op, hop, rfl⟩ := getBlockTxOuts_eq_ok hpayee h
    rw [getD_some]
    refine ⟨?_, ?_, ?_⟩
    · intro out hout
      rcases mem_append.mp hout with hout | hout
      · obtain ⟨hpos, rfl⟩ := mem_payment.mp hout
        exact hpos
      · obtain ⟨hpos, rfl⟩ := mem_payment.mp hout
        exact hpos
    · rw [sumValues_expected (hproper dmn hpayee) hop]
      have hle := getMasternodePayment_le mp nBlockHeight blockReward
      omega
    · unfold payment
      split_ifs <;> simp

/-- `GetBlockTxOuts` fails only where the product for the operator does not fit. -/
theorem exists_getBlockTxOuts_iff :
    (∃ expected, mp.getBlockTxOuts nBlockHeight blockReward = .ok expected) ↔
      ∀ dmn, (mp.getListBefore nBlockHeight).getMNPayee = some dmn →
        dmn.nOperatorReward ≠ 0 → dmn.pdmnState.scriptOperatorPayout ≠ [] →
        FitsAmount (mp.getMasternodePayment nBlockHeight blockReward * dmn.nOperatorReward) := by
  constructor
  · intro h dmn hpayee hne hscript
    obtain ⟨expected, hexpected⟩ := h
    obtain ⟨op, hop, -⟩ := getBlockTxOuts_eq_ok hpayee hexpected
    unfold operatorReward at hop
    rw [if_pos ⟨hne, hscript⟩] at hop
    obtain ⟨product, hproduct, -⟩ := bind_eq_ok.mp hop
    exact (amount_eq_ok.mp hproduct).1
  · intro h
    unfold getBlockTxOuts
    cases hpayee : (mp.getListBefore nBlockHeight).getMNPayee with
    | none => exact ⟨none, rfl⟩
    | some dmn =>
      dsimp only
      unfold operatorReward
      by_cases hoperator : dmn.nOperatorReward ≠ 0 ∧ dmn.pdmnState.scriptOperatorPayout ≠ []
      · rw [if_pos hoperator, amount_eq_ok.mpr ⟨h dmn hpayee hoperator.1 hoperator.2, rfl⟩]
        exact ⟨_, rfl⟩
      · rw [if_neg hoperator]
        exact ⟨_, rfl⟩

theorem govern_isTransactionValid {txNew : CTransaction}
    (h : mp.getBlockTxOuts nBlockHeight blockReward = .ok expected)
    (hfound : ∀ out ∈ expected.getD [], out ∈ txNew.vout) :
    (mp.govern gov).isTransactionValid txNew nBlockHeight blockReward = true := by
  have hvalid : mp.isTransactionValid txNew nBlockHeight blockReward = .ok true := by
    unfold isTransactionValid
    by_cases henforced : mp.env.isDIP3Enforced nBlockHeight = false
    · rw [if_pos henforced]
      rfl
    · rw [if_neg henforced, h]
      cases expected with
      | none => rfl
      | some expected => exact findPayees_eq_true.mpr hfound
  simp only [govern, hvalid]

/-! ### The superblock of the miner -/

/-- The superblock that the miner pays, as `FillBlockPayments` decides. -/
def superblockOuts (params : RewardParams) (gov : GovernanceState) (nBlockHeight : Int) :
    List CTxOut :=
  if gov.superblocksEnabled = true ∧ isSuperblockTriggered params gov nBlockHeight = true then
    (getSuperblockPayments params gov nBlockHeight).getD []
  else []

/-- The coinbase pays a superblock. -/
abbrev Superblocked (params : RewardParams) (gov : GovernanceState) (nBlockHeight : Int) : Prop :=
  gov.superblocksEnabled = true ∧ isSuperblockTriggered params gov nBlockHeight = true

theorem superblockOuts_of_superblocked (h : Superblocked params gov nBlockHeight)
    (hbest : getBestSuperblock params gov nBlockHeight = some sb) :
    superblockOuts params gov nBlockHeight = sb.vecPayments.map (·.out) := by
  unfold superblockOuts
  rw [if_pos h, getSuperblockPayments, hbest]
  rfl

theorem superblockOuts_of_not_superblocked (h : ¬ Superblocked params gov nBlockHeight) :
    superblockOuts params gov nBlockHeight = [] :=
  if_neg h

theorem superblockTotal_of_superblocked (h : Superblocked params gov nBlockHeight)
    (hbest : getBestSuperblock params gov nBlockHeight = some sb) :
    superblockTotal params gov nBlockHeight = sb.totalPayments := by
  unfold superblockTotal
  rw [if_pos h, hbest]
  rfl

theorem sumValues_superblockOuts :
    sumValues (superblockOuts params gov nBlockHeight) =
      superblockTotal params gov nBlockHeight := by
  by_cases h : Superblocked params gov nBlockHeight
  · cases hbest : getBestSuperblock params gov nBlockHeight with
    | none =>
      unfold superblockOuts superblockTotal
      rw [if_pos h, if_pos h, getSuperblockPayments, hbest]
      rfl
    | some sb =>
      rw [superblockOuts_of_superblocked h hbest, superblockTotal_of_superblocked h hbest,
        sumValues_map_out]
      rfl
  · unfold superblockTotal
    rw [superblockOuts_of_not_superblocked h, if_neg h, sumValues_nil]

theorem foldl_best_mem {α : Type} {P : Option α → α → Prop} [∀ best x, Decidable (P best x)]
    {y : α} (xs : List α) (best : Option α)
    (h : xs.foldl (fun best x => if P best x then some x else best) best = some y) :
    best = some y ∨ y ∈ xs := by
  induction xs generalizing best with
  | nil => exact .inl h
  | cons x xs ih =>
    rw [foldl_cons] at h
    rcases ih _ h with hbest | hmem
    · split_ifs at hbest with hwins
      · exact .inr (some.inj hbest ▸ mem_cons_self)
      · exact .inl hbest
    · exact .inr (mem_cons_of_mem _ hmem)

theorem getBestSuperblock_mem (h : getBestSuperblock params gov nBlockHeight = some sb) :
    sb ∈ gov.activeTriggers := by
  unfold getBestSuperblock at h
  split_ifs at h
  rcases foldl_best_mem gov.activeTriggers none h with hnone | hmem
  · cases hnone
  · exact hmem

theorem isValidBlockHeight_of_superblocked (h : Superblocked params gov nBlockHeight) :
    isValidBlockHeight params nBlockHeight = true := by
  have htriggered := h.2
  unfold isSuperblockTriggered at htriggered
  rw [Bool.and_eq_true] at htriggered
  exact htriggered.1

theorem start_le_of_isValidBlockHeight (h : isValidBlockHeight params nBlockHeight = true) :
    params.nSuperblockStartBlock ≤ nBlockHeight := by
  exact (of_decide_eq_true h).1

/-! ### The outputs of the miner -/

theorem foldl_sub (outs : List CTxOut) (nValue : Int) :
    outs.foldl (fun nValue txout => nValue - txout.nValue) nValue = nValue - sumValues outs := by
  induction outs generalizing nValue with
  | nil => simp
  | cons out outs ih =>
    rw [foldl_cons, ih, sumValues_cons]
    omega

theorem fillBlockPayments_eq_ok {script : CScript} {vout : List CTxOut} :
    fillBlockPayments params gov mp [⟨blockReward, script⟩] nBlockHeight blockReward = .ok vout ↔
      ∃ expected, mp.getBlockTxOuts nBlockHeight blockReward = .ok expected ∧
        vout = ⟨blockReward - sumValues (expected.getD []), script⟩ ::
          (expected.getD [] ++ superblockOuts params gov nBlockHeight) := by
  unfold fillBlockPayments
  rw [bind_eq_ok]
  constructor
  · intro h
    obtain ⟨expected, hexpected, hvout⟩ := h
    rw [pure_eq_ok] at hvout
    refine ⟨expected, hexpected, ?_⟩
    rw [← hvout, ← foldl_sub]
    rfl
  · intro h
    obtain ⟨expected, hexpected, rfl⟩ := h
    refine ⟨expected, hexpected, ?_⟩
    rw [pure_eq_ok, ← foldl_sub]
    rfl

theorem sumValues_minerOuts {expected : List CTxOut} (script : CScript) :
    sumValues (⟨blockReward - sumValues expected, script⟩ ::
      (expected ++ superblockOuts params gov nBlockHeight)) =
      blockReward + superblockTotal params gov nBlockHeight := by
  rw [sumValues_cons, sumValues_append, sumValues_superblockOuts]
  show blockReward - sumValues expected + _ = _
  omega

/-! ### The checks of a synced node -/

theorem decreasedSubsidy_nonneg (nSubsidyDivide : Int) (n : Nat) {nSubsidy : Int}
    (h : 0 ≤ nSubsidy) : 0 ≤ decreasedSubsidy nSubsidyDivide nSubsidy n := by
  induction n generalizing nSubsidy with
  | zero => exact h
  | succ n ih =>
    apply ih
    have hle := Int.ediv_le_self nSubsidyDivide h
    omega

theorem getBlockSubsidy_nonneg (params : RewardParams) (nPrevHeight : Int) (part : Bool) :
    0 ≤ getBlockSubsidy params nPrevHeight part := by
  unfold getBlockSubsidy
  by_cases hzero : nPrevHeight = 0
  · rw [if_pos hzero]
    decide
  · dsimp only
    generalize hsubsidy : decreasedSubsidy _ _ _ = nSubsidy
    have hpos : 0 ≤ nSubsidy := by
      rw [← hsubsidy]
      apply decreasedSubsidy_nonneg
      apply mul_nonneg _ (by decide)
      split_ifs <;> omega
    split_ifs <;> omega

theorem getPaymentsLimit_nonneg (hcycle : 0 ≤ params.nSuperblockCycle) :
    0 ≤ getPaymentsLimit params nBlockHeight := by
  unfold getPaymentsLimit
  split_ifs
  · exact le_refl 0
  · exact mul_nonneg (getBlockSubsidy_nonneg params _ _) hcycle

theorem valueVerdict_eq_none {actual : Int} {why : String} :
    valueVerdict nBlockHeight actual limit why = none ↔ actual ≤ limit := by
  unfold valueVerdict
  split_ifs with hle <;> simp [hle]

/-- What a synced node has checked when it accepts the value of a coinbase. -/
structure ValueAccepted (params : RewardParams) (gov : GovernanceState) (coinbase : CTransaction)
    (nBlockHeight blockReward : Int) : Prop where
  money : AllMoney coinbase.vout
  range : sumValues coinbase.vout ≤ maxMoney
  fits : params.nSuperblockStartBlock ≤ nBlockHeight →
    FitsAmount (blockReward + getPaymentsLimit params nBlockHeight)
  plain : ¬ Superblocked params gov nBlockHeight → sumValues coinbase.vout ≤ blockReward
  superblock : Superblocked params gov nBlockHeight →
    sumValues coinbase.vout ≤ blockReward + getPaymentsLimit params nBlockHeight ∧
      isSuperblockValid params gov coinbase nBlockHeight blockReward = .ok true

theorem valueAccepted_iff
    (hvalue : AllMoney coinbase.vout ∧ sumValues coinbase.vout ≤ maxMoney)
    (hfits : params.nSuperblockStartBlock ≤ nBlockHeight →
      FitsAmount (blockReward + getPaymentsLimit params nBlockHeight))
    (hplain : ¬ Superblocked params gov nBlockHeight) :
    ValueAccepted params gov coinbase nBlockHeight blockReward ↔
      sumValues coinbase.vout ≤ blockReward :=
  ⟨fun h => h.plain hplain, fun h =>
    ⟨hvalue.1, hvalue.2, hfits, fun _ => h, fun hsuper => absurd hsuper hplain⟩⟩

section

variable (hsynced : gov.isSynced = true)

include hsynced

theorem isOldBudgetBlockValueValid_eq_none
    (hbudget : ¬ nBlockHeight < params.nBudgetPaymentsStartBlock)
    (hstart : nBlockHeight < params.nSuperblockStartBlock) :
    isOldBudgetBlockValueValid params gov nValueOut nBlockHeight blockReward = none ↔
      nValueOut ≤ blockReward := by
  unfold isOldBudgetBlockValueValid
  rw [if_neg hbudget, if_neg (by omega), if_pos hsynced]
  split_ifs
  · exact valueVerdict_eq_none
  · exact valueVerdict_eq_none

theorem isBlockValueValid_iff (hlite : gov.fLiteMode = false) (hcycle : 0 ≤ params.nSuperblockCycle)
    (hstart : params.nBudgetPaymentsStartBlock ≤ params.nSuperblockStartBlock) :
    isBlockValueValid params gov coinbase nBlockHeight blockReward = .ok none ↔
      ValueAccepted params gov coinbase nBlockHeight blockReward := by
  have hlimit : 0 ≤ getPaymentsLimit params nBlockHeight := getPaymentsLimit_nonneg hcycle
  unfold isBlockValueValid
  by_cases hvalue : AllMoney coinbase.vout ∧ sumValues coinbase.vout ≤ maxMoney
  swap
  · refine iff_of_false (fun h => hvalue ?_) fun h => hvalue ⟨h.money, h.range⟩
    obtain ⟨_, hout, -⟩ := bind_eq_ok.mp h
    obtain ⟨hmoney, hrange, -⟩ := getValueOut_eq_ok.mp hout
    exact ⟨hmoney, hrange⟩
  rw [getValueOut_eq_ok.mpr ⟨hvalue.1, hvalue.2, rfl⟩, ok_bind]
  by_cases hearly : nBlockHeight < params.nSuperblockStartBlock
  · have hplain : ¬ Superblocked params gov nBlockHeight := fun hsuper => by
      have hle := start_le_of_isValidBlockHeight (isValidBlockHeight_of_superblocked hsuper)
      omega
    rw [valueAccepted_iff hvalue (by omega) hplain]
    by_cases hbudget : nBlockHeight < params.nBudgetPaymentsStartBlock
    · rw [if_pos hbudget, pure_eq_ok, valueVerdict_eq_none]
    · rw [if_neg hbudget, if_pos hearly, pure_eq_ok,
        isOldBudgetBlockValueValid_eq_none hsynced hbudget hearly]
  rw [if_neg (by omega), if_neg hearly]
  by_cases hfits : FitsAmount (blockReward + getPaymentsLimit params nBlockHeight)
  swap
  · refine iff_of_false (fun h => hfits ?_) fun h => hfits (h.fits (by omega))
    obtain ⟨_, hamount, -⟩ := bind_eq_ok.mp h
    exact (amount_eq_ok.mp hamount).1
  rw [amount_eq_ok.mpr ⟨hfits, rfl⟩, ok_bind]
  by_cases hsuper : Superblocked params gov nBlockHeight
  · rw [if_neg (by simp [isValidBlockHeight_of_superblocked hsuper])]
    by_cases hmax : sumValues coinbase.vout > blockReward + getPaymentsLimit params nBlockHeight
    · rw [if_pos hmax]
      refine iff_of_false (fun h => by cases h) fun h => ?_
      have hle := (h.superblock hsuper).1
      omega
    rw [if_neg hmax, if_neg (by simp [hsynced, hlite]), if_neg (by simp [hsuper.1]),
      if_neg (by simp [hsuper.2]), bind_eq_ok]
    constructor
    · rintro ⟨valid, hvalid, h⟩
      cases valid with
      | false => cases h
      | true =>
        exact ⟨hvalue.1, hvalue.2, fun _ => hfits, fun hplain => absurd hsuper hplain,
          fun _ => ⟨by omega, hvalid⟩⟩
    · exact fun h => ⟨true, (h.superblock hsuper).2, rfl⟩
  · rw [valueAccepted_iff hvalue (fun _ => hfits) hsuper]
    by_cases hheight : isValidBlockHeight params nBlockHeight = false
    · rw [if_pos hheight, pure_eq_ok, valueVerdict_eq_none]
    rw [if_neg hheight]
    by_cases hmax : sumValues coinbase.vout > blockReward + getPaymentsLimit params nBlockHeight
    · rw [if_pos hmax]
      exact iff_of_false (fun h => by cases h) (by omega)
    rw [if_neg hmax, if_neg (by simp [hsynced, hlite])]
    by_cases henabled : gov.superblocksEnabled = false
    · rw [if_pos henabled, pure_eq_ok, valueVerdict_eq_none]
    rw [if_neg henabled, if_pos, pure_eq_ok, valueVerdict_eq_none]
    by_contra htriggered
    exact hsuper ⟨by simpa using henabled, by simpa using htriggered⟩

end

theorem isBlockPayeeValid_eq_true (hlite : gov.fLiteMode = false)
    (hpayees : gov.isTransactionValid coinbase nBlockHeight blockReward = true)
    (hsuper : Superblocked params gov nBlockHeight →
      isSuperblockValid params gov coinbase nBlockHeight blockReward = .ok true) :
    isBlockPayeeValid params gov coinbase nBlockHeight blockReward = .ok true := by
  unfold isBlockPayeeValid
  rw [if_neg (by simp [hlite])]
  by_cases hearly : nBlockHeight < params.nSuperblockStartBlock
  · rw [if_pos hearly]
    rfl
  rw [if_neg hearly]
  by_cases h : Superblocked params gov nBlockHeight
  · rw [if_pos h, hsuper h, ok_bind, if_neg (by simp), hpayees]
    rfl
  · rw [if_neg h, hpayees]
    rfl

/-! ### The whole -/

/-- The superblock in a coinbase that pays the reward and the superblock is valid exactly if the best
trigger is within the budget. -/
theorem isSuperblockValid_iff_budget {expected : List CTxOut} {out : CTxOut}
    (hsuper : Superblocked params gov nBlockHeight)
    (hvout : coinbase.vout = out :: (expected ++ superblockOuts params gov nBlockHeight))
    (hmoney : AllMoney coinbase.vout) (hrange : sumValues coinbase.vout ≤ maxMoney)
    (hsum : sumValues coinbase.vout = blockReward + superblockTotal params gov nBlockHeight)
    (hreward : 0 ≤ blockReward) :
    isSuperblockValid params gov coinbase nBlockHeight blockReward = .ok true ↔
      ∃ sb, getBestSuperblock params gov nBlockHeight = some sb ∧
        (∀ p ∈ sb.vecPayments, moneyRange p.nAmount = true) ∧
        sb.totalPayments ≤ getPaymentsLimit params nBlockHeight ∧
        blockReward + sb.totalPayments ≤ maxMoney := by
  unfold isSuperblockValid
  cases hbest : getBestSuperblock params gov nBlockHeight with
  | none => simp
  | some sb =>
    rw [superblockOuts_of_superblocked hsuper hbest] at hvout
    rw [superblockTotal_of_superblocked hsuper hbest] at hsum
    have hamounts : ∀ p ∈ sb.vecPayments, moneyRange p.nAmount = true := fun p hp =>
      hmoney p.out (by rw [hvout]; exact mem_cons_of_mem _ (mem_append_right _ (mem_map_of_mem hp)))
    have hnonneg : 0 ≤ sb.totalPayments := sumPayments_nonneg hamounts
    have htotal : sb.getPaymentsTotalAmount = sb.totalPayments :=
      getPaymentsTotalAmount_of_le hnonneg (by show sb.totalPayments ≤ _; omega)
    rw [isValid_eq_true_iff]
    constructor
    · intro h
      have hlimit := h.limit
      exact ⟨sb, rfl, hamounts, by omega, by omega⟩
    · rintro ⟨_, ⟨⟩, -, hlimit, -⟩
      refine
        { height := isValidBlockHeight_of_superblocked hsuper
          size := ?_
          limit := by omega
          money := hmoney
          range := hrange
          fits := ?_
          value := by omega
          found := ?_ }
      · rw [hvout]
        simp only [length_cons, length_append, length_map]
        omega
      · rw [maxMoney_eq] at hrange
        exact fitsAmount_of_bounds (by omega) (by omega)
      · have hsub : (withoutRepeats sb.vecPayments).Sublist sb.vecPayments :=
          destutter_sublist _ _
        rw [hvout]
        exact ((hsub.map _).trans (sublist_append_right _ _)).cons _

theorem allMoney_of_pos {outs : List CTxOut} (hpos : ∀ out ∈ outs, 0 < out.nValue)
    (hsum : sumValues outs ≤ maxMoney) : 0 ≤ sumValues outs ∧ AllMoney outs := by
  induction outs with
  | nil => exact ⟨le_refl 0, fun out hout => absurd hout not_mem_nil⟩
  | cons out outs ih =>
    rw [forall_mem_cons] at hpos
    rw [sumValues_cons] at hsum ⊢
    obtain ⟨hnonneg, hmoney⟩ := ih hpos.2 (by omega)
    refine ⟨by omega, ?_⟩
    intro o ho
    rcases mem_cons.mp ho with rfl | ho
    · exact moneyRange_iff.mpr ⟨by omega, by omega⟩
    · exact hmoney o ho

theorem MinerPayable.outs (h : MinerPayable params gov mp nBlockHeight blockReward)
    (htriggers : ∀ sb ∈ gov.activeTriggers, sb.vecPayments.length ≤ maxPayments) :
    AllMoney (superblockOuts params gov nBlockHeight) ∧
      blockReward + superblockTotal params gov nBlockHeight ≤ maxMoney ∧
      (superblockOuts params gov nBlockHeight).length ≤ maxPayments := by
  have hreward := moneyRange_iff.mp h.reward
  by_cases hsuper : Superblocked params gov nBlockHeight
  · obtain ⟨sb, hbest, hamounts, -, hmax⟩ := h.budget hsuper.1 hsuper.2
    rw [superblockOuts_of_superblocked hsuper hbest, superblockTotal_of_superblocked hsuper hbest,
      length_map]
    exact ⟨allMoney_map_out hamounts, hmax, htriggers sb (getBestSuperblock_mem hbest)⟩
  · rw [superblockOuts_of_not_superblocked hsuper, superblockTotal, if_neg hsuper]
    refine ⟨fun out hout => absurd hout not_mem_nil, by omega, ?_⟩
    decide

theorem MinerPayable.minerCoinbaseValid (script : CScript)
    (h : MinerPayable params gov mp nBlockHeight blockReward) (hcycle : 0 ≤ params.nSuperblockCycle)
    (hstart : params.nBudgetPaymentsStartBlock ≤ params.nSuperblockStartBlock)
    (hsynced : gov.isSynced = true) (hlite : gov.fLiteMode = false)
    (htriggers : ∀ sb ∈ gov.activeTriggers, sb.vecPayments.length ≤ maxPayments)
    (hproper : ProperPayee mp nBlockHeight) :
    MinerCoinbaseValid params gov mp script nBlockHeight blockReward := by
  have hreward := moneyRange_iff.mp h.reward
  obtain ⟨expected, hexpected⟩ := exists_getBlockTxOuts_iff.mpr h.operator
  obtain ⟨hpos, hshare, hlength⟩ := getBlockTxOuts_bounds hproper hexpected
  obtain ⟨hsharenonneg, hsharemoney⟩ := allMoney_of_pos hpos (by omega)
  obtain ⟨hsuperMoney, hmax, hfew⟩ := h.outs htriggers
  let vout : List CTxOut := ⟨blockReward - sumValues (expected.getD []), script⟩ ::
    (expected.getD [] ++ superblockOuts params gov nBlockHeight)
  have hsize : vout.length ≤ maxSize := by
    rw [length_cons, length_append]
    unfold maxPayments at hfew
    unfold maxSize
    omega
  have hsum : sumValues vout = blockReward + superblockTotal params gov nBlockHeight :=
    sumValues_minerOuts script
  have hrange : sumValues vout ≤ maxMoney := by omega
  have hmoney : AllMoney vout := by
    intro out hout
    rcases mem_cons.mp hout with rfl | hout
    · apply moneyRange_iff.mpr
      show 0 ≤ blockReward - _ ∧ blockReward - _ ≤ maxMoney
      omega
    · rcases mem_append.mp hout with hout | hout
      · exact hsharemoney out hout
      · exact hsuperMoney out hout
  let coinbase := superblockCoinbase vout hsize
  have hvalid : Superblocked params gov nBlockHeight →
      isSuperblockValid params gov coinbase nBlockHeight blockReward = .ok true := by
    intro hsuper
    exact (isSuperblockValid_iff_budget hsuper rfl hmoney hrange hsum hreward.1).mpr
      (h.budget hsuper.1 hsuper.2)
  have haccepted : ValueAccepted params (mp.govern gov) coinbase nBlockHeight blockReward := by
    refine ⟨hmoney, hrange, h.fits, ?_, ?_⟩
    · intro hplain
      have hplain : ¬ Superblocked params gov nBlockHeight := hplain
      show sumValues vout ≤ blockReward
      rw [superblockTotal, if_neg hplain] at hsum
      omega
    · intro hsuper
      have hsuper : Superblocked params gov nBlockHeight := hsuper
      refine ⟨?_, hvalid hsuper⟩
      obtain ⟨sb, hbest, -, hlimit, -⟩ := h.budget hsuper.1 hsuper.2
      rw [superblockTotal_of_superblocked hsuper hbest] at hsum
      show sumValues vout ≤ _
      omega
  have hgoverned : (mp.govern gov).isSynced = true := hsynced
  have hfull : (mp.govern gov).fLiteMode = false := hlite
  refine ⟨coinbase, fillBlockPayments_eq_ok.mpr ⟨expected, hexpected, rfl⟩,
    (isBlockValueValid_iff hgoverned hfull hcycle hstart).mpr haccepted, ?_, hsum, _, rfl, ?_⟩
  · apply isBlockPayeeValid_eq_true hfull _ hvalid
    apply govern_isTransactionValid hexpected
    intro out hout
    exact mem_cons_of_mem _ (mem_append_left _ hout)
  · show 0 ≤ blockReward - _
    omega

/-- The coinbase that a miner fills in is valid in its own state exactly if the trigger with the
most votes can be paid there. -/
theorem minerCoinbaseValid_iff (params : RewardParams) (gov : GovernanceState) (mp : MNPaymentsEnv)
    (script : CScript) (nBlockHeight blockReward : Int) (hcycle : 0 ≤ params.nSuperblockCycle)
    (hstart : params.nBudgetPaymentsStartBlock ≤ params.nSuperblockStartBlock)
    (hsynced : gov.isSynced = true) (hlite : gov.fLiteMode = false)
    (htriggers : ∀ sb ∈ gov.activeTriggers, sb.vecPayments.length ≤ maxPayments)
    (hproper : ProperPayee mp nBlockHeight) :
    MinerCoinbaseValid params gov mp script nBlockHeight blockReward ↔
      MinerPayable params gov mp nBlockHeight blockReward := by
  constructor
  · intro h
    obtain ⟨coinbase, hfill, hvalue, -, hsum, out, hhead, hnonneg⟩ := h
    obtain ⟨expected, hexpected, hvout⟩ := fillBlockPayments_eq_ok.mp hfill
    have hgoverned : (mp.govern gov).isSynced = true := hsynced
    have haccepted := (isBlockValueValid_iff hgoverned hlite hcycle hstart).mp hvalue
    have hmoney := haccepted.money
    rw [hvout] at hmoney hhead
    obtain rfl := some.inj hhead
    have hshare : 0 ≤ sumValues (expected.getD []) :=
      sumValues_nonneg fun o ho => hmoney o (mem_cons_of_mem _ (mem_append_left _ ho))
    have hsuperNonneg : 0 ≤ superblockTotal params gov nBlockHeight := by
      rw [← sumValues_superblockOuts]
      exact sumValues_nonneg fun o ho =>
        hmoney o (mem_cons_of_mem _ (mem_append_right _ ho))
    have hreward : 0 ≤ blockReward := by
      have hminer : 0 ≤ blockReward - sumValues (expected.getD []) := hnonneg
      omega
    have hrange := haccepted.range
    have hsum : sumValues coinbase.vout =
      blockReward + superblockTotal params gov nBlockHeight := hsum
    refine ⟨moneyRange_iff.mpr ⟨hreward, by omega⟩, ?_, haccepted.fits, ?_⟩
    · exact exists_getBlockTxOuts_iff.mp ⟨expected, hexpected⟩
    · intro henabled htriggered
      exact (isSuperblockValid_iff_budget ⟨henabled, htriggered⟩ hvout haccepted.money hrange hsum
        hreward).mp (haccepted.superblock ⟨henabled, htriggered⟩).2
  · intro h
    exact h.minerCoinbaseValid script hcycle hstart hsynced hlite htriggers hproper

/-! ### A trigger beyond the budget -/

/-- The trigger wants one coin more than the budget of the cycle. -/
def overBudget : CSuperblock where
  nBlockHeight := 102200
  vecPayments := [⟨[1], 21901 * coin⟩]
  fCachedFunding := true
  nAbsoluteYesCount := 10

/-- The trigger wants the whole budget of the cycle. -/
def withinBudget : CSuperblock := { overBudget with vecPayments := [⟨[1], 21900 * coin⟩] }

def syncedGov (sb : CSuperblock) : GovernanceState where
  isSynced := true
  fLiteMode := false
  superblocksEnabled := true
  activeTriggers := [sb]
  isTransactionValid := fun _ _ _ => true

theorem minerCoinbaseValid_withinBudget :
    MinerCoinbaseValid mainRewardParams (syncedGov withinBudget) (halvingEnv [2]) [3] 102200
      (30 * coin) := by
  apply (minerCoinbaseValid_iff mainRewardParams (syncedGov withinBudget) (halvingEnv [2]) [3]
    102200 (30 * coin) (by decide) (by decide) rfl rfl (by decide) ?_).mpr
  · refine ⟨by decide, ?_, by decide, ?_⟩
    · intro dmn hpayee _ _
      obtain rfl : halvingMN [2] = dmn := some.inj hpayee
      decide
    · intro _ _
      exact ⟨withinBudget, rfl, by decide, by decide, by decide⟩
  · intro dmn hpayee
    obtain rfl : halvingMN [2] = dmn := some.inj hpayee
    decide

/-- The miner fills in what the node of the miner refuses. -/
theorem isBlockValueValid_overBudget :
    ∃ (coinbase : CTransaction) (why : String),
      fillBlockPayments mainRewardParams (syncedGov overBudget) (halvingEnv [2])
        [⟨30 * coin, [3]⟩] 102200 (30 * coin) = .ok coinbase.vout ∧
      isBlockValueValid mainRewardParams ((halvingEnv [2]).govern (syncedGov overBudget)) coinbase
        102200 (30 * coin) = .ok (some why) ∧
      isBlockPayeeValid mainRewardParams ((halvingEnv [2]).govern (syncedGov overBudget)) coinbase
        102200 (30 * coin) = .ok false :=
  ⟨superblockCoinbase [⟨6 * coin, [3]⟩, ⟨12 * coin, [1]⟩, ⟨12 * coin, [2]⟩, ⟨21901 * coin, [1]⟩]
    (by decide), _, rfl, rfl, rfl⟩

end Absolute
