/-
How many coins the schedule creates.

The subsidy changes at a few heights of the first two intervals, and then only where an interval
starts.  Over a stretch without a change the supply grows by one amount a block and one amount a
superblock (`created_stretch`).  From the third interval on, twice the reward bounds all that is
still to come, but for the rounding: the reward never falls below one unit.
-/
import AbsoluteCore.Proofs.Validation.MinerCoinbase

namespace Absolute

open List Nat

/-- The subsidy from height 250 on. -/
def rewardAt (divideHeight : Int) (h : Nat) : Int :=
  decreasedSubsidy (if h < divideHeight then 5 else 2) (30 * coin) (h / 350400)

theorem decreasedSubsidy_succ (divide nSubsidy : Int) (n : Nat) :
    decreasedSubsidy divide nSubsidy (n + 1) =
      decreasedSubsidy divide nSubsidy n - decreasedSubsidy divide nSubsidy n / divide := by
  induction n generalizing nSubsidy with
  | zero => rfl
  | succ n ih => exact ih _

theorem decreasedSubsidy_antitone : Antitone (decreasedSubsidy 2 (30 * coin)) := by
  refine antitone_nat_of_succ_le fun n => ?_
  have hpos : 0 ≤ decreasedSubsidy 2 (30 * coin) n := decreasedSubsidy_nonneg _ _ (by decide)
  rw [decreasedSubsidy_succ]
  omega

section

variable {divideHeight : Int} {H a b h : Nat}

theorem created_succ (params : RewardParams) (H : Nat) :
    created params (H + 1) = created params H +
      (getBlockSubsidy params H false + getPaymentsLimit params (H + 1 : Nat)) := by
  unfold created
  rw [Finset.sum_range_succ, Finset.sum_range_succ _ (H + 1)]
  omega

theorem created_monotone : Monotone (created (divideParams divideHeight)) := by
  refine monotone_nat_of_le_succ fun H => ?_
  have hsubsidy := getBlockSubsidy_nonneg (divideParams divideHeight) H false
  have hlimit := @getPaymentsLimit_nonneg (divideParams divideHeight) (H + 1 : Nat)
    (show (0 : Int) ≤ 7300 by decide)
  rw [created_succ]
  omega

theorem getBlockSubsidy_eq (hH : 250 ≤ H) (part : Bool) :
    getBlockSubsidy (divideParams divideHeight) H part =
      if part then if (98800 : Int) < H then rewardAt divideHeight H / 10 else 0
      else rewardAt divideHeight H := by
  unfold getBlockSubsidy
  rw [if_neg (by omega), if_neg (show ¬ (H : Int) < 250 by omega)]
  simp only [add_sub_cancel_right, gt_iff_lt]
  have hinterval : ((H : Int) / 350400).toNat = H / 350400 := by omega
  simp only [divideParams, mainRewardParams, hinterval, rewardAt]
  congr

theorem getPaymentsLimit_succ (hH : 250 ≤ H) :
    getPaymentsLimit (divideParams divideHeight) (H + 1 : Nat) =
      (if 102199 ≤ H then rewardAt divideHeight H / 10 * 7300 else 0) *
        ((H + 1) / 7300 - H / 7300 : Nat) := by
  have hpart : getBlockSubsidy (divideParams divideHeight) H true = _ := getBlockSubsidy_eq hH true
  have hprev : ((H + 1 : Nat) : Int) - 1 = H := by omega
  have hvalid : isValidBlockHeight (divideParams divideHeight) (H + 1 : Nat) = false ↔
      ¬ (98800 ≤ H + 1 ∧ (H + 1) % 7300 = 0) := by
    rw [isValidBlockHeight, decide_eq_false_iff_not]
    simp only [divideParams, mainRewardParams]
    omega
  unfold getPaymentsLimit
  rw [hprev, hpart, if_pos rfl]
  by_cases hheight : 102199 ≤ H ∧ (H + 1) % 7300 = 0
  · rw [if_neg (hvalid.not.mpr (by omega)), if_pos (by omega), if_pos hheight.1,
      show (H + 1) / 7300 - H / 7300 = 1 by omega, cast_one, mul_one]
    rfl
  · rw [if_pos (hvalid.mpr (by omega))]
    split_ifs
    · rw [show (H + 1) / 7300 - H / 7300 = 0 by omega, cast_zero, mul_zero]
    · rw [zero_mul]

/-- A stretch of heights with one subsidy and one superblock share. -/
theorem created_stretch {params : RewardParams} {subsidy share : Int}
    (hsteady : ∀ h, a ≤ h → h < b → getBlockSubsidy params h false = subsidy ∧
      getPaymentsLimit params (h + 1 : Nat) = share * ((h + 1) / 7300 - h / 7300 : Nat))
    (hab : a ≤ b) :
    created params b = created params a + subsidy * (b - a : Nat) +
      share * (b / 7300 - a / 7300 : Nat) := by
  induction b, hab using le_induction with
  | base => simp
  | succ b hab ih =>
    obtain ⟨hsubsidy, hlimit⟩ := hsteady b hab (lt_succ_self b)
    have hprev := ih fun h hah hhb => hsteady h hah (lt_succ_of_lt hhb)
    rw [created_succ, hsubsidy, hlimit, hprev, show b + 1 - a = (b - a) + 1 by omega,
      show (b + 1) / 7300 - a / 7300 = (b / 7300 - a / 7300) + ((b + 1) / 7300 - b / 7300) by omega]
    push_cast
    ring

/-- A stretch of an interval, from height 250 on. -/
theorem created_reward (reward : Int) (ha : 250 ≤ a) (hab : a ≤ b)
    (hstart : 102199 ≤ a ∨ b ≤ 102199)
    (hreward : ∀ h, a ≤ h → h < b → rewardAt divideHeight h = reward) :
    created (divideParams divideHeight) b = created (divideParams divideHeight) a +
      reward * (b - a : Nat) +
      (if 102199 ≤ a then reward / 10 * 7300 else 0) * (b / 7300 - a / 7300 : Nat) := by
  refine created_stretch (fun h hah hhb => ?_) hab
  rw [getBlockSubsidy_eq (by omega), getPaymentsLimit_succ (by omega), hreward h hah hhb]
  refine ⟨rfl, ?_⟩
  congr 1
  split_ifs <;> first | rfl | omega

theorem rewardAt_of_lt (hh : h < 700800) : rewardAt divideHeight h =
      if h < 350400 then 30 * coin else if h < divideHeight then 24 * coin else 15 * coin := by
  have hinterval : h / 350400 = 0 ∨ h / 350400 = 1 := by omega
  unfold rewardAt
  rcases hinterval with hy | hy
  · rw [hy, if_pos (show h < 350400 by omega)]
    rfl
  · rw [hy, if_neg (show ¬ h < 350400 by omega)]
    split_ifs <;> rfl

theorem rewardAt_of_ge (hh : 700800 ≤ h) (hdivide : divideHeight ≤ 700800) :
    rewardAt divideHeight h = decreasedSubsidy 2 (30 * coin) (h / 350400) := by
  rw [rewardAt, if_neg (by omega)]

theorem created_700800 (d : Nat) (hd : d = 385440 ∨ d = 385441) :
    created (divideParams d) 700800 = 17919489 * coin + 9 * coin * (d - 385440) := by
  have hreward := @rewardAt_of_lt d
  have h250 : created (divideParams d) 250 = 525249 * coin := by
    rcases hd with rfl | rfl <;> decide +kernel
  have h102199 := @created_reward d 250 102199 (30 * coin) (by omega) (by omega) (by omega)
    fun h _ _ => by rw [hreward (by omega), if_pos (by omega)]
  have h350400 := @created_reward d 102199 350400 (30 * coin) (by omega) (by omega) (by omega)
    fun h _ _ => by rw [hreward (by omega), if_pos (by omega)]
  have hdivide := @created_reward d 350400 d (24 * coin) (by omega) (by omega) (by omega)
    fun h _ _ => by rw [hreward (by omega), if_neg (by omega), if_pos (by omega)]
  have hlast := @created_reward d d 700800 (15 * coin) (by omega) (by omega) (by omega)
    fun h _ _ => by rw [hreward (by omega), if_neg (by omega), if_neg (by omega)]
  rw [hlast, hdivide, h350400, h102199, h250]
  rcases hd with rfl | rfl <;> norm_num [coin]

/-! ### The cap -/

theorem created_interval_le (n : Nat) :
    created (divideParams 385440) (350400 * (n + 2)) +
      2 * 385440 * decreasedSubsidy 2 (30 * coin) (n + 2) ≤ 24000000 * coin + 385440 * n := by
  induction n with
  | zero =>
    have hstart := created_700800 385440 (.inl rfl)
    rw [zero_add, show 350400 * 2 = 700800 by rfl]
    erw [hstart]
    decide
  | succ n ih =>
    have hyear := @created_reward 385440 (350400 * (n + 2)) (350400 * (n + 3))
      (decreasedSubsidy 2 (30 * coin) (n + 2)) (by omega) (by omega) (by omega) fun h _ _ => by
        rw [rewardAt_of_ge (by omega) (by omega), show h / 350400 = n + 2 by omega]
    rw [show n + 1 + 2 = n + 3 by omega, hyear, decreasedSubsidy_succ _ _ (n + 2),
      if_pos (by omega), show 350400 * (n + 3) - 350400 * (n + 2) = 350400 by omega,
      show 350400 * (n + 3) / 7300 - 350400 * (n + 2) / 7300 = 48 by omega]
    push_cast
    omega

theorem rewardAt_antitone {h' : Nat} (hle : h ≤ h') : rewardAt 385440 h' ≤ rewardAt 385440 h := by
  have hcoin : 0 < coin := by decide
  by_cases hlater : h' < 700800
  · rw [rewardAt_of_lt hlater, rewardAt_of_lt (by omega)]
    split_ifs <;> omega
  · rw [rewardAt_of_ge (by omega) (by omega)]
    by_cases hlate : h < 700800
    · have hsecond : decreasedSubsidy 2 (30 * coin) (h' / 350400) ≤ 15 * coin :=
        decreasedSubsidy_antitone (show 1 ≤ h' / 350400 by omega)
      rw [rewardAt_of_lt hlate]
      split_ifs <;> omega
    · rw [rewardAt_of_ge (by omega) (by omega)]
      exact decreasedSubsidy_antitone (by omega)

/-- The supply never exceeds the 52.5 million that the source states, and from height 250 on the
subsidy never grows. -/
theorem created_le_cap :
    (∀ H : Nat, H < 2 ^ 31 - 350400 → created (divideParams 385440) H ≤ 52500000 * coin) ∧
      ∀ h h' : Nat, 250 ≤ h → h ≤ h' →
        getBlockSubsidy (divideParams 385440) h' false ≤
          getBlockSubsidy (divideParams 385440) h false := by
  constructor
  · intro H hH
    have hinterval := created_interval_le (H / 350400)
    have hpos : 0 ≤ decreasedSubsidy 2 (30 * coin) (H / 350400 + 2) :=
      decreasedSubsidy_nonneg _ _ (by decide)
    have hlater : created (divideParams 385440) H ≤ _ :=
      created_monotone (show H ≤ 350400 * (H / 350400 + 2) by omega)
    have hcoin : coin = 100000000 := rfl
    omega
  · intro h h' hh hle
    rw [getBlockSubsidy_eq hh, getBlockSubsidy_eq (by omega)]
    exact rewardAt_antitone hle

theorem created_le_cap_year : 350400 < 2 ^ 31 - 350400 ∧
    created (divideParams 385440) 350400 ≤ 52500000 * coin :=
  ⟨by decide, created_le_cap.1 350400 (by decide)⟩

/-! ### The range of money -/

/-- The supply in the fourth interval, where it leaves the range of money. -/
theorem created_fourth {H : Nat} (hlow : 1051200 ≤ H) (hhigh : H ≤ 1401600) :
    created mainRewardParams H = 20810298 * coin + 375000000 * (H - 1051200 : Nat) +
      273750000000 * (H / 7300 - 144 : Nat) := by
  have hstart : created (divideParams 385441) 700800 = _ := created_700800 385441 (.inr rfl)
  have hthird : created (divideParams 385441) 1051200 = 20810298 * coin := by
    rw [@created_reward 385441 700800 1051200 (15 * coin / 2) (by omega) (by omega) (by omega)
      fun h _ _ => by
        rw [rewardAt_of_ge (by omega) (by omega), show h / 350400 = 2 by omega]; rfl, hstart]
    norm_num [coin]
  have hfourth := @created_reward 385441 1051200 H 375000000 (by omega) hlow (by omega)
    fun h _ _ => by rw [rewardAt_of_ge (by omega) (by omega), show h / 350400 = 3 by omega]; rfl
  rw [hthird, if_pos (by omega)] at hfourth
  exact hfourth

theorem valueIn_eq {values : List Int} (hpos : ∀ v ∈ values, 0 ≤ v) {n : Int} (hn : 0 ≤ n)
    (hsum : n + values.sum ≤ maxMoney) :
    values.foldlM (fun nValueIn nValue =>
      if moneyRange nValue = false ∨ moneyRange (nValueIn + nValue) = false then none
      else some (nValueIn + nValue)) n = some (n + values.sum) := by
  induction values generalizing n with
  | nil => simp
  | cons v values ih =>
    have hv := hpos v mem_cons_self
    have hrest : ∀ w ∈ values, 0 ≤ w := fun w hw => hpos w (mem_cons_of_mem _ hw)
    have hvalues := sum_nonneg hrest
    rw [sum_cons] at hsum
    have hrange : ¬ (moneyRange v = false ∨ moneyRange (n + v) = false) := by
      rw [not_or, Bool.not_eq_false, Bool.not_eq_false, moneyRange_iff, moneyRange_iff]
      omega
    rw [foldlM_cons, if_neg hrange, sum_cons, ← add_assoc]
    exact ih hrest (by omega) (by omega)

/-- The supply is in the range of money, and coins that exist can all be spent together, exactly
below height 1097408. -/
theorem created_moneyRange_iff (H : Nat) :
    (moneyRange (created mainRewardParams H) = true ∧
      ∀ values : List Int, (∀ v ∈ values, 0 ≤ v) → values.sum ≤ created mainRewardParams H →
        valueIn values = some values.sum) ↔
      H < 1097408 := by
  have hmono : Monotone (created mainRewardParams) := @created_monotone 385441
  have hlast := @created_fourth 1097407 (by omega) (by omega)
  have hover := @created_fourth 1097408 (by omega) (by omega)
  have hmax := maxMoney_eq
  norm_num [coin] at hlast hover
  constructor
  · rintro ⟨hrange, -⟩
    by_contra hH
    have hle := hmono (not_lt.mp hH)
    have hbound := (moneyRange_iff.mp hrange).2
    omega
  · intro hH
    have hle := hmono (show H ≤ 1097407 by omega)
    have hpos : 0 ≤ created mainRewardParams H := hmono (zero_le H)
    refine ⟨moneyRange_iff.mpr ⟨hpos, by omega⟩, fun values hvalues hsum => ?_⟩
    have hspent := valueIn_eq hvalues (le_refl 0) (by omega)
    rwa [zero_add] at hspent

/-- At that height the supply is out of range, and two halves of it cannot be spent together. -/
theorem created_out_of_range :
    created mainRewardParams 1097408 = 2100000300000000 ∧ moneyRange 2100000300000000 = false ∧
      valueIn [1050000150000000, 1050000150000000] = none := by
  refine ⟨?_, by decide, by decide⟩
  rw [created_fourth (by omega) (by omega)]
  norm_num [coin]

end

end Absolute
