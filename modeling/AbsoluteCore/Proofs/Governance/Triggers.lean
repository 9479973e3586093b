/-
Execution and validation of triggers.

Both pick the trigger with the most votes, but validation asks first whether one of them is funded, and
execution does not.
-/
import AbsoluteCore.Proofs.Validation.MinerCoinbase

namespace Absolute

namespace TriggerState

open List Option Fallible

variable {params : RewardParams} {s : TriggerState} {nBlockHeight : Int}

theorem foldl_best_eq_none {α : Type} {P : Option α → α → Prop} [∀ best x, Decidable (P best x)]
    (xs : List α) (best : Option α) :
    xs.foldl (fun best x => if P best x then some x else best) best = none ↔
      best = none ∧ ∀ x ∈ xs, ¬P none x := by
  induction xs generalizing best with
  | nil => simp
  | cons x xs ih =>
    rw [foldl_cons, ih, forall_mem_cons]
    cases best <;> split_ifs <;> simp_all

/-- Validation picks the superblock of the same trigger. -/
theorem getBestSuperblock_eq : getBestSuperblock params s.gov nBlockHeight =
    (s.getBestTrigger params nBlockHeight).map fun p => s.superblock p.2 := by
  unfold getBestSuperblock getBestTrigger
  split_ifs with hheight
  · rfl
  · rw [gov, foldl_map]
    refine @foldl_hom _ _ _ (Option.map fun p : Uint256 × GovernanceTrigger => s.superblock p.2) _ _
      s.mapTrigger none fun best p => ?_
    rw [Option.map_map, apply_ite (Option.map _)]
    rfl

theorem getBestTrigger_mem {p : Uint256 × GovernanceTrigger}
    (h : s.getBestTrigger params nBlockHeight = some p) :
    p ∈ s.mapTrigger ∧ isValidBlockHeight params nBlockHeight = true := by
  unfold getBestTrigger at h
  split_ifs at h with hheight
  rcases foldl_best_mem s.mapTrigger none h with hnone | hmem
  · cases hnone
  · exact ⟨hmem, by simpa using hheight⟩

theorem getBestTrigger_eq_none (hheight : isValidBlockHeight params nBlockHeight = true) :
    s.getBestTrigger params nBlockHeight = none ↔
      ¬∃ p ∈ s.mapTrigger, p.2.nBlockHeight = nBlockHeight ∧ 0 < p.2.nAbsoluteYesCount := by
  rw [getBestTrigger, if_neg (by simp [hheight]), foldl_best_eq_none]
  simp

theorem isSuperblockTriggered_iff (hheight : isValidBlockHeight params nBlockHeight = true) :
    isSuperblockTriggered params s.gov nBlockHeight = true ↔
      ∃ p ∈ s.mapTrigger, p.2.nBlockHeight = nBlockHeight ∧ s.updateSentinelVariables p.2 = true := by
  simp [isSuperblockTriggered, hheight, gov, superblock]

/-- Where votes are counted, a flag is set just where the votes suffice. -/
theorem exists_flag_iff (hcount : s.nMnCount ≠ 0) :
    (∃ p ∈ s.mapTrigger, p.2.nBlockHeight = nBlockHeight ∧ s.updateSentinelVariables p.2 = true) ↔
      s.Funded nBlockHeight := by
  simp [updateSentinelVariables, hcount, Funded]

/-- The payments of the superblock are in every block that is accepted. -/
theorem Requires.isValid {sb : CSuperblock} (h : s.Requires params nBlockHeight sb)
    {txNew : CTransaction} {blockReward : Int}
    (hvalid : isBlockPayeeValid params s.gov txNew nBlockHeight blockReward = .ok true) :
    sb.isValid params txNew nBlockHeight blockReward = .ok true := by
  obtain ⟨hlite, henabled, htriggered, hbest⟩ := h
  have hstart : ¬nBlockHeight < params.nSuperblockStartBlock := by
    simp only [isSuperblockTriggered, Bool.and_eq_true] at htriggered
    exact (start_le_of_isValidBlockHeight htriggered.1).not_gt
  rw [isBlockPayeeValid, hlite, henabled, htriggered, isSuperblockValid, hbest] at hvalid
  simp only [hstart, Bool.false_eq_true, if_false, and_self, if_true, bind_eq_ok] at hvalid
  obtain ⟨valid, hok, hvalid⟩ := hvalid
  cases valid with
  | false => cases hvalid
  | true => exact hok

/-- **What is marked as executed is what validation has asked for**, exactly if the votes are
settled. -/
theorem marksRequired_iff (params : RewardParams) (s : TriggerState) (nBlockHeight : Int) :
    s.MarksRequired params nBlockHeight ↔ s.Settled params nBlockHeight := by
  unfold MarksRequired Settled executeBestSuperblock
  by_cases hheight : isValidBlockHeight params nBlockHeight = true
  swap
  · simp [getBestTrigger, hheight]
  have hnone := getBestTrigger_eq_none (s := s) hheight
  have htriggered := isSuperblockTriggered_iff (s := s) hheight
  cases hbest : s.getBestTrigger params nBlockHeight with
  | none => simp [hnone.mp hbest]
  | some p =>
    have hvotes : ∃ p ∈ s.mapTrigger, p.2.nBlockHeight = nBlockHeight ∧ 0 < p.2.nAbsoluteYesCount := by
      by_contra hno
      exact absurd (hbest.symm.trans (hnone.mpr hno)) (some_ne_none p)
    constructor
    · intro hmarks _ _
      obtain ⟨hfunded, t, -, hlite, henabled, hflag, -⟩ := hmarks p.1 rfl
      refine ⟨hlite, henabled, hfunded, fun hzero => ?_⟩
      simpa [updateSentinelVariables, hzero] using htriggered.mp hflag
    · intro hsettled hash hhash
      obtain rfl := some.inj hhash
      obtain ⟨hlite, henabled, hfunded, hflag⟩ := hsettled hheight hvotes
      refine ⟨hfunded, p.2, (getBestTrigger_mem hbest).1, hlite, henabled, htriggered.mpr ?_, ?_⟩
      · by_cases hzero : s.nMnCount = 0
        · simpa [updateSentinelVariables, hzero] using hflag hzero
        · exact (exists_flag_iff hzero).mpr hfunded
      · rw [getBestSuperblock_eq, hbest, map_some]

/-- A trigger with one vote among a hundred masternodes, where ten are needed. -/
def oneVote : TriggerState where
  mapTrigger := [(5, { nBlockHeight := 102200, vecPayments := [⟨[1], coin⟩], fCachedFunding := false,
                       nAbsoluteYesCount := 1 })]
  nGovernanceMinQuorum := 10
  nMnCount := 100
  others := { isSynced := true, fLiteMode := false, superblocksEnabled := true, activeTriggers := [],
              isTransactionValid := fun _ _ _ => true }

/-- It is marked, while no superblock is triggered. -/
theorem marksRequired_unfunded :
    oneVote.executeBestSuperblock mainRewardParams 102200 = some 5 ∧
      isSuperblockTriggered mainRewardParams oneVote.gov 102200 = false ∧
      ¬oneVote.MarksRequired mainRewardParams 102200 := by
  refine ⟨by decide, by decide, fun h => ?_⟩
  obtain ⟨-, t, -, -, -, htriggered, -⟩ := h 5 (by decide)
  exact absurd htriggered (by decide)

end TriggerState

end Absolute
