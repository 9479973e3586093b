/-
The states the block's transactions write, field by field.

Each definition here changes a few of the fourteen fields of a masternode's state; the
lemmas say which, so that nothing later has to unfold it.
-/
import AbsoluteCore.Evo.DeterministicMNManager

namespace Absolute

open CDeterministicMNList CDeterministicMNState

variable (n : Int) (s : CDeterministicMNState) {dmn : CDeterministicMN}

/-! ### `ProUpServTx` -/

section

variable (p : CProUpServTx)

/-- The condition under which a `ProUpServTx` lifts the ban of a masternode. -/
def Revives (s : CDeterministicMNState) : Prop :=
  s.nPoSeBanHeight ≠ -1 ∧ s.pubKeyOperator.isValid = true ∧ s.keyIDVoting ≠ 0 ∧ s.keyIDOwner ≠ 0

@[simp] theorem updServState_frame : (updServState n p s).addr = p.addr ∧
    (updServState n p s).keyIDOwner = s.keyIDOwner ∧
    (updServState n p s).pubKeyOperator = s.pubKeyOperator ∧
    (updServState n p s).nLastPaidHeight = s.nLastPaidHeight ∧
    (updServState n p s).nRegisteredHeight = s.nRegisteredHeight := by
  unfold updServState
  dsimp only
  split <;> simp

theorem updServState_of_revives {s : CDeterministicMNState} (h : Revives s) :
    (updServState n p s).nPoSePenalty = 0 ∧ (updServState n p s).nPoSeBanHeight = -1 ∧
      (updServState n p s).nPoSeRevivedHeight = n := by
  unfold updServState
  dsimp only
  split
  · exact ⟨rfl, rfl, rfl⟩
  · next hn => exact absurd h hn

theorem updServState_of_not_revives {s : CDeterministicMNState} (h : ¬Revives s) :
    (updServState n p s).nPoSePenalty = s.nPoSePenalty ∧
      (updServState n p s).nPoSeBanHeight = s.nPoSeBanHeight ∧
      (updServState n p s).nPoSeRevivedHeight = s.nPoSeRevivedHeight := by
  unfold updServState
  dsimp only
  split
  · next hn => exact absurd hn h
  · exact ⟨rfl, rfl, rfl⟩

end

/-! ### Bans -/

theorem isMNValid_iff : isMNValid dmn = true ↔ dmn.pdmnState.nPoSeBanHeight = -1 := by
  simp [isMNValid, isMNPoSeBanned]

theorem isMNPoSeBanned_iff : isMNPoSeBanned dmn = true ↔ dmn.pdmnState.nPoSeBanHeight ≠ -1 := by
  simp [isMNPoSeBanned]

theorem banIfNotBanned_eq : s.banIfNotBanned n = { s with
    nPoSeBanHeight := if s.nPoSeBanHeight = -1 then n else s.nPoSeBanHeight } := by
  unfold banIfNotBanned
  split <;> simp_all

/-! ### `ProUpRegTx` -/

section

variable (p : CProUpRegTx)

@[simp] theorem updRegState_frame : (updRegState n p s).pubKeyOperator = p.pubKeyOperator ∧
    (updRegState n p s).keyIDOwner = s.keyIDOwner ∧
    (updRegState n p s).nPoSePenalty = s.nPoSePenalty ∧
    (updRegState n p s).nPoSeRevivedHeight = s.nPoSeRevivedHeight ∧
    (updRegState n p s).nLastPaidHeight = s.nLastPaidHeight ∧
    (updRegState n p s).nRegisteredHeight = s.nRegisteredHeight := by
  unfold updRegState
  split <;> simp [resetOperatorFields, banIfNotBanned_eq]

theorem updRegState_addr : (updRegState n p s).addr =
    if s.pubKeyOperator = p.pubKeyOperator then s.addr else .null := by
  unfold updRegState
  split <;> simp_all [resetOperatorFields, banIfNotBanned_eq]

theorem updRegState_nPoSeBanHeight : (updRegState n p s).nPoSeBanHeight =
    if s.pubKeyOperator ≠ p.pubKeyOperator ∧ s.nPoSeBanHeight = -1 then n
    else s.nPoSeBanHeight := by
  unfold updRegState
  split <;> simp_all [resetOperatorFields, banIfNotBanned_eq]

end

/-! ### `ProUpRevTx` -/

section

variable (p : CProUpRevTx)

@[simp] theorem updRevState_frame : (updRevState n p s).addr = .null ∧
    (updRevState n p s).pubKeyOperator = .null ∧
    (updRevState n p s).keyIDOwner = s.keyIDOwner ∧
    (updRevState n p s).nPoSePenalty = s.nPoSePenalty ∧
    (updRevState n p s).nPoSeRevivedHeight = s.nPoSeRevivedHeight ∧
    (updRevState n p s).nLastPaidHeight = s.nLastPaidHeight ∧
    (updRevState n p s).nRegisteredHeight = s.nRegisteredHeight := by
  simp [updRevState, resetOperatorFields, banIfNotBanned_eq]

theorem updRevState_nPoSeBanHeight : (updRevState n p s).nPoSeBanHeight =
    if s.nPoSeBanHeight = -1 then n else s.nPoSeBanHeight := by
  simp [updRevState, resetOperatorFields, banIfNotBanned_eq]

end

/-! ### `PoSePunish` -/

section

variable (l : CDeterministicMNList)

@[simp] theorem punishedState_frame : (l.punishedState s n).addr = s.addr ∧
    (l.punishedState s n).keyIDOwner = s.keyIDOwner ∧
    (l.punishedState s n).pubKeyOperator = s.pubKeyOperator ∧
    (l.punishedState s n).nPoSeRevivedHeight = s.nPoSeRevivedHeight ∧
    (l.punishedState s n).nLastPaidHeight = s.nLastPaidHeight ∧
    (l.punishedState s n).nRegisteredHeight = s.nRegisteredHeight := by
  unfold punishedState
  dsimp only
  split <;> simp

theorem punishedState_nPoSePenalty :
    (l.punishedState s n).nPoSePenalty = min l.calcMaxPoSePenalty (s.nPoSePenalty + n) := by
  unfold punishedState
  dsimp only
  split <;> rfl

theorem punishedState_nPoSeBanHeight : (l.punishedState s n).nPoSeBanHeight =
    if min l.calcMaxPoSePenalty (s.nPoSePenalty + n) ≥ l.calcMaxPoSePenalty ∧ s.nPoSeBanHeight = -1
    then l.nHeight else s.nPoSeBanHeight := by
  unfold punishedState
  dsimp only
  split <;> rfl

end

end Absolute
