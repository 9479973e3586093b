/-
Sums of amounts.

`GetValueOut` returns the sum of the outputs exactly when each of them and the sum are in the
range of money.  On the way to a sum in that range no `CAmount` overflows.
-/
import AbsoluteCore.Lib.Fallible
import AbsoluteCore.Validation.BlockReward

namespace Absolute

open Fallible List Except

variable {x n v : Int} {vout : List CTxOut}

theorem amount_eq_ok {y : Int} : amount x = .ok y ↔ FitsAmount x ∧ x = y := by
  unfold amount
  by_cases h : FitsAmount x
  · simp [h]
  · simp [h]

theorem moneyRange_iff : moneyRange x = true ↔ 0 ≤ x ∧ x ≤ maxMoney := by
  exact decide_eq_true_iff

theorem maxMoney_eq : maxMoney = 2100000000000000 := rfl

theorem fitsAmount_of_bounds (hlow : -(2 ^ 62) ≤ x) (hhigh : x ≤ 2 ^ 62) : FitsAmount x := by
  unfold FitsAmount
  omega

def sumValues (vout : List CTxOut) : Int := (vout.map (·.nValue)).sum

@[simp] theorem sumValues_nil : sumValues [] = 0 := rfl

@[simp] theorem sumValues_cons (out : CTxOut) (vout : List CTxOut) :
    sumValues (out :: vout) = out.nValue + sumValues vout := by
  simp [sumValues]

theorem sumValues_append (vout vout' : List CTxOut) :
    sumValues (vout ++ vout') = sumValues vout + sumValues vout' := by
  simp [sumValues]

def AllMoney (vout : List CTxOut) : Prop := ∀ out ∈ vout, moneyRange out.nValue = true

theorem sumValues_le_of_sublist {vout' : List CTxOut} (hsub : vout.Sublist vout')
    (h : AllMoney vout') : sumValues vout ≤ sumValues vout' := by
  induction hsub with
  | slnil => simp
  | cons out _ ih =>
    have hout := moneyRange_iff.mp (h out mem_cons_self)
    have hrest := ih fun o ho => h o (mem_cons_of_mem _ ho)
    rw [sumValues_cons]
    omega
  | cons_cons out _ ih =>
    have hrest := ih fun o ho => h o (mem_cons_of_mem _ ho)
    rw [sumValues_cons, sumValues_cons]
    omega

theorem sumValues_nonneg (h : AllMoney vout) : 0 ≤ sumValues vout :=
  sumValues_le_of_sublist (nil_sublist vout) h

/-- One pass of `GetValueOut`. -/
def addValueOut (nValueOut : Int) (out : CTxOut) : Except Fail Int := do
  let nValueOut ← amount (nValueOut + out.nValue)
  if moneyRange out.nValue = false ∨ moneyRange nValueOut = false then
    .error (.throws "GetValueOut: value out of range")
  else .ok nValueOut

theorem addValueOut_eq_ok {out : CTxOut} (hn : 0 ≤ n) : addValueOut n out = .ok v ↔
      moneyRange out.nValue = true ∧ n + out.nValue ≤ maxMoney ∧ v = n + out.nValue := by
  unfold addValueOut
  rw [bind_eq_ok]
  constructor
  · intro h
    obtain ⟨m, hm, hv⟩ := h
    obtain ⟨-, rfl⟩ := amount_eq_ok.mp hm
    split at hv
    · cases hv
    · next hrange =>
        rw [not_or, Bool.not_eq_false, Bool.not_eq_false] at hrange
        obtain ⟨hout, hsum⟩ := hrange
        exact ⟨hout, (moneyRange_iff.mp hsum).2, (ok.inj hv).symm⟩
  · intro h
    obtain ⟨hout, hsum, rfl⟩ := h
    have hbounds := moneyRange_iff.mp hout
    have hfits : FitsAmount (n + out.nValue) := by
      rw [maxMoney_eq] at hsum
      exact fitsAmount_of_bounds (by omega) (by omega)
    refine ⟨n + out.nValue, amount_eq_ok.mpr ⟨hfits, rfl⟩, ?_⟩
    rw [if_neg]
    rw [not_or, Bool.not_eq_false, Bool.not_eq_false]
    exact ⟨hout, moneyRange_iff.mpr ⟨by omega, hsum⟩⟩

theorem foldlM_addValueOut (hn : 0 ≤ n) (hmax : n ≤ maxMoney) : vout.foldlM addValueOut n = .ok v ↔
      AllMoney vout ∧ n + sumValues vout ≤ maxMoney ∧ v = n + sumValues vout := by
  induction vout generalizing n with
  | nil =>
    rw [foldlM_nil, pure_eq_ok, sumValues_nil]
    constructor
    · intro h
      exact ⟨fun out hout => absurd hout not_mem_nil, by omega, by omega⟩
    · intro h
      omega
  | cons out vout ih =>
    rw [foldlM_cons, bind_eq_ok, sumValues_cons]
    constructor
    · intro h
      obtain ⟨m, hm, hrest⟩ := h
      obtain ⟨hout, hle, rfl⟩ := (addValueOut_eq_ok hn).mp hm
      have hbounds := moneyRange_iff.mp hout
      obtain ⟨hall, hsum, rfl⟩ := (ih (by omega) hle).mp hrest
      refine ⟨?_, by omega, by omega⟩
      intro o ho
      rcases mem_cons.mp ho with rfl | ho
      · exact hout
      · exact hall o ho
    · intro h
      obtain ⟨hall, hsum, rfl⟩ := h
      have hout := hall out mem_cons_self
      have hbounds := moneyRange_iff.mp hout
      have hall' : AllMoney vout := fun o ho => hall o (mem_cons_of_mem _ ho)
      have hrest := sumValues_nonneg hall'
      refine ⟨n + out.nValue, (addValueOut_eq_ok hn).mpr ⟨hout, by omega, rfl⟩, ?_⟩
      exact (ih (by omega) (by omega)).mpr ⟨hall', by omega, by omega⟩

/-- `GetValueOut` returns the sum of the outputs, if they are amounts of money. -/
theorem getValueOut_eq_ok {tx : CTransaction} : tx.getValueOut = .ok v ↔
      AllMoney tx.vout ∧ sumValues tx.vout ≤ maxMoney ∧ v = sumValues tx.vout := by
  show tx.vout.foldlM addValueOut 0 = .ok v ↔ _
  rw [foldlM_addValueOut (le_refl 0) (by rw [maxMoney_eq]; omega), zero_add]

end Absolute
