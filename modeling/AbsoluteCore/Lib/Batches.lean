/-
Cutting a list into batches of bounded size.

A loop pushes its items into an open batch.  It hands a batch out either when it has just become full,
or before the item that would make it too heavy.
-/
import Mathlib

namespace Batches

open List

variable {α : Type} {max : Nat} {items : List α}

/-- Hands the open batch out when it has `max` items, and what is left of it at the end. -/
def full (max : Nat) : List α → List α → List (List α)
  | batch, [] => if batch = [] then [] else [batch]
  | batch, x :: rest =>
    if (batch ++ [x]).length = max then (batch ++ [x]) :: full max [] rest
    else full max (batch ++ [x]) rest

/-- Hands the open batch out before an item that would bring its weight over `max`. -/
def weighed (max : Nat) (weight : α → Nat) : Nat → List α → List α → List (List α)
  | _, batch, [] => if batch = [] then [] else [batch]
  | total, batch, x :: rest =>
    if max < total + weight x then batch :: weighed max weight (weight x) [x] rest
    else weighed max weight (total + weight x) (batch ++ [x]) rest

theorem flatten_full (max : Nat) (batch items : List α) :
    (full max batch items).flatten = batch ++ items := by
  induction items generalizing batch with
  | nil => by_cases h : batch = [] <;> simp [full, h]
  | cons x rest ih => simp only [full]; split <;> simp [ih]

theorem flatten_weighed (max : Nat) (weight : α → Nat) (total : Nat) (batch items : List α) :
    (weighed max weight total batch items).flatten = batch ++ items := by
  induction items generalizing total batch with
  | nil => by_cases h : batch = [] <;> simp [weighed, h]
  | cons x rest ih => simp only [weighed]; split <;> simp [ih]

theorem length_le_of_mem_full {batch : List α} (hbatch : batch.length < max) :
    ∀ b ∈ full max batch items, b.length ≤ max := by
  induction items generalizing batch with
  | nil =>
    intro b hb
    by_cases h : batch = [] <;> simp [full, h] at hb
    exact hb ▸ hbatch.le
  | cons x rest ih =>
    simp only [full]
    split
    · next h =>
      intro b hb
      rcases mem_cons.mp hb with rfl | hb
      · exact h.le
      · have hnil : ([] : List α).length < max := Nat.zero_lt_of_lt hbatch
        exact ih hnil b hb
    · next h =>
      refine ih ?_
      simp only [length_append, length_singleton] at h ⊢
      omega

/-- The weight of the open batch is what the loop has counted. -/
theorem sum_le_of_mem_weighed {weight : α → Nat} (batch : List α)
    (hitems : ∀ x ∈ items, weight x ≤ max) (hbatch : (batch.map weight).sum ≤ max) :
    ∀ b ∈ weighed max weight (batch.map weight).sum batch items, (b.map weight).sum ≤ max := by
  induction items generalizing batch with
  | nil =>
    intro b hb
    by_cases h : batch = [] <;> simp [weighed, h] at hb
    exact hb ▸ hbatch
  | cons x rest ih =>
    have hrest : ∀ y ∈ rest, weight y ≤ max := fun y hy => hitems y (mem_cons_of_mem _ hy)
    have hx := hitems x mem_cons_self
    intro b hb
    simp only [weighed] at hb
    split at hb
    · rcases mem_cons.mp hb with rfl | hb
      · exact hbatch
      · have hone : ([x].map weight).sum = weight x := by simp
        exact ih [x] hrest (hone ▸ hx) b (hone ▸ hb)
    · next h =>
      have hsum : ((batch ++ [x]).map weight).sum = (batch.map weight).sum + weight x := by simp
      exact ih _ hrest (hsum ▸ Nat.le_of_not_lt h) b (hsum ▸ hb)

end Batches
