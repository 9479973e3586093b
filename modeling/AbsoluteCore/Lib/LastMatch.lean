/-
The last element of a list that passes a test, found by a loop that goes on to the end.

Code that writes `if (test) index = i;` in a loop without leaving it keeps the last
position where the test held.
-/
import Mathlib

namespace LastMatch

variable {α : Type}

/-- The position and the value of the last element that passes the test. -/
def find (p : α → Bool) (xs : List α) : Option (Nat × α) :=
  xs.zipIdx.foldl (fun found x => if p x.1 then some (x.2, x.1) else found) none

theorem find_append_singleton (p : α → Bool) (xs : List α) (a : α) :
    find p (xs ++ [a]) = if p a then some (xs.length, a) else find p xs := by
  simp [find, List.zipIdx_append]

theorem getElem?_of_find {p : α → Bool} {xs : List α} {i : Nat} {a : α}
    (h : find p xs = some (i, a)) : xs[i]? = some a ∧ p a = true := by
  induction xs using List.reverseRecOn with
  | nil => simp [find] at h
  | append_singleton xs b ih =>
    rw [find_append_singleton] at h
    by_cases hb : p b = true
    · rw [if_pos hb, Option.some.injEq, Prod.mk.injEq] at h
      obtain ⟨rfl, rfl⟩ := h
      exact ⟨by simp, hb⟩
    · rw [if_neg hb] at h
      obtain ⟨hget, ha⟩ := ih h
      have hlt : i < xs.length := (List.getElem?_eq_some_iff.mp hget).1
      exact ⟨by rw [List.getElem?_append_left hlt, hget], ha⟩

theorem find_map {β : Type} (f : α → β) (p : β → Bool) (xs : List α) :
    find p (xs.map f) = (find (fun a => p (f a)) xs).map fun x => (x.1, f x.2) := by
  induction xs using List.reverseRecOn with
  | nil => rfl
  | append_singleton xs a ih =>
    rw [List.map_append, List.map_singleton, find_append_singleton, find_append_singleton, ih,
      List.length_map]
    by_cases ha : p (f a) = true
    · rw [if_pos ha, if_pos ha]
      rfl
    · rw [if_neg ha, if_neg ha]

end LastMatch
