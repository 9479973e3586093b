/-
Lists of rows that have a key.

A list with at most one row for every key is a partial map, whatever the order of its rows; sorted by
the keys it is determined by that map.
-/
import Mathlib.Data.List.Sort
import Mathlib.Logic.Function.Basic

namespace KeyedRows

open List Function Option

variable {α K : Type} {key : α → K} {l l' d : List α} {f g : K → Option α}

/-- The rows of the list are the values of the map, each of them once and under its own key. -/
structure Rows (key : α → K) (l : List α) (f : K → Option α) : Prop where
  nodup : (l.map key).Nodup
  mem : ∀ a, a ∈ l ↔ f (key a) = some a
  keyed : ∀ k a, f k = some a → key a = k

/-- Puts a row in the place of the one that has its key. -/
def upsert [DecidableEq K] (key : α → K) (x : α) (l : List α) : List α :=
  x :: l.filter fun a => key a ≠ key x

theorem pairwise_insertionSort_key [LinearOrder K] {r : α → α → Prop} [DecidableRel r]
    (hr : ∀ a b, r a b ↔ key a ≤ key b) (l : List α) :
    (l.insertionSort r).Pairwise fun a b => key a ≤ key b := by
  have htotal : Std.Total r := ⟨fun a b => by rw [hr, hr]; exact le_total _ _⟩
  have htrans : IsTrans α r := ⟨fun a b c => by rw [hr, hr, hr]; exact le_trans⟩
  exact (pairwise_insertionSort r l).imp fun hab => (hr _ _).mp hab

namespace Rows

theorem congr (h : Rows key l f) (heq : ∀ k, f k = g k) : Rows key l g :=
  funext heq ▸ h

theorem of_perm (h : Rows key l f) (hperm : l'.Perm l) : Rows key l' f where
  nodup := (hperm.map key).nodup_iff.mpr h.nodup
  mem a := hperm.mem_iff.trans (h.mem a)
  keyed := h.keyed

theorem perm (h : Rows key l f) (h' : Rows key l' f) : l.Perm l' := by
  refine (perm_ext_iff_of_nodup (.of_map key h.nodup) (.of_map key h'.nodup)).mpr ?_
  intro a
  rw [h.mem, h'.mem]

theorem filter (h : Rows key l f) (p : α → Bool) :
    Rows key (l.filter p) fun k => (f k).filter p where
  nodup := (filter_sublist.map key).nodup h.nodup
  mem a := by
    rw [mem_filter, h.mem, filter_eq_some_iff]
  keyed k a ha := h.keyed k a (filter_eq_some_iff.mp ha).1

section Upsert

variable [DecidableEq K]

theorem upsert (h : Rows key l f) (x : α) :
    Rows key (upsert key x l) (update f (key x) (some x)) where
  nodup := by
    rw [KeyedRows.upsert, map_cons, nodup_cons]
    refine ⟨?_, (filter_sublist.map key).nodup h.nodup⟩
    intro hmem
    obtain ⟨a, ha, hkey⟩ := mem_map.mp hmem
    exact of_decide_eq_true (mem_filter.mp ha).2 hkey
  mem a := by
    rw [KeyedRows.upsert, mem_cons, mem_filter, h.mem]
    by_cases hkey : key a = key x
    · rw [hkey, update_self]
      simp [eq_comm]
    · have hne : a ≠ x := fun heq => hkey (heq ▸ rfl)
      simp [hkey, hne]
  keyed k a ha := by
    by_cases hk : k = key x
    · rw [hk, update_self] at ha
      rw [hk, some.inj ha]
    · rw [update_of_ne hk] at ha
      exact h.keyed k a ha

/-- Rows that are put in one after the other take precedence over those that were there. -/
theorem upsertAll (h : Rows key l f) (hd : Rows key d g) :
    Rows key (d.foldl (fun l x => KeyedRows.upsert key x l) l) fun k => (g k).or (f k) := by
  induction d generalizing l f g with
  | nil =>
    refine h.congr ?_
    intro k
    cases hk : g k with
    | none => rfl
    | some a =>
      rw [← hd.keyed k a hk, ← hd.mem] at hk
      cases hk
  | cons x d ih =>
    obtain ⟨hx, hnodup⟩ := nodup_cons.mp hd.nodup
    have hgx : g (key x) = some x := (hd.mem x).mp mem_cons_self
    -- The rest of the rows are those of the other keys.
    have hrest : Rows key d (update g (key x) none) := by
      refine ⟨hnodup, ?_, ?_⟩
      · intro a
        by_cases hkey : key a = key x
        · rw [hkey, update_self]
          refine ⟨fun ha => absurd (mem_map.mpr ⟨a, ha, hkey⟩) hx, fun ha => ?_⟩
          cases ha
        · rw [update_of_ne hkey, ← hd.mem, mem_cons]
          exact ⟨.inr, fun ha => ha.resolve_left fun heq => hkey (heq ▸ rfl)⟩
      · intro k a ha
        by_cases hk : k = key x
        · rw [hk, update_self] at ha
          cases ha
        · rw [update_of_ne hk] at ha
          exact hd.keyed k a ha
    refine (ih (h.upsert x) hrest).congr ?_
    intro k
    by_cases hk : k = key x
    · rw [hk, update_self, update_self, hgx]
      rfl
    · rw [update_of_ne hk, update_of_ne hk]

end Upsert

/-- Sorted by the keys there is one list for a map. -/
theorem eq_of_sorted [LinearOrder K] (h : Rows key l f) (h' : Rows key l' f)
    (hl : l.Pairwise fun a b => key a ≤ key b) (hl' : l'.Pairwise fun a b => key a ≤ key b) :
    l = l' := by
  refine (h.perm h').eq_of_pairwise ?_ hl hl'
  intro a b ha hb hab hba
  -- Two rows with one key are one row.
  have ha := (h.mem a).mp ha
  have hb := (h'.mem b).mp hb
  rw [le_antisymm hab hba, hb] at ha
  exact (some.inj ha).symm

end Rows

theorem filterMap_ite {β : Type} (f : α → β) (p : β → Bool) (l : List α) :
    (l.filterMap fun a => if p (f a) then some (f a) else none) = (l.map f).filter p := by
  induction l with
  | nil => rfl
  | cons a l ih =>
    rw [filterMap_cons, map_cons, filter_cons, ← ih]
    cases p (f a) <;> rfl

end KeyedRows
