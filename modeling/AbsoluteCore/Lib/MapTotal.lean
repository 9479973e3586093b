/-
What a map says of its keys, as a function, and sums over its values.
-/
import Mathlib

namespace MapTotal

open Std List Function ExtTreeMap LawfulEqCmp

variable {K V α : Type} {cmp : K → K → Ordering} [TransCmp cmp] [LawfulEqCmp cmp] {k j : K}
  {m : ExtTreeMap K V cmp}

omit [LawfulEqCmp cmp] in
theorem mem_iff_exists : k ∈ m ↔ ∃ v, m[k]? = some v :=
  mem_iff_isSome_getElem?.trans Option.isSome_iff_exists

omit [LawfulEqCmp cmp] in
theorem not_mem_iff : k ∉ m ↔ m[k]? = none := by
  rw [mem_iff_isSome_getElem?, Option.not_isSome_iff_eq_none]

omit [TransCmp cmp] in
theorem cmp_ne (h : j ≠ k) : ¬ cmp k j = .eq :=
  fun heq => h (eq_of_compare heq).symm

theorem comp_insert (f : Option V → α) (m : ExtTreeMap K V cmp) (k : K) (v : V) [DecidableEq K] :
    (fun j => f (m.insert k v)[j]?) = update (fun j => f m[j]?) k (f (some v)) := by
  funext j
  by_cases hj : j = k
  · subst hj
    rw [update_self, getElem?_insert_self]
  · rw [update_of_ne hj, ExtTreeMap.getElem?_insert, if_neg (cmp_ne hj)]

theorem comp_erase (f : Option V → α) (m : ExtTreeMap K V cmp) (k : K) [DecidableEq K] :
    (fun j => f (m.erase k)[j]?) = update (fun j => f m[j]?) k (f none) := by
  funext j
  by_cases hj : j = k
  · subst hj
    rw [update_self, getElem?_erase_self]
  · rw [update_of_ne hj, getElem?_erase, if_neg (cmp_ne hj)]

def weight (w : K × V → Nat) (m : ExtTreeMap K V cmp) : Nat := (m.toList.map w).sum

def total (w : V → Nat) (m : ExtTreeMap K V cmp) : Nat := (m.toList.map fun p => w p.2).sum

variable {w : V → Nat} {u : K × V → Nat} {m : ExtTreeMap K V cmp} {k : K} {v : V}

omit [LawfulEqCmp cmp] in
@[simp] theorem weight_empty : weight u (∅ : ExtTreeMap K V cmp) = 0 := by
  rw [weight, toList_eq_nil_iff.mpr rfl, map_nil, sum_nil]

theorem nodup_map_fst_toList (m : ExtTreeMap K V cmp) : (m.toList.map Prod.fst).Nodup := by
  refine pairwise_map.mpr (distinct_keys_toList.imp ?_)
  intro a b hne heq
  rw [heq] at hne
  exact hne ReflCmp.compare_self

theorem nodup_toList (m : ExtTreeMap K V cmp) : m.toList.Nodup :=
  List.Nodup.of_map Prod.fst (nodup_map_fst_toList m)

theorem weight_of_getElem? (h : m[k]? = some v) : weight u m = u (k, v) + weight u (m.erase k) := by
  have hnot : (k, v) ∉ (m.erase k).toList := by
    rw [mem_toList_iff_getElem?_eq_some, getElem?_erase_self]
    exact fun h => by cases h
  have hperm : m.toList.Perm ((k, v) :: (m.erase k).toList) := by
    refine (perm_ext_iff_of_nodup (nodup_toList m)
      (nodup_cons.mpr ⟨hnot, nodup_toList _⟩)).mpr ?_
    rintro ⟨j, u⟩
    rw [mem_cons, mem_toList_iff_getElem?_eq_some,
      mem_toList_iff_getElem?_eq_some, getElem?_erase, Prod.mk.injEq]
    by_cases hj : j = k
    · obtain rfl := hj
      simp [h, eq_comm]
    · simp [hj, cmp_ne hj]
  rw [weight, (hperm.map u).sum_eq]
  rfl

theorem weight_insert : weight u (m.insert k v) = u (k, v) + weight u (m.erase k) := by
  rw [weight_of_getElem? (getElem?_insert_self)]
  congr 2
  refine ext_getElem? fun j => ?_
  simp only [ExtTreeMap.getElem?_erase, ExtTreeMap.getElem?_insert]
  split_ifs <;> rfl

theorem total_of_getElem? (h : m[k]? = some v) : total w m = w v + total w (m.erase k) :=
  weight_of_getElem? h

theorem insert_eq_some {u : V} :
    (m.insert k v)[j]? = some u ↔ j = k ∧ u = v ∨ j ≠ k ∧ m[j]? = some u := by
  rw [ExtTreeMap.getElem?_insert]
  by_cases hj : j = k
  · subst hj
    simp [@eq_comm V u]
  · simp [hj, cmp_ne hj]

theorem erase_eq_some : (m.erase k)[j]? = some v ↔ j ≠ k ∧ m[j]? = some v := by
  rw [getElem?_erase]
  by_cases hj : j = k
  · simp [hj]
  · simp [hj, cmp_ne hj]

theorem total_insert : total w (m.insert k v) = w v + total w (m.erase k) :=
  weight_insert

theorem erase_of_getElem? (h : m[k]? = none) : m.erase k = m := by
  refine ext_getElem? fun j => ?_
  rw [getElem?_erase]
  split_ifs with hcmp
  · rw [← eq_of_compare hcmp, h]
  · rfl

end MapTotal
