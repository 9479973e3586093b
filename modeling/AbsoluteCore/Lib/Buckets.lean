/-
Lists of values under keys: `std::map<K, std::vector<V>>`.

What is put into such a map one after the other comes out in the order of the keys, each with the
values that were put under it, in the order in which they came.
-/
import Mathlib.Data.List.Dedup
import Mathlib.Data.List.Sort

namespace Buckets

open List Function Prod

variable {κ ν : Type} [LinearOrder κ] {xs : List (κ × ν)} {k : κ} {v : ν}

/-- The values of a key. -/
def under (xs : List (κ × ν)) (k : κ) : List ν := (xs.filter fun x => x.1 = k).map Prod.snd

/-- `m[k].emplace_back(v)` for each pair. -/
def collect (xs : List (κ × ν)) : List (κ × List ν) :=
  ((xs.map Prod.fst).dedup.insertionSort (· ≤ ·)).map fun k => (k, under xs k)

theorem mem_under : v ∈ under xs k ↔ (k, v) ∈ xs := by
  simp [under]

theorem mem_keys : k ∈ (xs.map Prod.fst).dedup.insertionSort (· ≤ ·) ↔ ∃ v, (k, v) ∈ xs := by
  simp

/-- **The buckets of a list.**  Each key has the values that were put under it. -/
theorem mem_collect {p : κ × List ν} :
    p ∈ collect xs ↔ p.2 = under xs p.1 ∧ ∃ v, (p.1, v) ∈ xs := by
  obtain ⟨k, vs⟩ := p
  simp only [collect, mem_map, mem_keys, mk.injEq]
  constructor
  · rintro ⟨k', hk, rfl, rfl⟩
    exact ⟨rfl, hk⟩
  · rintro ⟨rfl, hk⟩
    exact ⟨k, hk, rfl, rfl⟩

theorem mk_mem_collect (h : (k, v) ∈ xs) : (k, under xs k) ∈ collect xs :=
  mem_collect.mpr ⟨rfl, v, h⟩

theorem nodup_keys (xs : List (κ × ν)) : ((collect xs).map Prod.fst).Nodup := by
  have hkeys : (collect xs).map fst = (xs.map fst).dedup.insertionSort (· ≤ ·) := by
    simp [collect, comp_def]
  rw [hkeys]
  exact (perm_insertionSort _ _).nodup_iff.mpr (nodup_dedup _)

/-- There is one bucket when all values are under one key. -/
theorem length_collect_eq_one (h : (k, v) ∈ xs) : (collect xs).length = 1 ↔ ∀ x ∈ xs, x.1 = k := by
  have hlength : (collect xs).length = (xs.map fst).dedup.length := by simp [collect]
  have hmem : k ∈ (xs.map fst).dedup := by
    rw [mem_dedup]
    exact mem_map_of_mem h
  rw [hlength]
  constructor
  · intro hone x hx
    obtain ⟨k', hk'⟩ := length_eq_one_iff.mp hone
    have hx' : x.1 ∈ (xs.map fst).dedup := mem_dedup.mpr (mem_map_of_mem hx)
    rw [hk'] at hmem hx'
    exact (mem_singleton.mp hx').trans (mem_singleton.mp hmem).symm
  · intro hall
    have hsub : (xs.map fst).dedup ⊆ [k] := by
      intro k' hk'
      obtain ⟨x, hx, rfl⟩ := mem_map.mp (mem_dedup.mp hk')
      exact mem_singleton.mpr (hall x hx)
    have hle := (subperm_of_subset (nodup_dedup (xs.map fst)) hsub).length_le
    exact Nat.le_antisymm hle (length_pos_of_mem hmem)

end Buckets
