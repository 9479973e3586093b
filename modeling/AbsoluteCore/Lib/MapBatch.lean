/-
Batches of writes to a map.

An entry of a batch puts a value under a key, or erases the key where it has no value.  The
entries are applied in order, so the last one for a key is the one that counts.
-/
import Mathlib

namespace MapBatch

open Std List Function

variable {K V : Type} {cmp : K → K → Ordering} [TransCmp cmp]

def put (m : ExtTreeMap K V cmp) (entry : K × Option V) : ExtTreeMap K V cmp :=
  match entry.2 with
  | some v => m.insert entry.1 v
  | none => m.erase entry.1

def write (m : ExtTreeMap K V cmp) (batch : List (K × Option V)) : ExtTreeMap K V cmp :=
  batch.foldl put m

theorem write_append (m : ExtTreeMap K V cmp) (first second : List (K × Option V)) :
    write m (first ++ second) = write (write m first) second :=
  foldl_append ..

variable [LawfulEqCmp cmp] {m : ExtTreeMap K V cmp} {batch : List (K × Option V)} {k : K}

theorem getElem?_put_self (m : ExtTreeMap K V cmp) (k : K) (v : Option V) :
    (put m (k, v))[k]? = v := by
  cases v <;> simp [put]

theorem getElem?_put_of_ne {k' : K} (v : Option V) (h : k' ≠ k) : (put m (k', v))[k]? = m[k]? := by
  have hcmp : ¬ cmp k' k = .eq := fun heq => h (LawfulEqCmp.eq_of_compare heq)
  cases v with
  | some v => exact (ExtTreeMap.getElem?_insert ..).trans (if_neg hcmp)
  | none => exact (ExtTreeMap.getElem?_erase ..).trans (if_neg hcmp)

theorem getElem?_write_of_not_mem (h : k ∉ batch.map Prod.fst) : (write m batch)[k]? = m[k]? := by
  induction batch generalizing m with
  | nil => rfl
  | cons entry rest ih =>
    rw [map_cons, mem_cons, not_or] at h
    show (write (put m entry) rest)[k]? = m[k]?
    rw [ih h.2, getElem?_put_of_ne entry.2 (Ne.symm h.1)]

/-- Where all entries for a key agree, the key has the value they give. -/
theorem getElem?_write_of_forall {v : Option V} (hmem : k ∈ batch.map Prod.fst)
    (hval : ∀ entry ∈ batch, entry.1 = k → entry.2 = v) : (write m batch)[k]? = v := by
  induction batch using List.reverseRecOn with
  | nil => simp at hmem
  | append_singleton rest entry ih =>
    rw [write_append]
    show (put (write m rest) entry)[k]? = v
    by_cases hkey : entry.1 = k
    · obtain ⟨k', v'⟩ := entry
      obtain rfl : k' = k := hkey
      rw [getElem?_put_self]
      exact hval (k', v') (mem_append_right _ mem_cons_self) rfl
    · rw [getElem?_put_of_ne entry.2 hkey]
      refine ih ?_ fun e he => hval e (mem_append_left _ he)
      rw [map_append, mem_append] at hmem
      refine hmem.resolve_right ?_
      intro hlast
      exact hkey (mem_singleton.mp hlast).symm

/-- The entries that erase the keys. -/
def erasing (V : Type) (keys : List K) : List (K × Option V) := keys.map fun k => (k, none)

theorem getElem?_write_erasing [DecidableEq K] (keys : List K) :
    (write m (erasing V keys))[k]? = if k ∈ keys then none else m[k]? := by
  have hkeys : (erasing V keys).map Prod.fst = keys := by
    simp [erasing, comp_def]
  split
  · next hmem =>
      refine getElem?_write_of_forall (by rw [hkeys]; exact hmem) ?_
      intro entry hentry _
      obtain ⟨k', -, rfl⟩ := mem_map.mp hentry
      rfl
  · next hmem => exact getElem?_write_of_not_mem (by rw [hkeys]; exact hmem)

theorem getElem?_write_erasing_eq_some [DecidableEq K] {keys : List K} {v : V} :
    (write m (erasing V keys))[k]? = some v ↔ k ∉ keys ∧ m[k]? = some v := by
  rw [getElem?_write_erasing]
  by_cases h : k ∈ keys
  · simp [h]
  · simp [h]

end MapBatch
