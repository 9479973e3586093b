/-
Caches that write back to a map they do not see.

An entry of the cache holds a value for its key, or the fact that there is none.  It is
dirty if the map below may say something else, and fresh if the map below has no value.
A cache is coherent with the map below when these flags tell the truth; reading through
it then gives one map, and writing its dirty entries to the map below makes that the same.
-/
import Mathlib

namespace WriteBack

open List Function

variable {K V : Type} (below : K → Option V)

structure Entry (V : Type) where
  value : Option V
  dirty : Bool := false
  fresh : Bool := false

/-- The cache, with no entry where it knows nothing. -/
abbrev Cache (K V : Type) := K → Option (Entry V)

/-- The map that is read through a cache. -/
def read (c : Cache K V) : K → Option V := fun k =>
  match c k with
  | some e => e.value
  | none => below k

/-- The flags of an entry are right for what the map below has. -/
structure Entry.Right (value : Option V) (e : Entry V) : Prop where
  clean : e.dirty = false → e.value = value
  fresh : e.fresh = true → value = none

def Coherent (c : Cache K V) : Prop :=
  ∀ k e, c k = some e → e.Right (below k)

theorem read_none {below : K → Option V} {c : Cache K V} {k : K} (h : c k = none) :
    read below c k = below k := by
  rw [read, h]

theorem read_some {below : K → Option V} {c : Cache K V} {k : K} {e : Entry V}
    (h : c k = some e) : read below c k = e.value := by
  rw [read, h]

theorem coherent_empty : Coherent below fun _ => none := by
  intro k e h
  cases h

/-! ### One entry -/

variable [DecidableEq K] {entries : List (K × Entry V)}

theorem Coherent.update {below : K → Option V} {c : Cache K V} (hc : Coherent below c) {k : K}
    {slot : Option (Entry V)} (hslot : ∀ e, slot = some e → e.Right (below k)) :
    Coherent below (update c k slot) := by
  intro j e h
  by_cases hj : j = k
  · obtain rfl := hj
    rw [update_self] at h
    exact hslot e h
  · rw [update_of_ne hj] at h
    exact hc j e h

theorem read_update (c : Cache K V) (k : K) (slot : Option (Entry V)) :
    read below (update c k slot) = update (read below c) k (slot.elim (below k) Entry.value) := by
  funext j
  by_cases hj : j = k
  · obtain rfl := hj
    rw [update_self, read, update_self]
    cases slot <;> rfl
  · rw [update_of_ne hj, read, update_of_ne hj, read]

/-! ### Writing back -/

/-- A map after the dirty entries of a list have been written to it. -/
def writeAll (m : K → Option V) : List (K × Entry V) → K → Option V
  | [] => m
  | (k, e) :: rest => writeAll (if e.dirty = true then update m k e.value else m) rest

theorem writeAll_of_not_mem {m : K → Option V} {k : K}
    (h : k ∉ entries.map Prod.fst) : writeAll m entries k = m k := by
  induction entries generalizing m with
  | nil => rfl
  | cons p rest ih =>
    obtain ⟨j, e⟩ := p
    rw [map_cons, mem_cons, not_or] at h
    rw [writeAll, ih h.2]
    split_ifs
    · rw [update_of_ne h.1]
    · rfl

/-- Writing all entries of a coherent cache gives the map that was read through it. -/
theorem writeAll_eq_read {m : K → Option V} {c : Cache K V} (hc : Coherent m c)
    (hnodup : (entries.map Prod.fst).Nodup)
    (hmem : ∀ k e, (k, e) ∈ entries ↔ c k = some e) : writeAll m entries = read m c := by
  have hwrite : ∀ (entries : List (K × Entry V)) (m' : K → Option V) (k : K) (e : Entry V),
      (entries.map Prod.fst).Nodup → (k, e) ∈ entries →
      writeAll m' entries k = if e.dirty = true then e.value else m' k := by
    intro entries
    induction entries with
    | nil => exact fun m' k e _ h => by cases h
    | cons p rest ih =>
      intro m' k e hnodup hin
      obtain ⟨j, d⟩ := p
      obtain ⟨hnot, hrest⟩ := nodup_cons.mp hnodup
      rw [writeAll]
      rcases mem_cons.mp hin with heq | hlater
      · obtain ⟨rfl, rfl⟩ := Prod.mk.inj heq
        rw [writeAll_of_not_mem hnot]
        split_ifs
        · rw [update_self]
        · rfl
      · have hne : k ≠ j := by
          rintro rfl
          exact hnot (mem_map.mpr ⟨(k, e), hlater, rfl⟩)
        rw [ih _ k e hrest hlater]
        by_cases hd : d.dirty = true
        · rw [if_pos hd, update_of_ne hne]
        · rw [if_neg hd]
  funext k
  cases hk : c k with
  | some e =>
    rw [hwrite entries m k e hnodup ((hmem k e).mpr hk), read_some hk]
    by_cases hdirty : e.dirty = true
    · rw [if_pos hdirty]
    · rw [if_neg hdirty, (hc k e hk).clean (Bool.eq_false_iff.mpr hdirty)]
  | none =>
    rw [read_none hk]
    refine writeAll_of_not_mem fun hin => ?_
    obtain ⟨⟨j, e⟩, hentry, rfl⟩ := mem_map.mp hin
    rw [(hmem j e).mp hentry] at hk
    cases hk

end WriteBack
