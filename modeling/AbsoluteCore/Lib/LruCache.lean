/-
Caches that forget what was not used for long.

An entry counts as used when it is inserted and when it is found.  The entries stand in the order of
their last use, the newest first, so that forgetting keeps a prefix.  Once there are more than twice
as many as the cache is meant to hold, the next insertion cuts them down to that number.

All that users have to know is that a cache loses entries but never changes them.
-/
import Mathlib.Data.List.Basic

/-- At most `maxSize` entries are left when the cache is cut. -/
structure LruCache (κ ν : Type) (maxSize : Nat) where
  entries : List (κ × ν) := []
deriving Repr

namespace LruCache

open List Option

variable {κ ν : Type} [DecidableEq κ] {maxSize : Nat} {k j : κ} {c : LruCache κ ν maxSize} {v : ν}

variable (c)

def find (k : κ) : Option ν :=
  (c.entries.find? fun p => p.1 = k).map Prod.snd

def truncate : LruCache κ ν maxSize :=
  if c.entries.length ≤ maxSize * 2 then c else ⟨c.entries.take maxSize⟩

def erase (k : κ) : LruCache κ ν maxSize :=
  ⟨c.entries.filter fun p => p.1 ≠ k⟩

def insert (k : κ) (v : ν) : LruCache κ ν maxSize :=
  ⟨(k, v) :: (c.truncate.erase k).entries⟩

/-- The entry becomes the newest. -/
def get (k : κ) : Option ν × LruCache κ ν maxSize :=
  match c.find k with
  | some v => (some v, ⟨(k, v) :: (c.erase k).entries⟩)
  | none => (none, c)

theorem find_cons (k : κ) (v : ν) (entries : List (κ × ν)) (j : κ) :
    find (⟨(k, v) :: entries⟩ : LruCache κ ν maxSize) j =
      if k = j then some v else find (⟨entries⟩ : LruCache κ ν maxSize) j := by
  unfold find
  rw [find?_cons]
  by_cases h : k = j
  · simp [h]
  · simp [h]

theorem find_erase_of_ne (h : j ≠ k) : (c.erase k).find j = c.find j := by
  obtain ⟨entries⟩ := c
  induction entries with
  | nil => rfl
  | cons p entries ih =>
    obtain ⟨i, v⟩ := p
    rw [find_cons]
    by_cases hi : i = k
    · have herase : erase (⟨(i, v) :: entries⟩ : LruCache κ ν maxSize) k =
          erase (⟨entries⟩ : LruCache κ ν maxSize) k := by
        simp [erase, hi]
      rw [herase, ih, if_neg (by rw [hi]; exact h.symm)]
    · have herase : erase (⟨(i, v) :: entries⟩ : LruCache κ ν maxSize) k =
          ⟨(i, v) :: (erase (⟨entries⟩ : LruCache κ ν maxSize) k).entries⟩ := by
        simp [erase, hi]
      rw [herase, find_cons]
      split_ifs
      · rfl
      · exact ih

variable {c}

theorem find_of_truncate (h : c.truncate.find j = some v) : c.find j = some v := by
  unfold truncate at h
  split_ifs at h
  · exact h
  · obtain ⟨p, hp, rfl⟩ := map_eq_some_iff.mp h
    refine map_eq_some_iff.mpr ⟨p, ?_, rfl⟩
    rw [← take_append_drop maxSize c.entries, find?_append, hp]
    rfl

@[simp] theorem find_insert_self (c : LruCache κ ν maxSize) (k : κ) (v : ν) :
    (c.insert k v).find k = some v := by
  rw [insert, find_cons, if_pos rfl]

theorem find_of_insert {w : ν} (hne : j ≠ k)
    (h : (c.insert k v).find j = some w) : c.find j = some w := by
  rw [insert, find_cons, if_neg hne.symm] at h
  have h : (c.truncate.erase k).find j = some w := h
  rw [find_erase_of_ne _ hne] at h
  exact find_of_truncate h

@[simp] theorem get_fst (c : LruCache κ ν maxSize) (k : κ) : (c.get k).1 = c.find k := by
  unfold get
  cases h : c.find k <;> rfl

@[simp] theorem find_get (c : LruCache κ ν maxSize) (k j : κ) : (c.get k).2.find j = c.find j := by
  unfold get
  cases h : c.find k with
  | none => rfl
  | some v =>
    rw [find_cons]
    split_ifs with hkj
    · rw [← hkj, h]
    · exact find_erase_of_ne c (Ne.symm hkj)

end LruCache
