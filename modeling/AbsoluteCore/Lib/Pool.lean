/-
Pools of threads.

A thread is the list of what it still has to do.  A step takes the first item of one thread
and replaces it by other items and by new threads.  The order in which threads are listed does
not matter, and what is pending is a multiset.
-/
import AbsoluteCore.Lib.Fallible

namespace Pool

open List Option

variable {α : Type} {k : Nat} {item : α} {rest : List α} {threads : List (List α)}

/-- Everything that some thread still has to do. -/
def pending (threads : List (List α)) : Multiset α := ↑threads.flatten

@[simp] theorem pending_nil : pending ([] : List (List α)) = 0 := rfl

@[simp] theorem pending_cons (thread : List α) (threads : List (List α)) :
    pending (thread :: threads) = ↑thread + pending threads := rfl

theorem pending_append (threads threads' : List (List α)) :
    pending (threads ++ threads') = pending threads + pending threads' := by
  simp [pending]

theorem pending_step
    (h : threads[k]? = some (item :: rest)) (next : List α) (spawned : List (List α)) :
    ∃ others, pending threads = item ::ₘ others ∧
      pending (threads.set k (next ++ rest) ++ spawned) = ↑next + pending spawned + others := by
  induction threads generalizing k with
  | nil => simp at h
  | cons thread threads ih =>
    cases k with
    | zero =>
      rw [getElem?_cons_zero, some.injEq] at h
      subst h
      refine ⟨↑rest + pending threads, ?_, ?_⟩
      · rw [pending_cons, ← Multiset.cons_coe, Multiset.cons_add]
      · rw [set_cons_zero, cons_append, pending_cons, pending_append, ← Multiset.coe_add]
        abel
    | succ k =>
      obtain ⟨others, hbefore, hafter⟩ := ih h
      refine ⟨↑thread + others, ?_, ?_⟩
      · rw [pending_cons, hbefore, Multiset.add_cons]
      · rw [set_cons_succ, cons_append, pending_cons, hafter]
        abel

/-- Where something is pending, some thread can go on. -/
theorem exists_ready (h : pending threads ≠ 0) :
    ∃ (k : Nat) (item : α) (rest : List α), threads[k]? = some (item :: rest) := by
  induction threads with
  | nil => exact absurd rfl h
  | cons thread threads ih =>
    cases thread with
    | nil =>
      obtain ⟨k, item, rest, hk⟩ := ih (by simpa using h)
      exact ⟨k + 1, item, rest, by rw [getElem?_cons_succ, hk]⟩
    | cons item rest => exact ⟨0, item, rest, rfl⟩

theorem add_eq_cons {s t u : Multiset α} {a : α} (h : s + t = a ::ₘ u) :
    (∃ s', s = a ::ₘ s' ∧ u = s' + t) ∨ ∃ t', t = a ::ₘ t' ∧ u = s + t' := by
  have hmem : a ∈ s + t := h ▸ Multiset.mem_cons_self a u
  rcases Multiset.mem_add.mp hmem with hs | ht
  · obtain ⟨s', rfl⟩ := Multiset.exists_cons_of_mem hs
    rw [Multiset.cons_add, Multiset.cons_inj_right] at h
    exact .inl ⟨s', rfl, h.symm⟩
  · obtain ⟨t', rfl⟩ := Multiset.exists_cons_of_mem ht
    rw [Multiset.add_cons, Multiset.cons_inj_right] at h
    exact .inr ⟨t', rfl, h.symm⟩

theorem mem_pending (h : threads[k]? = some (item :: rest)) : item ∈ pending threads := by
  obtain ⟨others, hbefore, -⟩ := pending_step h [] []
  rw [hbefore]
  exact Multiset.mem_cons_self item others

/-! ### Tables that jobs fill

Every place of a table is written by a job of its own.  The job is pending as `(i, false)` before
it writes and as `(i, true)` until it has been counted.
-/

variable {ε : Type}

/-- The places whose jobs have written hold what these compute. -/
structure Filled (f : Nat → Except ε α) (n : Nat) (jobs : Multiset (Nat × Bool)) (table : List α) :
    Prop where
  length : table.length = n
  lt : ∀ job ∈ jobs, job.1 < n
  written : ∀ i < n, (i, false) ∉ jobs → ∃ a, f i = .ok a ∧ table[i]? = some a

namespace Filled

variable {f : Nat → Except ε α} {n i : Nat} {others : Multiset (Nat × Bool)} {table : List α}

theorem start (f : Nat → Except ε α) (h : table.length = n) :
    Filled f n ↑((List.range n).map fun i => (i, false)) table := by
  refine ⟨h, ?_, ?_⟩
  · intro job hjob
    obtain ⟨i, hi, rfl⟩ := mem_map.mp (Multiset.mem_coe.mp hjob)
    exact mem_range.mp hi
  · intro i hi hjob
    exact absurd (Multiset.mem_coe.mpr (mem_map.mpr ⟨i, mem_range.mpr hi, rfl⟩)) hjob

theorem write {a : α} (h : Filled f n ((i, false) ::ₘ others) table) (hf : f i = .ok a) :
    Filled f n ((i, true) ::ₘ others) (table.set i a) := by
  have hi : i < n := h.lt (i, false) (Multiset.mem_cons_self _ _)
  refine ⟨by rw [length_set, h.length], ?_, ?_⟩
  · intro job hjob
    rcases Multiset.mem_cons.mp hjob with rfl | hjob
    · exact hi
    · exact h.lt job (Multiset.mem_cons_of_mem hjob)
  · intro j hj hjob
    by_cases hij : i = j
    · subst hij
      exact ⟨a, hf, getElem?_set_self (h.length.symm ▸ hi)⟩
    · rw [getElem?_set_ne hij]
      refine h.written j hj ?_
      intro hmem
      rcases Multiset.mem_cons.mp hmem with heq | hmem
      · exact hij (congrArg Prod.fst heq).symm
      · exact hjob (Multiset.mem_cons_of_mem hmem)

theorem count (h : Filled f n ((i, true) ::ₘ others) table) : Filled f n others table := by
  refine ⟨h.length, ?_, ?_⟩
  · intro job hjob
    exact h.lt job (Multiset.mem_cons_of_mem hjob)
  · intro j hj hjob
    refine h.written j hj ?_
    intro hmem
    rcases Multiset.mem_cons.mp hmem with heq | hmem
    · exact absurd (congrArg Prod.snd heq) (by simp)
    · exact hjob hmem

/-- With no job left, the table is what the jobs compute one after the other. -/
theorem mapM_eq (h : Filled f n 0 table) : (List.range n).mapM f = .ok table := by
  rw [Fallible.mapM_eq_ok, forall₂_iff_get]
  refine ⟨by rw [length_range, h.length], ?_⟩
  intro i hi hi'
  rw [length_range] at hi
  obtain ⟨a, hf, ha⟩ := h.written i hi (Multiset.notMem_zero _)
  obtain ⟨_, hget⟩ := List.getElem?_eq_some_iff.mp ha
  rw [List.get_eq_getElem, List.get_eq_getElem, List.getElem_range, hf, hget]

end Filled

end Pool
