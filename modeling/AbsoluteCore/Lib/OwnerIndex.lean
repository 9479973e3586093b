/-
A reference-counted index of who owns what.

Every owner holds a multiset of keys, and no key is held by two owners.  The index
maps a key to its owner and to the number of times that owner holds it.  Taking a
key up and giving it back are described by what they do to the multisets, so that
a client never has to look at the counts.
-/
import Mathlib

namespace OwnerIndex

open Function Option Std Multiset ExtTreeMap OwnerIndex

variable {K O : Type} [DecidableEq K] {cmp : K → K → Ordering} [TransCmp cmp]
  (m : ExtTreeMap K (O × Nat) cmp)

/-- `m` lists exactly the keys that `held` hands out, each with its owner and its count. -/
def Represents (held : O → Multiset K) : Prop :=
  ∀ k o n, m[k]? = some (o, n) ↔ (held o).count k = n ∧ 0 < n

/-- The index after `o` has given back `k`, of which it holds `n`. -/
def release (o : O) (k : K) (n : Nat) : ExtTreeMap K (O × Nat) cmp :=
  if n = 1 then m.erase k else m.insert k (o, n - 1)

namespace Represents

variable {m m' : ExtTreeMap K (O × Nat) cmp} {held : O → Multiset K} {k : K} {o : O}

theorem empty : Represents (∅ : ExtTreeMap K (O × Nat) cmp) fun _ => 0 := by
  intro k o n
  simp only [getElem?_empty, count_zero]
  constructor
  · intro h; simp at h
  · rintro ⟨rfl, h⟩; omega

section

variable (h : Represents m held)

include h

theorem getElem?_of_mem (hk : k ∈ held o) : m[k]? = some (o, (held o).count k) :=
  (h k o _).mpr ⟨rfl, count_pos.mpr hk⟩

theorem mem_of_getElem? {e : O × Nat} (he : m[k]? = some e) : k ∈ held e.1 := by
  obtain ⟨o, n⟩ := e
  obtain ⟨hn, hpos⟩ := (h k o n).mp he
  exact count_pos.mp (hn ▸ hpos)

theorem owner_unique {o' : O} (hk : k ∈ held o) (hk' : k ∈ held o') : o = o' := by
  have heq := (h.getElem?_of_mem hk).symm.trans (h.getElem?_of_mem hk')
  simp only [some.injEq, Prod.mk.injEq] at heq
  exact heq.1

theorem getElem?_eq_none : m[k]? = none ↔ ∀ o, k ∉ held o := by
  constructor
  · intro hnone o hk
    rw [h.getElem?_of_mem hk] at hnone
    simp at hnone
  · intro hfree
    cases he : m[k]? with
    | none => rfl
    | some e => exact absurd (h.mem_of_getElem? he) (hfree e.1)

theorem getElem?_of_owner (ho : ∀ o', k ∈ held o' → o' = o) :
    m[k]? = if k ∈ held o then some (o, (held o).count k) else none := by
  by_cases hk : k ∈ held o
  · rw [if_pos hk, h.getElem?_of_mem hk]
  · rw [if_neg hk, h.getElem?_eq_none]
    intro o' hk'
    exact hk (ho o' hk' ▸ hk')

end

variable [LawfulEqCmp cmp]

/-- The index of given holdings is unique. -/
theorem eq (h : Represents m held) (h' : Represents m' held) : m = m' := by
  refine ext_getElem? fun k => ?_
  cases he : m[k]? with
  | none => exact ((h'.getElem?_eq_none).mpr ((h.getElem?_eq_none).mp he)).symm
  | some e =>
    obtain ⟨o, n⟩ := e
    exact ((h' k o n).mpr ((h k o n).mp he)).symm

variable [DecidableEq O]

section

variable (h : Represents m held) (ho : ∀ o', k ∈ held o' → o' = o)

include h ho

omit [LawfulEqCmp cmp] in
/-- Changing one entry of the index changes the holdings of one owner at one key. -/
theorem change {s : Multiset K}
    (hk : m'[k]? = if k ∈ s then some (o, s.count k) else none)
    (hm : ∀ k', k' ≠ k → m'[k']? = m[k']?)
    (hs : ∀ k', k' ≠ k → s.count k' = (held o).count k') : Represents m' (update held o s) := by
  intro k' o' n
  by_cases hk' : k' = k
  · subst hk'
    rw [hk]
    by_cases ho' : o' = o
    · subst ho'
      rw [update_self]
      split_ifs with hmem
      · have hpos := count_pos.mpr hmem
        rw [some.injEq, Prod.mk.injEq]
        exact ⟨fun heq => ⟨heq.2, heq.2 ▸ hpos⟩, fun heq => ⟨rfl, heq.1⟩⟩
      · rw [count_eq_zero.mpr hmem]
        exact iff_of_false (by simp) fun heq => Nat.ne_of_lt heq.2 heq.1
    · rw [update_of_ne ho']
      refine iff_of_false ?_ fun hcount => ho' (ho o' (count_pos.mp (hcount.1 ▸ hcount.2)))
      split_ifs
      · simp [Ne.symm ho']
      · simp
  · rw [hm k' hk', h k' o' n]
    by_cases ho' : o' = o
    · subst ho'
      rw [update_self, hs k' hk']
    · rw [update_of_ne ho']

/-- A key that nobody else holds can be taken up. -/
theorem acquire :
    Represents (m.insert k (o, m[k]?.elim 1 fun e => e.2 + 1))
      (update held o (k ::ₘ held o)) := by
  have hentry : (m[k]?.elim 1 fun e => e.2 + 1) = (k ::ₘ held o).count k := by
    rw [h.getElem?_of_owner ho, count_cons_self]
    by_cases hk : k ∈ held o
    · simp [hk]
    · simp [hk]
  rw [hentry]
  refine h.change ho ?_ (fun k' hk' => ?_) fun k' hk' => count_cons_of_ne hk' _
  · rw [getElem?_insert_self, if_pos (mem_cons_self k _)]
  · rw [getElem?_insert, if_neg (by simpa using Ne.symm hk')]

end

/-- An owner can give back a key it holds. -/
theorem release (h : Represents m held) (hk : k ∈ held o) :
    Represents (release m o k ((held o).count k))
      (update held o ((held o).erase k)) := by
  have hself : ((held o).erase k).count k = (held o).count k - 1 := Multiset.count_erase_self k _
  have hpos := count_pos.mpr hk
  refine h.change (fun o' hk' => h.owner_unique hk' hk) ?_ (fun k' hk' => ?_)
    fun k' hk' => count_erase_of_ne hk' _
  · unfold OwnerIndex.release
    split_ifs with hone hmem hmem
    · rw [← count_pos, hself, hone] at hmem
      cases hmem
    · exact getElem?_erase_self
    · rw [getElem?_insert_self, hself]
    · rw [← count_pos, hself] at hmem
      omega
  · have hcmp : ¬ cmp k k' = .eq := by simpa using Ne.symm hk'
    unfold OwnerIndex.release
    split_ifs
    · rw [getElem?_erase, if_neg hcmp]
    · rw [getElem?_insert, if_neg hcmp]

end Represents

end OwnerIndex
