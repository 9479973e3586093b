/-
Serving the least key first.

Everyone who waits has a key.  In each round the one with the least key is served; whoever
joins, and whoever was served and stays, gets a key above all that were there.  The two
results say that this is fair: while someone waits, nobody is served twice and nobody who
was not ahead is served at all; and when nobody joins or leaves, the order of service is
the order of the keys.
-/
import AbsoluteCore.Lib.Run

namespace LeastFirst

open Lts List Option

variable {ι κ : Type} [LinearOrder κ]

/-- Both wait, and `i` has the smaller key. -/
def Before (q : ι → Option κ) (i j : ι) : Prop := ∃ k k', q i = some k ∧ q j = some k' ∧ k < k'

/-- `p` waits, before everyone else. -/
def Least (q : ι → Option κ) (p : ι) : Prop := q p ≠ none ∧ ∀ j, q j ≠ none → j ≠ p → Before q p j

def Above (q : ι → Option κ) (k : κ) : Prop := ∀ j k', q j = some k' → k' < k

/-- A round: `p` is served, and keys are kept or go above all others. -/
structure Round (q : ι → Option κ) (p : ι) (q' : ι → Option κ) : Prop where
  least : Least q p
  next : ∀ i k, q' i = some k → (i ≠ p ∧ q i = some k) ∨ Above q k

/-- A round in which nobody joins or leaves. -/
structure SteadyRound (q : ι → Option κ) (p : ι) (q' : ι → Option κ) : Prop where
  least : Least q p
  stay : ∀ i, i ≠ p → q' i = q i
  back : ∃ k, q' p = some k ∧ Above q k

variable {q q₀ q' : ι → Option κ} {p i j m : ι} {tr : List ((ι → Option κ) × ι × (ι → Option κ))}
  {waiting : List ι}

theorem Before.asymm (h : Before q i j) : ¬ Before q j i := by
  rintro ⟨k, k', hj, hi, hlt⟩
  obtain ⟨l, l', hi', hj', hlt'⟩ := h
  rw [hj] at hj'
  rw [hi] at hi'
  obtain rfl := some.inj hj'
  obtain rfl := some.inj hi'
  exact lt_asymm hlt hlt'

theorem Least.unique (h : Least q i) (h' : Least q j) : i = j := by
  by_contra hne
  exact (h.2 j h'.1 fun heq => hne heq.symm).asymm (h'.2 i h.1 hne)

/-- Keys that are no longer the ones of the start are above the key of `m`. -/
def Waits (q₀ : ι → Option κ) (km : κ) (served : List ι) (q : ι → Option κ) : Prop :=
  ∀ i k, q i = some k → (q₀ i = some k ∧ i ∉ served) ∨ km < k

theorem Waits.round {km : κ} {served : List ι} (h : Waits q₀ km served q) (hr : Round q p q')
    (hm : q m = some km) : Waits q₀ km (p :: served) q' := by
  intro i k hi
  rcases hr.next i k hi with ⟨hne, hold⟩ | habove
  · rcases h i k hold with ⟨hstart, hnot⟩ | hlate
    · refine .inl ⟨hstart, fun hmem => ?_⟩
      rcases mem_cons.mp hmem with heq | hmem
      · exact hne heq
      · exact hnot hmem
    · exact .inr hlate
  · exact .inr (habove m km hm)

/-- One who is served while `m` waits was ahead of `m` from the start. -/
theorem Waits.served {km : κ} {served : List ι} (h : Waits q₀ km served q) (hp : Least q p)
    (hm : q m = some km) (hne : p ≠ m) :
    p ∉ served ∧ ∃ k, q₀ p = some k ∧ q p = some k ∧ k < km := by
  have hmWaits : q m ≠ none := by
    rw [hm]
    simp
  obtain ⟨k, k', hk, hk', hlt⟩ := hp.2 m hmWaits fun heq => hne heq.symm
  rw [hm] at hk'
  obtain rfl := some.inj hk'
  rcases h p k hk with ⟨hstart, hnot⟩ | hlate
  · exact ⟨hnot, k, hstart, hk, hlt⟩
  · exact absurd hlate (lt_asymm hlt)

/--
**Fairness**: while `m` waits with its key, nobody is served twice, and everyone who is
served was ahead of `m` when the rounds began.
-/
theorem fair {km : κ} (hrun : Run Round q₀ tr q) (hm : ∀ x ∈ tr, x.1 m = some km)
    (hnot : ∀ x ∈ tr, x.2.1 ≠ m) :
    (tr.map fun x => x.2.1).Nodup ∧
      ∀ x ∈ tr, ∃ k, q₀ x.2.1 = some k ∧ x.1 x.2.1 = some k ∧ k < km := by
  have hgeneral : ∀ (served : List ι) (s : ι → Option κ), Waits q₀ km served s →
      Run Round s tr q → (tr.map fun x => x.2.1).Nodup ∧ ∀ x ∈ tr, x.2.1 ∉ served ∧
        ∃ k, q₀ x.2.1 = some k ∧ x.1 x.2.1 = some k ∧ k < km := by
    clear hrun
    induction tr with
    | nil =>
      intro served s _ _
      exact ⟨nodup_nil, by simp⟩
    | cons x rest ih =>
      intro served s hs hrun
      cases hrun with
      | @cons _ s' _ p _ hround hrest =>
      have hsm : s m = some km := hm _ mem_cons_self
      have hp := hs.served hround.least hsm (hnot _ mem_cons_self)
      obtain ⟨hnodup, hserved⟩ := ih (fun x hx => hm x (mem_cons_of_mem _ hx))
        (fun x hx => hnot x (mem_cons_of_mem _ hx)) (p :: served) s'
        (hs.round hround hsm) hrest
      refine ⟨?_, ?_⟩
      · rw [map_cons, nodup_cons]
        refine ⟨fun hmem => ?_, hnodup⟩
        obtain ⟨y, hy, heq⟩ := mem_map.mp hmem
        exact (hserved y hy).1 (by rw [heq]; exact mem_cons_self)
      · intro y hy
        rcases mem_cons.mp hy with rfl | hy
        · exact hp
        · obtain ⟨hnotServed, hrest⟩ := hserved y hy
          exact ⟨fun hmem => hnotServed (mem_cons_of_mem _ hmem), hrest⟩
  have hstart : Waits q₀ km [] q₀ := fun i k hi => .inl ⟨hi, not_mem_nil⟩
  obtain ⟨hnodup, hserved⟩ := hgeneral [] q₀ hstart hrun
  exact ⟨hnodup, fun x hx => (hserved x hx).2⟩

/-- The ones in `waiting` wait in this order, before all others. -/
structure Ordered (q : ι → Option κ) (waiting : List ι) : Prop where
  present : ∀ i ∈ waiting, q i ≠ none
  sorted : waiting.Pairwise (Before q)
  rest : ∀ i ∈ waiting, ∀ j, j ∉ waiting → q j ≠ none → Before q i j

theorem Ordered.least (h : Ordered q (p :: waiting)) : Least q p := by
  refine ⟨h.present p mem_cons_self, fun j hj hne => ?_⟩
  by_cases hmem : j ∈ waiting
  · exact (pairwise_cons.mp h.sorted).1 j hmem
  · refine h.rest p mem_cons_self j (fun hj' => ?_) hj
    rcases mem_cons.mp hj' with heq | hj'
    · exact hne heq
    · exact hmem hj'

theorem Ordered.round (h : Ordered q (p :: waiting)) (hr : SteadyRound q p q') :
    Ordered q' waiting := by
  obtain ⟨hfirst, hsorted⟩ := pairwise_cons.mp h.sorted
  -- the others keep their keys, so what holds between them before the round holds after it
  have hne : ∀ i ∈ waiting, i ≠ p := by
    rintro i hi rfl
    exact (hfirst i hi).asymm (hfirst i hi)
  have hkeep : ∀ i j, i ≠ p → j ≠ p → Before q i j → Before q' i j := by
    rintro i j hi hj ⟨k, k', hk, hk', hlt⟩
    exact ⟨k, k', (hr.stay i hi).trans hk, (hr.stay j hj).trans hk', hlt⟩
  refine ⟨?_, ?_, ?_⟩
  · intro i hi
    rw [hr.stay i (hne i hi)]
    exact h.present i (mem_cons_of_mem _ hi)
  · exact hsorted.imp_of_mem fun hi hj => hkeep _ _ (hne _ hi) (hne _ hj)
  · intro i hi j hj hwaits
    by_cases hjp : j = p
    · subst hjp
      obtain ⟨k, hk, habove⟩ := hr.back
      obtain ⟨ki, hki⟩ := ne_none_iff_exists'.mp (h.present i (mem_cons_of_mem _ hi))
      exact ⟨ki, k, (hr.stay i (hne i hi)).trans hki, hk, habove i ki hki⟩
    · refine hkeep i j (hne i hi) hjp (h.rest i (mem_cons_of_mem _ hi) j (fun hmem => ?_) ?_)
      · rcases mem_cons.mp hmem with heq | hmem
        · exact hjp heq
        · exact hj hmem
      · rw [← hr.stay j hjp]
        exact hwaits

/-- **When nobody joins or leaves, the order of service is the order of the keys.** -/
theorem steady (hwaiting : Ordered q₀ waiting) (hrun : Run SteadyRound q₀ tr q)
    (hlen : tr.length ≤ waiting.length) : (tr.map fun x => x.2.1) = waiting.take tr.length := by
  induction tr generalizing q₀ waiting with
  | nil => rfl
  | cons x rest ih =>
    cases hrun with
    | @cons _ q₁ _ p _ hround hrest =>
    cases waiting with
    | nil => simp at hlen
    | cons w waiting =>
      obtain rfl : p = w := hround.least.unique hwaiting.least
      have hlen' : rest.length ≤ waiting.length := by
        simpa using hlen
      rw [map_cons, length_cons, take_succ_cons, ih (hwaiting.round hround) hrest hlen']

end LeastFirst
