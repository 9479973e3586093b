/-
Which inputs `AsyncVerifyContributionShares` answers.

The global check makes every vector usable by the aggregators.  What is left to go wrong is on
the side of the shares: a missing one, or an invalid one that is added to another.
-/
import AbsoluteCore.Proofs.Bls.Schedules

namespace Absolute

open Fallible List Option Nat

/-! ### Aggregators -/

section

variable {α : Type} (add : α → α → α)

theorem foldlM_aggregateKey (rest : List (Option α)) (key : Option α) :
    (∃ sum, rest.foldlM (aggregateKey add) key = .ok sum) ↔
      rest = [] ∨ (key ≠ none ∧ none ∉ rest) := by
  induction rest generalizing key with
  | nil => simp [pure, Except.pure]
  | cons key' rest ih =>
    cases key with
    | none => simp [aggregateKey]
    | some a =>
      cases key' with
      | none => simp [aggregateKey]
      | some a' =>
        show (∃ sum, rest.foldlM (aggregateKey add) (some (add a a')) = .ok sum) ↔ _
        rw [ih]
        simp
        intro h
        simp [h]

/-- A single key is passed on as it is, and several ones have to be valid. -/
theorem exists_syncAggregate (keys : List (Option α)) :
    (∃ sum, syncAggregate add keys = .ok sum) ↔ keys ≠ [] ∧ (none ∈ keys → keys.length = 1) := by
  cases keys with
  | nil => simp [syncAggregate]
  | cons key rest =>
    rw [syncAggregate, foldlM_aggregateKey]
    cases rest with
    | nil => simp
    | cons key' rest => cases key <;> simp

end

/-! ### Vectors -/

variable {α : Type} {b i : Nat} {l : List α}

theorem mapM_id_eq_some {l : List (Option α)} {xs : List α} :
    l.mapM id = some xs ↔ l = xs.map some := by
  rw [mapM_eq_some, List.map_id]

variable {P S : Type} {ops : BlsOps P S} {inp : ShareInputs P S}

def ofKeys (keys : List P) : Option (BLSVerificationVector P) := some (keys.map some)

theorem exists_eq_map {β : Type} (f : α → β) {ys : List β} (h : ∀ y ∈ ys, ∃ x, y = f x) :
    ∃ xs : List α, ys = xs.map f := by
  induction ys with
  | nil => exact ⟨[], rfl⟩
  | cons y rest ih =>
    obtain ⟨x, rfl⟩ := h y mem_cons_self
    obtain ⟨xs, rfl⟩ := ih fun z hz => h z (mem_cons_of_mem _ hz)
    exact ⟨x :: xs, rfl⟩

/-- What the global check makes sure of. -/
theorem exists_keys (hrefused : ¬inp.Refused ops) :
    ∃ (forId : Uint256) (vecs : List (List P)), inp.forId = some forId ∧
      inp.vvecs = vecs.map ofKeys ∧ (∀ keys ∈ vecs, keys.length = inp.vecSize) ∧
      (vecs.flatten.map ops.getHash).Nodup := by
  obtain ⟨hforId, hcheck⟩ := not_or.mp hrefused
  rw [isNone_iff_eq_none] at hforId
  obtain ⟨forId, hforId⟩ := ne_none_iff_exists'.mp hforId
  rw [Bool.not_eq_false] at hcheck
  unfold verifyVerificationVectors at hcheck
  split at hcheck
  · exact absurd hcheck (by simp)
  · rename_i vs hvs
    simp only [Bool.and_eq_true, List.all_eq_true, beq_iff_eq, decide_eq_true_eq] at hcheck
    obtain ⟨⟨hlength, hvalid⟩, hnodup⟩ := hcheck
    have hkeys : ∀ v ∈ vs, ∃ keys : List P, v = keys.map some := by
      intro v hv
      obtain ⟨keys, hkeys⟩ := Option.isSome_iff_exists.mp (hvalid v hv)
      exact ⟨keys, mapM_id_eq_some.mp hkeys⟩
    obtain ⟨vecs, rfl⟩ := exists_eq_map _ hkeys
    have hvvecs : inp.vvecs = vecs.map ofKeys := by
      rw [mapM_id_eq_some.mp hvs, List.map_map]
      rfl
    refine ⟨forId, vecs, hforId, hvvecs, ?_, ?_⟩
    · intro keys hmem
      have hlen := hlength (keys.map some) (List.mem_map_of_mem hmem)
      rw [length_map] at hlen
      rw [hlen, ShareInputs.vecSize, hvvecs]
      cases vecs with
      | nil => rfl
      | cons keys' rest => simp [ofKeys]
    · have hflat : (vecs.map (map some)).flatten.filterMap id = vecs.flatten := by
        rw [← map_flatten, filterMap_map]
        exact filterMap_some
      rw [hflat] at hnodup
      exact hnodup

/-! ### Batches -/

theorem length_batch (h : inp.start b + inp.count b ≤ l.length) :
    ((l.drop (inp.start b)).take (inp.count b)).length = inp.count b := by
  rw [length_take, length_drop]
  omega

theorem getElem?_batch (hi : i < inp.count b) :
    ((l.drop (inp.start b)).take (inp.count b))[i]? = l[inp.start b + i]? := by
  rw [getElem?_take, if_pos hi, getElem?_drop]

theorem start_add_count_le (hn : inp.vvecs ≠ []) (hb : b < inp.batchCount) :
    inp.start b + inp.count b ≤ inp.vvecs.length := by
  have hstart := start_lt hn hb
  unfold ShareInputs.count
  omega

def columnKey (idx : Nat) (p : Option (BLSVerificationVector P)) : Except Halt (Option P) := do
  let v ← pointee p
  at? v idx

theorem column_eq (b idx : Nat) :
    column inp b idx = ((inp.vvecs.drop (inp.start b)).take (inp.count b)).mapM (columnKey idx) := rfl

theorem exists_aggregateColumn (hrefused : ¬inp.Refused ops) {idx : Nat}
    (hn : inp.vvecs ≠ []) (hb : b < inp.batchCount) (hidx : idx < inp.vecSize) :
    ∃ key, aggregateColumn ops inp b idx = .ok key := by
  obtain ⟨forId, vecs, -, hvvecs, hlength, -⟩ := exists_keys hrefused
  have hkey : ∀ p ∈ (inp.vvecs.drop (inp.start b)).take (inp.count b), ∃ key,
      columnKey idx p = .ok (some key) := by
    intro p hp
    have hp' : p ∈ vecs.map ofKeys := hvvecs ▸ mem_of_mem_drop (mem_of_mem_take hp)
    obtain ⟨keys, hkeys, rfl⟩ := mem_map.mp hp'
    have hlt : idx < keys.length := hlength keys hkeys ▸ hidx
    refine ⟨keys[idx], ?_⟩
    show at? (keys.map some) idx = _
    rw [at?_eq_ok, getElem?_map, getElem?_eq_getElem hlt]
    rfl
  obtain ⟨keys, hcolumn⟩ := exists_mapM_eq_ok.mpr fun p hp => (hkey p hp).imp' some fun _ h => h
  have hvalid : none ∉ keys := by
    intro hmem
    obtain ⟨p, hp, hnone⟩ := (mapM_mem hcolumn).2 none hmem
    obtain ⟨key, hsome⟩ := hkey p hp
    rw [hnone] at hsome
    exact absurd hsome (by simp)
  have hne : keys ≠ [] := by
    have hlen := (mapM_eq_ok.mp hcolumn).length_eq
    rw [length_batch (start_add_count_le hn hb)] at hlen
    exact length_pos_iff.mp (hlen ▸ count_pos hn hb)
  rw [aggregateColumn, column_eq, hcolumn, ok_bind]
  exact (exists_syncAggregate _ keys).mpr ⟨hne, fun hnone => absurd hnone hvalid⟩

theorem exists_aggregateShares (hn : inp.vvecs ≠ []) (hb : b < inp.batchCount)
    (hshares : inp.start b + inp.count b ≤ inp.skShares.length) :
    (∃ sk, aggregateShares ops inp b = .ok sk) ↔
      ∀ i < inp.count b, inp.skShares[inp.start b + i]? = some none → inp.count b = 1 := by
  have hlen := length_batch hshares
  have hpos := count_pos hn hb
  rw [aggregateShares, exists_syncAggregate, hlen]
  constructor
  · rintro ⟨-, h⟩ i hi hnone
    refine h (mem_of_getElem? (i := i) ?_)
    rw [getElem?_take, if_pos hi, getElem?_drop, hnone]
  · intro h
    refine ⟨length_pos_iff.mp (by rw [hlen]; exact hpos), ?_⟩
    intro hmem
    obtain ⟨i, hi⟩ := getElem?_of_mem hmem
    rw [getElem?_take] at hi
    split at hi
    · rename_i hlt
      rw [getElem?_drop] at hi
      exact h i hlt hi
    · exact absurd hi (by simp)

theorem exists_verifyEntry [DecidableEq P] (hrefused : ¬inp.Refused ops)
    (hi : i < inp.vvecs.length) :
    (∃ verdict, verifyEntry ops inp i = .ok verdict) ↔ i < inp.skShares.length := by
  obtain ⟨forId, vecs, -, hvvecs, -, -⟩ := exists_keys hrefused
  have hmem : inp.vvecs[i] ∈ vecs.map ofKeys := by
    rw [← hvvecs]
    exact getElem_mem hi
  obtain ⟨keys, -, hkeys⟩ := mem_map.mp hmem
  have hget : at? inp.vvecs i = .ok (ofKeys keys) := by
    rw [at?_eq_ok, getElem?_eq_getElem hi, hkeys]
  unfold verifyEntry
  rw [hget, ok_bind, ofKeys, pointee, ok_bind]
  constructor
  · rintro ⟨verdict, h⟩
    obtain ⟨sk, hsk, -⟩ := bind_eq_ok.mp h
    exact (List.getElem?_eq_some_iff.mp (at?_eq_ok.mp hsk)).1
  · intro hlt
    rw [at?_eq_ok.mpr (getElem?_eq_getElem hlt), ok_bind]
    exact ⟨_, rfl⟩

/-- Which batches have verdicts. -/
theorem exists_individualVerdicts [DecidableEq P] (hrefused : ¬inp.Refused ops)
    (hn : inp.vvecs ≠ []) (hb : b < inp.batchCount) :
    (∃ verdicts, individualVerdicts ops inp b = .ok verdicts) ↔
      inp.start b + inp.count b ≤ inp.skShares.length := by
  have hle := start_add_count_le hn hb
  have hpos := count_pos hn hb
  rw [individualVerdicts, exists_mapM_eq_ok]
  constructor
  · intro h
    have hlast := h (inp.count b - 1) (mem_range.mpr (by omega))
    rw [exists_verifyEntry hrefused (by omega)] at hlast
    omega
  · intro h i hi
    rw [mem_range] at hi
    rw [exists_verifyEntry hrefused (by omega)]
    omega

theorem exists_batchVerdicts [DecidableEq P] (hrefused : ¬inp.Refused ops)
    (hn : inp.vvecs ≠ []) (hb : b < inp.batchCount) :
    (∃ verdicts, batchVerdicts ops inp b = .ok verdicts) ↔
      inp.start b + inp.count b ≤ inp.skShares.length ∧
        (inp.aggregated = true → 0 < inp.vecSize ∧
          ∀ i < inp.count b, inp.skShares[inp.start b + i]? = some none → inp.count b = 1) := by
  constructor
  · rintro ⟨verdicts, h⟩
    by_cases haggregated : inp.aggregated = true
    · obtain ⟨hshares, -, hsk, hpos⟩ := batchVerdicts_eq_ok haggregated h
      exact ⟨hshares, fun _ => ⟨hpos, (exists_aggregateShares hn hb hshares).mp hsk⟩⟩
    · rw [batchVerdicts, if_neg haggregated] at h
      exact ⟨(exists_individualVerdicts hrefused hn hb).mp ⟨verdicts, h⟩,
        fun h => absurd h haggregated⟩
  · rintro ⟨hshares, hsums⟩
    have hindividual := (exists_individualVerdicts hrefused hn hb).mpr hshares
    by_cases haggregated : inp.aggregated = true
    · obtain ⟨hpos, hvalid⟩ := hsums haggregated
      obtain ⟨sk, hsk⟩ := (exists_aggregateShares hn hb hshares).mpr hvalid
      obtain ⟨vvec, hvvec⟩ : ∃ vvec,
          (range inp.vecSize).mapM (aggregateColumn ops inp b) = .ok vvec :=
        exists_mapM_eq_ok.mpr fun idx hidx =>
          exists_aggregateColumn hrefused hn hb (mem_range.mp hidx)
      have hne : vvec ≠ [] := by
        have hlen := (mapM_eq_ok.mp hvvec).length_eq
        rw [length_range] at hlen
        exact length_pos_iff.mp (hlen ▸ hpos)
      rw [batchVerdicts, if_pos haggregated, if_neg (not_lt.mpr hshares), hvvec, ok_bind, hsk,
        ok_bind, if_neg hne]
      split
      · exact ⟨_, rfl⟩
      · split
        · exact ⟨_, rfl⟩
        · exact hindividual
    · rw [batchVerdicts, if_neg haggregated]
      exact hindividual

/-! ### Inputs -/

theorem batchCount_pos (hn : inp.vvecs ≠ []) : 0 < inp.batchCount := by
  have hlen := length_le_batches inp
  have hpos := length_pos_iff.mpr hn
  by_contra hzero
  rw [Nat.eq_zero_of_not_pos hzero] at hlen
  omega

theorem forall_batches_le (hn : inp.vvecs ≠ []) (n : Nat) :
    (∀ b < inp.batchCount, inp.start b + inp.count b ≤ n) ↔ inp.vvecs.length ≤ n := by
  have hlen := length_le_batches inp
  have hbatches := batchCount_pos hn
  constructor
  · intro h
    have hlast := h (inp.batchCount - 1) (by omega)
    have hsplit : inp.batchCount * inp.batchSize =
        (inp.batchCount - 1) * inp.batchSize + inp.batchSize := by
      rw [← Nat.succ_mul, Nat.succ_eq_add_one, Nat.sub_add_cancel hbatches]
    unfold ShareInputs.count ShareInputs.start at hlast
    omega
  · intro h b hb
    exact (start_add_count_le hn hb).trans h

/-- An invalid share alone in its batch is the last input, at the start of a batch. -/
theorem forall_batches_alone (haggregated : inp.aggregated = true) :
    (∀ b < inp.batchCount, ∀ i < inp.count b, inp.skShares[inp.start b + i]? = some none →
        inp.count b = 1) ↔
      ∀ i < inp.vvecs.length, inp.skShares[i]? = some none →
        i % 8 = 0 ∧ i + 1 = inp.vvecs.length := by
  have hsize : inp.batchSize = 8 := if_pos haggregated
  have hbatches : inp.batchCount = (inp.vvecs.length + 8 - 1) / 8 := if_pos haggregated
  simp only [ShareInputs.count, ShareInputs.start, hsize, hbatches]
  constructor
  · intro h i hi hnone
    have hindex : i / 8 * 8 + i % 8 = i := div_add_mod' i 8
    have halone := h (i / 8) (by omega) (i % 8) (by omega) (by rw [hindex]; exact hnone)
    omega
  · intro h b hb i hi hnone
    obtain ⟨hmod, hlast⟩ := h (b * 8 + i) (by omega) hnone
    omega

theorem exists_batch (hn : inp.vvecs ≠ []) (hi : i < inp.vvecs.length) :
    ∃ b < inp.batchCount, ∃ j < inp.count b, i = inp.start b + j := by
  have hsize := batchSize_pos hn
  have hlen := length_le_batches inp
  have hmod := mod_lt i hsize
  have hdiv : i / inp.batchSize * inp.batchSize + i % inp.batchSize = i := div_add_mod' i _
  refine ⟨i / inp.batchSize, Nat.div_lt_of_lt_mul ?_, i % inp.batchSize, ?_, hdiv.symm⟩
  · rw [Nat.mul_comm]
    omega
  · unfold ShareInputs.count ShareInputs.start
    omega

/-- **An answer exists for exactly these inputs.** -/
theorem answerable_iff_verdicts [DecidableEq P] :
    Answerable ops inp ↔ ∃ verdicts, contributionVerdicts ops inp = .ok verdicts := by
  by_cases hrefused : inp.Refused ops
  · exact iff_of_true (Or.inl hrefused) ⟨_, if_pos hrefused⟩
  · rw [Answerable, or_iff_right hrefused]
    by_cases hn : inp.vvecs = []
    · refine iff_of_false (fun h => h.1 hn) ?_
      rintro ⟨verdicts, h⟩
      exact ((contributionVerdicts_eq_ok hrefused).mp h).1 hn
    · have hbatches : (∃ verdicts, contributionVerdicts ops inp = .ok verdicts) ↔
          ∀ b < inp.batchCount, ∃ verdicts, batchVerdicts ops inp b = .ok verdicts := by
        simp only [contributionVerdicts_eq_ok hrefused, ne_eq, hn, not_false_eq_true, true_and,
          ← mem_range, ← exists_mapM_eq_ok]
        constructor
        · rintro ⟨-, batches, h, -⟩
          exact ⟨batches, h⟩
        · rintro ⟨batches, h⟩
          exact ⟨_, batches, h, rfl⟩
      rw [hbatches, ← forall_batches_le hn]
      constructor
      · rintro ⟨-, hshares, hsums⟩ b hb
        refine (exists_batchVerdicts hrefused hn hb).mpr ⟨hshares b hb, fun haggregated => ?_⟩
        obtain ⟨hpos, halone⟩ := hsums haggregated
        exact ⟨hpos, (forall_batches_alone haggregated).mpr halone b hb⟩
      · intro h
        have hbatch := fun b hb => (exists_batchVerdicts hrefused hn hb).mp (h b hb)
        refine ⟨hn, fun b hb => (hbatch b hb).1, fun haggregated => ⟨?_, ?_⟩⟩
        · exact ((hbatch 0 (batchCount_pos hn)).2 haggregated).1
        · exact (forall_batches_alone haggregated).mp fun b hb => ((hbatch b hb).2 haggregated).2

theorem getElem?_flatten {L : List (List α)} {j : Nat} (hl : L[b]? = some l)
    (hj : j < l.length) : L.flatten[((L.take b).map List.length).sum + j]? = l[j]? := by
  induction L generalizing b with
  | nil => simp at hl
  | cons l' L ih =>
    cases b with
    | zero =>
      obtain rfl := some.inj hl
      rw [take_zero, map_nil, sum_nil, zero_add, flatten_cons, getElem?_append_left hj]
    | succ b =>
      rw [take_succ_cons, map_cons, sum_cons, flatten_cons, add_assoc,
        getElem?_append_right (Nat.le_add_right _ _), Nat.add_sub_cancel_left]
      exact ih hl

/-- The verdicts of a batch stand where its entries do. -/
theorem contributionVerdicts_getElem? [DecidableEq P] {verdicts : List Bool}
    (hrefused : ¬inp.Refused ops) (hok : contributionVerdicts ops inp = .ok verdicts)
    (hb : b < inp.batchCount) (hi : i < inp.count b) :
    ∃ batch, batchVerdicts ops inp b = .ok batch ∧ verdicts[inp.start b + i]? = batch[i]? := by
  obtain ⟨hn, batches, hbatches, rfl⟩ := (contributionVerdicts_eq_ok hrefused).mp hok
  obtain ⟨batch, hget, hbatch⟩ := mapM_getElem? hbatches (getElem?_range hb)
  refine ⟨batch, hbatch, ?_⟩
  have hstart : ((batches.take b).map length).sum = inp.start b := by
    rw [map_take, mapM_map_eq hbatches fun b _ _ => length_batchVerdicts, ← map_take,
      take_range, min_eq_left hb.le]
    have hsum := sum_count inp b
    have hlt := start_lt hn hb
    exact hsum.trans (min_eq_right hlt.le)
  rw [← hstart]
  exact getElem?_flatten hget (by rw [length_batchVerdicts hbatch]; exact hi)

theorem callsBackOnce_iff_answerable [DecidableEq P] : CallsBackOnce ops inp ↔ Answerable ops inp :=
  callsBackOnce_iff_verdicts.trans answerable_iff_verdicts.symm

end Absolute
