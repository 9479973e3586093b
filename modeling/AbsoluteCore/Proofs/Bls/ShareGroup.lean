/-
Which verdicts are individual.

The sums of a batch fit together exactly when the errors of its entries add up to nothing.  So the
verdict on the sums is the verdict on the entries unless errors cancel out.
-/
import AbsoluteCore.Spec.ShareGroup
import AbsoluteCore.Proofs.Bls.Answers

namespace Absolute

open Fallible List Option Except

variable {F G α : Type} [CommRing F] [AddCommGroup G] [Module F G] {sks : List F}

/-! ### Sums of polynomials -/

theorem sum_smul_columns (x : F) (m : Nat) (vecs : List (List G))
    (h : ∀ keys ∈ vecs, keys.length = m) :
    ∑ k ∈ Finset.range m, x ^ k • (vecs.map (·.getD k 0)).sum = (vecs.map (evaluate x)).sum := by
  induction vecs with
  | nil => simp
  | cons keys rest ih =>
    simp only [map_cons, sum_cons, smul_add, Finset.sum_add_distrib]
    rw [ih fun keys' hkeys' => h keys' (mem_cons_of_mem _ hkeys'), evaluate, h keys mem_cons_self]

/-- The value of a sum of vectors is the sum of their values. -/
theorem evaluate_sum (x : F) (m : Nat) (vecs : List (List G)) (h : ∀ keys ∈ vecs, keys.length = m) :
    evaluate x ((List.range m).map fun k => (vecs.map (·.getD k 0)).sum) =
      (vecs.map (evaluate x)).sum := by
  rw [← sum_smul_columns x m vecs h, evaluate, length_map, length_range]
  refine Finset.sum_congr rfl fun k hk => ?_
  rw [Finset.mem_range] at hk
  rw [getD_eq_getElem?_getD, getElem?_map, getElem?_range hk]
  rfl

theorem sum_map_eq (f : α → G) (d : α) (l : List α) :
    (l.map f).sum = ∑ i ∈ Finset.range l.length, f (l.getD i d) := by
  induction l with
  | nil => simp
  | cons a rest ih =>
    rw [map_cons, sum_cons, ih, length_cons, Finset.sum_range_succ', add_comm]
    rfl

theorem syncAggregate_some [AddCommMonoid α] {keys : List α} (h : keys ≠ []) :
    syncAggregate (· + ·) (keys.map some) = .ok (some keys.sum) := by
  cases keys with
  | nil => exact absurd rfl h
  | cons key rest =>
    show (rest.map some).foldlM (aggregateKey (· + ·)) (some key) = _
    induction rest generalizing key with
    | nil => simp [pure, Except.pure]
    | cons key' rest ih =>
      rw [map_cons, foldlM_cons, aggregateKey, ok_bind, ih (key + key') (by simp),
        sum_cons, sum_cons, sum_cons, add_assoc]

/-! ### Inputs that are not refused -/

section

variable {F G : Type}

/-- What is known about inputs that are not refused. -/
structure Usable (bls : BlsGroup F G) (inp : ShareInputs G F) (forId : Uint256)
    (vecs : List (List G)) : Prop where
  forId_eq : inp.forId = some forId
  vvecs_eq : inp.vvecs = vecs.map ofKeys
  length : ∀ keys ∈ vecs, keys.length = inp.vecSize
  nodup : (vecs.flatten.map bls.getHash).Nodup

variable {bls : BlsGroup F G} {inp : ShareInputs G F} {forId : Uint256} {vecs : List (List G)}
  {i : Nat}

theorem Usable.length_vecs (h : Usable bls inp forId vecs) : vecs.length = inp.vvecs.length := by
  rw [h.vvecs_eq, length_map]

theorem Usable.getElem?_vvecs (h : Usable bls inp forId vecs) (hi : i < inp.vvecs.length) :
    inp.vvecs[i]? = some (ofKeys (vecs.getD i [])) := by
  rw [← h.length_vecs] at hi
  rw [h.vvecs_eq, getElem?_map, getD_eq_getElem?_getD, getElem?_eq_getElem hi]
  rfl

theorem Usable.getD_mem (h : Usable bls inp forId vecs) (hi : i < inp.vvecs.length) :
    vecs.getD i [] ∈ vecs := by
  rw [← h.length_vecs] at hi
  rw [getD_eq_getElem?_getD, getElem?_eq_getElem hi]
  exact getElem_mem hi

end

variable {bls : BlsGroup F G} {inp : ShareInputs G F} {forId : Uint256} {vecs : List (List G)}
  {i b : Nat}
variable {verdicts : List Bool}

theorem pkShare_some (bls : BlsGroup F G) (forId : Uint256) (keys : List G) :
    pkShare bls.ops (keys.map some) (some forId) =
      if bls.evaluates keys.length then some (evaluate (bls.point forId) keys) else none := by
  have hkeys : validKeys (keys.map some) = some keys := mapM_id_eq_some.mpr rfl
  show (validKeys (keys.map some)).bind _ = _
  rw [hkeys]
  rfl

theorem Usable.shareError_eq (h : Usable bls inp forId vecs) (hi : i < inp.vvecs.length) {sk : F}
    (hsk : inp.skShares[i]? = some (some sk)) :
    bls.shareError inp i = sk • bls.generator - evaluate (bls.point forId) (vecs.getD i []) := by
  have hkeys : ((vecs.getD i []).map some).map (fun key : Option G => key.getD 0) = vecs.getD i [] := by
    rw [List.map_map]
    exact map_id _
  rw [BlsGroup.shareError, hsk, h.getElem?_vvecs hi, h.forId_eq]
  show sk • bls.generator - evaluate (bls.point forId) (((vecs.getD i []).map some).map _) = _
  rw [hkeys]

theorem Usable.aggregateColumn_eq (h : Usable bls inp forId vecs) (hn : inp.vvecs ≠ [])
    (hb : b < inp.batchCount) {idx : Nat} (hidx : idx < inp.vecSize) :
    aggregateColumn bls.ops inp b idx = .ok (some
      ((((vecs.drop (inp.start b)).take (inp.count b)).map (·.getD idx 0)).sum)) := by
  have hlen : ((vecs.drop (inp.start b)).take (inp.count b)).length = inp.count b :=
    length_batch (h.length_vecs.symm ▸ start_add_count_le hn hb)
  have hpos := count_pos hn hb
  have hkeys : ∀ keys ∈ (vecs.drop (inp.start b)).take (inp.count b),
      columnKey idx (ofKeys keys) = .ok (some (keys.getD idx 0)) := by
    intro keys hmem
    have hlt : idx < keys.length := by
      rw [h.length keys (mem_of_mem_drop (mem_of_mem_take hmem))]
      exact hidx
    show at? (keys.map some) idx = _
    rw [at?_eq_ok, getElem?_map, getD_eq_getElem?_getD, getElem?_eq_getElem hlt]
    rfl
  have hcolumn : column inp b idx = .ok ((((vecs.drop (inp.start b)).take (inp.count b)).map
      (·.getD idx 0)).map some) := by
    rw [column_eq, h.vvecs_eq, ← List.map_drop, ← List.map_take, List.map_map]
    exact mapM_map_ok hkeys
  rw [aggregateColumn, hcolumn, ok_bind]
  refine syncAggregate_some fun hnil => ?_
  rw [map_eq_nil_iff] at hnil
  rw [hnil, length_nil] at hlen
  omega

theorem aggregateShares_some (hn : inp.vvecs ≠ []) (hb : b < inp.batchCount)
    (hshares : inp.start b + inp.count b ≤ inp.skShares.length)
    (hsks : (inp.skShares.drop (inp.start b)).take (inp.count b) = sks.map some) :
    aggregateShares bls.ops inp b = .ok (some sks.sum) := by
  have hlen := length_batch hshares
  have hpos := count_pos hn hb
  rw [hsks, length_map] at hlen
  rw [aggregateShares, hsks]
  refine syncAggregate_some fun hnil => ?_
  rw [hnil, length_nil] at hlen
  omega

theorem Usable.sum_shareError (h : Usable bls inp forId vecs) (hn : inp.vvecs ≠ [])
    (hb : b < inp.batchCount) (hshares : inp.start b + inp.count b ≤ inp.skShares.length)
    (hsks : (inp.skShares.drop (inp.start b)).take (inp.count b) = sks.map some) :
    ∑ i ∈ Finset.range (inp.count b), bls.shareError inp (inp.start b + i) =
      sks.sum • bls.generator -
        (((vecs.drop (inp.start b)).take (inp.count b)).map (evaluate (bls.point forId))).sum := by
  have hle := start_add_count_le hn hb
  have hlen : ((vecs.drop (inp.start b)).take (inp.count b)).length = inp.count b :=
    length_batch (h.length_vecs.symm ▸ hle)
  have hlen' : sks.length = inp.count b := by
    rw [← length_map (f := some), ← hsks, length_batch hshares]
  rw [sum_smul, sum_map_eq _ 0, sum_map_eq _ [], hlen, hlen', ← Finset.sum_sub_distrib]
  refine Finset.sum_congr rfl fun i hi => ?_
  rw [Finset.mem_range] at hi
  have hsk : inp.skShares[inp.start b + i]? = some (some (sks.getD i 0)) := by
    rw [← getElem?_batch hi, hsks, getElem?_map, getD_eq_getElem?_getD,
      getElem?_eq_getElem (hlen'.symm ▸ hi)]
    rfl
  rw [h.shareError_eq (by omega) hsk, getD_eq_getElem?_getD, getD_eq_getElem?_getD,
    getD_eq_getElem?_getD, getElem?_batch hi]

/-- The errors of a batch do not cancel out. -/
def BlsGroup.NoCancellationIn (bls : BlsGroup F G) (inp : ShareInputs G F) (b : Nat) : Prop :=
  bls.evaluates inp.vecSize = true →
    (∀ i < inp.count b, inp.skShares[inp.start b + i]? ≠ some none) →
    ∑ i ∈ Finset.range (inp.count b), bls.shareError inp (inp.start b + i) = 0 →
    ∀ i < inp.count b, bls.shareError inp (inp.start b + i) = 0

theorem noCancellation_iff :
    bls.NoCancellation inp ↔
      (inp.aggregated = true → ∀ b < inp.batchCount, bls.NoCancellationIn inp b) := by
  constructor
  · intro h haggregated b hb hevaluates
    exact h haggregated hevaluates b hb
  · intro h haggregated hevaluates b hb
    exact h haggregated b hb hevaluates

variable [DecidableEq G]

theorem verifyContributionShare_some (forId : Uint256) (keys : List G) (sk : Option F) :
    verifyContributionShare bls.ops (some forId) (keys.map some) sk = true ↔
      bls.evaluates keys.length = true ∧
        ∃ s, sk = some s ∧ s • bls.generator = evaluate (bls.point forId) keys := by
  rw [verifyContributionShare, pkShare_some]
  cases bls.evaluates keys.length with
  | false => simp
  | true =>
    cases sk with
    | none => simp
    | some s => simp [BlsGroup.ops]

section

variable (h : Usable bls inp forId vecs)

include h

theorem Usable.verifyEntry_eq (hi : i < inp.vvecs.length) {sk : Option F}
    (hsk : inp.skShares[i]? = some sk) :
    verifyEntry bls.ops inp i =
      .ok (verifyContributionShare bls.ops (some forId) ((vecs.getD i []).map some) sk) := by
  rw [verifyEntry, at?_eq_ok.mpr (h.getElem?_vvecs hi), ok_bind, ofKeys, pointee, ok_bind,
    at?_eq_ok.mpr hsk, ok_bind, h.forId_eq]
  rfl

/-- The code's own verdict on an entry is right. -/
theorem Usable.verifyEntry_iff (hi : i < inp.vvecs.length) :
    verifyEntry bls.ops inp i = .ok true ↔ bls.ShareValid inp i := by
  constructor
  · intro htrue
    have hlt : i < inp.skShares.length := by
      simp only [verifyEntry, bind_eq_ok] at htrue
      obtain ⟨-, -, -, -, sk, hsk, -⟩ := htrue
      exact (List.getElem?_eq_some_iff.mp (at?_eq_ok.mp hsk)).1
    rw [h.verifyEntry_eq hi (getElem?_eq_getElem hlt), ok.injEq,
      verifyContributionShare_some] at htrue
    obtain ⟨hevaluates, s, hs, heq⟩ := htrue
    refine ⟨forId, vecs.getD i [], s, h.forId_eq, h.getElem?_vvecs hi, ?_, hevaluates, ?_, heq⟩
    · exact h.nodup.sublist ((sublist_flatten_of_mem (h.getD_mem hi)).map _)
    · rw [getElem?_eq_getElem hlt, hs]
  · rintro ⟨forId', keys, sk, hforId, hkeys, -, hevaluates, hsk, heq⟩
    rw [h.forId_eq, some.injEq] at hforId
    rw [h.getElem?_vvecs hi, ofKeys, some.injEq, some.injEq] at hkeys
    rw [h.verifyEntry_eq hi hsk, hkeys, hforId, ok.injEq, verifyContributionShare_some]
    exact ⟨hevaluates, sk, rfl, heq⟩

/-! ### Batches -/

/-- A batch with an invalid share is refused like its entry. -/
theorem Usable.batchVerdicts_eq_of_none (hn : inp.vvecs ≠ []) (hb : b < inp.batchCount)
    (haggregated : inp.aggregated = true) (hok : batchVerdicts bls.ops inp b = .ok verdicts)
    (hnone : ∃ i < inp.count b, inp.skShares[inp.start b + i]? = some none) :
    batchVerdicts bls.ops inp b = individualVerdicts bls.ops inp b := by
  obtain ⟨hshares, ⟨vvec, hvvec⟩, hsums, hpos⟩ := batchVerdicts_eq_ok haggregated hok
  obtain ⟨i, hi, hnone⟩ := hnone
  have hone : inp.count b = 1 := (exists_aggregateShares hn hb hshares).mp hsums i hi hnone
  obtain rfl : i = 0 := by omega
  have hbatch : (inp.skShares.drop (inp.start b)).take (inp.count b) = [none] := by
    have hlen := length_batch hshares
    rw [hone, length_eq_one_iff] at hlen
    obtain ⟨share, hshare⟩ := hlen
    have hget : ((inp.skShares.drop (inp.start b)).take (inp.count b))[0]? = some none := by
      rw [getElem?_batch hi, hnone]
    rw [hone, hshare] at hget
    rw [hone, hshare, ← some.inj hget]
  have hsk : aggregateShares bls.ops inp b = .ok none := by
    rw [aggregateShares, hbatch]
    rfl
  have hne : vvec ≠ [] := by
    have hlen := (mapM_eq_ok.mp hvvec).length_eq
    rw [length_range] at hlen
    exact length_pos_iff.mp (hlen ▸ hpos)
  have hentry : verifyEntry bls.ops inp (inp.start b + 0) = .ok false := by
    have hlt := start_add_count_le hn hb
    rw [h.verifyEntry_eq (by omega) hnone, ok.injEq, Bool.eq_false_iff, ne_eq,
      verifyContributionShare_some]
    rintro ⟨-, s, hs, -⟩
    exact absurd hs (by simp)
  rw [batchVerdicts, if_pos haggregated, if_neg (not_lt.mpr hshares), hvvec, ok_bind, hsk,
    ok_bind, if_neg hne, individualVerdicts, hone]
  show _ = [0].mapM _
  rw [mapM_cons, hentry]
  rfl

/-- The sums of a batch of valid shares fit when the errors add up to nothing. -/
theorem Usable.batchVerdicts_eq_of_some (hn : inp.vvecs ≠ []) (hb : b < inp.batchCount)
    (haggregated : inp.aggregated = true) (hok : batchVerdicts bls.ops inp b = .ok verdicts)
    (hsome : ∀ i < inp.count b, inp.skShares[inp.start b + i]? ≠ some none) :
    batchVerdicts bls.ops inp b =
      if bls.evaluates inp.vecSize = true ∧
          ∑ i ∈ Finset.range (inp.count b), bls.shareError inp (inp.start b + i) = 0 then
        .ok (List.replicate (inp.count b) true)
      else individualVerdicts bls.ops inp b := by
  obtain ⟨hshares, -, -, hpos⟩ := batchVerdicts_eq_ok haggregated hok
  have hvalid : ∀ share ∈ (inp.skShares.drop (inp.start b)).take (inp.count b),
      ∃ sk, share = some sk := by
    intro share hmem
    obtain ⟨i, hi⟩ := getElem?_of_mem hmem
    have hlt : i < inp.count b := by
      have := (List.getElem?_eq_some_iff.mp hi).1
      rw [length_batch hshares] at this
      exact this
    rw [getElem?_batch hlt] at hi
    cases share with
    | none => exact absurd hi (hsome i hlt)
    | some sk => exact ⟨sk, rfl⟩
  obtain ⟨sks, hsks⟩ := exists_eq_map some hvalid
  have hvvec : (range inp.vecSize).mapM (aggregateColumn bls.ops inp b) =
      .ok (((range inp.vecSize).map fun idx =>
        (((vecs.drop (inp.start b)).take (inp.count b)).map (·.getD idx 0)).sum).map some) := by
    rw [List.map_map]
    exact mapM_ok fun idx hidx => h.aggregateColumn_eq hn hb (mem_range.mp hidx)
  have hne : ((range inp.vecSize).map fun idx =>
      (((vecs.drop (inp.start b)).take (inp.count b)).map (·.getD idx 0)).sum).map some ≠ [] := by
    rw [← length_pos_iff]
    simpa using hpos
  have hlength : ∀ keys ∈ (vecs.drop (inp.start b)).take (inp.count b), keys.length = inp.vecSize :=
    fun keys hmem => h.length keys (mem_of_mem_drop (mem_of_mem_take hmem))
  rw [batchVerdicts, if_pos haggregated, if_neg (not_lt.mpr hshares), hvvec, ok_bind,
    aggregateShares_some hn hb hshares hsks, ok_bind, if_neg hne, h.forId_eq,
    h.sum_shareError hn hb hshares hsks]
  show (if verifyContributionShare _ _ _ _ = true then _ else _) = _
  congr 1
  rw [verifyContributionShare_some, evaluate_sum _ _ _ hlength, length_map, length_range,
    sub_eq_zero]
  simp

end

theorem individualVerdicts_getElem? (hok : individualVerdicts bls.ops inp b = .ok verdicts)
    (hi : i < inp.count b) :
    ∃ verdict, verdicts[i]? = some verdict ∧
      verifyEntry bls.ops inp (inp.start b + i) = .ok verdict :=
  mapM_getElem? hok (getElem?_range hi)

theorem individualVerdicts_eq_true :
    individualVerdicts bls.ops inp b = .ok (List.replicate (inp.count b) true) ↔
      ∀ i < inp.count b, verifyEntry bls.ops inp (inp.start b + i) = .ok true := by
  constructor
  · intro h i hi
    obtain ⟨verdict, hget, hentry⟩ := individualVerdicts_getElem? h hi
    rw [getElem?_replicate_of_lt hi, some.injEq] at hget
    rw [hentry, hget]
  · intro h
    rw [individualVerdicts, mapM_ok fun i hi => h i (mem_range.mp hi), map_const', length_range]

/-- **The verdicts on a batch are those on its entries unless errors cancel out.** -/
theorem Usable.batchVerdicts_eq_iff (h : Usable bls inp forId vecs) (hn : inp.vvecs ≠ [])
    (hb : b < inp.batchCount) (haggregated : inp.aggregated = true)
    (hok : batchVerdicts bls.ops inp b = .ok verdicts) :
    batchVerdicts bls.ops inp b = individualVerdicts bls.ops inp b ↔ bls.NoCancellationIn inp b := by
  by_cases hnone : ∃ i < inp.count b, inp.skShares[inp.start b + i]? = some none
  · refine iff_of_true (h.batchVerdicts_eq_of_none hn hb haggregated hok hnone) ?_
    intro _ hsome
    obtain ⟨i, hi, hnone⟩ := hnone
    exact absurd hnone (hsome i hi)
  · have hsome : ∀ i < inp.count b, inp.skShares[inp.start b + i]? ≠ some none := by
      intro i hi heq
      exact hnone ⟨i, hi, heq⟩
    obtain ⟨hshares, -, -, -⟩ := batchVerdicts_eq_ok haggregated hok
    have hle := start_add_count_le hn hb
    have hentry : bls.evaluates inp.vecSize = true → ∀ i < inp.count b,
        (verifyEntry bls.ops inp (inp.start b + i) = .ok true ↔
          bls.shareError inp (inp.start b + i) = 0) := by
      intro hevaluates i hi
      have hlt : inp.start b + i < inp.skShares.length := by omega
      obtain ⟨sk, hsk⟩ := ne_none_iff_exists'.mp fun heq : inp.skShares[inp.start b + i] = none =>
        hsome i hi (by rw [getElem?_eq_getElem hlt, heq])
      have hget : inp.skShares[inp.start b + i]? = some (some sk) := by
        rw [getElem?_eq_getElem hlt, hsk]
      rw [h.verifyEntry_eq (by omega) hget, ok.injEq, verifyContributionShare_some,
        h.shareError_eq (by omega) hget, sub_eq_zero, h.length _ (h.getD_mem (by omega))]
      simp [hevaluates]
    rw [h.batchVerdicts_eq_of_some hn hb haggregated hok hsome]
    split
    · rename_i hfits
      obtain ⟨hevaluates, hsum⟩ := hfits
      rw [eq_comm, individualVerdicts_eq_true]
      constructor
      · intro hall _ _ _ i hi
        exact (hentry hevaluates i hi).mp (hall i hi)
      · intro hno i hi
        exact (hentry hevaluates i hi).mpr (hno hevaluates hsome hsum i hi)
    · rename_i hfits
      refine iff_of_true rfl ?_
      intro hevaluates _ hsum
      exact absurd ⟨hevaluates, hsum⟩ hfits

/-! ### All inputs -/

/-- The verdicts are individual when those on every batch are. -/
theorem Usable.forall_verdicts_iff (h : Usable bls inp forId vecs) (hrefused : ¬inp.Refused bls.ops)
    (hok : contributionVerdicts bls.ops inp = .ok verdicts) :
    (∀ i < inp.vvecs.length, verdicts[i]? = some true ↔ bls.ShareValid inp i) ↔
      bls.NoCancellation inp := by
  obtain ⟨hn, batches, hbatches, -⟩ := (contributionVerdicts_eq_ok hrefused).mp hok
  have hbatchOk : ∀ b < inp.batchCount, ∃ batch, batchVerdicts bls.ops inp b = .ok batch :=
    fun b hb => exists_mapM_eq_ok.mp ⟨batches, hbatches⟩ b (mem_range.mpr hb)
  have hiff : (∀ i < inp.vvecs.length, verdicts[i]? = some true ↔ bls.ShareValid inp i) ↔
      ∀ b < inp.batchCount, batchVerdicts bls.ops inp b = individualVerdicts bls.ops inp b := by
    constructor
    · intro hall b hb
      obtain ⟨batch, hbatch⟩ := hbatchOk b hb
      obtain ⟨individual, hindividual⟩ := (exists_individualVerdicts hrefused hn hb).mpr
        ((exists_batchVerdicts hrefused hn hb).mp ⟨batch, hbatch⟩).1
      rw [hbatch, hindividual, ok.injEq]
      refine ext_getElem? fun i => ?_
      have hlen := length_batchVerdicts hbatch
      by_cases hi : i < inp.count b
      · have hle := start_add_count_le hn hb
        obtain ⟨verdict, hget, hentry⟩ := individualVerdicts_getElem? hindividual hi
        obtain ⟨batch', hbatch', hverdict⟩ := contributionVerdicts_getElem? hrefused hok hb hi
        rw [hbatch, ok.injEq] at hbatch'
        have hvalid := hall (inp.start b + i) (by omega)
        rw [← h.verifyEntry_iff (by omega), hentry, ok.injEq, hverdict, ← hbatch',
          getElem?_eq_getElem (hlen.symm ▸ hi), some.injEq] at hvalid
        rw [hget, getElem?_eq_getElem (hlen.symm ▸ hi), some.injEq]
        exact Bool.eq_iff_iff.mpr hvalid
      · have hlen' := (mapM_eq_ok.mp hindividual).length_eq
        rw [length_range] at hlen'
        rw [getElem?_eq_none (by omega), getElem?_eq_none (by omega)]
    · intro hall i hi
      obtain ⟨b, hb, j, hj, rfl⟩ := exists_batch hn hi
      obtain ⟨batch, hbatch, hverdict⟩ := contributionVerdicts_getElem? hrefused hok hb hj
      rw [hall b hb] at hbatch
      obtain ⟨verdict, hget, hentry⟩ := individualVerdicts_getElem? hbatch hj
      rw [← h.verifyEntry_iff hi, hverdict, hget, hentry, some.injEq, ok.injEq]
  rw [hiff, noCancellation_iff]
  by_cases haggregated : inp.aggregated = true
  · constructor
    · intro hall _ b hb
      obtain ⟨batch, hbatch⟩ := hbatchOk b hb
      exact (h.batchVerdicts_eq_iff hn hb haggregated hbatch).mp (hall b hb)
    · intro hno b hb
      obtain ⟨batch, hbatch⟩ := hbatchOk b hb
      exact (h.batchVerdicts_eq_iff hn hb haggregated hbatch).mpr (hno haggregated b hb)
  · refine iff_of_true ?_ fun h => absurd h haggregated
    intro b hb
    exact if_neg haggregated

/-- Only the verdicts are answered. -/
theorem verdictsIndividual_of_verdicts (hok : contributionVerdicts bls.ops inp = .ok verdicts) :
    VerdictsIndividual bls inp ↔
      ∀ i < inp.vvecs.length, verdicts[i]? = some true ↔ bls.ShareValid inp i := by
  simp only [VerdictsIndividual, workerAnswer_iff hok, forall_eq, ok.injEq, exists_eq_left']

/-- Without verdicts nothing is answered. -/
theorem verdictsIndividual_of_no_verdicts (hrefused : ¬inp.Refused bls.ops)
    (hnone : ∀ verdicts, contributionVerdicts bls.ops inp ≠ .ok verdicts) :
    VerdictsIndividual bls inp ↔ ∀ i < inp.vvecs.length, ¬bls.ShareValid inp i := by
  have hfalse : ∀ answer, WorkerAnswer bls.ops inp answer → ∀ i < inp.vvecs.length,
      ¬∃ verdicts, answer = .ok verdicts ∧ verdicts[i]? = some true := by
    rintro answer hanswer i hi ⟨verdicts, rfl, -⟩
    cases hanswer with
    | returns hv hcalls =>
      have hn : inp.vvecs ≠ [] := length_pos_iff.mp (by omega)
      obtain ⟨owed, hinv⟩ := hv.verifierInv hrefused hn
      obtain ⟨verdicts', hverdicts', -⟩ := hinv.calls_eq hrefused hn (by rw [hcalls]; simp)
      exact hnone verdicts' hverdicts'
  constructor
  · intro h i hi hvalid
    obtain ⟨answer, hanswer⟩ := exists_workerAnswer bls.ops inp
    exact hfalse answer hanswer i hi ((h answer hanswer i hi).mpr hvalid)
  · intro h answer hanswer i hi
    exact iff_of_false (hfalse answer hanswer i hi) (h i hi)

/--
**The verdicts are individual for exactly the independent inputs.**

A call without an answer, or one that is refused, must not have an entry that is right; otherwise
the condition is that errors do not cancel out in a sum.
-/
theorem verdictsIndividual_iff (bls : BlsGroup F G) (inp : ShareInputs G F) :
    VerdictsIndividual bls inp ↔ Independent bls inp := by
  by_cases hrefused : inp.Refused bls.ops
  · have hok : contributionVerdicts bls.ops inp = .ok (inp.vvecs.map fun _ => false) := if_pos hrefused
    have hfalse : ∀ i : Nat, (inp.vvecs.map fun _ => false)[i]? ≠ some true := by
      intro i htrue
      obtain ⟨_, -, hfalse⟩ := mem_map.mp (mem_of_getElem? htrue)
      exact absurd hfalse (by simp)
    rw [verdictsIndividual_of_verdicts hok, Independent]
    simp only [hfalse, false_iff, hrefused, true_or, true_and, not_true_eq_false, false_and, or_false]
  · by_cases hanswerable : Answerable bls.ops inp
    · obtain ⟨verdicts, hok⟩ := answerable_iff_verdicts.mp hanswerable
      obtain ⟨forId, vecs, hforId, hvvecs, hlength, hnodup⟩ := exists_keys hrefused
      have husable : Usable bls inp forId vecs := ⟨hforId, hvvecs, hlength, hnodup⟩
      rw [verdictsIndividual_of_verdicts hok, husable.forall_verdicts_iff hrefused hok, Independent]
      simp [hrefused, hanswerable]
    · have hnone : ∀ verdicts, contributionVerdicts bls.ops inp ≠ .ok verdicts :=
        fun verdicts hok => hanswerable (answerable_iff_verdicts.mpr ⟨verdicts, hok⟩)
      rw [verdictsIndividual_of_no_verdicts hrefused hnone, Independent]
      simp [hrefused, hanswerable]

def integerGroup : BlsGroup ℤ ℤ where
  generator := 1
  point id := id
  evaluates n := decide (2 ≤ n)
  getHash key := key.toNat

/-- Two dealers whose vectors have the values 3 and 7 at the id 1. -/
def twoDealers (vvec : List ℤ) (sk sk' : ℤ) : ShareInputs ℤ ℤ where
  forId := some 1
  vvecs := [some [some 1, some 2], some (vvec.map some)]
  skShares := [some sk, some sk']
  parallel := true
  aggregated := true

/--
Two wrong shares pass because one is too large by what the other one lacks, and a right share
fails because the other dealer has copied a key of its vector.
-/
theorem verdictsIndividual_twoDealers :
    ¬VerdictsIndividual integerGroup (twoDealers [3, 4] 4 6) ∧
      ¬VerdictsIndividual integerGroup (twoDealers [2, 5] 3 7) := by
  refine ⟨?_, ?_⟩
  · have hok : contributionVerdicts integerGroup.ops (twoDealers [3, 4] 4 6) = .ok [true, true] := by
      decide
    have hrefused : ¬(twoDealers [3, 4] 4 6).Refused integerGroup.ops := by decide
    obtain ⟨forId, vecs, hforId, hvvecs, hlength, hnodup⟩ := exists_keys hrefused
    have husable : Usable integerGroup (twoDealers [3, 4] 4 6) forId vecs :=
      ⟨hforId, hvvecs, hlength, hnodup⟩
    rw [verdictsIndividual_of_verdicts hok]
    intro hall
    have hvalid := (hall 0 (by decide)).mp rfl
    rw [← husable.verifyEntry_iff (by decide)] at hvalid
    exact absurd hvalid (by decide)
  · have hok : contributionVerdicts integerGroup.ops (twoDealers [2, 5] 3 7) = .ok [false, false] := by
      decide
    rw [verdictsIndividual_of_verdicts hok]
    intro hall
    have hvalid : integerGroup.ShareValid (twoDealers [2, 5] 3 7) 0 :=
      ⟨1, [1, 2], 3, rfl, rfl, by decide, rfl, rfl, by decide⟩
    exact absurd ((hall 0 (by decide)).mpr hvalid) (by decide)

end Absolute
