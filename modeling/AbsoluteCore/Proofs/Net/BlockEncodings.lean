/-
Indexes from differences.

The offset after index 65535 is 0 again, and the check of the next index passes.  So what is
accepted is in order exactly if the differences, with one more for each, add up to at most 2^16.
-/
import AbsoluteCore.Net.BlockEncodings

namespace Absolute.BlockTransactionsRequest

open List Option

variable {offset d : Nat} {ds is : List Nat}

/-! ### What is accepted -/

/-- The sum of the differences, with one more for each. -/
def total (ds : List Nat) : Nat := (ds.map (· + 1)).sum

theorem addOffsets_cons (h : addOffsets offset (d :: ds) = some is) : d + offset < 2 ^ 16 ∧
    ∃ js, addOffsets ((d + offset + 1) % 2 ^ 16) ds = some js ∧ is = (d + offset) :: js := by
  rw [addOffsets] at h
  split at h
  · cases h
  · obtain ⟨js, hjs, rfl⟩ := map_eq_some_iff.mp h
    exact ⟨by omega, js, hjs, rfl⟩

theorem lt_of_addOffsets (h : addOffsets offset ds = some is) : ∀ i ∈ is, i < 2 ^ 16 := by
  induction ds generalizing offset is with
  | nil =>
    obtain rfl := some.inj h
    simp
  | cons d ds ih =>
    obtain ⟨hlt, js, hjs, rfl⟩ := addOffsets_cons h
    exact forall_mem_cons.mpr ⟨hlt, ih hjs⟩

/-- The indexes are in order and not below an offset that may have left the sixteen bits. -/
theorem addOffsets_increasing_iff (hoffset : offset ≤ 2 ^ 16)
    (h : addOffsets (offset % 2 ^ 16) ds = some is) :
    (is.Pairwise (· < ·) ∧ ∀ i ∈ is, offset ≤ i) ↔ offset + total ds ≤ 2 ^ 16 := by
  induction ds generalizing offset is with
  | nil =>
    obtain rfl := some.inj h
    simpa [total] using hoffset
  | cons d ds ih =>
    obtain ⟨hlt, js, hjs, rfl⟩ := addOffsets_cons h
    have htotal : total (d :: ds) = d + 1 + total ds := rfl
    by_cases hmax : offset = 2 ^ 16
    · -- no index comes after the greatest one
      refine iff_of_false (fun hall => ?_) (by omega)
      have := hall.2 _ mem_cons_self
      omega
    · have hmod : offset % 2 ^ 16 = offset := Nat.mod_eq_of_lt (by omega)
      rw [hmod] at hlt hjs ⊢
      have hnext := ih (by omega) hjs
      rw [pairwise_cons, forall_mem_cons, htotal]
      constructor
      · intro hin
        have := hnext.mp ⟨hin.1.2, hin.1.1⟩
        omega
      · intro hle
        obtain ⟨hpair, hall⟩ := hnext.mpr (by omega)
        exact ⟨⟨hall, hpair⟩, by omega, fun i hi => by have := hall i hi; omega⟩

/-! ### What is sent -/

theorem addOffsets_differences (hoffset : offset ≤ 2 ^ 16) (his : Proper is)
    (hle : ∀ i ∈ is, offset ≤ i) :
    addOffsets (offset % 2 ^ 16) (differences offset is) = some is ∧
      (∀ d ∈ differences offset is, d ≤ 0xffff) ∧
      (differences offset is).length = is.length ∧ offset + is.length ≤ 2 ^ 16 := by
  induction is generalizing offset with
  | nil => exact ⟨rfl, by simp [differences], rfl, hoffset⟩
  | cons i is ih =>
    obtain ⟨hpair, hlt⟩ := his
    obtain ⟨hall, hpair⟩ := pairwise_cons.mp hpair
    obtain ⟨hi, hlt⟩ := forall_mem_cons.mp hlt
    have hoff := hle i mem_cons_self
    have hsucc : i + 1 ≤ 2 ^ 16 := hi
    obtain ⟨hadd, hds, hlength, hsize⟩ := ih hsucc ⟨hpair, hlt⟩ hall
    have hd : (((i : Int) - offset) % 2 ^ 64).toNat = i - offset := by omega
    have hsum : i - offset + offset % 2 ^ 16 = i := by omega
    rw [differences, hd, length_cons, length_cons]
    refine ⟨?_, forall_mem_cons.mpr ⟨by omega, hds⟩, by rw [hlength], by omega⟩
    rw [addOffsets, hsum, if_neg (by omega), hadd]
    rfl

/-- The chunks make no difference to what is read. -/
theorem readChunks_put (ds) (rest : List UInt8) (h : ∀ d ∈ ds, d ≤ 0xffff) :
    readChunks ds.length (ds.flatMap index.put ++ rest) = some (ds, rest) := by
  induction hn : ds.length using Nat.strong_induction_on generalizing ds with
  | _ n ih =>
    rw [readChunks]
    split
    · obtain rfl := length_eq_zero_iff.mp (by omega : ds.length = 0)
      rfl
    · have htake := index.getMany_put (ds.take 1000) ((ds.drop 1000).flatMap index.put ++ rest)
        fun d hd => h d (mem_of_mem_take hd)
      have hdrop := ih (n - min 1000 n) (by omega) (ds.drop 1000)
        (fun d hd => h d (mem_of_mem_drop hd)) (by rw [length_drop]; omega)
      rw [length_take, hn, ← append_assoc, ← flatMap_append, take_append_drop] at htake
      simp [htake, hdrop]

theorem deserialize_serialize (req : BlockTransactionsRequest)
    (hhash : Format.uint256.Valid req.blockhash) (hproper : Proper req.indexes)
    (rest : List UInt8) : deserialize (req.serialize ++ rest) = some (req, rest) := by
  obtain ⟨hadd, hds, hlength, hsize⟩ :=
    addOffsets_differences (Nat.zero_le _) hproper fun i _ => Nat.zero_le i
  have hvalid : req.indexes.length ≤ maxSize ∧ req.indexes.length < 2 ^ 64 := by
    unfold maxSize
    omega
  have hread := readChunks_put _ rest hds
  rw [hlength] at hread
  rw [Nat.zero_mod] at hadd
  unfold deserialize readDifferences serialize
  rw [append_assoc, append_assoc, Format.uint256.get_put _ _ hhash]
  simp only [bind_eq_bind, bind_some, Format.size.get_put _ _ hvalid, hread]
  simp [hadd]

/--
**Strictly increasing indexes are read back, and what is accepted is strictly increasing exactly if
the differences in the message, with one more for each, add up to at most 2^16.**
-/
theorem deserialize_proper_iff (bs rest : List UInt8) (req : BlockTransactionsRequest)
    (h : deserialize bs = some (req, rest)) :
    (∀ (sent : BlockTransactionsRequest) (tail : List UInt8),
      Format.uint256.Valid sent.blockhash → Proper sent.indexes →
        deserialize (sent.serialize ++ tail) = some (sent, tail)) ∧
    ∃ ds, readDifferences bs = some (req.blockhash, ds, rest) ∧
      (Proper req.indexes ↔ total ds ≤ 2 ^ 16) := by
  refine ⟨fun sent tail hhash his => deserialize_serialize sent hhash his tail, ?_⟩
  obtain ⟨⟨blockhash, ds, _⟩, hread, h⟩ := bind_eq_some_iff.mp h
  obtain ⟨indexes, hadd, h⟩ := bind_eq_some_iff.mp h
  obtain ⟨rfl, rfl⟩ := Prod.mk.inj (some.inj h)
  have hiff := addOffsets_increasing_iff (Nat.zero_le _) hadd
  simp only [Nat.zero_le, implies_true, and_true, Nat.zero_add] at hiff
  exact ⟨ds, hread, (and_iff_left (lt_of_addOffsets hadd)).trans hiff⟩

/-- The indexes 1 and 5. -/
def oneAndFive : List UInt8 := replicate 32 0 ++ [2, 1, 3]

theorem deserialize_oneAndFive : deserialize oneAndFive = some (⟨0, [1, 5]⟩, []) ∧
    ∃ ds, readDifferences oneAndFive = some (0, ds, []) ∧ (Proper [1, 5] ↔ total ds ≤ 2 ^ 16) :=
  ⟨by decide +kernel,
    (deserialize_proper_iff oneAndFive [] ⟨0, [1, 5]⟩ (by decide +kernel)).2⟩

/-- After index 65535 the differences are counted from 0 again. -/
theorem deserialize_wraps :
    deserialize (replicate 32 0 ++ [2, 0xfd, 0xff, 0xff, 0]) = some (⟨0, [0xffff, 0]⟩, []) := by
  decide +kernel

end Absolute.BlockTransactionsRequest
