/-
What is read of an integer of variable length.

What the writer sends is `putVarInt` of the library, and an unsigned variable reads as `getVarInt`
does: the number the bytes stand for, reduced to its width.  So the reader undoes the writer for as
long as nothing is cut off.
-/
import AbsoluteCore.Serialize.VarInt

namespace Absolute

open Codec List Option

variable {t : IntType} {n : Nat} {bytes init rest : List UInt8}

/-! ### The writer -/

theorem length_putVarInt (flag : Nat) : (putVarInt flag n).length = getSizeOfVarInt n := by
  induction n using Nat.strong_induction_on generalizing flag with
  | _ n ih =>
    rw [putVarInt, getSizeOfVarInt]
    split
    · rfl
    · rw [length_append, ih _ (by omega)]
      rfl

theorem fillVarInt_eq {tmpSize len : Nat} (h : len + getSizeOfVarInt n ≤ tmpSize) :
    (fillVarInt tmpSize n len).map reverse =
      some (putVarInt (if len = 0 then 0 else 0x80) n) := by
  induction n using Nat.strong_induction_on generalizing len with
  | _ n ih =>
    rw [getSizeOfVarInt] at h
    rw [fillVarInt, putVarInt]
    have hbyte : (n % 128 + if len = 0 then 0 else 0x80) % 256 =
        n % 128 + if len = 0 then 0 else 0x80 := by split <;> omega
    split at h
    · rename_i hsmall
      have hlow : n % 128 = n := by omega
      rw [hlow] at hbyte
      rw [if_neg (by omega), if_pos hsmall, if_pos hsmall, hbyte, hlow]
      rfl
    · rename_i hlarge
      have hroom : len + 1 + getSizeOfVarInt (n / 128 - 1) ≤ tmpSize := by omega
      obtain ⟨tail, hfill, htail⟩ := map_eq_some_iff.mp (ih _ (by omega) hroom)
      rw [if_neg (by omega), if_neg hlarge, if_neg hlarge, hfill, hbyte]
      simp [htail]

theorem getSizeOfVarInt_le {k : Nat} (hn : n < 128 ^ (k + 1)) : getSizeOfVarInt n ≤ k + 1 := by
  induction k generalizing n with
  | zero =>
    rw [getSizeOfVarInt, if_pos (by omega)]
  | succ k ih =>
    rw [getSizeOfVarInt]
    split
    · omega
    · have hdiv : n / 128 < 128 ^ (k + 1) := by
        rw [Nat.div_lt_iff_lt_mul (by decide)]
        exact hn
      have := ih (n := n / 128 - 1) (by omega)
      omega

theorem getSizeOfVarInt_mono {m : Nat} (h : m ≤ n) : getSizeOfVarInt m ≤ getSizeOfVarInt n := by
  induction n using Nat.strong_induction_on generalizing m with
  | _ n ih =>
    rw [getSizeOfVarInt, getSizeOfVarInt.eq_def n]
    split
    · split <;> omega
    · rw [if_neg (by omega)]
      have hprev : m / 128 - 1 ≤ n / 128 - 1 := by omega
      have := ih (n / 128 - 1) (by omega) hprev
      omega

/-- The buffer has room for every number of the type. -/
theorem writeVarInt_eq (hbits : 0 < t.bits) (hn : n < t.range) :
    writeVarInt t n = some (putVarInt 0 n) := by
  obtain ⟨k, hk⟩ : ∃ k, (t.bits + 6) / 7 = k + 1 := Nat.exists_eq_add_one.mpr (by omega)
  have hrange : t.range ≤ 128 ^ (k + 1) := by
    rw [show (128 : Nat) = 2 ^ 7 from rfl, ← pow_mul]
    refine Nat.pow_le_pow_right (by decide) ?_
    split <;> omega
  have hsize := getSizeOfVarInt_le (hn.trans_le hrange)
  exact fillVarInt_eq (by omega)

/-! ### The reader -/

theorem le_foldl_addDigit (n : Nat) (bytes : List UInt8) : n ≤ bytes.foldl addDigit n := by
  induction bytes generalizing n with
  | nil => exact le_rfl
  | cons b bytes ih =>
    have hstep : n ≤ addDigit n b := by
      unfold addDigit
      omega
    exact hstep.trans (ih _)

theorem store_of_lt (h : n < t.range) : t.store n = some n := by
  rw [IntType.store, if_neg (fun hout => Nat.not_le.mpr h hout.2), Nat.mod_eq_of_lt h]

/-- A number that fits is read whole, also into a signed variable. -/
theorem readDigits_append (hinit : ∀ b ∈ init, 128 ≤ b.toNat) {last : UInt8}
    (hlast : last.toNat < 128) (hfits : (init ++ [last]).foldl addDigit n < t.range) :
    readDigits t n (init ++ last :: rest) =
      some ((init ++ [last]).foldl addDigit n, rest) := by
  induction init generalizing n with
  | nil =>
    simp only [nil_append, foldl_cons, foldl_nil, addDigit, if_pos hlast, Nat.add_zero] at hfits ⊢
    rw [readDigits, store_of_lt hfits]
    exact if_pos hlast
  | cons b init ih =>
    have hb := Nat.not_lt.mpr (hinit b mem_cons_self)
    simp only [cons_append, foldl_cons, addDigit, if_neg hb] at hfits ⊢
    have hnext := (le_foldl_addDigit _ _).trans_lt hfits
    rw [readDigits, store_of_lt (by omega), bind_eq_bind, bind_some, if_neg hb, store_of_lt hnext]
    exact ih (fun c hc => hinit c (mem_cons_of_mem b hc)) hfits

/-- What was consumed is an encoding. -/
theorem isEncoding_of_readDigits {m : Nat} {rest : List UInt8}
    (h : readDigits t n bytes = some (m, rest)) :
    ∃ consumed, bytes = consumed ++ rest ∧ IsEncoding consumed := by
  induction bytes generalizing n with
  | nil => cases h
  | cons b bytes ih =>
    rw [readDigits] at h
    obtain ⟨y, -, h⟩ := bind_eq_some_iff.mp h
    split at h
    · rename_i hb
      obtain ⟨-, rfl⟩ := Prod.mk.inj (some.inj h)
      exact ⟨[b], rfl, [], b, rfl, by simp, hb⟩
    · rename_i hb
      obtain ⟨z, -, h⟩ := bind_eq_some_iff.mp h
      obtain ⟨_, rfl, init, last, rfl, hinit, hlast⟩ := ih h
      refine ⟨b :: (init ++ [last]), rfl, b :: init, last, rfl, ?_, hlast⟩
      rintro c (_ | ⟨_, hc⟩)
      · exact Nat.not_lt.mp hb
      · exact hinit c hc

theorem readDigits_unsigned (bits n : Nat) (bytes : List UInt8) :
    readDigits ⟨bits, false⟩ n bytes = getVarInt bits n bytes := by
  induction bytes generalizing n with
  | nil => rfl
  | cons b bytes ih =>
    simp only [readDigits, getVarInt, ← ih]
    split <;> simp_all [IntType.store, IntType.range]

/-! ### Reading and writing -/

/-- **Integers of variable length are lossless.** -/
theorem readVarInt_writeVarInt (t : IntType) (n : Nat) (hbits : 0 < t.bits) (hn : n < t.range) :
    ∃ bytes, writeVarInt t n = some bytes ∧ bytes.length = getSizeOfVarInt n ∧
      (∀ rest, readVarInt t (bytes ++ rest) = some (n, rest)) ∧
      ∀ m ≤ n, ∃ shorter, writeVarInt t m = some shorter ∧ shorter.length ≤ bytes.length := by
  refine ⟨_, writeVarInt_eq hbits hn, length_putVarInt 0, fun rest => ?_, fun m hm => ?_⟩
  · obtain ⟨⟨init, last, heq, hinit, hlast⟩, hnumber⟩ := putVarInt_spec n
    rw [heq, encodedNumber] at hnumber
    rw [heq, append_assoc, readVarInt, singleton_append,
      readDigits_append hinit hlast (by rwa [hnumber]), hnumber]
  · refine ⟨_, writeVarInt_eq hbits (hm.trans_lt hn), ?_⟩
    rw [length_putVarInt, length_putVarInt]
    exact getSizeOfVarInt_mono hm

theorem readVarInt_writeVarInt_int : getSizeOfVarInt 70000 = 3 ∧
    ∃ bytes, writeVarInt ⟨32, true⟩ 70000 = some bytes ∧ bytes.length = getSizeOfVarInt 70000 ∧
      (∀ rest, readVarInt ⟨32, true⟩ (bytes ++ rest) = some (70000, rest)) ∧
      ∀ m ≤ 70000, ∃ shorter, writeVarInt ⟨32, true⟩ m = some shorter ∧
        shorter.length ≤ bytes.length :=
  ⟨by simp [getSizeOfVarInt], readVarInt_writeVarInt ⟨32, true⟩ 70000 (by decide) (by decide)⟩

/--
**What was read is the encoding of the value exactly if the number it stands for fits.**

The reader sets no limit to the digits and drops those that it shifts out.
-/
theorem writeVarInt_readVarInt_iff (bits : Nat) (hbits : 0 < bits) (bytes rest : List UInt8)
    (n : Nat) (h : readVarInt ⟨bits, false⟩ bytes = some (n, rest)) :
    ∃ consumed, bytes = consumed ++ rest ∧
      (writeVarInt ⟨bits, false⟩ n = some consumed ↔ encodedNumber consumed < 2 ^ bits) := by
  obtain ⟨consumed, rfl, hconsumed⟩ := isEncoding_of_readDigits h
  rw [readVarInt, readDigits_unsigned, hconsumed.getVarInt_append, some.injEq] at h
  obtain rfl := (Prod.mk.inj h).1
  have hlt : encodedNumber consumed % 2 ^ bits < 2 ^ bits := Nat.mod_lt _ (Nat.two_pow_pos bits)
  refine ⟨consumed, rfl, ?_⟩
  rw [writeVarInt_eq (t := ⟨bits, false⟩) hbits hlt, some.injEq]
  constructor
  · intro heq
    have hnumber := (putVarInt_spec (encodedNumber consumed % 2 ^ bits)).2
    rw [heq] at hnumber
    rwa [hnumber]
  · intro hfits
    rw [Nat.mod_eq_of_lt hfits, hconsumed.putVarInt_eq]

theorem writeVarInt_readVarInt_uint32 : readVarInt ⟨32, false⟩ [0x80, 0x00] = some (128, []) ∧
    ∃ consumed, [0x80, 0x00] = consumed ++ [] ∧
      (writeVarInt ⟨32, false⟩ 128 = some consumed ↔ encodedNumber consumed < 2 ^ 32) :=
  ⟨by decide, writeVarInt_readVarInt_iff 32 (by decide) [0x80, 0x00] [] 128 (by decide)⟩

/-- The encoding that `serialize.h` gives for 2^32 is read as 0, which has another one. -/
theorem readVarInt_wraps :
    readVarInt ⟨32, false⟩ [0x8e, 0xfe, 0xfe, 0xff, 0x00] = some (0, []) ∧
      writeVarInt ⟨32, false⟩ 0 = some [0x00] := by
  decide +kernel

end Absolute
