/-
The order of byte strings.

Byte strings are compared byte by byte from the left, so a common beginning does not matter, the
strings with one beginning stand together, and numbers of one width come in their own order where
the highest byte is written first.
-/
import AbsoluteCore.Lib.Codec

namespace ByteOrder

open List Std Codec Nat

theorem compare_cons (a b : UInt8) (l m : List UInt8) :
    compare (a :: l) (b :: m) = (compare a b).then (compare l m) :=
  List.compareLex_cons_cons

theorem compare_append_left (p l m : List UInt8) : compare (p ++ l) (p ++ m) = compare l m := by
  induction p with
  | nil => rfl
  | cons a p ih =>
    have hself : compare a a = .eq := ReflCmp.compare_self
    rw [cons_append, cons_append, compare_cons, hself, ih]
    rfl

theorem isPrefix_of_between {p lo k hi : List UInt8} (hlo : p <+: lo) (hhi : p <+: hi)
    (hge : compare lo k ≠ .gt) (hle : compare k hi ≠ .gt) : p <+: k := by
  induction p generalizing lo k hi with
  | nil => exact nil_prefix
  | cons a p ih =>
    obtain ⟨lo, rfl⟩ := hlo
    obtain ⟨hi, rfl⟩ := hhi
    cases k with
    | nil => exact absurd rfl hge
    | cons b k =>
      rw [cons_append, compare_cons] at hge hle
      have hab : compare a b = .eq := by
        cases hcmp : compare a b with
        | eq => rfl
        | gt => rw [hcmp] at hge; exact absurd rfl hge
        | lt =>
          rw [OrientedCmp.gt_iff_lt.mpr hcmp] at hle
          exact absurd rfl hle
      have hba : compare b a = .eq := by rw [OrientedCmp.eq_comm]; exact hab
      rw [hab] at hge
      rw [hba] at hle
      obtain rfl := LawfulEqCmp.eq_of_compare hab
      exact (prefix_cons_inj a).mpr
        (ih (prefix_append p lo) (prefix_append p hi) hge hle)

theorem compare_byte {x y : Nat} (hx : x < 256) (hy : y < 256) :
    compare (UInt8.ofNat x) (UInt8.ofNat y) = compare x y := by
  have hx' : (UInt8.ofNat x).toNat = x := by
    rw [← mod_eq_of_lt hx, toNat_ofNat_mod]
  have hy' : (UInt8.ofNat y).toNat = y := by
    rw [← mod_eq_of_lt hy, toNat_ofNat_mod]
  show compareOfLessAndEq _ _ = compareOfLessAndEq _ _
  simp only [compareOfLessAndEq, UInt8.lt_iff_toNat_lt, ← UInt8.toNat_inj, hx', hy']

theorem compare_congr {a b c d : Nat} (hlt : a < b ↔ c < d) (heq : a = b ↔ c = d) :
    compare a b = compare c d := by
  show compareOfLessAndEq _ _ = compareOfLessAndEq _ _
  simp only [compareOfLessAndEq, hlt, heq]

/-- Numbers whose highest byte is written first are in their own order. -/
theorem compare_putBE {n a b : Nat} (ha : a < 256 ^ n) (hb : b < 256 ^ n) :
    compare (putBE n a) (putBE n b) = compare a b := by
  induction n generalizing a b with
  | zero =>
    obtain rfl : a = 0 := by simpa using ha
    obtain rfl : b = 0 := by simpa using hb
    rfl
  | succ n ih =>
    have hpos : 0 < 256 ^ n := Nat.pow_pos (by decide)
    have hdiv : ∀ {c : Nat}, c < 256 ^ (n + 1) → c / 256 ^ n < 256 := by
      intro c hc
      rw [div_lt_iff_lt_mul hpos, mul_comm, ← pow_succ]
      exact hc
    rw [putBE, putBE, compare_cons, mod_eq_of_lt (hdiv ha),
      mod_eq_of_lt (hdiv hb), compare_byte (hdiv ha) (hdiv hb),
      ih (mod_lt a hpos) (mod_lt b hpos)]
    have hsumA := div_add_mod a (256 ^ n)
    have hsumB := div_add_mod b (256 ^ n)
    rcases Nat.lt_trichotomy (a / 256 ^ n) (b / 256 ^ n) with hlt | heq | hgt
    · have hab : a < b := lt_of_div_lt_div hlt
      rw [Nat.compare_eq_lt.mpr hlt, Nat.compare_eq_lt.mpr hab]
      rfl
    · rw [heq] at hsumA
      rw [heq, Nat.compare_eq_eq.mpr rfl]
      exact compare_congr (by omega) (by omega)
    · have hab : b < a := Nat.lt_of_div_lt_div hgt
      rw [compare_eq_gt.mpr hgt, compare_eq_gt.mpr hab]
      rfl

end ByteOrder
