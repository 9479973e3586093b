/-
The compact form of targets, and the work of a block.

`cut x` is the number of low bytes that the compact form of `x` drops.  It is the least `k` for which
`x / 256 ^ k` fits the 23 bits of the mantissa, and all facts about the format follow from that.
The division loop is proved against the division of natural numbers by induction on the shift.
-/
import AbsoluteCore.Consensus.ArithUint256

namespace Absolute

namespace ArithUint256

variable {x y k s n w : Nat}

/-! ### Bits and bytes -/

theorem topBit_eq_size (hpos : 0 < w) (hlt : w < 2 ^ (n + 1)) : topBit w n = w.size := by
  induction n with
  | zero =>
    obtain rfl : w = 1 := by omega
    rfl
  | succ n ih =>
    rw [topBit, Nat.testBit_eq_decide_div_mod_eq]
    rcases Nat.lt_or_ge w (2 ^ (n + 1)) with hlow | hhigh
    · rw [Nat.div_eq_of_lt hlow]
      exact ih hlow
    · have hone : w / 2 ^ (n + 1) = 1 :=
        Nat.div_eq_of_lt_le (by omega) (by rw [pow_succ] at hlt; omega)
      rw [hone]
      exact le_antisymm (Nat.lt_size.mpr hhigh) (Nat.size_le.mpr hlt)

theorem bitsBelow_eq_size (hlt : x < 2 ^ (32 * n)) : bitsBelow x n = x.size := by
  induction n with
  | zero =>
    obtain rfl : x = 0 := by omega
    rfl
  | succ n ih =>
    rw [Nat.mul_succ, pow_add, mul_comm] at hlt
    have hword : x / 2 ^ (32 * n) < 2 ^ 32 := Nat.div_lt_of_lt_mul (by rwa [mul_comm])
    simp only [bitsBelow, Nat.mod_eq_of_lt hword]
    split_ifs with hw
    · rw [topBit_eq_size (Nat.pos_of_ne_zero hw) hword]
      have hsize : ∀ m, x.size ≤ 32 * n + m ↔ (x / 2 ^ (32 * n)).size ≤ m := fun m => by
        rw [Nat.size_le, Nat.size_le, Nat.div_lt_iff_lt_mul (Nat.two_pow_pos _), pow_add, mul_comm]
      have hlow : 32 * n ≤ x.size := (Nat.lt_size.mpr
        ((Nat.div_pos_iff.mp (Nat.pos_of_ne_zero hw)).2)).le
      refine le_antisymm ?_ ((hsize _).mpr le_rfl)
      have := (hsize (x.size - 32 * n)).mp (by omega)
      omega
    · exact ih ((Nat.div_eq_zero_iff_lt (Nat.two_pow_pos _)).mp (not_not.mp hw))

theorem bits_eq_size (hlt : x < 2 ^ 256) : bits x = x.size := bitsBelow_eq_size hlt

/-! ### Division -/

/-- What is left of the numerator is below the divisor at the place where the loop stands. -/
theorem divLoop_eq {num div q : Nat} (hnum : num < div * 2 ^ k) (hq : 2 ^ k ∣ q) :
    divLoop k num (div * 2 ^ k / 2) q = q + num / div := by
  induction k generalizing num q with
  | zero => rw [divLoop, Nat.div_eq_of_lt (by simpa using hnum), add_zero]
  | succ k ih =>
    have hdiv : 0 < div := Nat.pos_of_mul_pos_right (Nat.zero_lt_of_lt hnum)
    rw [pow_succ, ← mul_assoc] at hnum
    rw [divLoop, pow_succ, ← mul_assoc, Nat.mul_div_cancel _ two_pos]
    split_ifs with hle
    · have hbit : q ||| 2 ^ k = q + 2 ^ k := by
        obtain ⟨r, rfl⟩ := hq
        exact (Nat.two_pow_add_eq_or_of_lt (Nat.pow_lt_pow_succ one_lt_two) r).symm
      have hdvd : 2 ^ k ∣ q := (pow_dvd_pow 2 k.le_succ).trans hq
      rw [hbit, ih (by omega) (hdvd.add dvd_rfl), Nat.sub_mul_div, add_assoc,
        Nat.add_sub_cancel' ((Nat.le_div_iff_mul_le hdiv).mpr (by rwa [mul_comm]))]
    · exact ih (by omega) ((pow_dvd_pow 2 k.le_succ).trans hq)

theorem div_eq (hx : x < 2 ^ 256) (hpos : 0 < y) (hy : y < 2 ^ 256) : div x y = .ok (x / y) := by
  rw [div, bits_eq_size hx, bits_eq_size hy, if_neg (Nat.size_pos.mpr hpos).ne']
  split_ifs with hlt
  · rw [Nat.div_eq_of_lt ((Nat.lt_size_self x).trans_le (Nat.lt_size.mp hlt))]
  obtain ⟨d, hd⟩ := Nat.exists_eq_add_of_le (Nat.not_lt.mp hlt)
  obtain ⟨m, hm⟩ := Nat.exists_eq_add_one.mpr (Nat.size_pos.mpr hpos)
  have hshift : y * 2 ^ d < 2 ^ 256 := by
    calc y * 2 ^ d < 2 ^ y.size * 2 ^ d :=
        Nat.mul_lt_mul_of_pos_right (Nat.lt_size_self y) (Nat.two_pow_pos d)
      _ = 2 ^ x.size := by rw [← pow_add, hd]
      _ ≤ 2 ^ 256 := Nat.pow_le_pow_right two_pos (Nat.size_le.mpr hx)
  have hnum : x < y * 2 ^ (d + 1) := by
    calc x < 2 ^ x.size := Nat.lt_size_self x
      _ = 2 ^ m * 2 ^ (d + 1) := by rw [← pow_add, hd, hm, add_right_comm, add_assoc]
      _ ≤ y * 2 ^ (d + 1) := Nat.mul_le_mul_right _ (Nat.lt_size.mp (hm ▸ m.lt_succ_self))
  have hloop := divLoop_eq hnum (dvd_zero _)
  rw [pow_succ, ← mul_assoc, Nat.mul_div_cancel _ two_pos, zero_add] at hloop
  dsimp only
  rw [hd, Nat.add_sub_cancel_left, Nat.shiftLeft_eq, Nat.mod_eq_of_lt hshift, hloop]

/-! ### The compact form -/

/-- The compact form of `x` keeps all but `k` bytes. -/
structure IsCut (x k : Nat) : Prop where
  fits : x < 2 ^ 23 * 256 ^ k
  least : ∀ e < k, 2 ^ 23 * 256 ^ e ≤ x

theorem IsCut.le_of_fits (h : IsCut x k) {e : Nat} (he : x < 2 ^ 23 * 256 ^ e) : k ≤ e :=
  Nat.le_of_not_lt fun hlt => absurd (h.least e hlt) (Nat.not_le.mpr he)

theorem lt_byteSize_iff (hlt : x < 2 ^ 256) : k < (bits x + 7) / 8 ↔ 256 ^ k ≤ x := by
  rw [bits_eq_size hlt, show 256 = 2 ^ 8 by rfl, ← pow_mul, ← Nat.lt_size]
  omega

theorem two_pow_eight_mul (e : Nat) : 2 ^ (8 * e) = 256 ^ e := pow_mul 2 8 e

theorem leadingBytes_eq (hx : x < 256 ^ s) : leadingBytes x s < 2 ^ 24 ∧
    leadingBytes x s = if s ≤ 3 then x * 256 ^ (3 - s) else x / 256 ^ (s - 3) := by
  rw [leadingBytes, two_pow_eight_mul, Nat.shiftLeft_eq, two_pow_eight_mul, getLow64, getLow64]
  split_ifs with h3
  · have hlow : x * 256 ^ (3 - s) < 256 ^ 3 := by
      calc x * 256 ^ (3 - s) < 256 ^ s * 256 ^ (3 - s) :=
          Nat.mul_lt_mul_of_pos_right hx (Nat.pow_pos (by decide))
        _ = 256 ^ 3 := by rw [← pow_add, Nat.add_sub_cancel' h3]
    have hx3 : x < 256 ^ 3 := hx.trans_le (Nat.pow_le_pow_right (by decide) h3)
    rw [Nat.mod_eq_of_lt (by omega : x < 2 ^ 64), Nat.mod_eq_of_lt (by omega)]
    exact ⟨hlow, rfl⟩
  · have hhigh : x / 256 ^ (s - 3) < 256 ^ 3 := by
      refine Nat.div_lt_of_lt_mul ?_
      rwa [← pow_add, Nat.sub_add_cancel (by omega)]
    rw [Nat.mod_eq_of_lt (by omega : _ < 2 ^ 64), Nat.mod_eq_of_lt (by omega)]
    exact ⟨hhigh, rfl⟩

theorem packCompact_eq (hw : w < 2 ^ 23) (hs : s < 256) :
    packCompact w s false = .ok (s * 2 ^ 24 + w) := by
  have hpack : s <<< 24 ||| w = s * 2 ^ 24 + w := by
    rw [Nat.shiftLeft_eq, mul_comm, Nat.two_pow_add_eq_or_of_lt (hw.trans (by decide))]
  rw [packCompact, assertThat, if_pos (Nat.div_eq_of_lt hw), assertThat, if_pos hs]
  simp only [hpack, Bool.false_eq_true, false_and, if_false, Nat.or_zero]
  rfl

/-- What `getCompact` packs: a size and a mantissa without leading zero byte or sign. -/
theorem getCompact_spec (hlt : x < 2 ^ 256) : ∃ k nSize nWord, IsCut x k ∧
    getCompact x false = .ok (nSize * 2 ^ 24 + nWord) ∧ nWord < 2 ^ 23 ∧ (x ≠ 0 → 2 ^ 15 ≤ nWord) ∧
    (nSize ≤ 3 ∧ k = 0 ∧ nWord = x * 256 ^ (3 - nSize) ∨
      0 < k ∧ nSize = k + 3 ∧ nWord = x / 256 ^ k) := by
  have hx := not_le.mp (mt (lt_byteSize_iff hlt).mpr (lt_irrefl _))
  have hlow := fun k => (lt_byteSize_iff (k := k) hlt).mp
  have hsize : (bits x + 7) / 8 ≤ 32 := by
    rw [bits_eq_size hlt]
    have := Nat.size_le.mpr hlt
    omega
  rw [getCompact]
  generalize (bits x + 7) / 8 = s at *
  obtain ⟨h24, hbytes⟩ := leadingBytes_eq hx
  rw [Nat.testBit_eq_decide_div_mod_eq]
  generalize leadingBytes x s = m at *
  by_cases h23 : m < 2 ^ 23
  · rw [Nat.div_eq_of_lt h23, if_neg (by decide), packCompact_eq h23 (by omega)]
    split_ifs at hbytes with h3
    · refine ⟨0, s, m, ⟨?_, by simp⟩, rfl, h23, ?_, .inl ⟨h3, rfl, hbytes⟩⟩
      · have := Nat.le_mul_of_pos_right x (Nat.pow_pos (n := 3 - s) (show 0 < 256 by decide))
        omega
      · intro hne
        have h0 := hlow 0
        have h1 := hlow 1
        have h2 := hlow 2
        interval_cases s <;> omega
    · have hdiv := fun a => Nat.le_div_iff_mul_le (x := a) (y := x) (Nat.pow_pos (n := s - 3)
        (show 0 < 256 by decide))
      refine ⟨s - 3, s, m, ⟨?_, fun e he => ?_⟩, rfl, h23, fun _ => ?_,
        .inr ⟨by omega, by omega, hbytes⟩⟩
      · exact Nat.lt_of_not_le fun h => absurd ((hdiv _).mpr h) (by omega)
      · refine le_trans ?_ (hlow (e + 3) (by omega))
        rw [pow_add, mul_comm]
        exact Nat.mul_le_mul_left _ (by decide)
      · rw [hbytes, hdiv]
        refine le_trans ?_ (hlow (2 + (s - 3)) (by omega))
        rw [pow_add]
        exact Nat.mul_le_mul_right _ (by decide)
  · have hone : m / 2 ^ 23 % 2 = 1 := by omega
    rw [hone, if_pos (by decide), packCompact_eq (by omega) (by omega)]
    split_ifs at hbytes with h3
    · rcases Nat.lt_or_eq_of_le h3 with hlt3 | rfl
      · refine ⟨0, s + 1, m / 2 ^ 8, ⟨?_, by simp⟩, rfl, by omega, fun _ => by omega,
          .inl ⟨by omega, rfl, ?_⟩⟩ <;> interval_cases s <;> omega
      · exact ⟨1, 4, m / 2 ^ 8, ⟨by omega, fun e he => by interval_cases e; omega⟩, rfl,
          by omega, fun _ => by omega, .inr ⟨one_pos, rfl, by omega⟩⟩
    · refine ⟨s - 2, s + 1, m / 2 ^ 8, ⟨?_, fun e he => ?_⟩, rfl, by omega, fun _ => by omega,
        .inr ⟨by omega, by omega, ?_⟩⟩
      · refine hx.trans_le ?_
        obtain ⟨d, rfl⟩ := Nat.exists_eq_add_of_le (show 2 ≤ s by omega)
        rw [pow_add, Nat.add_sub_cancel_left]
        exact Nat.mul_le_mul_right _ (by decide)
      · have hle := (Nat.le_div_iff_mul_le (Nat.pow_pos (n := s - 3) (show 0 < 256 by decide))).mp
          (hbytes ▸ Nat.not_lt.mp h23)
        exact le_trans (Nat.mul_le_mul_left _ (Nat.pow_le_pow_right (by decide) (by omega))) hle
      · rw [hbytes, Nat.div_div_eq_div_mul, show s - 2 = s - 3 + 1 by omega]
        rfl

theorem setCompact_pack (nSize : Nat) {nWord : Nat} (hword : nWord < 2 ^ 23) :
    let nCompact := nSize * 2 ^ 24 + nWord
    nCompact / 2 ^ 24 = nSize ∧ nCompact % 2 ^ 23 = nWord ∧ nCompact.testBit 23 = false := by
  intro nCompact
  rw [Nat.testBit_eq_decide_div_mod_eq, decide_eq_false_iff_not]
  omega

/-- An encoding with the least size, and no bits that the decoding would drop. -/
structure Canonical (nCompact : Nat) : Prop where
  sign : nCompact.testBit 23 = false
  leading : 2 ^ 15 ≤ nCompact % 2 ^ 23
  dropped : 256 ^ (3 - nCompact / 2 ^ 24) ∣ nCompact % 2 ^ 23

theorem setCompact_getCompact (hlt : x < 2 ^ 256) : ∃ k nCompact, IsCut x k ∧
    getCompact x false = .ok nCompact ∧
    setCompact nCompact = ⟨x / 256 ^ k * 256 ^ k, false, false⟩ ∧ (x ≠ 0 → Canonical nCompact) := by
  obtain ⟨k, nSize, nWord, hcut, hget, hword, hlead, hsize⟩ := getCompact_spec hlt
  obtain ⟨h24, h23, hsign⟩ := setCompact_pack nSize hword
  refine ⟨k, _, hcut, hget, ?_, fun hne => ⟨hsign, h23.symm ▸ hlead hne, ?_⟩⟩
  · simp only [setCompact, h24, h23, hsign, two_pow_eight_mul, Nat.shiftLeft_eq,
      Bool.false_eq_true, and_false, decide_false, Target.mk.injEq, true_and,
      decide_eq_false_iff_not]
    rcases hsize with ⟨h3, rfl, rfl⟩ | ⟨hk, rfl, rfl⟩
    · rw [if_pos h3, if_pos h3, Nat.mul_div_cancel _ (Nat.pow_pos (by decide)), pow_zero,
        Nat.div_one, mul_one]
      omega
    · have hk30 : k ≤ 30 := hcut.le_of_fits (hlt.trans (by norm_num))
      have htop : k = 30 → x / 256 ^ k < 2 ^ 16 := by
        rintro rfl
        exact Nat.div_lt_of_lt_mul (hlt.trans_eq (by norm_num))
      have h3 : ¬ k + 3 ≤ 3 := by omega
      rw [if_neg h3, if_neg h3, Nat.add_sub_cancel,
        Nat.mod_eq_of_lt ((Nat.div_mul_le_self _ _).trans_lt hlt)]
      omega
  · rw [h24, h23]
    rcases hsize with ⟨h3, rfl, rfl⟩ | ⟨hk, rfl, rfl⟩
    · exact dvd_mul_left _ _
    · simp

/-- All bytes but the three leading ones cleared, or all but two where the first is 0x80 or more. -/
def cleared (x : Nat) : Nat :=
  let s := (Nat.digits 256 x).length
  let k := s - if x / 256 ^ (s - 1) < 0x80 then 3 else 2
  x / 256 ^ k * 256 ^ k

theorem cleared_eq (h : IsCut x k) : cleared x = x / 256 ^ k * 256 ^ k := by
  have hs := (Nat.digits_length_le_iff (b := 256) (by decide) x).mp le_rfl
  have hlow := fun e => (Nat.lt_digits_length_iff (b := 256) (k := e) (by decide) x).mp
  rw [cleared]
  generalize (Nat.digits 256 x).length = s at *
  have hmono : ∀ {a b}, a ≤ b → 256 ^ a ≤ 256 ^ b := Nat.pow_le_pow_right (by decide)
  have hlead := Nat.div_lt_iff_lt_mul (x := x) (y := 0x80) (Nat.pow_pos (n := s - 1)
    (show 0 < 256 by decide))
  suffices hk : (s - if x / 256 ^ (s - 1) < 0x80 then 3 else 2) = k by rw [hk]
  have hfits := h.fits
  refine le_antisymm (Nat.le_of_not_lt fun hlt => ?_) (h.le_of_fits ?_)
  · split_ifs at hlt with hfirst
    · have := hlow (k + 3) (by omega)
      rw [pow_add] at this
      omega
    · have hle := (not_lt.mp (hlead.not.mp hfirst))
      have := hmono (show k + 2 ≤ s - 1 by omega)
      rw [pow_add] at this
      omega
  · split_ifs with hfirst
    · have := hmono (show s - 1 ≤ s - 3 + 2 by omega)
      rw [pow_add] at this
      have := hlead.mp hfirst
      omega
    · have := hmono (show s ≤ s - 2 + 2 by omega)
      rw [pow_add] at this
      omega

/-- Where the greater number loses more bytes, it is over a number that loses none of them. -/
theorem cleared_mono (h : x ≤ y) (hx : IsCut x k) (hy : IsCut y n) : cleared x ≤ cleared y := by
  rw [cleared_eq hx, cleared_eq hy]
  rcases lt_or_ge k n with hlt | hge
  · obtain ⟨m, rfl⟩ := Nat.exists_eq_add_one.mpr (Nat.zero_lt_of_lt hlt)
    have hround : 2 ^ 23 * 256 ^ m = 2 ^ 15 * 256 ^ (m + 1) := by ring
    calc x / 256 ^ k * 256 ^ k ≤ x := Nat.div_mul_le_self _ _
      _ ≤ 2 ^ 23 * 256 ^ k := hx.fits.le
      _ ≤ 2 ^ 23 * 256 ^ m :=
        Nat.mul_le_mul_left _ (Nat.pow_le_pow_right (by decide) (Nat.le_of_lt_succ hlt))
      _ ≤ y / 256 ^ (m + 1) * 256 ^ (m + 1) := by
        rw [hround]
        refine Nat.mul_le_mul_right _ ((Nat.le_div_iff_mul_le (Nat.pow_pos (by decide))).mpr ?_)
        exact hround ▸ hy.least m m.lt_succ_self
  · obtain rfl : k = n := le_antisymm (hx.le_of_fits (h.trans_lt hy.fits)) hge
    exact Nat.mul_le_mul_right _ (Nat.div_le_div_right h)

theorem exists_mantissa (h : (setCompact n).fOverflow = false) :
    ∃ w e, w < 2 ^ 23 ∧ (setCompact n).value = w * 256 ^ e ∧ w * 256 ^ e < 2 ^ 256 := by
  have hword : n % 2 ^ 23 < 2 ^ 23 := Nat.mod_lt _ (by decide)
  simp only [setCompact, two_pow_eight_mul, Nat.shiftLeft_eq, decide_eq_false_iff_not] at h ⊢
  generalize n / 2 ^ 24 = nSize at *
  generalize n % 2 ^ 23 = w at *
  split_ifs at h ⊢ with h3
  · have hle := Nat.div_le_self w (256 ^ (3 - nSize))
    exact ⟨_, 0, by omega, (mul_one _).symm, by omega⟩
  · have hbound : w * 256 ^ (nSize - 3) < 2 ^ 256 := by
      have hle : ∀ {a b}, w ≤ a → nSize - 3 ≤ b → w * 256 ^ (nSize - 3) ≤ a * 256 ^ b :=
        fun ha hb => Nat.mul_le_mul ha (Nat.pow_le_pow_right (by decide) hb)
      by_cases h32 : nSize ≤ 32
      · exact (hle hword.le (show _ ≤ 29 by omega)).trans_lt (by norm_num)
      by_cases h33 : nSize ≤ 33
      · exact (hle (show w ≤ 0xffff by omega) (show _ ≤ 30 by omega)).trans_lt (by norm_num)
      by_cases hzero : w = 0
      · simp [hzero]
      · exact (hle (show w ≤ 0xff by omega) (show _ ≤ 31 by omega)).trans_lt (by norm_num)
    exact ⟨w, nSize - 3, hword, Nat.mod_eq_of_lt hbound, hbound⟩

/-- The compact form rounds down to its leading bytes, and is exact on what it decodes to. -/
theorem compact_roundTrip :
    (∀ x < 2 ^ 256, cleared x ≤ x ∧ ∃ nCompact, getCompact x false = .ok nCompact ∧
      setCompact nCompact = ⟨cleared x, false, false⟩) ∧
    (∀ x y, x ≤ y → y < 2 ^ 256 → cleared x ≤ cleared y) ∧
    ∀ n v, setCompact n = ⟨v, false, false⟩ → v ≠ 0 → ∃ nCompact, getCompact v false = .ok nCompact ∧
      Canonical nCompact ∧ setCompact nCompact = ⟨v, false, false⟩ := by
  refine ⟨fun x hx => ?_, fun x y hle hy => ?_, fun n v hn hne => ?_⟩
  · obtain ⟨k, nCompact, hcut, hget, hset, -⟩ := setCompact_getCompact hx
    rw [cleared_eq hcut]
    exact ⟨Nat.div_mul_le_self _ _, nCompact, hget, hset⟩
  · obtain ⟨k, -, hxcut, -⟩ := setCompact_getCompact (hle.trans_lt hy)
    obtain ⟨l, -, hycut, -⟩ := setCompact_getCompact hy
    exact cleared_mono hle hxcut hycut
  · obtain ⟨w, e, hw, hvalue, hlt⟩ := exists_mantissa (n := n) (by rw [hn])
    rw [hn] at hvalue
    obtain rfl : v = w * 256 ^ e := hvalue
    obtain ⟨k, nCompact, hcut, hget, hset, hcanonical⟩ := setCompact_getCompact hlt
    have hdvd : 256 ^ k ∣ w * 256 ^ e :=
      (pow_dvd_pow 256 (hcut.le_of_fits
        (Nat.mul_lt_mul_of_pos_right hw (Nat.pow_pos (by decide))))).mul_left w
    rw [Nat.div_mul_cancel hdvd] at hset
    exact ⟨nCompact, hget, hcanonical hne, hset⟩

end ArithUint256

/-! ### The work of a block -/

open ArithUint256 Nat

/-- The `nBits` decode to a target, which is positive. -/
def HasTarget (nBits t : Nat) : Prop := setCompact nBits = ⟨t, false, false⟩ ∧ t ≠ 0

variable {nBits t : Nat}

theorem HasTarget.succ_lt (h : HasTarget nBits t) : t + 1 < 2 ^ 256 := by
  obtain ⟨w, e, hw, hvalue, hlt⟩ := exists_mantissa (n := nBits) (by rw [h.1])
  rw [h.1] at hvalue
  obtain rfl : t = w * 256 ^ e := hvalue
  cases e with
  | zero => omega
  | succ e =>
    have hdvd : w * 256 ^ (e + 1) % 256 = 0 := mod_eq_zero_of_dvd ⟨w * 256 ^ e, by ring⟩
    omega

theorem getBlockProof_eq (h : HasTarget nBits t) : getBlockProof nBits = .ok (2 ^ 256 / (t + 1)) := by
  have hlt := h.succ_lt
  have hquot : (2 ^ 256 - 1 - t) / (t + 1) + 1 = 2 ^ 256 / (t + 1) := by
    rw [← add_div_right _ t.succ_pos]
    congr 1
    omega
  have hsmall : 2 ^ 256 / (t + 1) < 2 ^ 256 :=
    Nat.div_lt_self (Nat.two_pow_pos 256) (Nat.succ_lt_succ (Nat.pos_of_ne_zero h.2))
  rw [getBlockProof, h.1]
  simp only [Bool.false_eq_true, false_or, h.2, if_false, mod_eq_of_lt hlt]
  rw [div_eq (by omega) t.succ_pos hlt]
  show Except.ok (((2 ^ 256 - 1 - t) / (t + 1) + 1) % 2 ^ 256) = _
  rw [hquot, mod_eq_of_lt hsmall]

theorem exists_nChainWork {chain : List Nat} (h : ∀ b ∈ chain, ∃ t, HasTarget b t) :
    ∃ w, nChainWork chain = .ok w := by
  induction chain with
  | nil => exact ⟨0, rfl⟩
  | cons b chain ih =>
    obtain ⟨w, hw⟩ := ih fun b' hb' => h b' (List.mem_cons_of_mem _ hb')
    obtain ⟨t, ht⟩ := h b List.mem_cons_self
    rw [nChainWork, hw, getBlockProof_eq ht]
    exact ⟨_, rfl⟩

/-- The complement trick gives the exact quotient.  Work does not grow with the target, and the work of
a chain grows with each block. -/
theorem getBlockProof_spec :
    (∀ nBits t, HasTarget nBits t →
      getBlockProof nBits = .ok (2 ^ 256 / (t + 1)) ∧ 1 ≤ 2 ^ 256 / (t + 1)) ∧
    (∀ nBits nBits' t t' proof proof', HasTarget nBits t → HasTarget nBits' t' → t ≤ t' →
      getBlockProof nBits = .ok proof → getBlockProof nBits' = .ok proof' → proof' ≤ proof) ∧
    ∀ nBits chain, (∀ b ∈ nBits :: chain, ∃ t, HasTarget b t) →
      ∃ w proof, nChainWork chain = .ok w ∧ getBlockProof nBits = .ok proof ∧
        (w + proof < 2 ^ 256 → ∃ w', nChainWork (nBits :: chain) = .ok w' ∧ w < w') := by
  have hone : ∀ {nBits t}, HasTarget nBits t → 1 ≤ 2 ^ 256 / (t + 1) := fun h =>
    div_pos h.succ_lt.le (succ_pos _)
  refine ⟨fun nBits t h => ⟨getBlockProof_eq h, hone h⟩, ?_, fun nBits chain h => ?_⟩
  · intro nBits nBits' t t' proof proof' ht ht' hle hproof hproof'
    obtain rfl := Except.ok.inj ((getBlockProof_eq ht).symm.trans hproof)
    obtain rfl := Except.ok.inj ((getBlockProof_eq ht').symm.trans hproof')
    exact div_le_div_left (succ_le_succ hle) t.succ_pos
  · obtain ⟨t, ht⟩ := h nBits List.mem_cons_self
    obtain ⟨w, hw⟩ := exists_nChainWork fun b hb => h b (List.mem_cons_of_mem _ hb)
    have hnext : nChainWork (nBits :: chain) = .ok ((w + 2 ^ 256 / (t + 1)) % 2 ^ 256) := by
      rw [nChainWork, hw, getBlockProof_eq ht]
      rfl
    refine ⟨w, _, hw, getBlockProof_eq ht, fun hsum => ⟨_, hnext, ?_⟩⟩
    have := hone ht
    omega

end Absolute
