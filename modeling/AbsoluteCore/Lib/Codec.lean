/-
Byte formats that can be written and read back.

A codec is a writer and a reader together with the values the format can hold; that
reading undoes writing, with any bytes behind, is a field of the structure.  Formats are
put together from smaller ones, so their round trips come with them.
-/
import Mathlib

/-- A writer, a reader, and the values for which the second undoes the first. -/
structure Codec (α : Type) where
  put : α → List UInt8
  get : List UInt8 → Option (α × List UInt8)
  Valid : α → Prop
  get_put : ∀ (a : α) (rest : List UInt8), Valid a → get (put a ++ rest) = some (a, rest)

namespace Codec

open List Option UInt8 Nat

variable {α β : Type} (limit width : Nat) (c : Codec α) (n : Nat) {rest : List UInt8}

/-! ### Combinators -/

/-- A format for values that are represented by the values of another one. -/
def iso (f : β → α) (g : α → β) (P : β → Prop)
    (h : ∀ b, P b → c.Valid (f b) ∧ g (f b) = b) : Codec β where
  put b := c.put (f b)
  get bs := (c.get bs).map fun p => (g p.1, p.2)
  Valid := P
  get_put := by
    intro b rest hb
    rw [c.get_put _ rest (h b hb).1]
    simp [(h b hb).2]

/-- One value after the other. -/
def prod (d : Codec β) : Codec (α × β) where
  put p := c.put p.1 ++ d.put p.2
  get bs := do
    let (a, bs) ← c.get bs
    let (b, bs) ← d.get bs
    return ((a, b), bs)
  Valid p := c.Valid p.1 ∧ d.Valid p.2
  get_put := by
    rintro ⟨a, b⟩ rest ⟨ha, hb⟩
    simp [c.get_put a _ ha, d.get_put b _ hb]

theorem exists_of_prod_get {d : Codec β} {bs : List UInt8} {p : α × β}
    (h : (c.prod d).get bs = some (p, rest)) :
    ∃ mid, c.get bs = some (p.1, mid) ∧ d.get mid = some (p.2, rest) := by
  obtain ⟨⟨a, mid⟩, hfirst, h⟩ := bind_eq_some_iff.mp h
  obtain ⟨⟨b, _⟩, hsecond, h⟩ := bind_eq_some_iff.mp h
  obtain ⟨rfl, rfl⟩ := Prod.mk.inj (some.inj h)
  exact ⟨mid, hfirst, hsecond⟩

/-- A value is determined by its bytes. -/
theorem put_inj {a b : α} (ha : c.Valid a) (hb : c.Valid b) (h : c.put a = c.put b) : a = b := by
  have hget := c.get_put a [] ha
  rw [h, c.get_put b [] hb] at hget
  exact (Prod.mk.inj (some.inj hget)).1.symm

def getMany (c : Codec α) : Nat → List UInt8 → Option (List α × List UInt8)
  | 0, bs => some ([], bs)
  | n + 1, bs => do
    let (a, bs) ← c.get bs
    let (as, bs) ← getMany c n bs
    return (a :: as, bs)

theorem getMany_put (as : List α) (rest) (h : ∀ a ∈ as, c.Valid a) :
    getMany c as.length (as.flatMap c.put ++ rest) = some (as, rest) := by
  induction as with
  | nil => rfl
  | cons a as ih =>
    have ha : c.Valid a := h a mem_cons_self
    have has := ih fun x hx => h x (mem_cons_of_mem a hx)
    simp [getMany, c.get_put a _ ha, has]

/-- The number of values, in the format `size`, and then the values. -/
def vector (size : Codec Nat) (c : Codec α) : Codec (List α) where
  put as := size.put as.length ++ as.flatMap c.put
  get bs := do
    let (n, bs) ← size.get bs
    c.getMany n bs
  Valid as := size.Valid as.length ∧ ∀ a ∈ as, c.Valid a
  get_put := by
    intro as rest h
    rw [append_assoc, size.get_put _ _ h.1]
    exact c.getMany_put as rest h.2

/-! ### Numbers of a fixed width -/

def byte : Codec UInt8 where
  put b := [b]
  get
    | [] => none
    | b :: bs => some (b, bs)
  Valid _ := True
  get_put := by intro b rest _; rfl

def putLE : Nat → Nat → List UInt8
  | 0, _ => []
  | n + 1, a => UInt8.ofNat (a % 256) :: putLE n (a / 256)

def getLE : Nat → List UInt8 → Option (Nat × List UInt8)
  | 0, bs => some (0, bs)
  | _ + 1, [] => none
  | n + 1, b :: bs => (getLE n bs).map fun p => (b.toNat + 256 * p.1, p.2)

theorem toNat_ofNat_mod (a : Nat) : (UInt8.ofNat (a % 256)).toNat = a % 256 := by
  simp

theorem getLE_putLE (a : Nat) (rest) (ha : a < 256 ^ n) :
    getLE n (putLE n a ++ rest) = some (a, rest) := by
  induction n generalizing a with
  | zero =>
    have h0 : a = 0 := by simpa using ha
    rw [h0]
    rfl
  | succ n ih =>
    have hdiv : a / 256 < 256 ^ n := by
      rw [div_lt_iff_lt_mul (by decide)]
      simpa [pow_succ] using ha
    have hsum : a % 256 + 256 * (a / 256) = a := mod_add_div a 256
    simp only [putLE, cons_append, getLE, ih _ hdiv, map_some, toNat_ofNat_mod, hsum]

/-- `n` bytes, the lowest one first. -/
def uintLE : Codec Nat where
  put := putLE n
  get := getLE n
  Valid a := a < 256 ^ n
  get_put := fun a rest ha => getLE_putLE n a rest ha

def putBE : Nat → Nat → List UInt8
  | 0, _ => []
  | n + 1, a => UInt8.ofNat (a / 256 ^ n % 256) :: putBE n (a % 256 ^ n)

def getBE : Nat → Nat → List UInt8 → Option (Nat × List UInt8)
  | 0, acc, bs => some (acc, bs)
  | _ + 1, _, [] => none
  | n + 1, acc, b :: bs => getBE n (acc * 256 + b.toNat) bs

theorem getBE_putBE (acc a : Nat) (rest) (ha : a < 256 ^ n) :
    getBE n acc (putBE n a ++ rest) = some (acc * 256 ^ n + a, rest) := by
  induction n generalizing acc a with
  | zero =>
    have h0 : a = 0 := by simpa using ha
    simp [h0, putBE, getBE]
  | succ n ih =>
    have hpos : 0 < 256 ^ n := Nat.pow_pos (by decide)
    have hdiv : a / 256 ^ n < 256 := by
      rw [div_lt_iff_lt_mul hpos, mul_comm]
      simpa [pow_succ] using ha
    have hdigit : (ofNat (a / 256 ^ n % 256)).toNat = a / 256 ^ n := by
      rw [toNat_ofNat_mod, mod_eq_of_lt hdiv]
    simp only [putBE, cons_append, getBE, hdigit, ih _ _ (mod_lt a hpos)]
    have hsum : (acc * 256 + a / 256 ^ n) * 256 ^ n + a % 256 ^ n
        = acc * 256 ^ (n + 1) + a := by
      have hmod := div_add_mod' a (256 ^ n)
      calc (acc * 256 + a / 256 ^ n) * 256 ^ n + a % 256 ^ n
          = acc * 256 ^ (n + 1) + (a / 256 ^ n * 256 ^ n + a % 256 ^ n) := by ring
        _ = acc * 256 ^ (n + 1) + a := by rw [hmod]
    rw [hsum]

/-- `n` bytes, the highest one first. -/
def uintBE : Codec Nat where
  put := putBE n
  get := getBE n 0
  Valid a := a < 256 ^ n
  get_put := by
    intro a rest ha
    simpa using getBE_putBE n 0 a rest ha

/-- A signed number of 32 bits, in two's complement. -/
def int32 : Codec Int :=
  (uintLE 4).iso (fun i => (i % 2 ^ 32).toNat)
    (fun n => if n < 2 ^ 31 then (n : Int) else (n : Int) - 2 ^ 32)
    (fun i => -2 ^ 31 ≤ i ∧ i < 2 ^ 31) (by
      intro i hi
      refine ⟨?_, ?_⟩
      · show (i % 2 ^ 32).toNat < 256 ^ 4
        omega
      · split <;> omega)

/-! ### Numbers of a variable width -/

/-- A size below 253 is a byte; larger ones are marked by 253, 254 or 255 and their width. -/
def putCompactSize : List UInt8 :=
  if n < 253 then putLE 1 n
  else if n ≤ 0xffff then 253 :: putLE 2 n
  else if n ≤ 0xffffffff then 254 :: putLE 4 n
  else 255 :: putLE 8 n

/-- Refuses sizes above `limit` and sizes written wider than needed. -/
def getCompactSize : List UInt8 → Option (Nat × List UInt8)
  | [] => none
  | b :: bs =>
    let size : Option (Nat × List UInt8) :=
      if b < 253 then some (b.toNat, bs)
      else if b = 253 then (getLE 2 bs).filter fun p => 253 ≤ p.1
      else if b = 254 then (getLE 4 bs).filter fun p => 0x10000 ≤ p.1
      else (getLE 8 bs).filter fun p => 0x100000000 ≤ p.1
    size.filter fun p => p.1 ≤ limit

theorem getCompactSize_put (rest) (hn : n ≤ limit) (hw : n < 2 ^ 64) :
    getCompactSize limit (putCompactSize n ++ rest) = some (n, rest) := by
  unfold putCompactSize
  split
  · have hmod : n % 256 = n := by omega
    have hbyte : (ofNat n).toNat = n := by
      rw [← hmod, toNat_ofNat_mod, hmod]
    have hb : ofNat n < 253 := by
      rw [lt_iff_toNat_lt, hbyte]
      show n < 253
      omega
    simp only [putLE, cons_append, nil_append, getCompactSize, hmod, if_pos hb, hbyte]
    simp [hn]
  · split
    · have h2 : n < 256 ^ 2 := by omega
      have hmin : 253 ≤ n := by omega
      simp [getCompactSize, getLE_putLE 2 n rest h2, hn, hmin]
    · split
      · have h4 : n < 256 ^ 4 := by omega
        have hmin : 0x10000 ≤ n := by omega
        simp [getCompactSize, getLE_putLE 4 n rest h4, hn, hmin]
      · have h8 : n < 256 ^ 8 := by omega
        have hmin : 0x100000000 ≤ n := by omega
        simp [getCompactSize, getLE_putLE 8 n rest h8, hn, hmin]

/-- Sizes up to `limit`. -/
def compactSize : Codec Nat where
  put := putCompactSize
  get := getCompactSize limit
  Valid n := n ≤ limit ∧ n < 2 ^ 64
  get_put := fun n rest h => getCompactSize_put limit n rest h.1 h.2

/--
The digits of `n` to base 128, the highest one first, with one subtracted from all but the
last; `flag` is added to the last digit and 128 to the others.
-/
def putVarInt (flag n : Nat) : List UInt8 :=
  if n ≤ 0x7f then [UInt8.ofNat ((n + flag) % 256)]
  else putVarInt 0x80 (n / 128 - 1) ++ [UInt8.ofNat ((n % 128 + flag) % 256)]
termination_by n
decreasing_by omega

/-- Reads digits into a number of `width` bits until one has no flag. -/
def getVarInt (width : Nat) : Nat → List UInt8 → Option (Nat × List UInt8)
  | _, [] => none
  | n, b :: bs =>
    let n := (n * 128 + b.toNat % 128) % 2 ^ width
    if b.toNat < 128 then some (n, bs) else getVarInt width ((n + 1) % 2 ^ width) bs

/-- The digit that a byte adds to a number; one is added where another byte follows. -/
def addDigit (n : Nat) (b : UInt8) : Nat :=
  n * 128 + b.toNat % 128 + if b.toNat < 128 then 0 else 1

/-- The number that an encoding stands for. -/
def encodedNumber (bytes : List UInt8) : Nat := bytes.foldl addDigit 0

/-- All but the last byte have the flag. -/
def IsEncoding (bytes : List UInt8) : Prop :=
  ∃ init last, bytes = init ++ [last] ∧ (∀ b ∈ init, 128 ≤ b.toNat) ∧ last.toNat < 128

theorem foldl_addDigit_mod (r : Nat) (bytes : List UInt8) :
    bytes.foldl addDigit (n % r) % r = bytes.foldl addDigit n % r := by
  induction bytes generalizing n with
  | nil => exact mod_mod n r
  | cons b bytes ih =>
    have hstep : addDigit (n % r) b % r = addDigit n b % r := by
      simp [addDigit, add_mod, mul_mod]
    rw [foldl_cons, foldl_cons, ← ih, hstep, ih]

theorem getVarInt_append {init : List UInt8} (hinit : ∀ b ∈ init, 128 ≤ b.toNat) {last : UInt8}
    (hlast : last.toNat < 128) : getVarInt width n (init ++ last :: rest) =
      some ((init ++ [last]).foldl addDigit n % 2 ^ width, rest) := by
  induction init generalizing n with
  | nil => simp [getVarInt, addDigit, hlast]
  | cons b init ih =>
    have hb := Nat.not_lt.mpr (hinit b mem_cons_self)
    rw [cons_append, getVarInt]
    simp only [if_neg hb]
    rw [ih _ fun c hc => hinit c (mem_cons_of_mem b hc), mod_add_mod, foldl_addDigit_mod,
      cons_append, foldl_cons, addDigit, if_neg hb]

/-- The reader returns what the bytes stand for, as far as it has room. -/
theorem IsEncoding.getVarInt_append {bytes : List UInt8} (h : IsEncoding bytes) :
    getVarInt width 0 (bytes ++ rest) = some (encodedNumber bytes % 2 ^ width, rest) := by
  obtain ⟨init, last, rfl, hinit, hlast⟩ := h
  rw [append_assoc]
  exact Codec.getVarInt_append width 0 hinit hlast

/-- The bytes before the last one stand for the number without its last digit. -/
theorem exists_putVarInt (flag : Nat) : ∃ init,
    putVarInt flag n = init ++ [UInt8.ofNat ((n % 128 + flag) % 256)] ∧
      (∀ b ∈ init, 128 ≤ b.toNat) ∧ init.foldl addDigit 0 = n / 128 := by
  induction n using Nat.strong_induction_on generalizing flag with
  | _ n ih =>
    rw [putVarInt]
    split
    · have hlow : n % 128 = n := by omega
      have hzero : 0 = n / 128 := by omega
      rw [hlow]
      exact ⟨[], rfl, by simp, hzero⟩
    · obtain ⟨init, heq, hinit, hfold⟩ := ih (n / 128 - 1) (by omega) 0x80
      have hflag : 128 ≤ ((n / 128 - 1) % 128 + 0x80) % 256 := by omega
      rw [heq]
      refine ⟨_, rfl, ?_, ?_⟩
      · rw [forall_mem_append, forall_mem_singleton, toNat_ofNat_mod]
        exact ⟨hinit, hflag⟩
      · rw [foldl_append, hfold, foldl_cons, foldl_nil, addDigit, toNat_ofNat_mod,
          if_neg (Nat.not_lt.mpr hflag)]
        omega

theorem putVarInt_spec : IsEncoding (putVarInt 0 n) ∧ encodedNumber (putVarInt 0 n) = n := by
  obtain ⟨init, heq, hinit, hfold⟩ := exists_putVarInt n 0
  have hlast : (n % 128 + 0) % 256 < 128 := by omega
  refine ⟨⟨init, _, heq, hinit, by rwa [toNat_ofNat_mod]⟩, ?_⟩
  rw [encodedNumber, heq, foldl_append, hfold, foldl_cons, foldl_nil, addDigit, toNat_ofNat_mod,
    if_pos hlast]
  omega

/-- The digits are taken from a number exactly as they were added to it. -/
theorem putVarInt_foldl {init : List UInt8} (hinit : ∀ b ∈ init, 128 ≤ b.toNat) (last : UInt8) :
    putVarInt (last.toNat / 128 * 128) (init.foldl addDigit 0 * 128 + last.toNat % 128) =
      init ++ [last] := by
  have hlow : ∀ (k : Nat) (b : UInt8),
      UInt8.ofNat (((k * 128 + b.toNat % 128) % 128 + b.toNat / 128 * 128) % 256) = b := by
    intro k b
    have := b.toNat_lt
    apply UInt8.toNat_inj.mp
    rw [toNat_ofNat_mod]
    omega
  induction init using reverseRecOn generalizing last with
  | nil =>
    have hzero := hlow 0 last
    rw [Nat.zero_mul, Nat.zero_add, Nat.mod_mod] at hzero
    rw [foldl_nil, Nat.zero_mul, Nat.zero_add, putVarInt, if_pos (by omega), hzero]
    rfl
  | append_singleton init b ih =>
    have hb := hinit b (by simp)
    have hinit' := ih (fun c hc => hinit c (by simp [hc])) b
    have hflag : b.toNat / 128 * 128 = 0x80 := by
      have := b.toNat_lt
      omega
    rw [foldl_append, foldl_cons, foldl_nil, addDigit, if_neg (Nat.not_lt.mpr hb), putVarInt,
      if_neg (by omega), hlow]
    have hdiv : ((init.foldl addDigit 0 * 128 + b.toNat % 128 + 1) * 128 + last.toNat % 128) / 128
        - 1 = init.foldl addDigit 0 * 128 + b.toNat % 128 := by omega
    rw [hflag] at hinit'
    rw [hdiv, hinit']

theorem IsEncoding.putVarInt_eq {bytes : List UInt8} (h : IsEncoding bytes) :
    putVarInt 0 (encodedNumber bytes) = bytes := by
  obtain ⟨init, last, rfl, hinit, hlast⟩ := h
  have := putVarInt_foldl hinit last
  rw [Nat.div_eq_of_lt hlast] at this
  rw [encodedNumber, foldl_append, foldl_cons, foldl_nil, addDigit, if_pos hlast]
  exact this

theorem getVarInt_put (rest) (hn : n < 2 ^ width) :
    getVarInt width 0 (putVarInt 0 n ++ rest) = some (n, rest) := by
  obtain ⟨hencoding, hnumber⟩ := putVarInt_spec n
  rw [hencoding.getVarInt_append, hnumber, mod_eq_of_lt hn]

/-- Numbers of up to `width` bits. -/
def varInt : Codec Nat where
  put := putVarInt 0
  get := getVarInt width 0
  Valid n := n < 2 ^ width
  get_put := fun n rest h => getVarInt_put width n rest h

end Codec
