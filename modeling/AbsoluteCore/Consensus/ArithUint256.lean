/-
256-bit numbers, compact targets and the work of a block (`arith_uint256.cpp`, `chain.cpp`).

A number is its value, below `2 ^ 256`.  Its words are read off it where the source loops over them.
Masks of the lower bits are remainders, and shifts to the right are divisions.
-/
import AbsoluteCore.Primitives

namespace Absolute

namespace ArithUint256

/-- The loop of `bits` over a word, from bit `n` down to bit 1. -/
def topBit (w : Nat) : Nat → Nat
  | 0 => 1
  | n + 1 => if w.testBit (n + 1) then n + 2 else topBit w n

/-- The loop of `bits` over the words below `pos`. -/
def bitsBelow (x : Nat) : Nat → Nat
  | 0 => 0
  | pos + 1 =>
    let w := x / 2 ^ (32 * pos) % 2 ^ 32
    if w ≠ 0 then 32 * pos + topBit w 31 else bitsBelow x pos

def bits (x : Nat) : Nat := bitsBelow x 8

/-- The loop of `operator/=`.  The first argument is `shift + 1`. -/
def divLoop : Nat → Nat → Nat → Nat → Nat
  | 0, _, _, q => q
  | shift + 1, num, div, q =>
    if div ≤ num then divLoop shift (num - div) (div / 2) (q ||| 2 ^ shift)
    else divLoop shift num (div / 2) q

/-- `operator/=`. -/
def div (num div : Nat) : Except Fail Nat :=
  if bits div = 0 then .error (.throws "Division by zero")
  else if bits num < bits div then .ok 0
  else
    let shift := bits num - bits div
    .ok (divLoop (shift + 1) num (div <<< shift % 2 ^ 256) 0)

/-- What `SetCompact` sets. -/
structure Target where
  value : Nat
  fNegative : Bool
  fOverflow : Bool
deriving DecidableEq

def setCompact (nCompact : Nat) : Target :=
  let nSize := nCompact / 2 ^ 24
  let nWord := nCompact % 2 ^ 23
  let nWord := if nSize ≤ 3 then nWord / 2 ^ (8 * (3 - nSize)) else nWord
  { value := if nSize ≤ 3 then nWord else nWord <<< (8 * (nSize - 3)) % 2 ^ 256
    fNegative := nWord ≠ 0 ∧ nCompact.testBit 23
    fOverflow := nWord ≠ 0 ∧
      (34 < nSize ∨ 0xff < nWord ∧ 33 < nSize ∨ 0xffff < nWord ∧ 32 < nSize) }

def getLow64 (x : Nat) : Nat := x % 2 ^ 64

/-- The three leading bytes, as `GetCompact` first takes them. -/
def leadingBytes (x nSize : Nat) : Nat :=
  if nSize ≤ 3 then getLow64 x <<< (8 * (3 - nSize)) % 2 ^ 32
  else getLow64 (x / 2 ^ (8 * (nSize - 3))) % 2 ^ 32

/-- The end of `GetCompact`, after the mantissa was moved out of the sign bit. -/
def packCompact (nCompact nSize : Nat) (fNegative : Bool) : Except Fail Nat := do
  assertThat (nCompact / 2 ^ 23 = 0)
  assertThat (nSize < 256)
  let nCompact := nSize <<< 24 ||| nCompact
  return nCompact ||| if fNegative ∧ nCompact % 2 ^ 23 ≠ 0 then 2 ^ 23 else 0

def getCompact (x : Nat) (fNegative : Bool) : Except Fail Nat :=
  let nSize := (bits x + 7) / 8
  let nCompact := leadingBytes x nSize
  if nCompact.testBit 23 then packCompact (nCompact / 2 ^ 8) (nSize + 1) fNegative
  else packCompact nCompact nSize fNegative

end ArithUint256

open ArithUint256

def getBlockProof (nBits : Nat) : Except Fail Nat :=
  let bnTarget := setCompact nBits
  if bnTarget.fNegative ∨ bnTarget.fOverflow ∨ bnTarget.value = 0 then .ok 0
  else do
    let q ← div (2 ^ 256 - 1 - bnTarget.value) ((bnTarget.value + 1) % 2 ^ 256)
    return (q + 1) % 2 ^ 256

/-- `nChainWork` of the last block of a chain, from the `nBits` of its blocks, the last one first. -/
def nChainWork : List Nat → Except Fail Nat
  | [] => .ok 0
  | nBits :: pprev => do
    let nChainWork ← nChainWork pprev
    let proof ← getBlockProof nBits
    return (nChainWork + proof) % 2 ^ 256

end Absolute
