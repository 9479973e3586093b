/-
Integers of variable length.

A byte carries seven bits, and its high bit says that another one follows.  The writer fills a
buffer from the lowest digit up and sends it backwards.  The reader shifts the digits into a
variable of the type that was asked for, for as long as they come.
-/
import AbsoluteCore.Lib.Codec

namespace Absolute

/-- An integer type by its width. -/
structure IntType where
  bits : Nat
  signed : Bool

namespace IntType

variable (t : IntType)

/-- The number of its values that are not negative. -/
def range : Nat := 2 ^ (if t.signed then t.bits - 1 else t.bits)

/-- What a variable holds after an assignment.  Unsigned numbers wrap; for a signed one that does
not fit the behaviour is undefined. -/
def store (n : Nat) : Option Nat :=
  if t.signed ∧ t.range ≤ n then none else some (n % t.range)

end IntType

def getSizeOfVarInt (n : Nat) : Nat :=
  if n ≤ 0x7f then 1 else getSizeOfVarInt (n / 128 - 1) + 1
termination_by n
decreasing_by omega

/-- The bytes from `tmp[len]` on.  Fails where `tmp` ends. -/
def fillVarInt (tmpSize n len : Nat) : Option (List UInt8) :=
  if tmpSize ≤ len then none
  else
    let byte := UInt8.ofNat (n % 128 + if len = 0 then 0 else 0x80)
    if n ≤ 0x7f then some [byte]
    else (fillVarInt tmpSize (n / 128 - 1) (len + 1)).map (byte :: ·)
termination_by n
decreasing_by omega

def writeVarInt (t : IntType) (n : Nat) : Option (List UInt8) :=
  (fillVarInt ((t.bits + 6) / 7) n 0).map List.reverse

/-- The loop of the reader, with `n` read so far. -/
def readDigits (t : IntType) : Nat → List UInt8 → Option (Nat × List UInt8)
  | _, [] => none
  | n, chData :: is => do
    let n ← t.store (n * 128 + chData.toNat % 128)
    if chData.toNat < 128 then return (n, is)
    else readDigits t (← t.store (n + 1)) is

def readVarInt (t : IntType) : List UInt8 → Option (Nat × List UInt8) := readDigits t 0

end Absolute
