/-
The request for transactions of a compact block.

The indexes go over the wire as differences, each to the index after the one before.  The reader
first takes all the differences, making room for at most a thousand at a time, and then adds them up
in a variable of sixteen bits.
-/
import AbsoluteCore.Evo.Serialize

namespace Absolute

/-- The indexes are `uint16_t`. -/
structure BlockTransactionsRequest where
  blockhash : Uint256
  indexes : List Nat
deriving DecidableEq

namespace BlockTransactionsRequest

/-- `COMPACTSIZE(index)`, which is refused above sixteen bits. -/
def index : Codec Nat where
  put := Format.size.put
  get bs := (Format.size.get bs).filter fun p => p.1 ≤ 0xffff
  Valid d := d ≤ 0xffff
  get_put := by
    intro d rest hd
    have hvalid : d ≤ maxSize ∧ d < 2 ^ 64 := by
      unfold maxSize
      omega
    rw [Format.size.get_put d rest hvalid]
    simp [hd]

/-- What is written for indexes of which the first is expected at `offset`.  The difference is an
`int` that goes into an unsigned variable of 64 bits. -/
def differences : Nat → List Nat → List Nat
  | _, [] => []
  | offset, index :: indexes =>
    (((index : Int) - offset) % 2 ^ 64).toNat :: differences (index + 1) indexes

def serialize (req : BlockTransactionsRequest) : List UInt8 :=
  Format.uint256.put req.blockhash ++ Format.size.put req.indexes.length ++
    (differences 0 req.indexes).flatMap index.put

/-- Reads the `n` differences that are left, in chunks. -/
def readChunks (n : Nat) (bs : List UInt8) : Option (List Nat × List UInt8) :=
  if n = 0 then some ([], bs)
  else do
    let (chunk, bs) ← index.getMany (min 1000 n) bs
    let (indexes, bs) ← readChunks (n - min 1000 n) bs
    return (chunk ++ indexes, bs)
termination_by n
decreasing_by omega

/-- The part of the message that is read from the stream. -/
def readDifferences (bs : List UInt8) : Option (Uint256 × List Nat × List UInt8) := do
  let (blockhash, bs) ← Format.uint256.get bs
  let (indexesSize, bs) ← Format.size.get bs
  let (ds, bs) ← readChunks indexesSize bs
  return (blockhash, ds, bs)

/-- The differences become indexes; `offset` is a `uint16_t`. -/
def addOffsets : Nat → List Nat → Option (List Nat)
  | _, [] => some []
  | offset, d :: ds =>
    if d + offset > 0xffff then none
    else (addOffsets ((d + offset + 1) % 2 ^ 16) ds).map ((d + offset) :: ·)

def deserialize (bs : List UInt8) : Option (BlockTransactionsRequest × List UInt8) := do
  let (blockhash, ds, bs) ← readDifferences bs
  let indexes ← addOffsets 0 ds
  return (⟨blockhash, indexes⟩, bs)

/-- A strictly increasing list of numbers of sixteen bits. -/
def Proper (indexes : List Nat) : Prop := indexes.Pairwise (· < ·) ∧ ∀ i ∈ indexes, i < 2 ^ 16

end BlockTransactionsRequest

end Absolute
