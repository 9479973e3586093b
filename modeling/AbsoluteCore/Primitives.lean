/-
The values the consensus code passes around.

Fixed-width numbers are natural numbers or integers.  Where the width of a field
matters (serialization, a counter that wraps) the definition that depends on it
says so; everywhere else the code only compares and copies these values.

A failing `assert` and a rejected transaction are two different ways for a
function not to return, and the development is largely about telling them apart:
the first takes the node down, the second drops a block.  `Fail` keeps both.
-/
import Mathlib

namespace Absolute

/-- `uint256`: hashes of blocks and transactions. -/
abbrev Uint256 := Nat

/-- `CKeyID`: the 160-bit hash of a public key; zero is the null key. -/
abbrev CKeyID := Nat

/-- `CScript`, as its bytes. -/
abbrev CScript := List UInt8

/-- `COIN`, the satoshis in one coin. -/
def coin : Int := 100000000

/-! ### Failures -/

/-- The `REJECT_*` codes the modelled checks use. -/
inductive RejectCode where
  | invalid
  | duplicate
  | conflict
  /-- The code 0, which stands for none. -/
  | unset
deriving DecidableEq, Repr

/-- How a modelled function can fail to return. -/
inductive Fail where
  /-- An `assert` did not hold: the process stops. -/
  | assert
  /-- `state.DoS(level, false, code, reason)`: the block or transaction is rejected. -/
  | reject (level : Nat) (code : RejectCode) (reason : String)
  /-- A C++ exception leaves the function. -/
  | throws (what : String)
  /-- A `CAmount` went out of the range of `int64_t`. -/
  | overflow
deriving DecidableEq, Repr

/-- `assert(c)`. -/
def assertThat (c : Prop) [Decidable c] : Except Fail Unit :=
  if c then .ok () else .error .assert

/-- `return state.DoS(level, false, code, reason)`. -/
def dos {α : Type} (level : Nat) (code : RejectCode) (reason : String) : Except Fail α :=
  .error (.reject level code reason)

/-- `if (c) return state.DoS(level, false, code, reason)`. -/
def rejectIf (c : Prop) [Decidable c] (level : Nat) (code : RejectCode) (reason : String) :
    Except Fail Unit :=
  if c then dos level code reason else .ok ()

/-- A dereferenced pointer; a null one stops the process like a failed assert. -/
def deref {α : Type} : Option α → Except Fail α
  | some a => .ok a
  | none => .error .assert

/-! ### Outpoints and services -/

structure COutPoint where
  hash : Uint256
  n : Nat
deriving DecidableEq, Repr, Countable

/-- `COutPoint()`: the null hash and the index `(uint32_t)-1`. -/
def COutPoint.null : COutPoint := ⟨0, 0xffffffff⟩

/-- Outpoints as the keys of a map: by hash, then by index. -/
def COutPoint.cmp : COutPoint → COutPoint → Ordering :=
  compareLex (compareOn COutPoint.hash) (compareOn COutPoint.n)

instance : Std.TransCmp COutPoint.cmp :=
  inferInstanceAs (Std.TransCmp (compareLex (compareOn COutPoint.hash) (compareOn COutPoint.n)))

instance : Std.LawfulEqCmp COutPoint.cmp where
  eq_of_compare := by
    intro a b h
    rw [COutPoint.cmp, compareLex_eq_eq] at h
    obtain ⟨hhash, hn⟩ := h
    have hhash : a.hash = b.hash := Nat.compare_eq_eq.mp hhash
    have hn : a.n = b.n := Nat.compare_eq_eq.mp hn
    cases a
    cases b
    congr

/-- `operator<` on outpoints: by hash, then by index. -/
def COutPoint.lt (a b : COutPoint) : Bool :=
  a.hash < b.hash || (a.hash == b.hash && a.n < b.n)

/-- `CService`: sixteen address bytes, read as one big-endian number, and a port. -/
structure CService where
  ip : Nat
  port : Nat
deriving DecidableEq, Repr, Countable

namespace CService

/-- `CService()`: the all-zero address and port. -/
def null : CService := ⟨0, 0⟩

variable (a : CService)

/-- `GetByte(n)`, which counts from the last byte. -/
def getByte (n : Nat) : Nat := a.ip / 256 ^ n % 256

/-- `memcmp(ip, bytes, n) == 0` for the first `n` of the sixteen bytes. -/
def startsWith (n bytes : Nat) : Bool := a.ip / 256 ^ (16 - n) % 256 ^ n == bytes

def isIPv4 : Bool := a.startsWith 12 0xffff

def isTor : Bool := a.startsWith 6 0xfd87d87eeb43

def isIPv6 : Bool := !a.isIPv4 && !a.isTor

def isRFC1918 : Bool :=
  a.isIPv4 && (a.getByte 3 == 10 || (a.getByte 3 == 192 && a.getByte 2 == 168) ||
    (a.getByte 3 == 172 && (16 ≤ a.getByte 2 && a.getByte 2 ≤ 31)))

def isRFC2544 : Bool :=
  a.isIPv4 && a.getByte 3 == 198 && (a.getByte 2 == 18 || a.getByte 2 == 19)

def isRFC3927 : Bool := a.isIPv4 && (a.getByte 3 == 169 && a.getByte 2 == 254)

def isRFC6598 : Bool :=
  a.isIPv4 && a.getByte 3 == 100 && 64 ≤ a.getByte 2 && a.getByte 2 ≤ 127

def isRFC5737 : Bool :=
  a.isIPv4 && ((a.getByte 3 == 192 && a.getByte 2 == 0 && a.getByte 1 == 2) ||
    (a.getByte 3 == 198 && a.getByte 2 == 51 && a.getByte 1 == 100) ||
    (a.getByte 3 == 203 && a.getByte 2 == 0 && a.getByte 1 == 113))

def isRFC3849 : Bool :=
  a.getByte 15 == 0x20 && a.getByte 14 == 0x01 && a.getByte 13 == 0x0D && a.getByte 12 == 0xB8

def isRFC4862 : Bool := a.startsWith 8 0xfe80000000000000

def isRFC4193 : Bool := a.getByte 15 / 2 == 0xfc / 2

def isRFC4843 : Bool :=
  a.getByte 15 == 0x20 && a.getByte 14 == 0x01 && a.getByte 13 == 0x00 && a.getByte 12 / 16 == 1

def isLocal : Bool :=
  (a.isIPv4 && (a.getByte 3 == 127 || a.getByte 3 == 0)) || a.ip == 1

/-- `IsValid()`.  The first test drops the three-byte shifted addresses of old peers. -/
def isValid : Bool :=
  !a.startsWith 9 0xffff && a.ip != 0 && !a.isRFC3849 &&
    !(a.isIPv4 && (a.ip % 256 ^ 4 == 0xffffffff || a.ip % 256 ^ 4 == 0))

/-- `IsRoutable()`, with `fAllowPrivateNet` as a parameter. -/
def isRoutable (fAllowPrivateNet : Bool) (a : CService) : Bool :=
  a.isValid && !(!fAllowPrivateNet && a.isRFC1918) &&
    !(a.isRFC2544 || a.isRFC3927 || a.isRFC4862 || a.isRFC6598 || a.isRFC5737 ||
      (a.isRFC4193 && !a.isTor) || a.isRFC4843 || a.isLocal)

theorem ne_null_of_isValid {a : CService} (h : a.isValid = true) : a ≠ null := by
  rintro rfl
  simp [isValid, null] at h

end CService

/-! ### BLS objects

A BLS object of the source is a curve point together with `fValid`; every
constructor that clears `fValid` also resets the point, so `none` is the only
invalid value.  `CBLSLazyPublicKey` caches the decoding of such an object and is
identified with the object it holds.  Buffers that are no curve point are looked at
in `CBLSLazyWrapper` and, where lists compare them, in `ListCall.runWith`.
-/

/-- `CBLSPublicKey` and `CBLSLazyPublicKey`: a point, by its serialization, or nothing. -/
structure CBLSPublicKey where
  impl : Option Nat
deriving DecidableEq, Repr, Countable

/-- `CBLSPublicKey()`. -/
def CBLSPublicKey.null : CBLSPublicKey := ⟨none⟩

def CBLSPublicKey.isValid (k : CBLSPublicKey) : Bool := k.impl.isSome

theorem CBLSPublicKey.isValid_iff {k : CBLSPublicKey} : k.isValid = true ↔ k ≠ null := by
  obtain ⟨_ | p⟩ := k <;> simp [isValid, null]

structure CBLSSignature where
  impl : Option Nat
deriving DecidableEq, Repr, Countable

def CBLSSignature.isValid (s : CBLSSignature) : Bool := s.impl.isSome

/-! ### Scripts and destinations -/

def isPayToPublicKeyHash (s : CScript) : Bool :=
  s.length == 25 && s[0]? == some 0x76 && s[1]? == some 0xa9 && s[2]? == some 0x14 &&
    s[23]? == some 0x88 && s[24]? == some 0xac

def isPayToScriptHash (s : CScript) : Bool :=
  s.length == 23 && s[0]? == some 0xa9 && s[1]? == some 0x14 && s[22]? == some 0x87

inductive CTxDestination where
  | none
  | keyID (id : CKeyID)
  | scriptID (id : Nat)
deriving DecidableEq, Repr

/-- `CBitcoinAddress(dest).GetKeyID(id)`: only a key hash has one. -/
def CTxDestination.getKeyID : CTxDestination → Option CKeyID
  | .keyID id => some id
  | _ => Option.none

/-! ### Block index -/

/--
`CBlockIndex`, the part the masternode code reads: hash, height and `pprev`.

The height is the length of the chain below the block, as `AddToBlockIndex` sets
it, so an index with a wrong height cannot be built.
-/
inductive CBlockIndex where
  | genesis (blockHash : Uint256)
  | next (blockHash : Uint256) (pprev : CBlockIndex)
deriving DecidableEq, Repr

namespace CBlockIndex

def getBlockHash : CBlockIndex → Uint256
  | genesis h => h
  | next h _ => h

def nHeight : CBlockIndex → Int
  | genesis _ => 0
  | next _ p => p.nHeight + 1

theorem nHeight_nonneg (p : CBlockIndex) : 0 ≤ p.nHeight := by
  induction p with
  | genesis h => exact le_refl _
  | next h p ih => simp only [nHeight]; omega

/-- `GetAncestor(height)`: null above the block or below genesis. -/
def getAncestor : CBlockIndex → Int → Option CBlockIndex
  | genesis h, height => if height = 0 then some (genesis h) else none
  | next h p, height => if height = p.nHeight + 1 then some (next h p) else p.getAncestor height

end CBlockIndex

end Absolute
