/-
BLS objects that are decoded when they are first asked for.

A wrapper that was read from a stream has its bytes, and gets the object from them later.  The library
behind it is a pair of partial functions.  An object without a valid value is `none`.
-/
import AbsoluteCore.Primitives

namespace Absolute

/-- The BLS library, for objects of `n` bytes. -/
structure BLSCodec (n : Nat) (Impl : Type) where
  internalSetBuf : Vector UInt8 n → Option Impl
  internalGetBuf : Impl → Option (Vector UInt8 n)
  /-- The hash of what is written to a `CHashWriter`. -/
  hash : Vector UInt8 n → Uint256

namespace BLSCodec

variable {n : Nat} {Impl : Type} (lib : BLSCodec n Impl)

def setBuf (buf : Vector UInt8 n) : Option Impl :=
  if buf = .replicate n 0 then none else lib.internalSetBuf buf

def getBuf : Option Impl → Except Fail (Vector UInt8 n)
  | none => .ok (.replicate n 0)
  | some impl =>
    match lib.internalGetBuf impl with
    | none => .error .assert
    | some buf => .ok buf

end BLSCodec

structure CBLSLazyWrapper (n : Nat) (Impl : Type) where
  buf : Vector UInt8 n
  bufValid : Bool
  obj : Option Impl
  objInitialized : Bool
  hash : Uint256

namespace CBLSLazyWrapper

variable {n : Nat} {Impl : Type} [DecidableEq Impl] (lib : BLSCodec n Impl)
  (w : CBLSLazyWrapper n Impl)

def unserialize (buf : Vector UInt8 n) : CBLSLazyWrapper n Impl :=
  { w with buf := buf, bufValid := true, objInitialized := false, hash := 0 }

/-- `operator=`, which the copy constructor calls. -/
def copy (r : CBLSLazyWrapper n Impl) : CBLSLazyWrapper n Impl where
  buf := if r.bufValid then r.buf else .replicate n 0
  bufValid := r.bufValid
  obj := if r.objInitialized then r.obj else none
  objInitialized := r.objInitialized
  hash := r.hash

/-- The bytes of the object, where those that were read are not valid. -/
def fillBuf : Except Fail (CBLSLazyWrapper n Impl) :=
  if w.bufValid then .ok w
  else do
    let buf ← lib.getBuf w.obj
    return { w with buf := buf, bufValid := true, hash := 0 }

def serialize : Except Fail (Vector UInt8 n × CBLSLazyWrapper n Impl) :=
  if !w.objInitialized && !w.bufValid then .error (.throws "obj and buf not initialized")
  else do
    let w ← w.fillBuf lib
    return (w.buf, w)

def get : Except Fail (Option Impl × CBLSLazyWrapper n Impl) :=
  if !w.bufValid && !w.objInitialized then .ok (none, w)
  else if w.objInitialized then .ok (w.obj, w)
  else do
    let obj := lib.setBuf w.buf
    let buf2 ← lib.getBuf obj
    if buf2 ≠ w.buf then
      return (none, { w with bufValid := false, objInitialized := false, obj := none })
    else return (obj, { w with obj := obj, objInitialized := true })

def getHash : Except Fail (Uint256 × CBLSLazyWrapper n Impl) := do
  let w ← w.fillBuf lib
  let hash := if w.hash = 0 then lib.hash w.buf else w.hash
  return (hash, { w with hash := hash })

/-- `operator==`, with the two wrappers after it. -/
def eq (r : CBLSLazyWrapper n Impl) :
    Except Fail (Bool × CBLSLazyWrapper n Impl × CBLSLazyWrapper n Impl) :=
  if w.bufValid && r.bufValid then .ok (w.buf = r.buf, w, r)
  else if w.objInitialized && r.objInitialized then .ok (w.obj = r.obj, w, r)
  else do
    let (obj, w) ← w.get lib
    let (obj', r) ← r.get lib
    return (obj = obj', w, r)

end CBLSLazyWrapper

/-! ### What should be seen of the laziness -/

/-- The wrappers of a program, each with the bytes that it or its original was read from. -/
abbrev LazyPool (n : Nat) (Impl : Type) := List (Vector UInt8 n × CBLSLazyWrapper n Impl)

inductive LazyOp where
  | get (i : Nat)
  | getHash (i : Nat)
  | serialize (i : Nat)
  | eq (i j : Nat)
  | copy (i : Nat)

namespace LazyPool

variable {n : Nat} {Impl : Type} [DecidableEq Impl] (lib : BLSCodec n Impl)

/-- Bytes read into wrappers that may have held something before. -/
def unserialize (reads : List (Vector UInt8 n × CBLSLazyWrapper n Impl)) : LazyPool n Impl :=
  reads.map fun p => (p.1, p.2.unserialize p.1)

def update {α : Type} (pool : LazyPool n Impl) (i : Nat)
    (op : CBLSLazyWrapper n Impl → Except Fail (α × CBLSLazyWrapper n Impl)) :
    Except Fail (LazyPool n Impl) :=
  match pool[i]? with
  | none => .ok pool
  | some p => (op p.2).map fun r => pool.set i (p.1, r.2)

def apply (pool : LazyPool n Impl) : LazyOp → Except Fail (LazyPool n Impl)
  | .get i => pool.update i (·.get lib)
  | .getHash i => pool.update i (·.getHash lib)
  | .serialize i => pool.update i (·.serialize lib)
  | .eq i j =>
    match pool[i]?, pool[j]? with
    | some p, some q =>
      (p.2.eq lib q.2).map fun r => (pool.set i (p.1, r.2.1)).set j (q.1, r.2.2)
    | _, _ => .ok pool
  | .copy i => .ok (pool ++ (pool[i]?).toList.map fun p => (p.1, p.2.copy))

/-- Every operation answers as if the bytes, and the objects that they stand for, were all there is. -/
structure Right (object : Vector UInt8 n → Option Impl) (pool : LazyPool n Impl) : Prop where
  serialize : ∀ p ∈ pool, ∃ w, p.2.serialize lib = .ok (p.1, w)
  getHash : ∀ p ∈ pool, ∃ w, p.2.getHash lib = .ok (lib.hash p.1, w)
  get : ∀ p ∈ pool, ∃ w, p.2.get lib = .ok (object p.1, w)
  eq : ∀ p ∈ pool, ∀ q ∈ pool, ∃ r, p.2.eq lib q.2 = .ok (decide (p.1 = q.1), r)

/-- Whatever is done with the wrappers, the next operation answers right. -/
def Unobservable (reads : List (Vector UInt8 n × CBLSLazyWrapper n Impl)) : Prop :=
  ∃ object, ∀ ops : List LazyOp,
    ∃ pool, ops.foldlM (apply lib) (unserialize reads) = .ok pool ∧ pool.Right lib object

end LazyPool

/-- The bytes are null, or what the library writes for the object that it reads from them. -/
def BLSCodec.Canonical {n : Nat} {Impl : Type} (lib : BLSCodec n Impl) (b : Vector UInt8 n) : Prop :=
  b = .replicate n 0 ∨ ∃ impl, lib.internalSetBuf b = some impl ∧ lib.internalGetBuf impl = some b

end Absolute
