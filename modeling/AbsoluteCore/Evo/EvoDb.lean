/-
`CDBTransaction` and `CEvoDB`: a database under two layers of pending changes.

Keys are the bytes of their serialization.  The values of a key all have one type, so the check of
`Read` that the type is the one that was written is left out, and a value in the database is what
reading it back gives.  Writing a batch to the database succeeds.
-/
import AbsoluteCore.Lib.MapBatch
import AbsoluteCore.Lib.Overlay
import AbsoluteCore.Primitives

namespace Absolute

open Std

/-- `CDataStream`, as a key: its bytes, compared one by one (`DataStreamCmp`). -/
abbrev CDataStream := List UInt8

abbrev StreamMap (V : Type) := ExtTreeMap CDataStream V compare

variable {V : Type}

/-! ### One layer -/

/-- `ValueHolderImpl<V>`. -/
structure ValueHolder (V : Type) where
  memoryUsage : Nat
  value : V
deriving DecidableEq, Repr

/-- `CDBTransaction`.  The set `deletes` is a map to nothing. -/
structure CDBTransaction (V : Type) where
  memoryUsage : Int := 0
  writes : StreamMap (ValueHolder V) := ∅
  deletes : StreamMap Unit := ∅

namespace CDBTransaction

variable (getSerializeSize : V → Nat) (t : CDBTransaction V)

def write (ssKey : CDataStream) (v : V) : CDBTransaction V :=
  let valueMemoryUsage := getSerializeSize v
  let t :=
    if ssKey ∈ t.deletes then
      { t with deletes := t.deletes.erase ssKey, memoryUsage := t.memoryUsage - ssKey.length }
    else t
  let t :=
    match t.writes[ssKey]? with
    | some holder =>
      { t with memoryUsage := t.memoryUsage - (ssKey.length + holder.memoryUsage : Nat) }
    | none => t
  { t with
    writes := t.writes.insert ssKey ⟨valueMemoryUsage, v⟩
    memoryUsage := t.memoryUsage + (ssKey.length + valueMemoryUsage : Nat) }

/-- `Read`, with nothing where it returns false. -/
def read (parent : CDataStream → Option V) (t : CDBTransaction V) (ssKey : CDataStream) :
    Option V :=
  if ssKey ∈ t.deletes then none
  else
    match t.writes[ssKey]? with
    | some holder => some holder.value
    | none => parent ssKey

/-- `Exists`. -/
def existsKey (parent : CDataStream → Bool) (t : CDBTransaction V) (ssKey : CDataStream) : Bool :=
  if ssKey ∈ t.deletes then false
  else if ssKey ∈ t.writes then true
  else parent ssKey

def erase (ssKey : CDataStream) : CDBTransaction V :=
  let t :=
    match t.writes[ssKey]? with
    | some holder =>
      { t with
        memoryUsage := t.memoryUsage - (ssKey.length + holder.memoryUsage : Nat)
        writes := t.writes.erase ssKey }
    | none => t
  if ssKey ∈ t.deletes then t
  else
    { t with deletes := t.deletes.insert ssKey (), memoryUsage := t.memoryUsage + ssKey.length }

def clear (_ : CDBTransaction V) : CDBTransaction V := {}

/-- What `Commit` does to its target, before it clears the transaction. -/
def commit {Target : Type} (eraseIn : Target → CDataStream → Target)
    (writeIn : Target → CDataStream → V → Target) (t : CDBTransaction V) (target : Target) :
    Target :=
  t.writes.toList.foldl (fun target p => writeIn target p.1 p.2.value)
    (t.deletes.keys.foldl eraseIn target)

def isClean : Bool := t.writes.isEmpty && t.deletes.isEmpty

/-- `CDBTransactionIterator`, after a `Seek`: the keys it has still to visit, where those of the
parent's iterator are given.  `SkipDeletedAndOverwritten` passes over keys of the parent, and
`DecideCur` takes the smaller of the two next keys. -/
def iterate (ssKey : CDataStream) (parentIt : List CDataStream) : List CDataStream :=
  Overlay.merge (Overlay.less compare) (t.writes.keys.filter fun k => !Overlay.less compare k ssKey)
    (parentIt.filter fun k => !t.deletes.contains k && !t.writes.contains k)

end CDBTransaction

/-! ### The database -/

/-- `CDBBatch`: the operations it has collected. -/
abbrev CDBBatch (V : Type) := List (CDataStream × Option V)

namespace CDBBatch

def write (batch : CDBBatch V) (ssKey : CDataStream) (value : V) : CDBBatch V :=
  batch ++ [(ssKey, some value)]

def erase (batch : CDBBatch V) (ssKey : CDataStream) : CDBBatch V := batch ++ [(ssKey, none)]

end CDBBatch

structure CEvoDB (V : Type) where
  db : StreamMap V := ∅
  rootBatch : CDBBatch V := []
  rootDBTransaction : CDBTransaction V := {}
  curDBTransaction : CDBTransaction V := {}

structure CScopedDBTransaction where
  didCommitOrRollback : Bool := false
deriving DecidableEq, Repr

namespace CEvoDB

variable (getSerializeSize : V → Nat) (e : CEvoDB V)

/-- `rootDBTransaction.Read`. -/
def rootRead : CDataStream → Option V :=
  e.rootDBTransaction.read fun ssKey => e.db[ssKey]?

def read : CDataStream → Option V := e.curDBTransaction.read e.rootRead

/-- `Exists`. -/
def existsKey : CDataStream → Bool :=
  e.curDBTransaction.existsKey
    (e.rootDBTransaction.existsKey fun ssKey => e.db.contains ssKey)

def write (ssKey : CDataStream) (value : V) : CEvoDB V :=
  { e with curDBTransaction := e.curDBTransaction.write getSerializeSize ssKey value }

def erase (ssKey : CDataStream) : CEvoDB V :=
  { e with curDBTransaction := e.curDBTransaction.erase ssKey }

def beginTransaction : Except Fail CScopedDBTransaction := do
  assertThat (e.curDBTransaction.isClean = true)
  return {}

/-- `CScopedDBTransaction::Commit`. -/
def commit (scope : CScopedDBTransaction) : Except Fail (CEvoDB V × CScopedDBTransaction) := do
  assertThat (scope.didCommitOrRollback = false)
  return ({ e with
    rootDBTransaction := e.curDBTransaction.commit CDBTransaction.erase
      (CDBTransaction.write getSerializeSize) e.rootDBTransaction
    curDBTransaction := e.curDBTransaction.clear }, { didCommitOrRollback := true })

/-- `CScopedDBTransaction::Rollback`, which its destructor calls where neither was called. -/
def rollback (scope : CScopedDBTransaction) : Except Fail (CEvoDB V × CScopedDBTransaction) := do
  assertThat (scope.didCommitOrRollback = false)
  return ({ e with curDBTransaction := e.curDBTransaction.clear }, { didCommitOrRollback := true })

def commitRootTransaction : Except Fail (CEvoDB V) := do
  assertThat (e.curDBTransaction.isClean = true)
  let rootBatch := e.rootDBTransaction.commit CDBBatch.erase CDBBatch.write e.rootBatch
  return { e with
    db := MapBatch.write e.db rootBatch
    rootBatch := []
    rootDBTransaction := e.rootDBTransaction.clear }

/-- `GetCurTransaction().NewIterator()`, after a `Seek`: the keys still to visit. -/
def iterate (ssKey : CDataStream) : List CDataStream :=
  e.curDBTransaction.iterate ssKey (e.rootDBTransaction.iterate ssKey
    (e.db.keys.filter fun k => !Overlay.less compare k ssKey))

end CEvoDB

end Absolute
