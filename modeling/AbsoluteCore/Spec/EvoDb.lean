/-
What `CEvoDB` is for: one map that can be changed, with two points to go back to.

The map is the one that callers read and write.  A scoped transaction remembers how the map was when
it began, and the database how it was at the last commit of the root transaction.
-/
import AbsoluteCore.Evo.EvoDb
import AbsoluteCore.Lib.MapTotal

namespace Absolute

variable {V : Type}

/-! ### Operations -/

inductive EvoOp (V : Type) where
  | read (ssKey : CDataStream)
  /-- `Exists`. -/
  | existsKey (ssKey : CDataStream)
  | write (ssKey : CDataStream) (value : V)
  | erase (ssKey : CDataStream)
  | beginTransaction
  /-- The scoped transaction that was begun as the `i`-th, from 0. -/
  | commit (i : Nat)
  | rollback (i : Nat)
  /-- `~CScopedDBTransaction`. -/
  | destroy (i : Nat)
  | commitRootTransaction
deriving DecidableEq, Repr

inductive EvoAnswer (V : Type) where
  | done
  | value (v : Option V)
  | found (b : Bool)
deriving DecidableEq, Repr

/-- A database, and the scoped transactions that were begun. -/
structure EvoState (V : Type) where
  evoDb : CEvoDB V := {}
  scopes : List CScopedDBTransaction := []

namespace EvoState

variable (getSerializeSize : V → Nat)

def apply (s : EvoState V) : EvoOp V → Except Fail (EvoState V × EvoAnswer V)
  | .read ssKey => .ok (s, .value (s.evoDb.read ssKey))
  | .existsKey ssKey => .ok (s, .found (s.evoDb.existsKey ssKey))
  | .write ssKey value =>
    .ok ({ s with evoDb := s.evoDb.write getSerializeSize ssKey value }, .done)
  | .erase ssKey => .ok ({ s with evoDb := s.evoDb.erase ssKey }, .done)
  | .beginTransaction => do
    let scope ← s.evoDb.beginTransaction
    return ({ s with scopes := s.scopes ++ [scope] }, .done)
  | .commit i => do
    let scope ← deref s.scopes[i]?
    let (evoDb, scope) ← s.evoDb.commit getSerializeSize scope
    return (⟨evoDb, s.scopes.set i scope⟩, .done)
  | .rollback i => do
    let scope ← deref s.scopes[i]?
    let (evoDb, scope) ← s.evoDb.rollback scope
    return (⟨evoDb, s.scopes.set i scope⟩, .done)
  | .destroy i => do
    let scope ← deref s.scopes[i]?
    if scope.didCommitOrRollback then
      return (s, .done)
    else
      let (evoDb, scope) ← s.evoDb.rollback scope
      return (⟨evoDb, s.scopes.set i scope⟩, .done)
  | .commitRootTransaction => do
    let evoDb ← s.evoDb.commitRootTransaction
    return ({ s with evoDb := evoDb }, .done)

/-- The operations one after the other, with their answers. -/
def run : EvoState V → List (EvoOp V) → Except Fail (EvoState V × List (EvoAnswer V))
  | s, [] => .ok (s, [])
  | s, op :: ops => do
    let (s, answer) ← s.apply getSerializeSize op
    let (s, answers) ← s.run ops
    return (s, answer :: answers)

/-- A node that has just opened its database. -/
def ofDb (db : StreamMap V) : EvoState V := { evoDb := { db := db } }

end EvoState

/-! ### The map -/

/-- One map, how it was when the current changes began, and how it was at the last root commit. -/
structure PendingMap (V : Type) where
  cur : CDataStream → Option V
  root : CDataStream → Option V
  db : CDataStream → Option V
  /-- A key was written or erased since the last commit or rollback. -/
  changed : Bool := false
  scopes : List CScopedDBTransaction := []

namespace PendingMap

def apply (m : PendingMap V) : EvoOp V → Except Fail (PendingMap V × EvoAnswer V)
  | .read ssKey => .ok (m, .value (m.cur ssKey))
  | .existsKey ssKey => .ok (m, .found (m.cur ssKey).isSome)
  | .write ssKey value =>
    .ok ({ m with cur := Function.update m.cur ssKey (some value), changed := true }, .done)
  | .erase ssKey =>
    .ok ({ m with cur := Function.update m.cur ssKey none, changed := true }, .done)
  | .beginTransaction => do
    assertThat (m.changed = false)
    return ({ m with scopes := m.scopes ++ [{}] }, .done)
  | .commit i => do
    let scope ← deref m.scopes[i]?
    assertThat (scope.didCommitOrRollback = false)
    return ({ m with root := m.cur, changed := false, scopes := m.scopes.set i ⟨true⟩ }, .done)
  | .rollback i => do
    let scope ← deref m.scopes[i]?
    assertThat (scope.didCommitOrRollback = false)
    return ({ m with cur := m.root, changed := false, scopes := m.scopes.set i ⟨true⟩ }, .done)
  | .destroy i => do
    let scope ← deref m.scopes[i]?
    if scope.didCommitOrRollback then
      return (m, .done)
    else
      return ({ m with cur := m.root, changed := false, scopes := m.scopes.set i ⟨true⟩ }, .done)
  | .commitRootTransaction => do
    assertThat (m.changed = false)
    return ({ m with db := m.cur }, .done)

def run : PendingMap V → List (EvoOp V) → Except Fail (PendingMap V × List (EvoAnswer V))
  | m, [] => .ok (m, [])
  | m, op :: ops => do
    let (m, answer) ← m.apply op
    let (m, answers) ← m.run ops
    return (m, answer :: answers)

def ofDb (db : StreamMap V) : PendingMap V :=
  { cur := fun k => db[k]?, root := fun k => db[k]?, db := fun k => db[k]? }

end PendingMap

/-! ### What a layer keeps -/

/-- The bookkeeping of a layer is right. -/
structure CDBTransaction.WellKept (getSerializeSize : V → Nat) (t : CDBTransaction V) : Prop where
  disjoint : ∀ k, k ∈ t.deletes → t.writes[k]? = none
  size : ∀ (k : CDataStream) (holder : ValueHolder V), t.writes[k]? = some holder → holder.memoryUsage = getSerializeSize holder.value
  /-- The counter is the size of the pending keys and values. -/
  memoryUsage : t.memoryUsage =
    (MapTotal.weight (fun p => p.1.length + p.2.memoryUsage) t.writes +
      MapTotal.weight (fun p => p.1.length) t.deletes : Nat)

/-- The database with its layers is the map. -/
structure EvoState.Represents (getSerializeSize : V → Nat) (s : EvoState V) (m : PendingMap V) :
    Prop where
  cur : s.evoDb.read = m.cur
  found : ∀ k, s.evoDb.existsKey k = (m.cur k).isSome
  root : s.evoDb.rootRead = m.root
  db : ∀ k, s.evoDb.db[k]? = m.db k
  changed : s.evoDb.curDBTransaction.isClean = !m.changed
  scopes : s.scopes = m.scopes
  batch : s.evoDb.rootBatch = []
  rootKept : s.evoDb.rootDBTransaction.WellKept getSerializeSize
  curKept : s.evoDb.curDBTransaction.WellKept getSerializeSize

/-- Both stop alike, or both return the same answers and what they leave is the same. -/
def EvoState.Matches (getSerializeSize : V → Nat) :
    Except Fail (EvoState V × List (EvoAnswer V)) →
      Except Fail (PendingMap V × List (EvoAnswer V)) → Prop
  | .ok (s, answers), .ok (m, answers') => answers = answers' ∧ s.Represents getSerializeSize m
  | .error fail, .error fail' => fail = fail'
  | _, _ => False

/-- The operations that only read and change the map. -/
def EvoOp.plain : EvoOp V → Bool
  | .read _ | .existsKey _ | .write _ _ | .erase _ => true
  | _ => false

end Absolute
