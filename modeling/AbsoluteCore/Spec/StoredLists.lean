/-
What `GetListForBlock` is for: the list that the stored differences make of the nearest
stored snapshot.

Beside it stand the runs of the manager: blocks connected to and disconnected from the tip
of the active chain, with queries for any known block and cleanups in between.
-/
import AbsoluteCore.Evo.ListStore
import AbsoluteCore.Lib.Memo
import AbsoluteCore.Lib.Run

namespace Absolute

namespace CBlockIndex

/-- The block and all blocks below it are in `mapBlockIndex` under their hashes. -/
def Known (env : Env) : CBlockIndex → Prop
  | genesis h => env.mapBlockIndex h = some (genesis h)
  | next h p => env.mapBlockIndex h = some (next h p) ∧ p.Known env

def decidableKnown (env : Env) : ∀ p : CBlockIndex, Decidable (p.Known env)
  | genesis _ => inferInstanceAs (Decidable (_ = _))
  | next _ p =>
    have := decidableKnown env p
    inferInstanceAs (Decidable (_ ∧ _))

instance (env : Env) (p : CBlockIndex) : Decidable (p.Known env) := decidableKnown env p

/-- The block is on the chain that ends with the given one. -/
def OnChain (q : CBlockIndex) : CBlockIndex → Prop
  | genesis h => q = genesis h
  | next h p => q = next h p ∨ q.OnChain p

variable {env : Env} {p q : CBlockIndex}

/-- Induction along `pprev`, for walks that treat the genesis block like any other. -/
theorem pprev_induction {P : CBlockIndex → Prop}
    (step : ∀ p, (∀ h pprev, p = next h pprev → P pprev) → P p) (p : CBlockIndex) : P p := by
  induction p with
  | genesis h => exact step _ fun h' pprev heq => by simp at heq
  | next h p ih =>
    refine step _ fun h' pprev heq => ?_
    rw [← (next.inj heq).2]
    exact ih

theorem OnChain.refl (p : CBlockIndex) : p.OnChain p := by
  cases p with
  | genesis h => rfl
  | next h p => exact Or.inl rfl

theorem OnChain.trans {r : CBlockIndex} (hr : r.OnChain q) (hq : q.OnChain p) : r.OnChain p := by
  induction p with
  | genesis h =>
    rw [show q = genesis h from hq] at hr
    exact hr
  | next h p ih =>
    rcases hq with rfl | hq
    · exact hr
    · exact Or.inr (ih hq)

theorem OnChain.nHeight_le (h : q.OnChain p) : q.nHeight ≤ p.nHeight := by
  induction p with
  | genesis hash => rw [show q = genesis hash from h]
  | next hash p ih =>
    rcases h with rfl | h
    · exact le_refl _
    · have hle := ih h
      simp only [nHeight]
      omega

theorem not_onChain_pprev (h : Uint256) (p : CBlockIndex) : ¬ (next h p).OnChain p := by
  intro hon
  have hle := hon.nHeight_le
  simp only [nHeight] at hle
  omega

theorem Known.mapBlockIndex (h : p.Known env) : env.mapBlockIndex p.getBlockHash = some p := by
  cases p with
  | genesis hash => exact h
  | next hash p => exact h.1

theorem Known.onChain (h : p.Known env) (hq : q.OnChain p) : q.Known env := by
  induction p with
  | genesis hash =>
    rw [show q = genesis hash from hq]
    exact h
  | next hash p ih =>
    rcases hq with rfl | hq
    · exact h
    · exact ih h.2 hq

theorem Known.eq_of_hash (hp : p.Known env) (hq : q.Known env)
    (hhash : p.getBlockHash = q.getBlockHash) : p = q := by
  have hmap := hp.mapBlockIndex
  rw [hhash, hq.mapBlockIndex] at hmap
  exact (Option.some.inj hmap).symm

theorem onChain_of_getAncestor {height : Int} (h : p.getAncestor height = some q) :
    q.OnChain p := by
  induction p with
  | genesis hash =>
    simp only [getAncestor] at h
    split at h
    · exact (Option.some.inj h).symm
    · simp at h
  | next hash p ih =>
    simp only [getAncestor] at h
    split at h
    · exact Or.inl (Option.some.inj h).symm
    · exact Or.inr (ih h)

end CBlockIndex

namespace CDeterministicMNManager

/--
The list of a block by what is stored alone: the nearest snapshot at or below it, or the
empty list where nothing is stored, and the differences above that, one after the other.
-/
def storedList (serializeHash : UniqueProperty → Uint256) (m : CDeterministicMNManager)
    (pindex : CBlockIndex) : Except Fail CDeterministicMNList :=
  match m.snapshots[pindex.getBlockHash]? with
  | some snapshot => .ok snapshot
  | none =>
    match m.diffs[pindex.getBlockHash]? with
    | none => .ok { blockHash := pindex.getBlockHash }
    | some diff =>
      match pindex with
      | .genesis _ => .error .assert
      | .next h pprev => do
        let l ← storedList serializeHash m pprev
        replayDiff serializeHash l (.next h pprev, diff)

end CDeterministicMNManager

structure ManagedChain where
  tip : CBlockIndex
  manager : CDeterministicMNManager

inductive ManagerCall where
  /-- `ProcessBlock` of a block on top of the tip. -/
  | connect (block : CBlock)
  /-- `ProcessBlock(.., fJustCheck = true)`. -/
  | check (block : CBlock) (pindex : CBlockIndex)
  /-- `UndoBlock` of the tip. -/
  | undo (block : CBlock)
  /-- `GetListForBlock`. -/
  | query (pindex : CBlockIndex)
  | cleanup (nHeight : Int)

namespace ManagedChain

open CDeterministicMNManager

/--
The calls and what they do.  A block that is refused leaves nothing in `evoDb`, since its
transaction is rolled back; the queries made for it are steps of their own.
-/
inductive Step (env : Env) : ManagedChain → ManagerCall → ManagedChain → Prop
  | connect {c : ManagedChain} {block : CBlock} {m : CDeterministicMNManager}
      (hknown : (CBlockIndex.next block.hash c.tip).Known env)
      (hok : c.manager.processBlock env block (.next block.hash c.tip) false = .ok m) :
      Step env c (.connect block) ⟨.next block.hash c.tip, m⟩
  | check {c : ManagedChain} {block : CBlock} {h : Uint256} {pprev : CBlockIndex}
      {m : CDeterministicMNManager} (hknown : pprev.Known env)
      (hok : c.manager.processBlock env block (.next h pprev) true = .ok m) :
      Step env c (.check block (.next h pprev)) ⟨c.tip, m⟩
  | undo {c : ManagedChain} {block : CBlock} {pprev : CBlockIndex} {m : CDeterministicMNManager}
      (htip : c.tip = .next block.hash pprev)
      (hok : c.manager.undoBlock env.serializeHash block c.tip = .ok m) :
      Step env c (.undo block) ⟨pprev, m⟩
  | query {c : ManagedChain} {pindex : CBlockIndex} {l : CDeterministicMNList}
      {m : CDeterministicMNManager} (hknown : pindex.Known env)
      (hok : c.manager.getListForBlock env.serializeHash pindex = .ok (l, m)) :
      Step env c (.query pindex) ⟨c.tip, m⟩
  | cleanup {c : ManagedChain} {nHeight : Int} :
      Step env c (.cleanup nHeight) ⟨c.tip, c.manager.cleanupCache nHeight⟩

/-- Only the genesis block, and nothing stored. -/
def start (blockHash : Uint256) : ManagedChain := ⟨.genesis blockHash, {}⟩

/--
No stale list waits for the block that is connected: it is below DIP3, or so high that the
cleanup of `ProcessBlock` drops a list of height -1, or its hash is not in the cache.
-/
def ConnectsUncached (env : Env) (c : ManagedChain) : ManagerCall → Prop
  | .connect block =>
    c.tip.nHeight + 1 < env.dip0003Height ∨ listsCacheSize ≤ c.tip.nHeight + 1 ∨
      c.manager.mnListsCache[block.hash]? = none
  | _ => True

end ManagedChain

end Absolute
