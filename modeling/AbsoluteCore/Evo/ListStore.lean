/-
`CDeterministicMNManager`: the lists it stores in `evoDb` and caches in `mnListsCache`.

`evoDb` holds, under the hash of a block, the difference to the list of the block before
it and sometimes the whole list.  A stored value is modelled by what `evoDb.Read` gives
back for it.
-/
import AbsoluteCore.Evo.DeterministicMNManager

namespace Absolute

/-- What the manager keeps: `DB_LIST_DIFF`, `DB_LIST_SNAPSHOT` and the cache in memory. -/
structure CDeterministicMNManager where
  diffs : HashMap CDeterministicMNListDiff := ∅
  snapshots : HashMap CDeterministicMNList := ∅
  mnListsCache : HashMap CDeterministicMNList := ∅

namespace CDeterministicMNManager

def snapshotListPeriod : Int := 576

def listsCacheSize : Int := 576

/-! ### `GetListForBlock` -/

/--
The first loop of `GetListForBlock`: back to a block whose list is cached or stored, or
that has no difference.  It returns the list of that block, the differences passed, oldest
first, and the cache with the list it read.
-/
def findBase (m : CDeterministicMNManager) :
    CBlockIndex → List (CBlockIndex × CDeterministicMNListDiff) →
      Except Fail (CDeterministicMNList × List (CBlockIndex × CDeterministicMNListDiff) ×
        HashMap CDeterministicMNList)
  | pindex, listDiff =>
    match m.mnListsCache[pindex.getBlockHash]? with
    | some snapshot => .ok (snapshot, listDiff, m.mnListsCache)
    | none =>
      match m.snapshots[pindex.getBlockHash]? with
      | some snapshot =>
        .ok (snapshot, listDiff, m.mnListsCache.insertIfNew pindex.getBlockHash snapshot)
      | none =>
        match m.diffs[pindex.getBlockHash]? with
        | none =>
          let snapshot : CDeterministicMNList := { blockHash := pindex.getBlockHash }
          .ok (snapshot, listDiff, m.mnListsCache.insertIfNew pindex.getBlockHash snapshot)
        | some diff =>
          match pindex with
          -- `pprev` is null, and the next pass would follow it
          | .genesis _ => .error .assert
          | .next h pprev => m.findBase pprev ((.next h pprev, diff) :: listDiff)

variable (serializeHash : UniqueProperty → Uint256) (m : CDeterministicMNManager)

/-- What one stored difference makes of the list before it. -/
def replayDiff (snapshot : CDeterministicMNList) (p : CBlockIndex × CDeterministicMNListDiff) :
    Except Fail CDeterministicMNList :=
  if p.2.hasChanges then snapshot.applyDiff serializeHash p.1 p.2
  else .ok { snapshot with blockHash := p.1.getBlockHash, nHeight := p.1.nHeight }

/-- The body of the second loop of `GetListForBlock`, on the list and the cache. -/
def replayCached (s : CDeterministicMNList × HashMap CDeterministicMNList)
    (p : CBlockIndex × CDeterministicMNListDiff) :
    Except Fail (CDeterministicMNList × HashMap CDeterministicMNList) := do
  let snapshot ← replayDiff serializeHash s.1 p
  return (snapshot, s.2.insertIfNew p.1.getBlockHash snapshot)

def getListForBlock (pindex : CBlockIndex) :
    Except Fail (CDeterministicMNList × CDeterministicMNManager) := do
  let (snapshot, listDiff, cache) ← m.findBase pindex []
  let (snapshot, cache) ← listDiff.foldlM (replayCached serializeHash) (snapshot, cache)
  return (snapshot, { m with mnListsCache := cache })

/-- The list `GetListForBlock` returns, for callers that go on only when it returns one. -/
def lists (pindex : CBlockIndex) : CDeterministicMNList :=
  match m.getListForBlock serializeHash pindex with
  | .ok (l, _) => l
  | .error _ => {}

/-- `GetListForBlock` for its effect on the cache. -/
def query (pindex : CBlockIndex) : Except Fail CDeterministicMNManager := do
  let (_, m) ← m.getListForBlock serializeHash pindex
  return m

def cleanupCache (nHeight : Int) : CDeterministicMNManager :=
  let toDelete := (m.mnListsCache.toList.filter fun p =>
    p.2.nHeight + listsCacheSize < nHeight).map (·.1)
  { m with mnListsCache := toDelete.foldl (fun cache h => cache.erase h) m.mnListsCache }

/-! ### `ProcessBlock` and `UndoBlock` -/

variable (env : Env)

/-- The base block of the quorum whose members a commitment of the block judges. -/
def quorumIndexOf (pindexPrev : CBlockIndex) (tx : CTransaction) : Option CBlockIndex := do
  guard (tx.nVersion = 3 ∧ tx.nType = .quorumCommitment)
  let qc ← tx.getCommitment
  guard (qc.commitment.isNull = false)
  let params ← env.llmqs qc.commitment.llmqType
  pindexPrev.getAncestor (qc.nHeight - qc.nHeight % params.dkgInterval)

/-- The indexes `BuildNewListFromBlock` asks the manager for, when it gets through. -/
def queriedIndexes (block : CBlock) (pindexPrev : CBlockIndex) : List CBlockIndex :=
  pindexPrev :: block.vtx.tail.filterMap (quorumIndexOf env pindexPrev)

/-- `evoDb.Write` of the difference, and of the whole list once a period and at the start. -/
def writeList (oldList newList : CDeterministicMNList) (nHeight : Int) : CDeterministicMNManager :=
  let m := { m with diffs := m.diffs.insert newList.blockHash (oldList.buildDiff newList) }
  if nHeight % snapshotListPeriod = 0 ∨ oldList.nHeight = -1 then
    { m with snapshots := m.snapshots.insert newList.blockHash newList }
  else m

def processBlock (m : CDeterministicMNManager) (block : CBlock) (pindex : CBlockIndex)
    (fJustCheck : Bool) : Except Fail CDeterministicMNManager :=
  if pindex.nHeight < env.dip0003Height then .ok m
  else
    match pindex with
    | .genesis _ => .error .assert
    | .next h pprev => do
      let nHeight := pprev.nHeight + 1
      let m ← (queriedIndexes env block pprev).foldlM (query env.serializeHash) m
      let newList ← buildNewListFromBlock env (m.lists env.serializeHash) block pprev
      if fJustCheck then
        return m
      else do
        let newList := if newList.nHeight = -1 then { newList with nHeight := nHeight } else newList
        let newList := { newList with blockHash := block.hash }
        let (oldList, m) ← m.getListForBlock env.serializeHash pprev
        let m := m.writeList oldList newList nHeight
        rejectIf (nHeight = env.dip0003EnforcementHeight ∧ env.dip0003EnforcementHash ≠ 0 ∧
          env.dip0003EnforcementHash ≠ h) 100 .invalid "bad-dip3-enf-block"
        return m.cleanupCache nHeight

/-- The two queries of `UndoBlock`, made only when something is to be notified. -/
def undoQueries (m : CDeterministicMNManager) (block : CBlock) (pindex : CBlockIndex) :
    Except Fail CDeterministicMNManager :=
  -- a failed read leaves the empty difference
  if ((m.diffs[block.hash]?).getD {}).hasChanges then
    match pindex with
    | .genesis _ => .error .assert
    | .next _ pprev => [pindex, pprev].foldlM (query serializeHash) m
  else .ok m

def undoBlock (m : CDeterministicMNManager) (block : CBlock) (pindex : CBlockIndex) :
    Except Fail CDeterministicMNManager := do
  let m ← m.undoQueries serializeHash block pindex
  return {
    diffs := m.diffs.erase block.hash
    snapshots := m.snapshots.erase block.hash
    mnListsCache := m.mnListsCache.erase block.hash }

end CDeterministicMNManager

end Absolute
