/-
`ContributionVerifier` and the threads it runs on.

The verifier is a set of callbacks around counters.  A thread is the list of jobs it still has
to do; a step takes one thread and does the next piece of its first job, so that the runs are
all interleavings of the pieces.  A job that writes a value and then counts it takes two steps.
With `parallel` a pushed job becomes a thread of its own, and without it the job is done by the
thread that pushes it.

Batches have at most eight entries and the aggregators split their input at sixteen, so an
aggregator inside the verifier is always a single job.
-/
import AbsoluteCore.Bls.Keys

namespace Absolute

/-- The arguments of `AsyncVerifyContributionShares`. -/
structure ShareInputs (P S : Type) where
  forId : CBLSId
  vvecs : List (Option (BLSVerificationVector P))
  skShares : List (Option S)
  parallel : Bool
  aggregated : Bool

namespace ShareInputs

variable {P S : Type} (inp : ShareInputs P S)

/-! ### Batches, as `Start` lays them out -/

def batchSize : Nat := if inp.aggregated then 8 else inp.vvecs.length

def batchCount : Nat := if inp.aggregated then (inp.vvecs.length + 8 - 1) / 8 else 1

/-- `batchStates[b].start`. -/
def start (b : Nat) : Nat := b * inp.batchSize

/-- `batchStates[b].count`. -/
def count (b : Nat) : Nat := min inp.batchSize (inp.vvecs.length - inp.start b)

/-- `vecs[0]->size()`, the number of keys in each vector. -/
def vecSize : Nat := ((inp.vvecs.head?.join).getD []).length

end ShareInputs

/-! ### Aggregation -/

section

variable {α : Type} (add : α → α → α)

/-- `key.AggregateInsecure(o)`, which asserts that both are valid. -/
def aggregateKey : Option α → Option α → Except Halt (Option α)
  | some a, some b => .ok (some (add a b))
  | _, _ => .error .assert

/-- `SyncAggregate(vec, 0, vec.size())`; a single key is passed on as it is. -/
def syncAggregate : List (Option α) → Except Halt (Option α)
  | [] => .error .outOfRange
  | key :: rest => rest.foldlM (aggregateKey add) key

end

section

variable {P S : Type} [DecidableEq P] (ops : BlsOps P S) (inp : ShareInputs P S)

/-- The keys at one place of the vectors of a batch. -/
def column (b idx : Nat) : Except Halt (BLSVerificationVector P) :=
  ((inp.vvecs.drop (inp.start b)).take (inp.count b)).mapM fun vvec => do
    let v ← pointee vvec
    at? v idx

/-- What the aggregator for this place of the vectors computes. -/
def aggregateColumn (b idx : Nat) : Except Halt (Option P) := do
  let keys ← column inp b idx
  syncAggregate ops.addPublicKeys keys

/-- What the aggregator of the shares of a batch computes. -/
def aggregateShares (b : Nat) : Except Halt (Option S) :=
  syncAggregate ops.addSecretKeys ((inp.skShares.drop (inp.start b)).take (inp.count b))

/-! ### Jobs -/

/-- `ContributionVerifier::BatchState`, with the fields of the batch's `VectorAggregator`. -/
structure BatchState (P S : Type) where
  vvec : Option (BLSVerificationVector P) := none
  skShare : Option S := none
  aggDone : Nat := 0
  verifyResults : List Bool
  result : BLSVerificationVector P
  doneCount : Nat := 0

/-- What a thread can have to do for a batch. -/
inductive Job where
  /-- `PushWork` or `PushOrDoWork`. -/
  | push (job : Job)
  | asyncAggregate
  /-- The aggregator for one place of the vectors, then `VectorAggregator::CheckDone`. -/
  | vvecElement (idx : Nat) (written : Bool)
  /-- `HandleAggVvecDone`. -/
  | vvecDone (written : Bool)
  /-- The aggregator of the shares, then `HandleAggSkShareDone`. -/
  | skShare (written : Bool)
  /-- `HandleAggDone`. -/
  | aggDone
  /-- Gives the whole batch one verdict, then `HandleVerifyDone`. -/
  | markBatch (verdict written : Bool)
  /-- The job of `AsyncAggregatedVerifyBatch`. -/
  | verifyAggregated
  /-- `AsyncVerifyBatchOneByOne`. -/
  | verifyOneByOne
  /-- The job for one entry of a batch, then `HandleVerifyDone`. -/
  | verifyOne (i : Nat) (written : Bool)
deriving DecidableEq

/-- `Verify(vvecs[i], skShares[i])`. -/
def verifyEntry (i : Nat) : Except Halt Bool := do
  let p ← at? inp.vvecs i
  let vvec ← pointee p
  let sk ← at? inp.skShares i
  return verifyContributionShare ops inp.forId vvec sk

/-- The end of `HandleAggVvecDone` and `HandleAggSkShareDone`. -/
def countAggDone (st : BatchState P S) : BatchState P S × List Job × Option Nat :=
  ({ st with aggDone := st.aggDone + 1 }, if st.aggDone + 1 = 2 then [.aggDone] else [], none)

/--
One piece of a job: the new state of the batch, what the thread does in the job's place, and
the argument of `HandleVerifyDone` where it is called.
-/
def runJob (b : Nat) (st : BatchState P S) :
    Job → Except Halt (BatchState P S × List Job × Option Nat)
  | .push job => .ok (st, [job], none)
  | .asyncAggregate =>
    -- the aggregator of the shares takes their addresses
    if inp.skShares.length < inp.start b + inp.count b then .error .outOfRange
    else .ok (st, (List.range inp.vecSize).map (fun idx => .push (.vvecElement idx false)) ++
      [.push (.skShare false)], none)
  | .vvecElement idx false => do
    let key ← aggregateColumn ops inp b idx
    return ({ st with result := st.result.set idx key }, [.vvecElement idx true], none)
  | .vvecElement _ true =>
    .ok ({ st with doneCount := st.doneCount + 1 },
      if st.doneCount + 1 = inp.vecSize then [.vvecDone false] else [], none)
  | .vvecDone false => .ok ({ st with vvec := some st.result }, [.vvecDone true], none)
  | .vvecDone true => .ok (countAggDone st)
  | .skShare false => do
    let key ← aggregateShares ops inp b
    return ({ st with skShare := key }, [.skShare true], none)
  | .skShare true => .ok (countAggDone st)
  | .aggDone =>
    if st.vvec.getD [] = [] ∨ st.skShare.isNone then .ok (st, [.markBatch false false], none)
    else .ok (st, [.push .verifyAggregated], none)
  | .verifyAggregated => do
    let vvec ← pointee st.vvec
    if verifyContributionShare ops inp.forId vvec st.skShare then
      return (st, [.markBatch true false], none)
    else return (st, [.verifyOneByOne], none)
  | .markBatch verdict false =>
    .ok ({ st with verifyResults := List.replicate (inp.count b) verdict },
      [.markBatch verdict true], none)
  | .markBatch _ true => .ok (st, [], some (inp.count b))
  | .verifyOneByOne =>
    .ok ({ st with verifyResults := List.replicate (inp.count b) false },
      (List.range (inp.count b)).map (fun i => .push (.verifyOne i false)), none)
  | .verifyOne i false => do
    let result ← verifyEntry ops inp (inp.start b + i)
    return ({ st with verifyResults := st.verifyResults.set i result }, [.verifyOne i true], none)
  | .verifyOne _ true => .ok (st, [], some 1)

/-! ### Threads -/

/-- A job of a batch, or `Finish`. -/
inductive Task where
  | job (b : Nat) (job : Job)
  | finish
deriving DecidableEq

structure ContributionVerifier (P S : Type) where
  batchStates : List (BatchState P S)
  verifyDoneCount : Nat := 0
  /-- The calls of `doneCallback` so far. -/
  calls : List (List Bool) := []
  deleted : Bool := false
  threads : List (List Task)

/--
`AsyncVerifyContributionShares`: either the callback is called at once, or the verifier is
started with the calling thread at the beginning of its loop over the batches.
-/
def asyncVerifyContributionShares : ContributionVerifier P S :=
  if inp.forId.isNone ∨ verifyVerificationVectors ops inp.vvecs = false then
    { batchStates := [], calls := [inp.vvecs.map fun _ => false], deleted := true, threads := [[]] }
  else
    { batchStates := (List.range inp.batchCount).map fun b =>
        { verifyResults := List.replicate (inp.count b) false
          result := List.replicate inp.vecSize none }
      threads :=
        [if inp.aggregated then (List.range inp.batchCount).map fun b => .job b .asyncAggregate
          else [.job 0 .verifyOneByOne]] }

/-- The vector that `Finish` passes on: the batches follow each other. -/
def finishResult (v : ContributionVerifier P S) : List Bool :=
  (v.batchStates.map (·.verifyResults)).flatten

/-- The next piece of work of a task, with what its thread goes on with and what it starts. -/
def runTask (v : ContributionVerifier P S) :
    Task → Except Halt (ContributionVerifier P S × List Task × List (List Task))
  | .finish =>
    if v.deleted then .error .useAfterFree
    else .ok ({ v with calls := v.calls ++ [finishResult v], deleted := true }, [], [])
  | .job b (.push job) =>
    if v.deleted then .error .useAfterFree
    else if inp.parallel then .ok (v, [], [[.job b job]])
    else .ok (v, [.job b job], [])
  | .job b job =>
    if v.deleted then .error .useAfterFree
    else do
      let st ← at? v.batchStates b
      let (st, next, verified) ← runJob ops inp b st job
      let v := { v with batchStates := v.batchStates.set b st }
      match verified with
      | none => return (v, next.map (.job b), [])
      | some n =>
        -- `HandleVerifyDone`
        let c := v.verifyDoneCount + n
        return ({ v with verifyDoneCount := c },
          next.map (.job b) ++ if c = inp.vvecs.length then [.finish] else [], [])

/-- One step of a thread that still has something to do. -/
def stepThread (v : ContributionVerifier P S) (k : Nat) :
    Option (Except Halt (ContributionVerifier P S)) :=
  match v.threads[k]? with
  | some (task :: rest) => some do
      let (v', next, spawned) ← runTask ops inp v task
      return { v' with threads := v.threads.set k (next ++ rest) ++ spawned }
  | _ => none

/-- A step of some thread. -/
def VerifierStep (v : ContributionVerifier P S) (k : Nat) (v' : ContributionVerifier P S) : Prop :=
  stepThread ops inp v k = some (.ok v')

end

end Absolute
