/-
What `AsyncVerifyContributionShares` is to answer.

Without threads the verifier goes through its batches one after the other.  Each batch is summed
up and accepted as a whole if its sums fit, and its entries are checked one by one otherwise.
`contributionVerdicts` is this computation, with every way in which it has no answer.
-/
import AbsoluteCore.Lib.Run
import AbsoluteCore.Bls.ContributionVerifier

namespace Absolute

variable {P S : Type} [DecidableEq P] (ops : BlsOps P S) (inp : ShareInputs P S)

/-! ### The answer -/

/-- The verdicts on the entries of a batch by themselves. -/
def individualVerdicts (b : Nat) : Except Halt (List Bool) :=
  (List.range (inp.count b)).mapM fun i => verifyEntry ops inp (inp.start b + i)

def batchVerdicts (b : Nat) : Except Halt (List Bool) :=
  if inp.aggregated then
    if inp.skShares.length < inp.start b + inp.count b then .error .outOfRange
    else do
      let vvec ← (List.range inp.vecSize).mapM (aggregateColumn ops inp b)
      let sk ← aggregateShares ops inp b
      -- no aggregator, so nobody calls back
      if vvec = [] then .error .blocked
      else if sk.isNone then return List.replicate (inp.count b) false
      else if verifyContributionShare ops inp.forId vvec sk then
        return List.replicate (inp.count b) true
      else individualVerdicts ops inp b
  else individualVerdicts ops inp b

/-- The call is answered at once. -/
def ShareInputs.Refused : Prop :=
  inp.forId.isNone ∨ verifyVerificationVectors ops inp.vvecs = false

instance : Decidable (inp.Refused ops) := by unfold ShareInputs.Refused; infer_instance

def contributionVerdicts : Except Halt (List Bool) :=
  if inp.Refused ops then .ok (inp.vvecs.map fun _ => false)
  else if inp.vvecs = [] then .error .blocked
  else do
    let verdicts ← (List.range inp.batchCount).mapM (batchVerdicts ops inp)
    return verdicts.flatten

/-! ### Schedules -/

/-- No thread has anything left to do. -/
def ContributionVerifier.Idle (v : ContributionVerifier P S) : Prop := ∀ thread ∈ v.threads, thread = []

/-- Some schedule leads to this state. -/
def Reaches (v : ContributionVerifier P S) : Prop :=
  ∃ tr, Lts.Run (VerifierStep ops inp) (asyncVerifyContributionShares ops inp) tr v

/--
Whatever the schedule, the threads come to an end without a fault, and by then the callback
was called once, with a verdict for each input.
-/
structure CallsBackOnce : Prop where
  bounded : ∃ n, ∀ tr v,
    Lts.Run (VerifierStep ops inp) (asyncVerifyContributionShares ops inp) tr v → tr.length ≤ n
  safe : ∀ v k h, Reaches ops inp v → stepThread ops inp v k ≠ some (.error h)
  once : ∀ v, Reaches ops inp v → v.Idle →
    ∃ verdicts, v.calls = [verdicts] ∧ verdicts.length = inp.vvecs.length

/-- How the call `VerifyContributionShares`, which waits for the callback, can come out. -/
inductive WorkerAnswer : Except Halt (List Bool) → Prop
  | returns {v : ContributionVerifier P S} {verdicts : List Bool} {later : List (List Bool)}
      (hv : Reaches ops inp v) (h : v.calls = verdicts :: later) : WorkerAnswer (.ok verdicts)
  | faults {v : ContributionVerifier P S} {k : Nat} {h : Halt} (hv : Reaches ops inp v)
      (hk : stepThread ops inp v k = some (.error h)) : WorkerAnswer (.error h)
  | blocks {v : ContributionVerifier P S} (hv : Reaches ops inp v) (hidle : v.Idle)
      (h : v.calls = []) : WorkerAnswer (.error .blocked)

/-! ### When there is an answer -/

/--
Either the call is refused, or there is something to verify, every vector has its share and,
where batches are summed up, the vectors hold keys and an invalid share is alone in its batch.
-/
def Answerable : Prop :=
  inp.Refused ops ∨
    (inp.vvecs ≠ [] ∧ inp.vvecs.length ≤ inp.skShares.length ∧
      (inp.aggregated = true → 0 < inp.vecSize ∧
        ∀ i < inp.vvecs.length, inp.skShares[i]? = some none →
          i % 8 = 0 ∧ i + 1 = inp.vvecs.length))

end Absolute
