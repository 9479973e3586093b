/-
What the batch verifier finds.

A run of pushes falls into batches.  A batch that passes as a whole tells nothing of its parts, and so
does the part of one source.  Over signatures that are a group, what makes a sum pass that has a wrong
signature in it is that the errors cancel.
-/
import Mathlib.Algebra.BigOperators.Group.Finset.Basic
import AbsoluteCore.Bls.BatchVerifier

namespace Absolute

variable {ι κ S P : Type} [LinearOrder ι] [LinearOrder κ] [DecidableEq S] [DecidableEq P]

namespace BatchChecks

variable (checks : BatchChecks κ S P)

def Passes (msgs : List (BatchMessage κ S P)) : Prop :=
  checks.verifyBatch (byMessageHash msgs) = true

def Right (msg : BatchMessage κ S P) : Prop :=
  checks.verifyInsecure msg = true

/-- A batch of one message is checked like the message. -/
def Single : Prop :=
  ∀ msg : BatchMessage κ S P, checks.Passes [msg] ↔ checks.Right msg

/-- A batch passes when all of its messages are right. -/
def ideal (verifyInsecure : BatchMessage κ S P → Bool) : BatchChecks κ S P where
  verifyInsecure := verifyInsecure
  verifyBatch groups := groups.all fun p => p.2.all verifyInsecure

end BatchChecks

/-- Calls of `PushMessage`, each with its source. -/
def CBLSBatchVerifier.pushAll (checks : BatchChecks κ S P) (v : CBLSBatchVerifier ι κ S P)
    (pushes : List (ι × BatchMessage κ S P)) : CBLSBatchVerifier ι κ S P :=
  pushes.foldl (fun v x => v.pushMessage checks x.1 x.2) v

namespace Batch

/-- The batches of a run of pushes, where some messages are there already. -/
def split (subBatchSize : Nat) (batch : List (ι × BatchMessage κ S P)) :
    List (ι × BatchMessage κ S P) → List (List (ι × BatchMessage κ S P))
  | [] => [batch]
  | x :: pushes =>
    if subBatchSize ≠ 0 ∧ (messages (push batch x)).length ≥ subBatchSize then
      push batch x :: split subBatchSize [] pushes
    else split subBatchSize (push batch x) pushes

variable (passes : List (BatchMessage κ S P) → Prop) (right : BatchMessage κ S P → Prop)

/-- The batch fails and the messages of the source are found to be the reason. -/
structure FailedSource (batch : List (ι × BatchMessage κ S P)) (source : ι) : Prop where
  failed : ¬ passes (messages batch)
  sent : ∃ x ∈ batch, x.1 = source
  fails : (∀ x ∈ batch, x.1 = source) ∨ ¬ passes (Buckets.under batch source)

/-- A failed source has sent the id with a wrong message. -/
def FailedMessage (batch : List (ι × BatchMessage κ S P)) (msgId : κ) : Prop :=
  ∃ x ∈ batch, x.2.msgId = msgId ∧ ¬ right x.2 ∧ FailedSource passes batch x.1

def Caught (perMessageFallback : Bool) (batch : List (ι × BatchMessage κ S P))
    (x : ι × BatchMessage κ S P) : Prop :=
  FailedSource passes batch x.1 ∨
    perMessageFallback = true ∧ FailedMessage passes right batch x.2.msgId

end Batch

/-! ### Signatures as a group -/

variable {G : Type} [AddCommGroup G] [DecidableEq G] [AddCommMonoid P]

/-- Each key has one signature on each hash, and the signature of a sum of keys is the sum of the
signatures. -/
def BlsSigOps.ofGroup (sign : Uint256 → P →+ G) : BlsSigOps G P where
  aggregateSigs a b := a + b
  aggregateKeys a b := a + b
  verifyInsecure sig pubKey msgHash := sig = sign msgHash pubKey
  verifyInsecureAggregated sig pubKeys msgHashes :=
    sig = ((pubKeys.zip msgHashes).map fun p => sign p.2 p.1).sum

namespace BatchMessage

variable (sign : Uint256 → P →+ G)

def Right (msg : BatchMessage κ G P) : Prop := msg.sig = sign msg.msgHash msg.pubKey

instance (msg : BatchMessage κ G P) : Decidable (msg.Right sign) := inferInstanceAs (Decidable (_ = _))

/-- How far the signature is off. -/
def error (msg : BatchMessage κ G P) : G := msg.sig - sign msg.msgHash msg.pubKey

/-- The errors of the messages cancel in the sums that are compared: one sum over all of them or, in
the secure mode, a sum for each place from the end, with one message of each hash. -/
def ErrorsCancel (secureVerification : Bool)
    (msgs : List (BatchMessage κ G P)) : Prop :=
  if secureVerification then
    ∀ n : Nat, ((byMessageHash msgs).map fun p => (p.2.reverse[n]?).elim 0 (error sign)).sum = 0
  else ∑ msg ∈ msgs.toFinset, error sign msg = 0

end BatchMessage

end Absolute
