/-
Which messages of a batch are authentic, and which calls of a session return.

The conditions here are about the messages themselves, their senders and the operator keys of
the members they name; they say nothing about how the batch is checked.
-/
import AbsoluteCore.Llmq.DKGSessionHandler
import AbsoluteCore.Spec.ShareVerdicts

namespace Absolute

section

variable {σ M : Type} (env : Env) (ops : DKGMessageOps σ M) (session : σ)

/-- The signature verifies for the sign hash, under the operator key of the named member. -/
def Authentic (msg : M) : Prop :=
  ∃ member, ops.getMember session (ops.proTxHash msg) = some member ∧
    env.verifyInsecure (ops.sig msg) member.dmn.pdmnState.pubKeyOperator (ops.getSignHash msg) = true

/--
What the handler promises for a batch: only authentic messages reach the session, and every
peer it takes for bad has sent a message that is not authentic.
-/
def AuthenticatedBatch (pendingMessages : List (NodeId × Option M)) (maxCount : Nat) : Prop :=
  ∀ out, processPendingMessageBatch env ops session pendingMessages maxCount = .ok out →
    (∀ p ∈ out.handed, Authentic env ops session p.2) ∧
    ∀ nodeId ∈ out.badNodes, ∃ p ∈ preverifiedMessages ops session (pendingMessages.take maxCount),
        p.1 = nodeId ∧ ¬Authentic env ops session p.2

/--
A message is aggregated to others before it while its signature, or one of theirs, is null;
messages after the second one with the same sign hash are not looked at.
-/
def NullAggregated (messages : List (NodeId × M)) : Prop :=
  ∃ pre p post, messages = pre ++ p :: post ∧ pre ≠ [] ∧
    (pre.map fun q => ops.getSignHash q.2).Nodup ∧
    ∃ q ∈ pre ++ [p], (ops.sig q.2).isValid = false

/-- Every message that is not authentic comes from the sender of the last message. -/
def OnlyLastSenderBad (messages : List (NodeId × M)) : Prop :=
  ∀ p ∈ messages, ¬Authentic env ops session p.2 → ∀ last ∈ messages.getLast?, p.1 = last.1

end

/-! ### Calls that return -/

/--
The justification is safe to receive: it is not looked at, because its sender has sent another
one or is bad, or it names members only, and the sender's verification vector is there or some
named member did not complain.
-/
def JustificationSafe (s : CDKGSession) (hash : Uint256) (qj : CDKGJustification) : Prop :=
  ∀ member, s.getMember qj.proTxHash = some member →
    1 < (insert hash member.justifications).card ∨ member.bad = true ∨
    ((∀ p ∈ qj.contributions, p.1 < s.members.length) ∧
      ((∃ vvec, s.receivedVvecs[member.idx]? = some (some vvec)) ∨
        ∃ p ∈ qj.contributions, ∃ member2, s.members[p.1]? = some member2 ∧
          member2.dmn.proTxHash ∉ member.complaintsFromOthers))

/-- The arguments of the call to the worker. -/
def CDKGSession.pendingInputs (s : CDKGSession) : Except Halt (ShareInputs Nat Nat) := do
  let memberIndexes ← s.pendingIndexes
  let vvecs ← memberIndexes.mapM (at? s.receivedVvecs)
  let skContributions ← memberIndexes.mapM (at? s.receivedSkContributions)
  return { forId := s.myId, vvecs := vvecs, skShares := skContributions,
           parallel := true, aggregated := true }

/-- What the worker of the node can answer, for every call. -/
def WorkerFunction (ops : BlsOps Nat Nat) (verify : CBLSId → List (Option (BLSVerificationVector Nat)) →
    List (Option Nat) → Except Halt (List Bool)) : Prop :=
  ∀ forId vvecs skShares, WorkerAnswer ops ⟨forId, vvecs, skShares, true, true⟩
    (verify forId vvecs skShares)

/-- `VerifyPendingContributions` returns, whatever the schedule of the worker threads. -/
def VerifyPendingReturns (e : DKGEnv) (s : CDKGSession) : Prop :=
  ∀ verify, WorkerFunction e.bls verify →
    ∃ s', s.verifyPendingContributions { e with verifyContributionShares := verify } = .ok s'

end Absolute
