/-
The handler that feeds a session with messages from the network.

`BatchVerifyMessageSigs` and `ProcessPendingMessageBatch` are templates over the four message
types.  What they use of a message and of the session is collected in `DKGMessageOps`.  An
aggregated signature keeps its parts, and verifying it is verifying each of them: that is the
idealisation of the pairing check.
-/
import AbsoluteCore.Llmq.DKGSession

namespace Absolute

/-- `NodeId`; -1 is the node itself. -/
abbrev NodeId := Int

/--
What the templates use of messages `M` and of sessions in state `σ`.

`receiveMessage` returns the new state and `retBan`; the overloads of the source clear the
flag and never set it, and `receive_ban` keeps that.  `preVerify_member` keeps that each
overload of `PreVerifyMessage` looks the member up.
-/
structure DKGMessageOps (σ M : Type) where
  proTxHash : M → Uint256
  sig : M → CBLSSignature
  getSignHash : M → Uint256
  serializeHash : M → Uint256
  getMember : σ → Uint256 → Option CDKGMember
  preVerifyMessage : σ → M → Bool × Bool
  receiveMessage : σ → Uint256 → M → σ × Bool
  preVerify_member : ∀ s msg, (preVerifyMessage s msg).1 = true → (getMember s (proTxHash msg)).isSome
  receive_ban : ∀ s hash msg, (receiveMessage s hash msg).2 = false

abbrev AggregatedSignature := List CBLSSignature

/-- `aggSig.AggregateInsecure(sig)`, which asserts that both are valid. -/
def aggregateInsecure (aggSig : AggregatedSignature) (sig : CBLSSignature) :
    Except Halt AggregatedSignature :=
  if aggSig.all CBLSSignature.isValid && sig.isValid then .ok (aggSig ++ [sig])
  else .error .assert

/-- `aggSig.VerifyInsecureAggregated(pubKeys, hashes)`; `CBLSSignature()` has no parts. -/
def verifyInsecureAggregated (env : Env) (aggSig : AggregatedSignature)
    (pubKeys : List CBLSPublicKey) (hashes : List Uint256) : Bool :=
  aggSig != [] && (aggSig.zip (pubKeys.zip hashes)).all fun (sig, pubKey, hash) =>
    env.verifyInsecure sig pubKey hash

section

variable {σ M : Type} (env : Env) (ops : DKGMessageOps σ M) (session : σ)

/-- The local variables of the first loop of `BatchVerifyMessageSigs`. -/
structure BatchScan where
  ret : Finset NodeId := ∅
  first : Bool := true
  aggSig : AggregatedSignature := []
  pubKeys : List CBLSPublicKey := []
  messageHashes : List Uint256 := []
  revertToSingleVerification : Bool := false

/-- The first loop; it breaks at the second message with one sign hash. -/
def scanMessages : BatchScan → List (NodeId × M) → Except Halt BatchScan
  | st, [] => .ok st
  | st, p :: rest =>
    match ops.getMember session (ops.proTxHash p.2) with
    | none => scanMessages { st with ret := insert p.1 st.ret } rest
    | some member => do
      let aggSig ← (if st.first then .ok [ops.sig p.2]
        else aggregateInsecure st.aggSig (ops.sig p.2) : Except Halt AggregatedSignature)
      let msgHash := ops.getSignHash p.2
      if msgHash ∈ st.messageHashes then
        return { st with aggSig := aggSig, first := false, revertToSingleVerification := true }
      else
        scanMessages { st with
          aggSig := aggSig
          first := false
          pubKeys := st.pubKeys ++ [member.dmn.pdmnState.pubKeyOperator]
          messageHashes := st.messageHashes ++ [msgHash] } rest

/-- The local variables of the loop that asks whether all messages are from one node. -/
structure SenderScan where
  first : Bool := true
  firstNodeId : NodeId := 0
  nodeIdsAllSame : Bool := true

/-- The loop itself, where `first` is only cleared in the branch that it guards. -/
def scanSenders : SenderScan → List (NodeId × M) → SenderScan
  | st, [] => st
  | st, p :: rest =>
    if st.first then scanSenders { st with firstNodeId := p.1 } rest
    else
      let st := { st with first := false }
      if p.1 ≠ st.firstNodeId then { st with nodeIdsAllSame := false }
      else scanSenders st rest

/-- The last loop: one verification for each message of a sender that is not bad yet. -/
def verifyOneByOne : Finset NodeId → List (NodeId × M) → Except Halt (Finset NodeId)
  | ret, [] => .ok ret
  | ret, p :: rest =>
    if p.1 ∈ ret then verifyOneByOne ret rest
    else do
      let member ← pointee (ops.getMember session (ops.proTxHash p.2))
      if env.verifyInsecure (ops.sig p.2) member.dmn.pdmnState.pubKeyOperator
          (ops.getSignHash p.2) then
        verifyOneByOne ret rest
      else verifyOneByOne (insert p.1 ret) rest

/-- `BatchVerifyMessageSigs`: the nodes that sent invalid messages. -/
def batchVerifyMessageSigs (messages : List (NodeId × M)) : Except Halt (Finset NodeId) := do
  if messages.isEmpty then return ∅
  else do
    let st ← scanMessages ops session {} messages
    if st.revertToSingleVerification then verifyOneByOne env ops session st.ret messages
    else if verifyInsecureAggregated env st.aggSig st.pubKeys st.messageHashes then return st.ret
    else
      let senders := scanSenders {} messages
      if senders.nodeIdsAllSame then return insert senders.firstNodeId st.ret
      else verifyOneByOne env ops session st.ret messages

/-- The messages that could be deserialized and pass `PreVerifyMessage`, in order. -/
def preverifiedMessages (msgs : List (NodeId × Option M)) : List (NodeId × M) :=
  msgs.filterMap fun (nodeId, msg) => msg.bind fun m =>
    if (ops.preVerifyMessage session m).1 then some (nodeId, m) else none

/-- The delivery loop, with the messages it hands to `ReceiveMessage`. -/
def deliver : Finset NodeId → σ → List (NodeId × M) → List (NodeId × M) × σ
  | _, session, [] => ([], session)
  | badNodes, session, p :: rest =>
    if p.1 ∈ badNodes then deliver badNodes session rest
    else
      let (session, ban) := ops.receiveMessage session (ops.serializeHash p.2) p.2
      let (handed, session) := deliver (if ban then insert p.1 badNodes else badNodes) session rest
      (p :: handed, session)

/-- What a batch leads to, if the node survives verifying it. -/
structure BatchOutcome (σ M : Type) where
  /-- The result of `BatchVerifyMessageSigs`. -/
  badNodes : Finset NodeId
  /-- The messages handed to `ReceiveMessage`. -/
  handed : List (NodeId × M)
  session : σ

/--
`ProcessPendingMessageBatch`, with the messages that `PopAndDeserializeMessages` returns:
nothing stands for a message that could not be deserialized.
-/
def processPendingMessageBatch (pendingMessages : List (NodeId × Option M)) (maxCount : Nat) :
    Except Halt (BatchOutcome σ M) := do
  let preverified := preverifiedMessages ops session (pendingMessages.take maxCount)
  if preverified.isEmpty then return ⟨∅, [], session⟩
  else do
    let badNodes ← batchVerifyMessageSigs env ops session preverified
    let (handed, session) := deliver ops badNodes session preverified
    return ⟨badNodes, handed, session⟩

end

/-! ### The four message types

A node whose session has stopped it is a failed session: it looks nobody up and receives
nothing.
-/

section

variable {M : Type} (getSignHash serializeHash : M → Uint256)

/-- The templates at a message type, from the overloads of the session. -/
def sessionOps (proTxHash : M → Uint256) (sig : M → CBLSSignature)
    (preVerify : CDKGSession → M → Bool × Bool)
    (receive : CDKGSession → Uint256 → M → Except Halt CDKGSession)
    (hmember : ∀ s msg, (preVerify s msg).1 = true → (s.getMember (proTxHash msg)).isSome) :
    DKGMessageOps (Except Halt CDKGSession) M where
  proTxHash := proTxHash
  sig := sig
  getSignHash := getSignHash
  serializeHash := serializeHash
  getMember
    | .ok s, hash => s.getMember hash
    | .error _, _ => none
  preVerifyMessage
    | .ok s, msg => preVerify s msg
    | .error _, _ => (false, false)
  receiveMessage s hash msg := (s >>= fun s => receive s hash msg, false)
  preVerify_member
    | .ok s, msg, h => hmember s msg h
    | .error _, _, h => by simp at h
  receive_ban _ _ _ := rfl

end

section

open CDKGSession

def complaintOps (getSignHash serializeHash : CDKGComplaint → Uint256) :
    DKGMessageOps (Except Halt CDKGSession) CDKGComplaint :=
  sessionOps getSignHash serializeHash (·.proTxHash) (·.sig) preVerifyComplaint
    receiveComplaint fun _ _ h => preVerifyMessage_member h

end

end Absolute
