/-
Which shares are right, and which nodes are clean.
-/
import AbsoluteCore.Llmq.SigShares

namespace Absolute.CSigSharesManager

variable {S P : Type} (env : SigSharesEnv S P) (recoveredIds : Finset (Nat × Uint256))
  (byNodes : List (Int × List (CSigShare S)))

/-- The share verifies under the key of its member. -/
def RightShare (s : CSigShare S) : Prop :=
  ∃ sig, s.sigShare = some sig ∧ env.verifyInsecure sig
    (env.getPubKeyShare s.llmqType s.quorumHash s.quorumMember) (s.getSignHash env) = true

/-- Whatever is pushed for the node, the first share that was pushed under the key is right. -/
def CleanNode (node : Int) : Prop :=
  ∀ x ∈ pushes env recoveredIds byNodes, x.1 = node →
    ∃ msg, ((pushes env recoveredIds byNodes).map Prod.snd).find? (·.msgId = x.2.msgId) = some msg ∧
      env.verifyInsecure msg.sig msg.pubKey msg.msgHash = true

open Classical in
noncomputable def cleanShares : List (CSigShare S) :=
  (byNodes.filter fun p => CleanNode env recoveredIds byNodes p.1).flatMap Prod.snd

/-- The first share of each key is right, among those of clean nodes. -/
def FirstSharesRight : Prop :=
  ∀ s, (cleanShares env recoveredIds byNodes).find? (·.getKey env = s.getKey env) = some s →
    (s.llmqType, s.id) ∉ recoveredIds → RightShare env s

/-- The sign hash stands for the request. -/
def SignHashOfRequest : Prop :=
  ∀ s t : CSigShare S, s.getSignHash env = t.getSignHash env →
    s.llmqType = t.llmqType ∧ s.id = t.id

end Absolute.CSigSharesManager
