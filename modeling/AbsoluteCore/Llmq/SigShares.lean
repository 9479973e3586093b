/-
Signature shares from other nodes.

`ProcessPendingSigShares` verifies what the nodes have sent in one batch and then takes the shares of
every node that was not found bad.  What `TryRecoverSig` makes of the stored shares, the sign hashes
and the keys of the members are given from outside.  Bans and announcements are left out.
-/
import Mathlib.Data.Prod.Lex
import AbsoluteCore.Spec.BatchVerifier

namespace Absolute

structure CSigShare (S : Type) where
  llmqType : Nat
  quorumHash : Uint256
  quorumMember : Nat
  id : Uint256
  msgHash : Uint256
  /-- `sigShare.Get()`, if it is valid. -/
  sigShare : Option S
deriving DecidableEq, Repr

structure SigSharesEnv (S P : Type) where
  buildSignHash : Nat → Uint256 → Uint256 → Uint256 → Uint256
  /-- `quorum->GetPubKeyShare(member)`, for the quorum with this type and hash. -/
  getPubKeyShare : Nat → Uint256 → Nat → P
  verifyInsecure : S → P → Uint256 → Bool

/-- `SigShareKey`, in the order of pairs. -/
abbrev SigShareKey := Uint256 ×ₗ Nat

namespace CSigShare

variable {S P : Type} (env : SigSharesEnv S P) (s : CSigShare S)

def getSignHash : Uint256 := env.buildSignHash s.llmqType s.quorumHash s.id s.msgHash

def getKey : SigShareKey := toLex (s.getSignHash env, s.quorumMember)

/-- What is pushed for a share with this signature. -/
def toMessage (sig : S) : BatchMessage SigShareKey S P :=
  ⟨s.getKey env, s.getSignHash env, sig, env.getPubKeyShare s.llmqType s.quorumHash s.quorumMember⟩

end CSigShare

structure CSigSharesManager (S : Type) where
  sigShares : List (CSigShare S)
  /-- The ids with `quorumSigningManager->HasRecoveredSigForId`. -/
  recoveredIds : Finset (Nat × Uint256)

namespace CSigSharesManager

variable {S P : Type} [DecidableEq S] [DecidableEq P] (env : SigSharesEnv S P)
  (recovers : List (CSigShare S) → CSigShare S → Bool)

/-- What is pushed for one node; the first invalid signature ends it. -/
def toVerify (recoveredIds : Finset (Nat × Uint256)) :
    List (CSigShare S) → List (BatchMessage SigShareKey S P)
  | [] => []
  | s :: rest =>
    if (s.llmqType, s.id) ∈ recoveredIds then toVerify recoveredIds rest
    else
      match s.sigShare with
      | none => []
      | some sig => s.toMessage env sig :: toVerify recoveredIds rest

/-- The calls of `PushMessage` for all nodes. -/
def pushes (recoveredIds : Finset (Nat × Uint256)) (byNodes : List (Int × List (CSigShare S))) :
    List (Int × BatchMessage SigShareKey S P) :=
  byNodes.flatMap fun p => (toVerify env recoveredIds p.2).map fun msg => (p.1, msg)

/-- `ProcessSigShare`; the list has the shares that `sigShares.Add` took. -/
def processSigShare (m : CSigSharesManager S × List (CSigShare S)) (s : CSigShare S) :
    CSigSharesManager S × List (CSigShare S) :=
  if (s.llmqType, s.id) ∈ m.1.recoveredIds then m
  else if ∃ known ∈ m.1.sigShares, known.getKey env = s.getKey env then m
  else
    let sigShares := m.1.sigShares ++ [s]
    ({ sigShares := sigShares
       recoveredIds :=
        if recovers sigShares s then insert (s.llmqType, s.id) m.1.recoveredIds
        else m.1.recoveredIds },
      m.2 ++ [s])

/-- `ProcessPendingSigShares` for the collected shares, with an idealised batch verification. -/
def processPendingSigShares (m : CSigSharesManager S) (byNodes : List (Int × List (CSigShare S))) :
    CSigSharesManager S × List (CSigShare S) :=
  let checks := BatchChecks.ideal fun msg => env.verifyInsecure msg.sig msg.pubKey msg.msgHash
  let batchVerifier := (CBLSBatchVerifier.pushAll checks { perMessageFallback := true }
    (pushes env m.recoveredIds byNodes)).verify checks
  byNodes.foldl (fun m p =>
    if p.1 ∈ batchVerifier.badSources then m
    else p.2.foldl (processSigShare env recovers) m) (m, [])

end CSigSharesManager

end Absolute
