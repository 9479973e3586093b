/-
What the ids of a peer should stand for.

Beside the state of a peer runs a record of its announcements, which forgets an id only when its
session is removed or announced under another id.
-/
import AbsoluteCore.Llmq.SigSessions

namespace Absolute

/-- A peer, with the sign hash that was last announced with each id. -/
structure SigPeer (Q : Type) where
  state : CSigSharesNodeState Q := {}
  last : UInt32 → Option Uint256 := fun _ => none

inductive SigPeerOp (Q : Type) where
  /-- An announcement, and the answer of `GetQuorum` for it. -/
  | announce (ann : CSigSesAnn) (quorum : Option Q)
  | share (source : SigSource)
  | remove (signHash : Uint256)

namespace SigPeer

variable {Q : Type} (env : SigSessionEnv) (p : SigPeer Q)

/-- The announcements without those of a session. -/
def forget (signHash : Uint256) (id : UInt32) : Option Uint256 :=
  if p.last id = some signHash then none else p.last id

def apply : SigPeerOp Q → SigPeer Q
  | .announce ann quorum =>
    let signHash := env.buildSignHash ann.toSigSource
    { state := (p.state.processMessageSigSesAnn env ann quorum).2
      last :=
        if ann.valid env && quorum.isSome then
          Function.update (p.forget signHash) ann.sessionId (some signHash)
        else p.last }
  | .share source => { p with state := p.state.getOrCreateSessionFromShare env source }
  | .remove signHash => ⟨p.state.removeSession signHash, p.forget signHash⟩

def run (ops : List (SigPeerOp Q)) : SigPeer Q := ops.foldl (apply env) {}

/-- Each id finds the session that was last announced with it, and each pointer a session that has
its id. -/
structure Right : Prop where
  announced : ∀ id signHash, p.last id = some signHash →
    p.state.getSessionByRecvId id = some signHash ∧ (p.state.sessions signHash).isSome
  pointer : ∀ id signHash, p.state.sessionByRecvId id = some signHash →
    ∃ session, p.state.sessions signHash = some session ∧ session.recvSessionId = id

/-- A session is not announced, where this has an effect, under an id that another one has. -/
def Unused : SigPeerOp Q → Prop
  | .announce ann quorum => ann.valid env = true → quorum.isSome →
      ∀ signHash session, p.state.sessions signHash = some session →
        session.recvSessionId = ann.sessionId → signHash = env.buildSignHash ann.toSigSource
  | _ => True

/-- Every step of a run meets the condition. -/
def AllUnused (p : SigPeer Q) : List (SigPeerOp Q) → Prop
  | [] => True
  | op :: ops => p.Unused env op ∧ AllUnused (p.apply env op) ops

end SigPeer

end Absolute
