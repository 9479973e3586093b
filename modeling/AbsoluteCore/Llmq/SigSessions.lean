/-
Signing sessions with a peer.

A peer announces a session under an id of its choice and names it by that id afterwards.  The sessions
are kept under their sign hashes, with a pointer to the session for each id.  A pointer is modelled by
the sign hash its session is kept under: one that dangles shows when its session is removed.  What is
sent to a peer is cut into messages that it will take.
-/
import AbsoluteCore.Lib.Batches
import AbsoluteCore.Llmq.MinableCommitments

namespace Absolute

/-- What `BuildSignHash` and `InitSession` read of a share or an announcement. -/
structure SigSource where
  llmqType : Nat
  quorumHash : Uint256
  id : Uint256
  msgHash : Uint256
deriving DecidableEq, Repr

structure CSigSesAnn extends SigSource where
  sessionId : UInt32
deriving DecidableEq, Repr

structure CSigSharesInv where
  sessionId : UInt32
  inv : List Bool

def CSigSharesInv.countSet (inv : CSigSharesInv) : Nat := inv.inv.count true

structure CBatchedSigShares (S : Type) where
  sessionId : UInt32
  sigShares : List (Nat × S)

structure SigSessionEnv where
  /-- `Params().GetConsensus().llmqs.count(llmqType)`. -/
  known : Nat → Bool
  /-- The sizes of the quorums of these types. -/
  size : Nat → Nat
  buildSignHash : SigSource → Uint256

def CSigSesAnn.valid (env : SigSessionEnv) (ann : CSigSesAnn) : Bool :=
  env.known ann.llmqType && ann.sessionId != 0xffffffff && ann.quorumHash != 0 && ann.id != 0 &&
    ann.msgHash != 0

/-- `CSigSharesNodeState::Session`, without what the node sends in it. -/
structure SigSession (Q : Type) where
  recvSessionId : UInt32 := 0xffffffff
  source : SigSource := ⟨0, 0, 0, 0⟩
  signHash : Uint256 := 0
  quorum : Option Q := none
  announced : List Bool := []

structure CSigSharesNodeState (Q : Type) where
  sessions : Uint256 → Option (SigSession Q) := fun _ => none
  sessionByRecvId : UInt32 → Option Uint256 := fun _ => none

namespace CSigSharesNodeState

variable {Q : Type} (env : SigSessionEnv) (s : CSigSharesNodeState Q)

/-- The session under a sign hash, which `InitSession` sets up if it is new. -/
def getOrCreateSession (source : SigSource) : SigSession Q :=
  let session := (s.sessions (env.buildSignHash source)).getD {}
  if session.announced = [] then
    { session with
      source := source
      signHash := env.buildSignHash source
      announced := List.replicate (env.size source.llmqType) false }
  else session

/-- `GetOrCreateSessionFromShare`, for a share of a known quorum. -/
def getOrCreateSessionFromShare (source : SigSource) : CSigSharesNodeState Q :=
  { s with
    sessions := Function.update s.sessions (env.buildSignHash source)
      (some (s.getOrCreateSession env source)) }

def getSessionByRecvId (sessionId : UInt32) : Option Uint256 := s.sessionByRecvId sessionId

def removeSession (signHash : Uint256) : CSigSharesNodeState Q :=
  match s.sessions signHash with
  | none => s
  | some session =>
    { sessions := Function.update s.sessions signHash none
      sessionByRecvId := Function.update s.sessionByRecvId session.recvSessionId none }

/-- What an announcement does once its quorum is found. -/
def announce (ann : CSigSesAnn) (quorum : Q) : CSigSharesNodeState Q :=
  let signHash := env.buildSignHash ann.toSigSource
  let session := s.getOrCreateSession env ann.toSigSource
  let byRecvId := Function.update s.sessionByRecvId session.recvSessionId none
  let byRecvId := Function.update byRecvId ann.sessionId none
  let session := { session with recvSessionId := ann.sessionId, quorum := some quorum }
  { sessions := Function.update s.sessions signHash (some session)
    sessionByRecvId := emplace byRecvId ann.sessionId signHash }

/-- `ProcessMessageSigSesAnn`, with the answer of `GetQuorum`; a peer is banned for `false`. -/
def processMessageSigSesAnn (ann : CSigSesAnn) (quorum : Option Q) : Bool × CSigSharesNodeState Q :=
  if !ann.valid env then (false, s)
  else
    match quorum with
    | none => (true, s)
    | some quorum => (true, s.announce env ann quorum)

end CSigSharesNodeState

/-! ### What is sent -/

/-- The messages about signing sessions. -/
inductive SigSharesMessage (S : Type) where
  | qsigsesann (msgs : List CSigSesAnn)
  | qgetsigshares (msgs : List CSigSharesInv)
  | qbsigshares (msgs : List (CBatchedSigShares S))
  | qsigsharesinv (msgs : List CSigSharesInv)

/-- What `SendMessages` has collected for a peer, with the sets in the order it walks them.  It
asserts that none is empty. -/
structure CollectedSigShares (S : Type) where
  sigSessionAnnouncements : List CSigSesAnn
  sigSharesToRequest : List CSigSharesInv
  sigSharesToSend : List (CBatchedSigShares S)
  sigSharesToAnnounce : List CSigSharesInv
  request_ne : ∀ inv ∈ sigSharesToRequest, inv.countSet ≠ 0
  send_ne : ∀ batch ∈ sigSharesToSend, batch.sigShares ≠ []
  announce_ne : ∀ inv ∈ sigSharesToAnnounce, inv.countSet ≠ 0

namespace CSigSharesManager

variable {S : Type}

def maxMsgsCntQSIGSESANN : Nat := 100
def maxMsgsCntQGETSIGSHARES : Nat := 200
def maxMsgsCntQSIGSHARESINV : Nat := 200
def maxMsgsTotalBatchedSigs : Nat := 400

/-- The messages that `SendMessages` pushes to a peer. -/
def sendMessages (c : CollectedSigShares S) : List (SigSharesMessage S) :=
  (Batches.full maxMsgsCntQSIGSESANN [] c.sigSessionAnnouncements).map .qsigsesann ++
  (Batches.full maxMsgsCntQGETSIGSHARES [] c.sigSharesToRequest).map .qgetsigshares ++
  (Batches.weighed maxMsgsTotalBatchedSigs (fun p => p.sigShares.length) 0 []
    c.sigSharesToSend).map .qbsigshares ++
  (Batches.full maxMsgsCntQSIGSHARESINV [] c.sigSharesToAnnounce).map .qsigsharesinv

/-- The size checks of `ProcessMessage`; a peer is banned for a message that fails them. -/
def tooMany : SigSharesMessage S → Bool
  | .qsigsesann msgs => maxMsgsCntQSIGSESANN < msgs.length
  | .qgetsigshares msgs => maxMsgsCntQGETSIGSHARES < msgs.length
  | .qbsigshares msgs => maxMsgsTotalBatchedSigs < (msgs.map fun bs => bs.sigShares.length).sum
  | .qsigsharesinv msgs => maxMsgsCntQSIGSHARESINV < msgs.length

end CSigSharesManager

end Absolute
