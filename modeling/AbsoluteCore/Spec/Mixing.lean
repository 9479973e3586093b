/-
What a mixing session promises, over whole runs of its server.

A run is any sequence of messages from any peers and of rounds of the scheduler.  Each
of them comes with its own view of the chain and its own random numbers, so a run also
stands for everything that can happen between the messages.
-/
import AbsoluteCore.Lib.Run
import AbsoluteCore.PrivateSend.Client
import AbsoluteCore.PrivateSend.Server

namespace Absolute

/-! ### Runs -/

inductive ServerMessage where
  | dsAccept (pfrom : Peer) (dsa : CPrivateSendAccept)
  | dsVin (pfrom : Peer) (msg : EntryMessage)
  | dsSignFinalTx (pfrom : Peer) (vecTxIn : List CTxIn)
  | dsQueue (pfrom : Peer) (dsq : CPrivateSendQueue)
  | maintenance
deriving DecidableEq, Repr

/-- A message, and what the server sees and draws while it handles it. -/
structure ServerInput where
  message : ServerMessage
  view : View
  draws : Draws

namespace CPrivateSendServer

def handle (env : MixingEnv) (s : CPrivateSendServer) (i : ServerInput) :
    Except Fail (CPrivateSendServer × List Sent) :=
  match i.message with
  | .dsAccept pfrom dsa => s.processDSAccept env i.view i.draws pfrom dsa
  | .dsVin pfrom msg => s.processDSVin env i.view i.draws pfrom msg
  | .dsSignFinalTx pfrom vecTxIn => .ok (s.processDSSignFinalTx env i.view i.draws pfrom vecTxIn)
  | .dsQueue pfrom dsq => .ok (s.processDSQueue i.view pfrom dsq)
  | .maintenance => .ok (s.doMaintenance env i.view i.draws)

def Step (env : MixingEnv) (s : CPrivateSendServer) (i : ServerInput) (s' : CPrivateSendServer) :
    Prop :=
  ∃ sent, s.handle env i = .ok (s', sent)

abbrev Run (env : MixingEnv) (tr : List (CPrivateSendServer × ServerInput × CPrivateSendServer))
    (s : CPrivateSendServer) : Prop :=
  Lts.Run (Step env) {} tr s

end CPrivateSendServer

/-! ### Entries -/

def CPrivateSendEntry.prevouts (entry : CPrivateSendEntry) : List COutPoint :=
  entry.vecTxDSIn.map fun txin => txin.prevout

def MixingEnv.worth (env : MixingEnv) (prevout : COutPoint) : Int :=
  ((env.output prevout).map CTxOut.nValue).getD 0

/-- The same collateral, in the sense of `operator==` on transactions. -/
def MixingEnv.SameCollateral (env : MixingEnv) (a b : CMutableTransaction) : Prop :=
  env.getHash a = env.getHash b

instance (env : MixingEnv) (a b : CMutableTransaction) : Decidable (env.SameCollateral a b) :=
  inferInstanceAs (Decidable (env.getHash a = env.getHash b))

namespace CPrivateSendServer

/-- The session is as its participants expect it. -/
structure SessionInvariant (env : MixingEnv) (s : CPrivateSendServer) : Prop where
  /-- No outpoint is spent twice, be it by one entry. -/
  distinct : (s.vecEntries.flatMap CPrivateSendEntry.prevouts).Nodup
  /-- The distinct inputs of an entry are worth its outputs. -/
  worth : ∀ entry ∈ s.vecEntries,
    (entry.prevouts.dedup.map env.worth).sum = sumOutputs entry.vecTxOut
  /-- Its outputs have the denominations of the session. -/
  denominations : ∀ entry ∈ s.vecEntries, getDenominations entry.vecTxOut = s.nSessionDenom
  /-- Its collateral is one of those the session was registered with. -/
  registered : ∀ entry ∈ s.vecEntries,
    ∃ txCollateral ∈ s.vecSessionCollaterals, env.SameCollateral txCollateral entry.txCollateral
  unshared : s.vecEntries.Pairwise fun a b => ¬ env.SameCollateral a.txCollateral b.txCollateral

/-- The entry in the message is what a cooperating client sends to this session: different coins, a
collateral that was registered and that no entry has, and, if it is the first entry, outputs of the
denominations of the session. -/
def ProperMessage (env : MixingEnv) (s : CPrivateSendServer) (msg : EntryMessage) : Prop :=
  (msg.vecTxIn.map (·.prevout)).Nodup ∧
    (s.vecEntries = [] → getDenominations msg.vecTxOut = s.nSessionDenom) ∧
    (∃ txCollateral ∈ s.vecSessionCollaterals,
      env.SameCollateral txCollateral msg.txCollateral) ∧
    ∀ other ∈ s.vecEntries, ¬ env.SameCollateral other.txCollateral msg.txCollateral

instance (env : MixingEnv) (s : CPrivateSendServer) (msg : EntryMessage) :
    Decidable (ProperMessage env s msg) := inferInstanceAs (Decidable (_ ∧ _ ∧ _ ∧ _))

/-- A message with an entry that comes while the session takes entries is proper. -/
def ProperInput (env : MixingEnv) (s : CPrivateSendServer) (i : ServerInput) : Prop :=
  ∀ pfrom msg, i.message = .dsVin pfrom msg → s.isSessionReady = true →
    s.vecEntries.length < s.nSessionMaxParticipants → ProperMessage env s msg

/-- A step accepts an entry: the entry, and the session right after `AddEntry`. -/
def Accepts (env : MixingEnv) (s : CPrivateSendServer) (i : ServerInput)
    (entry : CPrivateSendEntry) (s' : CPrivateSendServer) : Prop :=
  ∃ pfrom msg, i.message = .dsVin pfrom msg ∧ minPrivateSendPeerProtoVersion ≤ pfrom.nVersion ∧
    entry = CPrivateSendEntry.unserialize msg pfrom.addr ∧
    s.admitEntry env i.view entry = .ok (.ok s')

end CPrivateSendServer

/-! ### Signatures -/

/-- The script of `txin` satisfies the coin it spends, at a place of `tx` with this input. -/
def MixingEnv.Satisfies (env : MixingEnv) (tx : CMutableTransaction) (txin : CTxIn) : Prop :=
  ∃ nIn at' out, tx.vin[nIn]? = some at' ∧ at'.prevout = txin.prevout ∧
    at'.nSequence = txin.nSequence ∧ env.output txin.prevout = some out ∧
    env.verifyInput tx nIn txin.scriptSig out.scriptPubKey = true

namespace CPrivateSendServer

variable (env : MixingEnv) (s : CPrivateSendServer)

/-- No input of the session has this script yet. -/
def FreshSig (scriptSig : CScript) : Prop :=
  ∀ txdsin ∈ s.inputs, txdsin.scriptSig ≠ scriptSig

def HasInput (txin : CTxIn) : Prop :=
  ∃ txdsin ∈ s.inputs, txdsin.prevout = txin.prevout ∧ txdsin.nSequence = txin.nSequence

/-- The script of `txin` leaves true on the stack by itself, without the script of a coin. -/
def TrueAlone (txin : CTxIn) : Prop :=
  ∃ nIn, LastMatch.find (fun prevout => prevout == txin.prevout)
      (s.inputs.map fun txdsin => txdsin.prevout) = some (nIn, txin.prevout) ∧
    env.verifyInput s.entriesTx nIn txin.scriptSig [] = true

/-- What the check of a signature takes for granted: no coin is in the session twice, the scripts of
the coins are empty, and the final transaction has the order of the entries. -/
structure PlainCoins : Prop where
  distinct : (s.inputs.map fun txdsin => txdsin.prevout).Nodup
  scripts : ∀ txdsin ∈ s.inputs, (env.output txdsin.prevout).map CTxOut.scriptPubKey = some []
  order : s.finalMutableTransaction.withoutSigs = s.entriesTx.withoutSigs

instance : Decidable (PlainCoins env s) :=
  decidable_of_iff
    ((s.inputs.map fun txdsin => txdsin.prevout).Nodup ∧
      (∀ txdsin ∈ s.inputs, (env.output txdsin.prevout).map CTxOut.scriptPubKey = some []) ∧
      s.finalMutableTransaction.withoutSigs = s.entriesTx.withoutSigs)
    ⟨fun h => ⟨h.1, h.2.1, h.2.2⟩, fun h => ⟨h.distinct, h.scripts, h.order⟩⟩

/-- A message with signatures comes for a final transaction of such coins. -/
def GoodSignatures (i : ServerInput) : Prop :=
  ∀ pfrom vecTxIn, i.message = .dsSignFinalTx pfrom vecTxIn → s.nState = .signing ∧ PlainCoins env s

/-! ### Charges -/

/-- The signatures of a message meet nothing that would stop them, in the state they find. -/
structure Unhindered (env : MixingEnv) (s : CPrivateSendServer) (vecTxIn : List CTxIn) : Prop where
  /-- They are for inputs of the session, and nobody has signed those before. -/
  unsigned : ∀ txin ∈ vecTxIn, s.HasInput txin ∧ ∀ txdsin ∈ s.inputs,
    txdsin.prevout = txin.prevout → txdsin.nSequence = txin.nSequence → txdsin.fHasSig = false
  /-- Each is for an input of its own. -/
  once : (vecTxIn.map fun txin => txin.prevout).Nodup
  /-- Nobody has used these scripts before, and no two are the same. -/
  fresh : ∀ txin ∈ vecTxIn, s.FreshSig txin.scriptSig
  different : (vecTxIn.map fun txin => txin.scriptSig).Nodup
  valid : ∀ txin ∈ vecTxIn, s.TrueAlone env txin

/-- While the server waited for the signatures of this session, one came for the input, unhindered. -/
def SignedInTime
    (tr : List (CPrivateSendServer × ServerInput × CPrivateSendServer)) (input : CTxDSIn) : Prop :=
  ∃ before t i t' after, tr = before ++ (t, i, t') :: after ∧
    t.nState = .signing ∧ (∀ x ∈ after, x.1.nState = .signing) ∧
    ∃ pfrom vecTxIn, i.message = .dsSignFinalTx pfrom vecTxIn ∧
      minPrivateSendPeerProtoVersion ≤ pfrom.nVersion ∧ Unhindered env t vecTxIn ∧
      ∃ txin ∈ vecTxIn, txin.prevout = input.prevout ∧ txin.nSequence = input.nSequence

end CPrivateSendServer

/-! ### Clients -/

namespace CPrivateSendEntry

/-- The signature is for an input of the entry. -/
def Signs (entry : CPrivateSendEntry) (sig : CTxIn) : Prop :=
  ∃ txdsin ∈ entry.vecTxDSIn, sig.prevout = txdsin.prevout ∧ sig.nSequence = txdsin.nSequence

/-- The outputs among `vout` that are outputs of the entry are worth what the entry pays out. -/
def PaidBy (entry : CPrivateSendEntry) (vout : List CTxOut) : Prop :=
  sumOutputs (vout.filter fun txout => txout ∈ entry.vecTxOut) = sumOutputs entry.vecTxOut

end CPrivateSendEntry

end Absolute
