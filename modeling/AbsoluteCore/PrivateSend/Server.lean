/-
The server of a mixing session, `CPrivateSendServer`.

One message, or one round of the scheduler, is one step.  A step reads a `View` and
draws random numbers, and it sends messages; `Sent` keeps those that a client or the
network sees.  The process is a synced masternode, so the checks of
`fMasternodeMode`, `fLiteMode` and `IsBlockchainSynced` pass.
-/
import AbsoluteCore.Lib.LastMatch
import AbsoluteCore.PrivateSend.Entry

namespace Absolute

structure Peer where
  addr : CService
  nVersion : Nat
deriving DecidableEq, Repr

inductive Sent where
  /-- `DSSTATUSUPDATE`. -/
  | status (addr : CService) (nSessionID : Nat) (nState : PoolState) (nEntriesCount : Nat)
      (update : PoolStatusUpdate) (message : PoolMessage)
  /-- `REJECT` with `REJECT_OBSOLETE`. -/
  | obsolete (addr : CService)
  /-- `DSFINALTX`. -/
  | finalTx (addr : CService) (nSessionID : Nat) (tx : CMutableTransaction)
  /-- `DSCOMPLETE`. -/
  | complete (addr : CService) (nSessionID : Nat) (message : PoolMessage)
  /-- `DSQUEUE`, to all nodes. -/
  | queue (dsq : CPrivateSendQueue)
  /-- The inventory of a new DSTX, to all nodes. -/
  | dstx (tx : CMutableTransaction)
  /-- `connman.RelayTransaction` of a collateral that is charged. -/
  | collateral (tx : CMutableTransaction)
deriving DecidableEq, Repr

/-- The random numbers of one step. -/
structure Draws where
  /-- `GetRandInt(999999)`. -/
  sessionID : Nat
  /-- `GetRandInt(max - min + 1)` for the number of participants. -/
  participants : Nat
  /-- The two calls of `GetRandInt(100)` in `ChargeFees`. -/
  charge : Nat
  chargeMany : Nat
  /-- The offender that `std::random_shuffle` puts first. -/
  offender : Nat
  /-- `GetRandInt(100)` in `ChargeRandomFees`, once for each collateral. -/
  chargeRandom : Nat → Nat

structure CPrivateSendServer where
  vecEntries : List CPrivateSendEntry := []
  nState : PoolState := .idle
  nTimeLastSuccessfulStep : Int := 0
  nSessionID : Nat := 0
  finalMutableTransaction : CMutableTransaction := {}
  nSessionDenom : Int := 0
  vecSessionCollaterals : List CMutableTransaction := []
  nSessionMaxParticipants : Nat := 0
  vecPrivateSendQueue : List CPrivateSendQueue := []
deriving DecidableEq, Repr

namespace CPrivateSendServer

variable (env : MixingEnv) (view : View) (draws : Draws) (s : CPrivateSendServer)

def setNull : CPrivateSendServer :=
  { vecEntries := []
    nState := .idle
    nTimeLastSuccessfulStep := view.time
    nSessionID := 0
    finalMutableTransaction := { s.finalMutableTransaction with vin := [], vout := [] }
    nSessionDenom := 0
    vecSessionCollaterals := []
    nSessionMaxParticipants := 0
    vecPrivateSendQueue := [] }

/-- `SetState(nStateNew)`; the server only ever asks for one of its own states. -/
def setState (nStateNew : PoolState) : CPrivateSendServer :=
  { s with nTimeLastSuccessfulStep := view.time, nState := nStateNew }

def isSessionReady : Bool :=
  s.nSessionMaxParticipants != 0 && s.vecSessionCollaterals.length ≥ s.nSessionMaxParticipants

def pushStatus (addr : CService) (update : PoolStatusUpdate) (message : PoolMessage) : Sent :=
  .status addr s.nSessionID s.nState s.vecEntries.length update message

/-- The entries whose client is still connected. -/
def connectedAddrs : List CService :=
  (s.vecEntries.map CPrivateSendEntry.addr).filter view.connected

/-- `RelayStatus`: when all clients are gone the session is reset. -/
def relayStatus (update : PoolStatusUpdate) : CPrivateSendServer × List Sent :=
  let addrs := s.connectedAddrs view
  let sent := addrs.map fun addr => s.pushStatus addr update .msgNoErr
  if addrs.length = s.vecEntries.length then (s, sent)
  else
    let sent := sent ++ addrs.map fun addr => s.pushStatus addr .rejected .msgNoErr
    (if addrs.isEmpty then s.setNull view else s, sent)

/-- A message to every client of the session, up to the first that is gone. -/
def relayToEntries (message : CService → Sent) : CPrivateSendServer × List Sent :=
  let addrs := s.vecEntries.map CPrivateSendEntry.addr
  let sent := (addrs.takeWhile view.connected).map message
  if addrs.all view.connected then (s, sent)
  else
    let (s, relayed) := s.relayStatus view .rejected
    (s, sent ++ relayed)

/-! ### Checking and adding signatures -/

/-- The inputs of all entries, in the order of the entries. -/
def inputs : List CTxDSIn :=
  s.vecEntries.flatMap CPrivateSendEntry.vecTxDSIn

/-- The transaction of all entries, in their order. -/
def entriesTx : CMutableTransaction where
  vin := s.inputs.map CTxDSIn.toCTxIn
  vout := s.vecEntries.flatMap CPrivateSendEntry.vecTxOut

def isInputScriptSigValid (txin : CTxIn) : Bool :=
  match LastMatch.find (fun txdsin : CTxDSIn => txdsin.prevout == txin.prevout) s.inputs with
  | none => false
  | some (nTxInIndex, txdsin) =>
    let txNew := s.entriesTx
    let txNew := { txNew with vin := txNew.vin.modify nTxInIndex fun t =>
      { t with scriptSig := txin.scriptSig } }
    env.verifyInput txNew nTxInIndex txin.scriptSig txdsin.prevPubKey

/-- The loop of `AddScriptSig` over the entries; `none` if none of them takes the signature. -/
def addSigToEntries (txin : CTxIn) : List CPrivateSendEntry → Option (List CPrivateSendEntry)
  | [] => none
  | entry :: rest =>
    match entry.addScriptSig txin with
    | some entry => some (entry :: rest)
    | none => (addSigToEntries txin rest).map (entry :: ·)

/-- `txin.scriptSig = txinNew.scriptSig` in the final transaction, wherever it is the same input. -/
def setFinalSig (txinNew txin : CTxIn) : CTxIn :=
  if txin.prevout = txinNew.prevout ∧ txin.nSequence = txinNew.nSequence then
    { txin with scriptSig := txinNew.scriptSig }
  else txin

def addScriptSig (txinNew : CTxIn) : CPrivateSendServer × Bool :=
  if s.inputs.any fun txdsin => txdsin.scriptSig == txinNew.scriptSig then (s, false)
  else if !s.isInputScriptSigValid env txinNew then (s, false)
  else
    let tx := s.finalMutableTransaction
    let s := { s with finalMutableTransaction := { tx with vin := tx.vin.map (setFinalSig txinNew) } }
    match addSigToEntries txinNew s.vecEntries with
    | some vecEntries => ({ s with vecEntries := vecEntries }, true)
    | none => (s, false)

def isSignaturesComplete : Bool := s.inputs.all CTxDSIn.fHasSig

/-! ### The final transaction -/

def createFinalTransaction : CPrivateSendServer × List Sent :=
  let txNew := s.entriesTx.sortBIP69
  let s := setState view { s with finalMutableTransaction := txNew } .signing
  s.relayToEntries view fun addr => .finalTx addr s.nSessionID txNew

/-- `ChargeRandomFees`: it ends at the first collateral that is spared. -/
def chargeRandomFees : List Sent :=
  let charged := s.vecSessionCollaterals.zipIdx.takeWhile fun p => draws.chargeRandom p.2 ≤ 10
  (charged.map Prod.fst).filter view.acceptToMemoryPool |>.map Sent.collateral

def commitFinalTransaction : CPrivateSendServer × List Sent :=
  let tx := s.finalMutableTransaction
  if !view.lockMain || !view.acceptToMemoryPool tx then
    -- the session is reset first, so that nobody is told
    let s := s.setNull view
    s.relayToEntries view fun addr => .complete addr s.nSessionID .errInvalidTx
  else
    let (s, sent) := s.relayToEntries view fun addr => .complete addr s.nSessionID .msgSuccess
    (s.setNull view, .dstx tx :: sent ++ s.chargeRandomFees view draws)

def checkPool : CPrivateSendServer × List Sent :=
  if s.nState = .acceptingEntries ∧ s.vecEntries.length ≥ s.nSessionMaxParticipants then
    s.createFinalTransaction view
  else if s.nState = .signing ∧ s.isSignaturesComplete then
    s.commitFinalTransaction view draws
  else (s, [])

/-! ### Charging -/

/-- `vecOffendersCollaterals`. -/
def offenders : List CMutableTransaction :=
  match s.nState with
  | .acceptingEntries =>
    s.vecSessionCollaterals.filter fun txCollateral =>
      !s.vecEntries.any fun entry => env.getHash entry.txCollateral == env.getHash txCollateral
  | .signing =>
    s.vecEntries.flatMap fun entry =>
      (entry.vecTxDSIn.filter fun txdsin => !txdsin.fHasSig).map fun _ => entry.txCollateral
  | _ => []

/-- `ChargeFees`: the collateral that is to be charged, if one is. -/
def chargeFees : Option CMutableTransaction :=
  let vecOffenders := s.offenders env
  if draws.charge > 33 then none
  else if vecOffenders.isEmpty then none
  else if vecOffenders.length + 1 ≥ s.nSessionMaxParticipants ∧ draws.chargeMany > 33 then none
  else if vecOffenders.length ≥ s.nSessionMaxParticipants then none
  else vecOffenders[draws.offender % vecOffenders.length]?

/-- The collateral is submitted, and relayed if it is accepted. -/
def sendCharged (txCollateral : Option CMutableTransaction) : List Sent :=
  (txCollateral.toList.filter view.acceptToMemoryPool).map Sent.collateral

/-! ### Registration -/

/-- `IsAcceptableDSA`: `none` if it is, and otherwise why not. -/
def isAcceptableDSA (dsa : CPrivateSendAccept) : Except Fail (Option PoolMessage) :=
  if (getDenominationsBits dsa.nDenom).isNone then .ok (some .errDenom)
  else do
    let valid ← isCollateralValid env view dsa.txCollateral
    return if valid then none else some .errInvalidCollateral

def createNewSession (dsa : CPrivateSendAccept) :
    Except Fail (CPrivateSendServer × List Sent × Except PoolMessage PoolMessage) := do
  if s.nState ≠ .idle then return (s, [], .error .errMode) else
  match ← isAcceptableDSA env view dsa with
  | some message => return (s, [], .error message)
  | none =>
    let range := env.poolMaxParticipants - env.poolMinParticipants + 1
    let s := { s with
      nSessionID := draws.sessionID % 999999 + 1
      nSessionDenom := dsa.nDenom
      nSessionMaxParticipants := env.poolMinParticipants + draws.participants % range }
    let s := s.setState view .queue
    let dsq : CPrivateSendQueue := ⟨dsa.nDenom, env.masternodeOutpoint, view.adjustedTime, false⟩
    return ({ s with
      vecPrivateSendQueue := s.vecPrivateSendQueue ++ [dsq]
      vecSessionCollaterals := s.vecSessionCollaterals ++ [dsa.txCollateral] },
      [.queue dsq], .ok .msgNoErr)

def addUserToExistingSession (dsa : CPrivateSendAccept) :
    Except Fail (CPrivateSendServer × List Sent × Except PoolMessage PoolMessage) := do
  match ← isAcceptableDSA env view dsa with
  | some message => return (s, [], .error message)
  | none =>
    if s.nState ≠ .queue then return (s, [], .error .errMode)
    else if dsa.nDenom ≠ s.nSessionDenom then return (s, [], .error .errDenom)
    else
      return ({ s with vecSessionCollaterals := s.vecSessionCollaterals ++ [dsa.txCollateral] },
        [], .ok .msgNoErr)

/-- Whether a new session is refused because the last one is too recent. -/
def mixedRecently : Bool :=
  s.vecPrivateSendQueue.any (fun q => q.masternodeOutpoint == env.masternodeOutpoint) ||
    view.tooRecent env.masternodeOutpoint

def processDSAccept
    (pfrom : Peer) (dsa : CPrivateSendAccept) : Except Fail (CPrivateSendServer × List Sent) := do
  if pfrom.nVersion < minPrivateSendPeerProtoVersion then
    return (s, [.obsolete pfrom.addr, s.pushStatus pfrom.addr .rejected .errVersion])
  else if s.isSessionReady then
    return (s, [s.pushStatus pfrom.addr .accepted .errQueueFull])
  else if !view.isValidMN env.masternodeOutpoint then
    return (s, [s.pushStatus pfrom.addr .rejected .errMnList])
  else if s.vecSessionCollaterals.isEmpty && !view.lockQueue then
    return (s, [])
  else if s.vecSessionCollaterals.isEmpty && s.mixedRecently env view then
    return (s, [s.pushStatus pfrom.addr .rejected .errRecent])
  else
    let (s, sent, result) ←
      if s.nSessionID = 0 then s.createNewSession env view draws dsa
      else s.addUserToExistingSession env view dsa
    match result with
    | .ok message => return (s, sent ++ [s.pushStatus pfrom.addr .accepted message])
    | .error message => return (s, sent ++ [s.pushStatus pfrom.addr .rejected message])

/-! ### Entries -/

def isOutputsCompatibleWithSessionDenom (vecTxOut : List CTxOut) : Bool :=
  getDenominations vecTxOut != 0 &&
    s.vecEntries.all fun entry => getDenominations vecTxOut == getDenominations entry.vecTxOut

/-- The script checks of the handler of DSVIN, up to the first output that fails one. -/
def checkOutputScripts : List CTxOut → Option PoolMessage
  | [] => none
  | txout :: rest =>
    if txout.scriptPubKey.length ≠ 25 then some .errNonStandardPubkey
    else if !isPayToPublicKeyHash txout.scriptPubKey then some .errInvalidScript
    else checkOutputScripts rest

/-- `AddEntry`: the session with the entry, or why it is refused. -/
def addEntry
    (entryNew : CPrivateSendEntry) : Except Fail (Except PoolMessage CPrivateSendServer) := do
  if entryNew.vecTxDSIn.any fun txin => txin.prevout == COutPoint.null then
    return .error .errInvalidInput
  else
    let valid ← isCollateralValid env view entryNew.txCollateral
    if !valid then return .error .errInvalidCollateral
    else if s.vecEntries.length ≥ s.nSessionMaxParticipants then return .error .errEntriesFull
    else if entryNew.vecTxDSIn.any fun txin =>
        s.inputs.any fun txdsin => txdsin.prevout == txin.prevout then
      return .error .errAlreadyHave
    else return .ok { s with vecEntries := s.vecEntries ++ [entryNew] }

/-- What the handler of DSVIN asks of an entry before `AddEntry`: why it is refused, if it is. -/
def checkEntry (entry : CPrivateSendEntry) : Except Fail (Option PoolMessage) :=
  if !s.isSessionReady then .ok (some .errSession)
  else if entry.vecTxDSIn.length > privateSendEntryMaxSize then .ok (some .errMaximum)
  else if entry.vecTxOut.length > privateSendEntryMaxSize then .ok (some .errMaximum)
  else if !s.isOutputsCompatibleWithSessionDenom entry.vecTxOut then .ok (some .errExistingTx)
  else
    match checkOutputScripts entry.vecTxOut with
    | some message => .ok (some message)
    | none =>
      match sumInputs env view (entry.vecTxDSIn.map fun txin => txin.prevout) with
      | .outOfRange => .error .assert
      | .missing => .ok (some .errMissingTx)
      | .value nValueIn =>
        if nValueIn - sumOutputs entry.vecTxOut ≠ 0 then .ok (some .errFees) else .ok none

/-- The checks of the handler and `AddEntry`, in a row. -/
def admitEntry
    (entry : CPrivateSendEntry) : Except Fail (Except PoolMessage CPrivateSendServer) := do
  match ← s.checkEntry env view entry with
  | some message => return .error message
  | none => s.addEntry env view entry

def processDSVin
    (pfrom : Peer) (msg : EntryMessage) : Except Fail (CPrivateSendServer × List Sent) := do
  if pfrom.nVersion < minPrivateSendPeerProtoVersion then
    return (s, [.obsolete pfrom.addr, s.pushStatus pfrom.addr .rejected .errVersion])
  else
    match ← s.admitEntry env view (CPrivateSendEntry.unserialize msg pfrom.addr) with
    | .error message => return (s, [s.pushStatus pfrom.addr .rejected message])
    | .ok s =>
      let pushed := s.pushStatus pfrom.addr .accepted .msgEntriesAdded
      let (s, checked) := s.checkPool view draws
      let (s, relayed) := s.relayStatus view .accepted
      return (s, pushed :: checked ++ relayed)

/-! ### Signatures -/

/-- The loop of the handler of DSSIGNFINALTX; whether all signatures were taken. -/
def addScriptSigs (env : MixingEnv) : List CTxIn → CPrivateSendServer → CPrivateSendServer × Bool
  | [], s => (s, true)
  | txin :: rest, s =>
    match s.addScriptSig env txin with
    | (s, true) => addScriptSigs env rest s
    | (s, false) => (s, false)

def processDSSignFinalTx (pfrom : Peer) (vecTxIn : List CTxIn) : CPrivateSendServer × List Sent :=
  if pfrom.nVersion < minPrivateSendPeerProtoVersion then (s, [.obsolete pfrom.addr])
  else
    match addScriptSigs env vecTxIn s with
    | (s, true) => s.checkPool view draws
    | (s, false) => s.relayStatus view .rejected

/-! ### Queues and timeouts -/

def processDSQueue (pfrom : Peer) (dsq : CPrivateSendQueue) : CPrivateSendServer × List Sent :=
  if pfrom.nVersion < minPrivateSendPeerProtoVersion then (s, [.obsolete pfrom.addr])
  else if !view.lockQueue || s.vecPrivateSendQueue.any fun q => q == dsq ||
      (q.fReady == dsq.fReady && q.masternodeOutpoint == dsq.masternodeOutpoint) then (s, [])
  else if dsq.isTimeOutOfBounds view.adjustedTime || !view.isValidMN dsq.masternodeOutpoint ||
      !view.dsqSigned dsq || dsq.fReady || view.tooRecent dsq.masternodeOutpoint then (s, [])
  else ({ s with vecPrivateSendQueue := s.vecPrivateSendQueue ++ [dsq] }, [.queue dsq])

def checkQueue : CPrivateSendServer :=
  if !view.lockQueue then s
  else { s with vecPrivateSendQueue := s.vecPrivateSendQueue.filter fun q =>
    !q.isTimeOutOfBounds view.adjustedTime }

/-- Whether the current state has lasted for too long. -/
def timedOut : Bool :=
  let nTimeout :=
    if s.nState = .signing then privateSendSigningTimeout else privateSendQueueTimeout
  s.nState != .idle && view.time - s.nTimeLastSuccessfulStep ≥ nTimeout

def checkTimeout : CPrivateSendServer × List Sent :=
  let s := s.checkQueue view
  if !s.timedOut view then (s, [])
  else if s.nState = .queue ∧ s.vecSessionCollaterals.length ≥ env.poolMinParticipants then
    ({ s with nSessionMaxParticipants := s.vecSessionCollaterals.length }, [])
  else
    let charged := sendCharged view (s.chargeFees env draws)
    if s.nState = .acceptingEntries ∧ s.vecEntries.length ≥ env.poolMinParticipants then
      -- go on with those who have sent their entry
      let s := { s with nSessionMaxParticipants := s.vecEntries.length }
      let (s, sent) := s.checkPool view draws
      (s, charged ++ sent)
    else (s.setNull view, charged)

def checkForCompleteQueue : CPrivateSendServer × List Sent :=
  if s.nState = .queue ∧ s.isSessionReady then
    (s.setState view .acceptingEntries,
      [.queue ⟨s.nSessionDenom, env.masternodeOutpoint, view.adjustedTime, true⟩])
  else (s, [])

def doMaintenance : CPrivateSendServer × List Sent :=
  let (s, sent) := s.checkTimeout env view draws
  let (s, sent') := s.checkForCompleteQueue env view
  (s, sent ++ sent')

end CPrivateSendServer

end Absolute
