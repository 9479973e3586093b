/-
What the two sides of a mixing session share: entries, denominations, collaterals.

A session is run by a masternode, the server.  Clients register with a collateral,
submit an entry of inputs and outputs, and sign the transaction that the server
makes of all entries.  What is unspent, in the mempool or locked changes from one
message to the next and is a `View`; what a transaction with a given hash is does
not change, and is part of the `MixingEnv`.
-/
import AbsoluteCore.Script.Interpreter

namespace Absolute

structure CMutableTransaction where
  nVersion : Int := 2
  nType : TxType := .normal
  vin : List CTxIn := []
  vout : List CTxOut := []
  nLockTime : Nat := 0
  vExtraPayload : TxPayload := .malformed []
deriving DecidableEq, Repr

/-- `CMutableTransaction(tx)`. -/
def CTransaction.toMutable (tx : CTransaction) : CMutableTransaction where
  nVersion := tx.nVersion
  nType := tx.nType
  vin := tx.vin
  vout := tx.vout
  nLockTime := tx.nLockTime
  vExtraPayload := tx.vExtraPayload

/-- What `SignatureHash` reads of a transaction: everything but the scripts of its inputs. -/
def CMutableTransaction.withoutSigs (tx : CMutableTransaction) : CMutableTransaction :=
  { tx with vin := tx.vin.map fun txin => { txin with scriptSig := [] } }

/-! ### BIP69 -/

/-- `CompareInputBIP69`, as the order `std::sort` leaves behind. -/
def CTxIn.leBIP69 (a b : CTxIn) : Prop :=
  if a.prevout.hash = b.prevout.hash then a.prevout.n ≤ b.prevout.n
  else a.prevout.hash < b.prevout.hash

instance : DecidableRel CTxIn.leBIP69 := fun a b => by unfold CTxIn.leBIP69; infer_instance

/-- `operator<` on scripts or equality: the shorter one first, then byte by byte. -/
def scriptLe : CScript → CScript → Prop
  | a, b => a.length < b.length ∨ (a.length = b.length ∧ (a.map UInt8.toNat) ≤ b.map UInt8.toNat)

instance : DecidableRel scriptLe := fun a b => by unfold scriptLe; infer_instance

/-- `CompareOutputBIP69`, as the order `std::sort` leaves behind. -/
def CTxOut.leBIP69 (a b : CTxOut) : Prop :=
  a.nValue < b.nValue ∨ (a.nValue = b.nValue ∧ scriptLe a.scriptPubKey b.scriptPubKey)

instance : DecidableRel CTxOut.leBIP69 := fun a b => by unfold CTxOut.leBIP69; infer_instance

/-- The two calls of `sort` that make a transaction BIP69 compliant. -/
def CMutableTransaction.sortBIP69 (tx : CMutableTransaction) : CMutableTransaction :=
  { tx with
    vin := tx.vin.insertionSort CTxIn.leBIP69
    vout := tx.vout.insertionSort CTxOut.leBIP69 }

/-! ### Entries -/

/-- `CTxDSIn`: an input, the script it spends and whether it is signed. -/
structure CTxDSIn extends CTxIn where
  prevPubKey : CScript := []
  fHasSig : Bool := false
deriving DecidableEq, Repr

/--
`vRecv >> txdsin`.  `CTxDSIn` inherits the serialization of `CTxIn`, so the script
of the spent coin is not on the wire and stays empty.
-/
def CTxDSIn.unserialize (txin : CTxIn) : CTxDSIn := { toCTxIn := txin }

/-- `CPrivateSendEntry`; `addr` is where it came from. -/
structure CPrivateSendEntry where
  vecTxDSIn : List CTxDSIn
  vecTxOut : List CTxOut
  txCollateral : CMutableTransaction
  addr : CService := CService.null
deriving DecidableEq, Repr

/-- The part of an entry that is on the wire. -/
structure EntryMessage where
  vecTxIn : List CTxIn
  txCollateral : CMutableTransaction
  vecTxOut : List CTxOut
deriving DecidableEq, Repr

/-- `vRecv >> entry`, and `entry.addr = pfrom->addr`. -/
def CPrivateSendEntry.unserialize (msg : EntryMessage) (addr : CService) : CPrivateSendEntry where
  vecTxDSIn := msg.vecTxIn.map CTxDSIn.unserialize
  vecTxOut := msg.vecTxOut
  txCollateral := msg.txCollateral
  addr := addr

/-- The loop of `CPrivateSendEntry::AddScriptSig`; `none` if it returns false. -/
def addSigToInputs (txin : CTxIn) : List CTxDSIn → Option (List CTxDSIn)
  | [] => none
  | txdsin :: rest =>
    if txdsin.prevout = txin.prevout ∧ txdsin.nSequence = txin.nSequence then
      if txdsin.fHasSig then none
      else some ({ txdsin with scriptSig := txin.scriptSig, fHasSig := true } :: rest)
    else (addSigToInputs txin rest).map (txdsin :: ·)

def CPrivateSendEntry.addScriptSig (entry : CPrivateSendEntry) (txin : CTxIn) :
    Option CPrivateSendEntry :=
  (addSigToInputs txin entry.vecTxDSIn).map fun vecTxDSIn => { entry with vecTxDSIn := vecTxDSIn }

/-! ### Pool states and messages -/

inductive PoolMessage where
  | errAlreadyHave
  | errDenom
  | errEntriesFull
  | errExistingTx
  | errFees
  | errInvalidCollateral
  | errInvalidInput
  | errInvalidScript
  | errInvalidTx
  | errMaximum
  | errMnList
  | errMode
  | errNonStandardPubkey
  | errQueueFull
  | errRecent
  | errSession
  | errMissingTx
  | errVersion
  | msgNoErr
  | msgSuccess
  | msgEntriesAdded
deriving DecidableEq, Repr

/-- `PoolState`; a server is never in one of the last two. -/
inductive PoolState where
  | idle
  | queue
  | acceptingEntries
  | signing
  | error
  | success
deriving DecidableEq, Repr

inductive PoolStatusUpdate where
  | rejected
  | accepted
deriving DecidableEq, Repr

def privateSendEntryMaxSize : Nat := 9

def minPrivateSendPeerProtoVersion : Nat := 70213

def privateSendQueueTimeout : Int := 30

def privateSendSigningTimeout : Int := 15

/-- `CPrivateSendAccept`: what a client registers with. -/
structure CPrivateSendAccept where
  nDenom : Int
  txCollateral : CMutableTransaction
deriving DecidableEq, Repr

/-- `CPrivateSendQueue`, without its signature. -/
structure CPrivateSendQueue where
  nDenom : Int
  masternodeOutpoint : COutPoint
  nTime : Int
  fReady : Bool
deriving DecidableEq, Repr

def CPrivateSendQueue.isTimeOutOfBounds (dsq : CPrivateSendQueue) (adjustedTime : Int) : Bool :=
  adjustedTime - dsq.nTime > privateSendQueueTimeout ||
    dsq.nTime - adjustedTime > privateSendQueueTimeout

/-! ### Denominations -/

/-- `vecStandardDenominations`. -/
def standardDenominations : List Int :=
  [10 * coin + 10000, 1 * coin + 1000, coin / 10 + 100, coin / 100 + 10, coin / 1000 + 1]

/-- `GetDenominations(vecTxOut)`: a bit for each denomination used, or 0 if another value is. -/
def getDenominations (vecTxOut : List CTxOut) : Int :=
  if vecTxOut.all fun txout => standardDenominations.contains txout.nValue then
    (standardDenominations.zipIdx.map fun (nDenomValue, c) =>
      if vecTxOut.any fun txout => txout.nValue == nDenomValue then (2 : Int) ^ c else 0).sum
  else 0

/-- `GetDenominationsBits(nDenom, vecBits)`; a negative number has the bits of its complement. -/
def getDenominationsBits (nDenom : Int) : Option (List Nat) :=
  let nMaxDenoms := standardDenominations.length
  if nDenom ≥ 2 ^ nMaxDenoms then none
  else
    let vecBits := (List.range nMaxDenoms).filter fun i => nDenom / 2 ^ i % 2 = 1
    if vecBits.isEmpty then none else some vecBits

/-- `GetCollateralAmount()`: a tenth of the smallest denomination. -/
def getCollateralAmount : Int := (coin / 1000 + 1) / 10

/-! ### The world around a session -/

/-- What does not change during a session. -/
structure MixingEnv where
  /-- `tx.GetHash()`. -/
  getHash : CMutableTransaction → Uint256
  hashes : Script.Hashes
  /-- `CheckSig` of the checker of one input, on the transaction without its signatures. -/
  checkSig : CMutableTransaction → Nat → Script.SignatureChecker
  /-- The transaction with a hash. -/
  transactions : Uint256 → Option CMutableTransaction
  poolMinParticipants : Nat
  poolMaxParticipants : Nat
  /-- `activeMasternodeInfo.outpoint`. -/
  masternodeOutpoint : COutPoint

variable (env : MixingEnv)

/-- The output an outpoint names. -/
def MixingEnv.output (prevout : COutPoint) : Option CTxOut :=
  (env.transactions prevout.hash).bind fun tx => tx.vout[prevout.n]?

/-- `MutableTransactionSignatureChecker(&tx, nIn)`. -/
def MixingEnv.checker (tx : CMutableTransaction) (nIn : Nat) : Script.SignatureChecker :=
  env.checkSig tx.withoutSigs nIn

/-- `VerifyScript` for input `nIn` of `tx`, with the flags of the mixing server. -/
def MixingEnv.verifyInput (tx : CMutableTransaction) (nIn : Nat)
    (scriptSig scriptPubKey : CScript) : Bool :=
  Script.verifyScript env.hashes (env.checker tx nIn) scriptSig scriptPubKey

/-- What the server sees of the chain, the mempool and the network while it handles one message. -/
structure View where
  /-- `mempool.get(hash) != nullptr`. -/
  inMempool : Uint256 → Bool
  /-- `mempool.isSpent(outpoint)`. -/
  isSpent : COutPoint → Bool
  /-- `quorumInstantSendManager->IsLocked(hash)`. -/
  isLocked : Uint256 → Bool
  /-- Whether `GetUTXOCoin` finds an outpoint. -/
  unspent : COutPoint → Bool
  acceptToMemoryPool : CMutableTransaction → Bool
  /-- Whether `connman.ForNode` finds a node with the address. -/
  connected : CService → Bool
  /-- `GetTime()`. -/
  time : Int
  /-- `GetAdjustedTime()`. -/
  adjustedTime : Int
  /-- Whether `TRY_LOCK(cs_vecqueue)` succeeds. -/
  lockQueue : Bool
  /-- Whether `TRY_LOCK(cs_main)` succeeds. -/
  lockMain : Bool
  /-- Whether `GetValidMNByCollateral` finds a masternode. -/
  isValidMN : COutPoint → Bool
  /-- `GetMetaInfo(dmn->proTxHash)->GetLastDsq()`, by the collateral of `dmn`. -/
  lastDsq : COutPoint → Int
  dsqCount : Int
  /-- `mnList.GetValidMNsCount()`. -/
  validMNsCount : Nat
  /-- `dsq.CheckSignature(pubKeyOperator)`. -/
  dsqSigned : CPrivateSendQueue → Bool

/-- `nLastDsq != 0 && nLastDsq + mnList.GetValidMNsCount() / 5 > mmetaman.GetDsqCount()`. -/
def View.tooRecent (view : View) (masternodeOutpoint : COutPoint) : Bool :=
  let nLastDsq := view.lastDsq masternodeOutpoint
  nLastDsq != 0 && nLastDsq + (view.validMNsCount / 5 : Nat) > view.dsqCount

/-- What the loops over inputs find for one of them. -/
inductive InputCheck where
  | value (nValue : Int)
  /-- Spent, not locked or unknown. -/
  | missing
  /-- `mempoolTx->vout[n]` past the end of `vout`. -/
  | outOfRange
deriving DecidableEq, Repr

/-- The value of an input, as the handler of DSVIN and `IsCollateralValid` both look it up. -/
def checkInput (view : View) (prevout : COutPoint) : InputCheck :=
  if view.inMempool prevout.hash then
    if view.isSpent prevout || !view.isLocked prevout.hash then .missing
    else
      match env.output prevout with
      | some out => .value out.nValue
      | none => .outOfRange
  else if view.unspent prevout then
    match env.output prevout with
    | some out => .value out.nValue
    | none => .missing
  else .missing

/-- The loop that adds up the values of inputs; the first one that has none ends it. -/
def sumInputs (env : MixingEnv) (view : View) : List COutPoint → InputCheck
  | [] => .value 0
  | prevout :: rest =>
    match checkInput env view prevout with
    | .value nValue =>
      match sumInputs env view rest with
      | .value nRest => .value (nValue + nRest)
      | other => other
    | other => other

def sumOutputs (vout : List CTxOut) : Int := (vout.map CTxOut.nValue).sum

/-- `CPrivateSend::IsCollateralValid`; reading past the end of `vout` is undefined. -/
def isCollateralValid (view : View) (txCollateral : CMutableTransaction) : Except Fail Bool :=
  if txCollateral.vout.isEmpty || txCollateral.nLockTime != 0 then .ok false
  else if !txCollateral.vout.all fun txout =>
      isPayToPublicKeyHash txout.scriptPubKey || isUnspendable txout.scriptPubKey then
    .ok false
  else
    match sumInputs env view (txCollateral.vin.map CTxIn.prevout) with
    | .outOfRange => .error .assert
    | .missing => .ok false
    | .value nValueIn =>
      if nValueIn - sumOutputs txCollateral.vout < getCollateralAmount then .ok false
      else .ok (view.acceptToMemoryPool txCollateral)

end Absolute
