/-
Transactions and the payloads of the special ones.

`GetTxPayload<T>(tx, obj)` decodes the extra payload as the type the caller asks
for, and every caller asks for the type that `nType` names.  A payload is
therefore kept decoded; bytes that do not decode are `malformed`.
-/
import AbsoluteCore.Primitives

namespace Absolute

structure CTxIn where
  prevout : COutPoint
  scriptSig : CScript
  nSequence : Nat
deriving DecidableEq, Repr, Countable

structure CTxOut where
  nValue : Int
  scriptPubKey : CScript
deriving DecidableEq, Repr, Countable

/-- `Coin`: an output, the height of its transaction and whether that is a coinbase. -/
structure Coin where
  out : CTxOut
  nHeight : Int := 0
  fCoinBase : Bool := false
deriving DecidableEq, Repr

namespace Coin

/-- `Coin()`, and what `Clear` leaves: `CTxOut::SetNull` sets the value to -1. -/
def empty : Coin := { out := ⟨-1, []⟩ }

/-- `CTxOut::IsNull` of the output. -/
def isSpent (c : Coin) : Bool := c.out.nValue == -1

end Coin

def isUnspendable (s : CScript) : Bool :=
  s[0]? == some 0x6a || s.length > 10000

/-- The `TRANSACTION_*` types. -/
inductive TxType where
  | normal
  | providerRegister
  | providerUpdateService
  | providerUpdateRegistrar
  | providerUpdateRevoke
  | coinbase
  | quorumCommitment
  | unknown (n : Nat)
deriving DecidableEq, Repr, Countable

/-! ### Provider transactions -/

structure CProRegTx where
  nVersion : Nat
  nType : Nat
  nMode : Nat
  collateralOutpoint : COutPoint
  addr : CService
  keyIDOwner : CKeyID
  pubKeyOperator : CBLSPublicKey
  keyIDVoting : CKeyID
  nOperatorReward : Nat
  scriptPayout : CScript
  inputsHash : Uint256
  vchSig : List UInt8
deriving DecidableEq, Repr, Countable

/-- `CProRegTx::CURRENT_VERSION`, which all four provider payloads are checked against. -/
def CProRegTx.currentVersion : Nat := 1

structure CProUpServTx where
  nVersion : Nat
  proTxHash : Uint256
  addr : CService
  scriptOperatorPayout : CScript
  inputsHash : Uint256
  sig : CBLSSignature
deriving DecidableEq, Repr, Countable

structure CProUpRegTx where
  nVersion : Nat
  proTxHash : Uint256
  nMode : Nat
  pubKeyOperator : CBLSPublicKey
  keyIDVoting : CKeyID
  scriptPayout : CScript
  inputsHash : Uint256
  vchSig : List UInt8
deriving DecidableEq, Repr, Countable

structure CProUpRevTx where
  nVersion : Nat
  proTxHash : Uint256
  nReason : Nat
  inputsHash : Uint256
  sig : CBLSSignature
deriving DecidableEq, Repr, Countable

def CProUpRevTx.reasonNotSpecified : Nat := 0

def CProUpRevTx.reasonLast : Nat := 3

/-! ### Quorum commitments and coinbase payloads -/

structure CFinalCommitment where
  nVersion : Nat
  llmqType : Nat
  quorumHash : Uint256
  signers : List Bool
  validMembers : List Bool
  quorumPublicKey : CBLSPublicKey
  quorumVvecHash : Uint256
  quorumSig : CBLSSignature
  membersSig : CBLSSignature
deriving DecidableEq, Repr, Countable

structure CFinalCommitmentTxPayload where
  nVersion : Nat
  nHeight : Nat
  commitment : CFinalCommitment
deriving DecidableEq, Repr, Countable

structure CCbTx where
  nVersion : Nat
  nHeight : Int
  merkleRootMNList : Uint256
  merkleRootQuorums : Uint256
deriving DecidableEq, Repr, Countable

/-! ### Transactions -/

/-- `vExtraPayload`, as the decoder of the transaction's own type sees it. -/
inductive TxPayload where
  | proReg (p : CProRegTx)
  | proUpServ (p : CProUpServTx)
  | proUpReg (p : CProUpRegTx)
  | proUpRev (p : CProUpRevTx)
  | commitment (p : CFinalCommitmentTxPayload)
  | cbTx (p : CCbTx)
  | malformed (bytes : List UInt8)
deriving DecidableEq, Repr, Countable

/-- `MAX_SIZE`, the longest vector that `ReadCompactSize` lets through. -/
def maxSize : Nat := 0x02000000

/-- `CTransaction`, as it was read from a stream: its vectors are no longer than `MAX_SIZE`. -/
structure CTransaction where
  nVersion : Int
  nType : TxType
  vin : List CTxIn
  vout : List CTxOut
  nLockTime : Nat
  vExtraPayload : TxPayload
  vout_size : vout.length ≤ maxSize := by decide
deriving DecidableEq, Repr, Countable

namespace CTransaction

variable (tx : CTransaction)

def isCoinBase : Bool :=
  match tx.vin with
  | [txin] => txin.prevout == COutPoint.null
  | _ => false

/-! `GetTxPayload`, one for each type a caller asks for. -/

def getProRegTx : Option CProRegTx :=
  match tx.vExtraPayload with
  | .proReg p => some p
  | _ => none

def getProUpServTx : Option CProUpServTx :=
  match tx.vExtraPayload with
  | .proUpServ p => some p
  | _ => none

def getProUpRegTx : Option CProUpRegTx :=
  match tx.vExtraPayload with
  | .proUpReg p => some p
  | _ => none

def getProUpRevTx : Option CProUpRevTx :=
  match tx.vExtraPayload with
  | .proUpRev p => some p
  | _ => none

def getCommitment : Option CFinalCommitmentTxPayload :=
  match tx.vExtraPayload with
  | .commitment p => some p
  | _ => none

def getCbTx : Option CCbTx :=
  match tx.vExtraPayload with
  | .cbTx p => some p
  | _ => none

end CTransaction

/-- `CBlock`: the hash of its header and its transactions, coinbase first. -/
structure CBlock where
  hash : Uint256
  vtx : List CTransaction
deriving DecidableEq, Repr

end Absolute
