/-
`CSporkManager`: values of the network that are set by signed messages.

A map is the list of its entries, in the order in which the code goes through it.  A loop that erases
while it goes through a map is a recursion on the entries that are left, and has fuel where the
iterator need not move.
-/
import AbsoluteCore.Primitives

namespace Absolute

/-! ### Messages -/

structure CSporkMessage where
  nSporkID : Int
  nValue : Int
  nTimeSigned : Int
  vchSig : List UInt8
deriving DecidableEq, Repr

/-- What the messages rest on. -/
structure SporkEnv where
  serializeHash : CSporkMessage → Uint256
  /-- The hash of the three fields that are signed. -/
  signatureHash : Int → Int → Int → Uint256
  /-- The hash of `strMessageMagic` and a message. -/
  messageHash : String → Uint256
  /-- The id of the key that `RecoverCompact` finds. -/
  recoverCompact : Uint256 → List UInt8 → Option CKeyID

variable (env : SporkEnv)

namespace CSporkMessage

def getHash (spork : CSporkMessage) : Uint256 := env.serializeHash spork

def getSignatureHash (spork : CSporkMessage) : Uint256 :=
  env.signatureHash spork.nSporkID spork.nValue spork.nTimeSigned

def strMessage (spork : CSporkMessage) : String :=
  toString spork.nSporkID ++ toString spork.nValue ++ toString spork.nTimeSigned

def verifyHash (hash : Uint256) (keyID : CKeyID) (vchSig : List UInt8) : Bool :=
  env.recoverCompact hash vchSig = some keyID

def verifyMessage (keyID : CKeyID) (vchSig : List UInt8) (strMessage : String) : Bool :=
  verifyHash env (env.messageHash strMessage) keyID vchSig

def checkSignature (pubKeyId : CKeyID) (fSporkSixActive : Bool) (spork : CSporkMessage) : Bool :=
  if fSporkSixActive then verifyHash env (spork.getSignatureHash env) pubKeyId spork.vchSig
  else
    -- Without the spork both formats are accepted.
    verifyMessage env pubKeyId spork.vchSig spork.strMessage ||
      verifyHash env (spork.getSignatureHash env) pubKeyId spork.vchSig

def getSignerKeyID (fSporkSixActive : Bool) (spork : CSporkMessage) : Option CKeyID :=
  if fSporkSixActive then env.recoverCompact (spork.getSignatureHash env) spork.vchSig
  else env.recoverCompact (env.messageHash spork.strMessage) spork.vchSig

end CSporkMessage

/-! ### The manager -/

structure CSporkManager where
  mapSporksByHash : List (Uint256 × CSporkMessage) := []
  mapSporksActive : List (Int × List (CKeyID × CSporkMessage)) := []
  setSporkPubKeyIDs : List CKeyID := []
  nMinSporkKeys : Int := 0
deriving DecidableEq, Repr

/-- `m.erase(k)`. -/
def eraseEntry {K V : Type} [DecidableEq K] (k : K) (m : List (K × V)) : List (K × V) :=
  m.filter fun p => p.1 ≠ k

/-- `m[k] = v`. -/
def setEntry {K V : Type} [DecidableEq K] (k : K) (v : V) : List (K × V) → List (K × V)
  | [] => [(k, v)]
  | p :: rest => if p.1 = k then (k, v) :: rest else p :: setEntry k v rest

namespace CSporkManager

/-- The loop over the signers of one spork: those that stay, and the messages by hash. -/
def checkSigners (setSporkPubKeyIDs : List CKeyID) :
    Nat → List (CKeyID × CSporkMessage) → List (Uint256 × CSporkMessage) →
      Option (List (CKeyID × CSporkMessage) × List (Uint256 × CSporkMessage))
  | 0, _, _ => none
  | _ + 1, [], byHash => some ([], byHash)
  | fuel + 1, p :: rest, byHash =>
    if p.1 ∉ setSporkPubKeyIDs then
      -- `continue`, with the iterator where it was
      checkSigners setSporkPubKeyIDs fuel (p :: rest) (eraseEntry (p.2.getHash env) byHash)
    else if !p.2.checkSignature env p.1 false && !p.2.checkSignature env p.1 true then
      checkSigners setSporkPubKeyIDs fuel rest (eraseEntry (p.2.getHash env) byHash)
    else do
      let (kept, byHash) ← checkSigners setSporkPubKeyIDs fuel rest byHash
      return (p :: kept, byHash)

/-- The loop over the sporks. -/
def checkActive (setSporkPubKeyIDs : List CKeyID) (fuel : Nat) :
    List (Int × List (CKeyID × CSporkMessage)) → List (Uint256 × CSporkMessage) →
      Option (List (Int × List (CKeyID × CSporkMessage)) × List (Uint256 × CSporkMessage))
  | [], byHash => some ([], byHash)
  | a :: rest, byHash => do
    let (signers, byHash) ← checkSigners env setSporkPubKeyIDs fuel a.2 byHash
    let (kept, byHash) ← checkActive setSporkPubKeyIDs fuel rest byHash
    return (if signers.isEmpty then kept else (a.1, signers) :: kept, byHash)

/-- The body of the loop over the messages by hash: some signer is found. -/
def signerFound (setSporkPubKeyIDs : List CKeyID) (spork : CSporkMessage) : Bool :=
  setSporkPubKeyIDs.any fun signer =>
    spork.checkSignature env signer false || spork.checkSignature env signer true

/-- `CheckAndRemove`, with nothing if the fuel of the inner loop does not suffice. -/
def checkAndRemove (fuel : Nat) (m : CSporkManager) : Except Fail (Option CSporkManager) := do
  assertThat (!m.setSporkPubKeyIDs.isEmpty)
  return do
    let (active, byHash) ←
      checkActive env m.setSporkPubKeyIDs fuel m.mapSporksActive m.mapSporksByHash
    return { m with
      mapSporksActive := active
      mapSporksByHash := byHash.filter fun p => signerFound env m.setSporkPubKeyIDs p.2 }

/-! ### Values -/

def spork6NewSigs : Int := 10005

def mapSporkDefaults : List (Int × Int) :=
  [(10001, 0), (10002, 0), (10004, 1000), (10005, 4070908800), (10008, 1527811200), (10011, 0),
    (10014, 970000), (10015, 1623153600), (10016, 1627232400), (10018, 1627243200),
    (10019, 1627250400)]

/-- The loop that counts the signers of every value, after those of `counted`. -/
def firstValue (nMinSporkKeys : Int) (counted : List Int) : List Int → Option Int
  | [] => none
  | nValue :: rest =>
    if ((counted.count nValue + 1 : Nat) : Int) ≥ nMinSporkKeys then some nValue
    else firstValue nMinSporkKeys (nValue :: counted) rest

def sporkValueIsActive (nSporkID : Int) (m : CSporkManager) : Option Int := do
  let signers ← m.mapSporksActive.lookup nSporkID
  firstValue m.nMinSporkKeys [] (signers.map fun p => p.2.nValue)

def isSporkActive (adjustedTime : Int) (nSporkID : Int) (m : CSporkManager) : Bool :=
  match m.sporkValueIsActive nSporkID with
  | some nSporkValue => nSporkValue < adjustedTime
  | none =>
    match mapSporkDefaults.lookup nSporkID with
    | some nSporkValue => nSporkValue < adjustedTime
    | none => false

/-! ### Messages from the network -/

inductive SporkOutcome where
  | misbehaving (howmuch : Nat)
  | seen
  | stored (m : CSporkManager)

/-- A configured key that the signature is from. -/
def signerKeyID (spork : CSporkMessage) (fSporkSixActive : Bool) (m : CSporkManager) :
    Option CKeyID :=
  (spork.getSignerKeyID env fSporkSixActive).filter fun keyID => keyID ∈ m.setSporkPubKeyIDs

def store (spork : CSporkMessage) (keyIDSigner : CKeyID) (m : CSporkManager) : CSporkManager :=
  let signers := (m.mapSporksActive.lookup spork.nSporkID).getD []
  { m with
    mapSporksByHash := setEntry (spork.getHash env) spork m.mapSporksByHash
    mapSporksActive :=
      setEntry spork.nSporkID (setEntry keyIDSigner spork signers) m.mapSporksActive }

/-- `ProcessSpork` for a spork message.  What the value then does is left out. -/
def processSpork (adjustedTime : Int) (spork : CSporkMessage) (m : CSporkManager) : SporkOutcome :=
  if spork.nTimeSigned > adjustedTime + 2 * 60 * 60 then .misbehaving 100
  else
    let fSpork6IsActive := m.isSporkActive adjustedTime spork6NewSigs
    match (m.signerKeyID env spork fSpork6IsActive).or
        (m.signerKeyID env spork !fSpork6IsActive) with
    | none => .misbehaving 100
    | some keyIDSigner =>
      match (m.mapSporksActive.lookup spork.nSporkID).bind fun s => s.lookup keyIDSigner with
      | some known =>
        if known.nTimeSigned ≥ spork.nTimeSigned then .seen
        else .stored (m.store env spork keyIDSigner)
      | none => .stored (m.store env spork keyIDSigner)

/-! ### Configuration -/

/-- `SetSporkAddress`, for the key of the address. -/
def setSporkAddress (keyid : CKeyID) (m : CSporkManager) : CSporkManager :=
  { m with setSporkPubKeyIDs := m.setSporkPubKeyIDs.insert keyid }

def setMinSporkKeys (minSporkKeys : Int) (m : CSporkManager) : Bool × CSporkManager :=
  let maxKeysNumber : Int := m.setSporkPubKeyIDs.length
  if minSporkKeys ≤ maxKeysNumber.tdiv 2 ∨ minSporkKeys > maxKeysNumber then (false, m)
  else (true, { m with nMinSporkKeys := minSporkKeys })

end CSporkManager

end Absolute
