/-
The client of a mixing session, and the transaction it signs.

The masternode sends the final transaction, and nothing about it can be trusted.
`SignFinalTransaction` goes through the entries of the session, and for each of its
inputs that is in the transaction compares the outputs of the entry with those of
the transaction before it signs.
-/
import AbsoluteCore.Lib.LastMatch
import AbsoluteCore.PrivateSend.Entry
import AbsoluteCore.Validation.BlockReward

namespace Absolute

/-- What the client is given from outside. -/
structure ClientEnv where
  /-- `tx.GetHash()`. -/
  getHash : CMutableTransaction → Uint256
  /-- The `scriptSig` that `SignSignature(keystore, prevPubKey, tx, nIn, ...)` leaves. -/
  signSignature : CScript → CMutableTransaction → Nat → CScript
  /-- `GetTime()`. -/
  time : Int

/-- `CPrivateSendClientSession`, the fields that signing reads or writes. -/
structure CPrivateSendClientSession where
  vecEntries : List CPrivateSendEntry := []
  nState : PoolState := .idle
  nTimeLastSuccessfulStep : Int := 0
  nSessionID : Int := 0
  finalMutableTransaction : CMutableTransaction := {}
  vecOutPointLocked : List COutPoint := []
  /-- Whether `mixingMasternode` is set. -/
  mixingMasternode : Bool := false

namespace CPrivateSendClientSession

variable (env : ClientEnv) (s : CPrivateSendClientSession)

/-- `UnlockCoins(); keyHolderStorage.ReturnAll(); SetNull();`. -/
def giveUp : CPrivateSendClientSession :=
  { s with
    vecEntries := []
    nState := .idle
    nTimeLastSuccessfulStep := env.time
    nSessionID := 0
    finalMutableTransaction := { s.finalMutableTransaction with vin := [], vout := [] }
    vecOutPointLocked := []
    mixingMasternode := false }

/-! ### Signing -/

/-- Why the loop over the entries ends before it has seen all of them. -/
inductive SignStop where
  /-- The outputs of an entry are not all there. -/
  | refused
  /-- A sum went out of the range of `CAmount`. -/
  | overflow
deriving DecidableEq, Repr

/-- `nValue += x`, on a `CAmount`. -/
def addAmount (nValue x : Int) : Except SignStop Int :=
  if FitsAmount (nValue + x) then .ok (nValue + x) else .error .overflow

/-- `nMyInputIndex`: the position of the last input that equals `txdsin`, as an input. -/
def findMyInput (vin : List CTxIn) (txdsin : CTxDSIn) : Option Nat :=
  (LastMatch.find (fun txin => txin == txdsin.toCTxIn) vin).map Prod.fst

/-- One pass of the inner loop: an output of the transaction against one of the entry. -/
def compareOutput (txoutFinal : CTxOut) (found : Nat × Int) (txout : CTxOut) :
    Except SignStop (Nat × Int) :=
  if txoutFinal = txout then do
    let nValue1 ← addAmount found.2 txoutFinal.nValue
    return (found.1 + 1, nValue1)
  else return found

/-- `nFoundOutputsCount` and `nValue1`. -/
def findOutputs (vout vecTxOut : List CTxOut) : Except SignStop (Nat × Int) :=
  vout.foldlM (fun found txoutFinal => vecTxOut.foldlM (compareOutput txoutFinal) found) (0, 0)

/-- `nValue2`. -/
def entryValue (vecTxOut : List CTxOut) : Except SignStop Int :=
  vecTxOut.foldlM (fun nValue2 txout => addAmount nValue2 txout.nValue) 0

/-- `tx.vin[nIn].scriptSig = scriptSig`. -/
def setScriptSig (tx : CMutableTransaction) (nIn : Nat) (scriptSig : CScript) :
    CMutableTransaction :=
  { tx with vin := tx.vin.modify nIn fun txin => { txin with scriptSig := scriptSig } }

/-- One pass of the loop over the inputs of an entry. -/
def signInput (entry : CPrivateSendEntry)
    (st : CMutableTransaction × List CTxIn) (txdsin : CTxDSIn) :
    Except SignStop (CMutableTransaction × List CTxIn) :=
  match findMyInput st.1.vin txdsin with
  | none => return st
  | some nMyInputIndex => do
    let (nFoundOutputsCount, nValue1) ← findOutputs st.1.vout entry.vecTxOut
    let nValue2 ← entryValue entry.vecTxOut
    if nFoundOutputsCount < entry.vecTxOut.length ∨ nValue1 ≠ nValue2 then .error .refused
    else
      let scriptSig := env.signSignature txdsin.prevPubKey st.1 nMyInputIndex
      let tx := setScriptSig st.1 nMyInputIndex scriptSig
      return (tx, st.2 ++ tx.vin[nMyInputIndex]?.toList)

/-- The loop over the entries, with the signatures kept apart by the entry they are made for. -/
def signEntries (env : ClientEnv) :
    List CPrivateSendEntry → CMutableTransaction →
      Except SignStop (CMutableTransaction × List (List CTxIn))
  | [], tx => return (tx, [])
  | entry :: rest, tx => do
    let (tx, sigs) ← entry.vecTxDSIn.foldlM (signInput env entry) (tx, [])
    let (tx, groups) ← signEntries env rest tx
    return (tx, sigs :: groups)

/-- `SignFinalTransaction`: the session, and the signatures if they are sent. -/
def signFinalTransaction (finalTransactionNew : CTransaction) :
    Except Fail (CPrivateSendClientSession × Option (List CTxIn)) :=
  if !s.mixingMasternode then .ok (s, none)
  else
    let tx := finalTransactionNew.toMutable.sortBIP69
    let s := { s with finalMutableTransaction := tx }
    if env.getHash tx ≠ env.getHash finalTransactionNew.toMutable then .ok (s.giveUp env, none)
    else
      match signEntries env s.vecEntries tx with
      | .error .overflow => .error .overflow
      | .error .refused => .ok (s.giveUp env, none)
      | .ok (tx, groups) =>
        let sigs := groups.flatten
        let s := { s with finalMutableTransaction := tx }
        if sigs.isEmpty then .ok (s.giveUp env, none)
        else
          .ok ({ s with nState := .signing, nTimeLastSuccessfulStep := env.time }, some sigs)

end CPrivateSendClientSession

end Absolute
