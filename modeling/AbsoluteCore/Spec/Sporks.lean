/-
What the start-up check of sporks is for: only what the configured keys have signed stays.
-/
import Mathlib.Data.List.MinMax
import AbsoluteCore.Spork.SporkManager

namespace Absolute

variable (env : SporkEnv)

/-- The signature is one of the key, in one of the two formats. -/
def CSporkMessage.Verifies (keyID : CKeyID) (spork : CSporkMessage) : Prop :=
  spork.checkSignature env keyID false = true ∨ spork.checkSignature env keyID true = true

namespace CSporkManager

/-- `mapSporksActive[nSporkID][keyID] == spork`. -/
def HasActive (m : CSporkManager) (nSporkID : Int) (keyID : CKeyID) (spork : CSporkMessage) : Prop :=
  ∃ signers, (nSporkID, signers) ∈ m.mapSporksActive ∧ (keyID, spork) ∈ signers

/-- `m'` is what should be left of `m`. -/
structure Cleaned (m m' : CSporkManager) : Prop where
  active : ∀ nSporkID keyID spork, m'.HasActive nSporkID keyID spork ↔
    m.HasActive nSporkID keyID spork ∧ keyID ∈ m.setSporkPubKeyIDs ∧ spork.Verifies env keyID
  nonempty : ∀ a ∈ m'.mapSporksActive, a.2 ≠ []
  byHash : ∀ p, p ∈ m'.mapSporksByHash ↔
    p ∈ m.mapSporksByHash ∧ ∃ keyID ∈ m.setSporkPubKeyIDs, p.2.Verifies env keyID

/-- The condition on what was loaded: every entry is under a configured key, and where one is not
signed by its key, the message with its hash is not signed by any other configured key. -/
structure Loadable (m : CSporkManager) : Prop where
  configured : ∀ nSporkID keyID spork, m.HasActive nSporkID keyID spork →
    keyID ∈ m.setSporkPubKeyIDs
  unsigned : ∀ nSporkID keyID spork, m.HasActive nSporkID keyID spork →
    ¬ spork.Verifies env keyID → ∀ p ∈ m.mapSporksByHash, p.1 = spork.getHash env →
      ∀ signer ∈ m.setSporkPubKeyIDs, ¬ p.2.Verifies env signer

/-! ### Values -/

def configured (keys : List CKeyID) : CSporkManager :=
  keys.foldl (fun m keyid => m.setSporkAddress keyid) {}

/-- The signer of a message that passes the checks of `ProcessSpork` on the time and the signature. -/
def checkedSigner (adjustedTime : Int) (spork : CSporkMessage) (m : CSporkManager) : Option CKeyID :=
  if spork.nTimeSigned > adjustedTime + 2 * 60 * 60 then none
  else
    let fSpork6IsActive := m.isSporkActive adjustedTime spork6NewSigs
    (m.signerKeyID env spork fSpork6IsActive).or (m.signerKeyID env spork !fSpork6IsActive)

/-- A message arrives at some time; with the manager goes the record of all messages that passed the
checks, each under its signer. -/
def receive (r : CSporkManager × List (CKeyID × CSporkMessage)) (a : Int × CSporkMessage) :
    CSporkManager × List (CKeyID × CSporkMessage) :=
  (match r.1.processSpork env a.1 a.2 with
    | .stored m => m
    | _ => r.1, r.2 ++ ((r.1.checkedSigner env a.1 a.2).map fun keyID => (keyID, a.2)).toList)

/-- The message with the greatest signing time, the first one among equal times. -/
noncomputable def latest (received : List (CKeyID × CSporkMessage)) (nSporkID : Int) (keyID : CKeyID) :
    Option CSporkMessage :=
  ((received.filter fun p => p.1 = keyID ∧ p.2.nSporkID = nSporkID).map Prod.snd).argmax (·.nTimeSigned)

/-- The entries of a spork, none if it has none. -/
def signersOf (m : CSporkManager) (nSporkID : Int) : List (CKeyID × CSporkMessage) :=
  (m.mapSporksActive.lookup nSporkID).getD []

/-- How many configured signers have the value in their latest message. -/
noncomputable def support (r : CSporkManager × List (CKeyID × CSporkMessage)) (nSporkID nValue : Int) : Nat :=
  r.1.setSporkPubKeyIDs.countP fun keyID =>
    (latest r.2 nSporkID keyID).any fun spork => spork.nValue = nValue

end CSporkManager

end Absolute
