/-
BLS keys as the worker threads handle them.

The curve is behind a library that is not part of the repository, so its operations are
parameters: points `P`, secret scalars `S`, addition of both, the public key of a secret and
the evaluation of a vector of points at an id.  A key of the source is such a value together
with `fValid`, which is an `Option` here.
-/
import AbsoluteCore.Primitives

namespace Absolute

/-- How a thread of the node can end before it returns. -/
inductive Halt where
  | assert
  | outOfRange
  | nullPointer
  | useAfterFree
  /-- It waits for a callback that never comes. -/
  | blocked
deriving DecidableEq, Repr

/-- `v[i]`. -/
def at? {α : Type} (v : List α) (i : Nat) : Except Halt α :=
  match v[i]? with
  | some a => .ok a
  | none => .error .outOfRange

/-- `*p`. -/
def pointee {α : Type} : Option α → Except Halt α
  | some a => .ok a
  | none => .error .nullPointer

theorem at?_eq_ok {α : Type} {v : List α} {i : Nat} {a : α} : at? v i = .ok a ↔ v[i]? = some a := by
  unfold at?
  cases v[i]? <;> simp

/-- The operations of the BLS library. -/
structure BlsOps (P S : Type) where
  /-- `bls::PublicKey::AggregateInsecure` of two keys. -/
  addPublicKeys : P → P → P
  /-- `bls::PrivateKey::AggregateInsecure` of two keys. -/
  addSecretKeys : S → S → S
  getPublicKey : S → P
  /-- `bls::BLS::PublicKeyShare`, or nothing where it throws. -/
  publicKeyShare : List P → Uint256 → Option P
  /-- The `cachedHash` of a valid key. -/
  getHash : P → Uint256

abbrev BLSVerificationVector (P : Type) := List (Option P)

abbrev CBLSId := Option Uint256

def CBLSId.fromHash (hash : Uint256) : CBLSId := some hash

variable {P S : Type} [DecidableEq P] (ops : BlsOps P S)

/-- All keys of the vector, if they are all valid. -/
def validKeys {α : Type} (vec : List (Option α)) : Option (List α) := vec.mapM id

/-- `pk.PublicKeyShare(mpk, id)`, with the key it sets or nothing where it returns false. -/
def pkShare (mpk : BLSVerificationVector P) (id : CBLSId) : Option P := do
  let i ← id
  let keys ← validKeys mpk
  ops.publicKeyShare keys i

/-- `CBLSWorker::VerifyContributionShare`, also `ContributionVerifier::Verify`. -/
def verifyContributionShare (forId : CBLSId) (vvec : BLSVerificationVector P) (sk : Option S) : Bool :=
  match pkShare ops vvec forId with
  | none => false
  | some pk1 => sk.map ops.getPublicKey == some pk1

/-- `CBLSWorker::VerifyVerificationVector(vvec)`: every key is valid and none comes twice. -/
def verifyVerificationVector (vvec : BLSVerificationVector P) : Bool :=
  match validKeys vvec with
  | none => false
  | some keys => decide (keys.map ops.getHash).Nodup

/-- `CBLSWorker::AsyncVerifyContributionShare(forId, vvec, skContribution).get()`. -/
def asyncVerifyContributionShare (forId : CBLSId) (vvec : Option (BLSVerificationVector P))
    (skContribution : Option S) : Except Halt Bool :=
  if forId.isNone then .ok false
  else do
    let v ← pointee vvec
    if verifyVerificationVector ops v then
      return verifyContributionShare ops forId v skContribution
    else return false

/--
`CBLSWorker::VerifyVerificationVectors(vvecs)`: no vector is null, all have the length of the
first one, every key is valid and no key comes twice, in one vector or in two.
-/
def verifyVerificationVectors (vvecs : List (Option (BLSVerificationVector P))) : Bool :=
  match vvecs.mapM id with
  | none => false
  | some vecs =>
    vecs.all (fun v => v.length == (vecs.headD []).length) &&
      (vecs.all fun v => (validKeys v).isSome) &&
      decide ((vecs.flatten.filterMap id).map ops.getHash).Nodup

end Absolute
