/-
Shares and verification vectors in a group.

A verification vector is the polynomial of a dealer in the exponent, and the share of a member is
right when its public key is the value of that polynomial at the member's id.  Whether a share
is right has nothing to do with the shares of other dealers; `VerdictsIndividual` asks the same
of the verdicts that the node gets.
-/
import AbsoluteCore.Spec.ShareVerdicts

namespace Absolute

variable {F G : Type} [CommRing F] [AddCommGroup G] [Module F G]

/-! ### The group -/

/-- The value of the polynomial with these coefficients. -/
def evaluate (x : F) (keys : List G) : G := ∑ k ∈ Finset.range keys.length, x ^ k • keys.getD k 0

/-- A group in which the keys lie, and what the library makes of ids and vectors. -/
structure BlsGroup (F G : Type) where
  generator : G
  /-- The point of the polynomial that belongs to an id. -/
  point : Uint256 → F
  /-- Whether the library evaluates vectors of this length. -/
  evaluates : Nat → Bool
  getHash : G → Uint256

def BlsGroup.ops (bls : BlsGroup F G) : BlsOps G F where
  addPublicKeys := (· + ·)
  addSecretKeys := (· + ·)
  getPublicKey sk := sk • bls.generator
  publicKeyShare keys id := if bls.evaluates keys.length then some (evaluate (bls.point id) keys) else none
  getHash := bls.getHash

/-! ### Verdicts -/

/--
The entry is right by itself: its vector is usable, which means that its keys are valid and
different and that the library can evaluate it, and the public key of its share is the value of
the vector at the id.
-/
def BlsGroup.ShareValid (bls : BlsGroup F G) (inp : ShareInputs G F) (i : Nat) : Prop :=
  ∃ forId keys sk, inp.forId = some forId ∧ inp.vvecs[i]? = some (some (keys.map some)) ∧
    (keys.map bls.getHash).Nodup ∧ bls.evaluates keys.length = true ∧
    inp.skShares[i]? = some (some sk) ∧ sk • bls.generator = evaluate (bls.point forId) keys

variable [DecidableEq G]

/-- Whatever the schedule, an entry gets the verdict true exactly when it is right. -/
def VerdictsIndividual (bls : BlsGroup F G) (inp : ShareInputs G F) : Prop :=
  ∀ answer, WorkerAnswer bls.ops inp answer → ∀ i < inp.vvecs.length,
    (∃ verdicts, answer = .ok verdicts ∧ verdicts[i]? = some true) ↔ bls.ShareValid inp i

/-! ### When they are -/

/-- By how much the public key of the share differs from the value of the vector. -/
def BlsGroup.shareError (bls : BlsGroup F G) (inp : ShareInputs G F) (i : Nat) : G :=
  ((inp.skShares[i]?.join).getD 0) • bls.generator -
    evaluate (bls.point (inp.forId.getD 0)) (((inp.vvecs[i]?.join).getD []).map (·.getD 0))

/-- In no batch of valid shares do the errors add up to nothing although there are some. -/
def BlsGroup.NoCancellation (bls : BlsGroup F G) (inp : ShareInputs G F) : Prop :=
  inp.aggregated = true → bls.evaluates inp.vecSize = true → ∀ b < inp.batchCount,
    (∀ i < inp.count b, inp.skShares[inp.start b + i]? ≠ some none) →
    ∑ i ∈ Finset.range (inp.count b), bls.shareError inp (inp.start b + i) = 0 →
    ∀ i < inp.count b, bls.shareError inp (inp.start b + i) = 0

/--
Either the call is refused or has no answer and there is no entry that this could hurt, or it is
answered and no errors cancel out.
-/
def Independent (bls : BlsGroup F G) (inp : ShareInputs G F) : Prop :=
  ((inp.Refused bls.ops ∨ ¬Answerable bls.ops inp) ∧ ∀ i < inp.vvecs.length, ¬bls.ShareValid inp i) ∨
    (¬inp.Refused bls.ops ∧ Answerable bls.ops inp ∧ bls.NoCancellation inp)

end Absolute
