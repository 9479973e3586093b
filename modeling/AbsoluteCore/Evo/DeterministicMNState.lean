/-
The state of a masternode and the difference of two states.

The source walks over the fourteen fields with the macro `DMN_STATE_DIFF_ALL_FIELDS`.
Here the fields are an enumeration with a getter and a setter each, and the macro's
three uses (building a diff, applying it, serializing it) are folds over `StateField.all`.
-/
import AbsoluteCore.Evo.Payloads

namespace Absolute

structure CDeterministicMNState where
  nRegisteredHeight : Int := -1
  nLastPaidHeight : Int := 0
  nPoSePenalty : Int := 0
  nPoSeRevivedHeight : Int := -1
  nPoSeBanHeight : Int := -1
  nRevocationReason : Nat := CProUpRevTx.reasonNotSpecified
  confirmedHash : Uint256 := 0
  confirmedHashWithProRegTxHash : Uint256 := 0
  keyIDOwner : CKeyID := 0
  pubKeyOperator : CBLSPublicKey := .null
  keyIDVoting : CKeyID := 0
  addr : CService := .null
  scriptPayout : CScript := []
  scriptOperatorPayout : CScript := []
deriving DecidableEq, Repr

namespace CDeterministicMNState

/-- `CDeterministicMNState(const CProRegTx&)`. -/
def ofProRegTx (proTx : CProRegTx) : CDeterministicMNState :=
  { keyIDOwner := proTx.keyIDOwner
    pubKeyOperator := proTx.pubKeyOperator
    keyIDVoting := proTx.keyIDVoting
    addr := proTx.addr
    scriptPayout := proTx.scriptPayout }

def resetOperatorFields (s : CDeterministicMNState) : CDeterministicMNState :=
  { s with
    pubKeyOperator := .null
    addr := .null
    scriptOperatorPayout := []
    nRevocationReason := CProUpRevTx.reasonNotSpecified }

def banIfNotBanned (s : CDeterministicMNState) (height : Int) : CDeterministicMNState :=
  if s.nPoSeBanHeight = -1 then { s with nPoSeBanHeight := height } else s

/-- `UpdateConfirmedHash`; `sha256` hashes the concatenation of two hashes, once. -/
def updateConfirmedHash (sha256 : Uint256 → Uint256 → Uint256) (s : CDeterministicMNState)
    (proTxHash confirmedHash : Uint256) : CDeterministicMNState :=
  { s with
    confirmedHash := confirmedHash
    confirmedHashWithProRegTxHash := sha256 proTxHash confirmedHash }

end CDeterministicMNState

/-! ### Fields -/

/-- `CDeterministicMNStateDiff::Field`. -/
inductive StateField where
  | nRegisteredHeight
  | nLastPaidHeight
  | nPoSePenalty
  | nPoSeRevivedHeight
  | nPoSeBanHeight
  | nRevocationReason
  | confirmedHash
  | confirmedHashWithProRegTxHash
  | keyIDOwner
  | pubKeyOperator
  | keyIDVoting
  | addr
  | scriptPayout
  | scriptOperatorPayout
deriving DecidableEq, Repr

namespace StateField

/-- `DMN_STATE_DIFF_ALL_FIELDS`, in its order. -/
def all : List StateField :=
  [nRegisteredHeight, nLastPaidHeight, nPoSePenalty, nPoSeRevivedHeight, nPoSeBanHeight,
   nRevocationReason, confirmedHash, confirmedHashWithProRegTxHash, keyIDOwner, pubKeyOperator,
   keyIDVoting, addr, scriptPayout, scriptOperatorPayout]

/-- The values of the enumeration. -/
def bit : StateField → Nat
  | nRegisteredHeight => 0x0001
  | nLastPaidHeight => 0x0002
  | nPoSePenalty => 0x0004
  | nPoSeRevivedHeight => 0x0008
  | nPoSeBanHeight => 0x0010
  | nRevocationReason => 0x0020
  | confirmedHash => 0x0040
  | confirmedHashWithProRegTxHash => 0x0080
  | keyIDOwner => 0x0100
  | pubKeyOperator => 0x0200
  | keyIDVoting => 0x0400
  | addr => 0x0800
  | scriptPayout => 0x1000
  | scriptOperatorPayout => 0x2000

/-- The type of the member a field names. -/
def Value : StateField → Type
  | nRegisteredHeight | nLastPaidHeight | nPoSePenalty | nPoSeRevivedHeight | nPoSeBanHeight => Int
  | nRevocationReason => Nat
  | confirmedHash | confirmedHashWithProRegTxHash => Uint256
  | keyIDOwner | keyIDVoting => CKeyID
  | pubKeyOperator => CBLSPublicKey
  | addr => CService
  | scriptPayout | scriptOperatorPayout => CScript

instance : (f : StateField) → DecidableEq f.Value
  | nRegisteredHeight | nLastPaidHeight | nPoSePenalty | nPoSeRevivedHeight | nPoSeBanHeight =>
    inferInstanceAs (DecidableEq Int)
  | nRevocationReason | confirmedHash | confirmedHashWithProRegTxHash | keyIDOwner | keyIDVoting =>
    inferInstanceAs (DecidableEq Nat)
  | pubKeyOperator => inferInstanceAs (DecidableEq CBLSPublicKey)
  | addr => inferInstanceAs (DecidableEq CService)
  | scriptPayout | scriptOperatorPayout => inferInstanceAs (DecidableEq (List UInt8))

/-- `state.f`. -/
def get : (f : StateField) → CDeterministicMNState → f.Value
  | nRegisteredHeight, s => s.nRegisteredHeight
  | nLastPaidHeight, s => s.nLastPaidHeight
  | nPoSePenalty, s => s.nPoSePenalty
  | nPoSeRevivedHeight, s => s.nPoSeRevivedHeight
  | nPoSeBanHeight, s => s.nPoSeBanHeight
  | nRevocationReason, s => s.nRevocationReason
  | confirmedHash, s => s.confirmedHash
  | confirmedHashWithProRegTxHash, s => s.confirmedHashWithProRegTxHash
  | keyIDOwner, s => s.keyIDOwner
  | pubKeyOperator, s => s.pubKeyOperator
  | keyIDVoting, s => s.keyIDVoting
  | addr, s => s.addr
  | scriptPayout, s => s.scriptPayout
  | scriptOperatorPayout, s => s.scriptOperatorPayout

/-- `state.f = v`. -/
def set : (f : StateField) → f.Value → CDeterministicMNState → CDeterministicMNState
  | nRegisteredHeight, v, s => { s with nRegisteredHeight := v }
  | nLastPaidHeight, v, s => { s with nLastPaidHeight := v }
  | nPoSePenalty, v, s => { s with nPoSePenalty := v }
  | nPoSeRevivedHeight, v, s => { s with nPoSeRevivedHeight := v }
  | nPoSeBanHeight, v, s => { s with nPoSeBanHeight := v }
  | nRevocationReason, v, s => { s with nRevocationReason := v }
  | confirmedHash, v, s => { s with confirmedHash := v }
  | confirmedHashWithProRegTxHash, v, s => { s with confirmedHashWithProRegTxHash := v }
  | keyIDOwner, v, s => { s with keyIDOwner := v }
  | pubKeyOperator, v, s => { s with pubKeyOperator := v }
  | keyIDVoting, v, s => { s with keyIDVoting := v }
  | addr, v, s => { s with addr := v }
  | scriptPayout, v, s => { s with scriptPayout := v }
  | scriptOperatorPayout, v, s => { s with scriptOperatorPayout := v }

theorem mem_all (f : StateField) : f ∈ all := by cases f <;> decide

@[simp] theorem get_set_self (f : StateField) (v : f.Value) (s : CDeterministicMNState) :
    f.get (f.set v s) = v := by
  cases f <;> rfl

theorem get_set_of_ne {f g : StateField} (h : g ≠ f) (v : f.Value) (s : CDeterministicMNState) :
    g.get (f.set v s) = g.get s := by
  cases f <;> cases g <;> first | rfl | exact absurd rfl h

/-- A state is its fourteen fields. -/
theorem ext {s t : CDeterministicMNState} (h : ∀ f : StateField, f.get s = f.get t) : s = t := by
  obtain ⟨⟩ := s
  obtain ⟨⟩ := t
  rw [CDeterministicMNState.mk.injEq]
  exact ⟨h nRegisteredHeight, h nLastPaidHeight, h nPoSePenalty, h nPoSeRevivedHeight,
    h nPoSeBanHeight, h nRevocationReason, h confirmedHash, h confirmedHashWithProRegTxHash,
    h keyIDOwner, h pubKeyOperator, h keyIDVoting, h addr, h scriptPayout, h scriptOperatorPayout⟩

/-- `target.f = source.f` for every `f` of a list. -/
def copy (fs : List StateField) (source target : CDeterministicMNState) : CDeterministicMNState :=
  fs.foldl (fun s f => f.set (f.get source) s) target

theorem get_copy (fs : List StateField) (source target : CDeterministicMNState) (g : StateField) :
    g.get (copy fs source target) = if g ∈ fs then g.get source else g.get target := by
  unfold copy
  induction fs generalizing target with
  | nil => rfl
  | cons f fs ih =>
    rw [List.foldl_cons, ih]
    by_cases hg : g = f
    · subst hg
      by_cases hmem : g ∈ fs <;> simp [hmem]
    · simp [hg, get_set_of_ne hg]

end StateField

/-! ### Differences -/

/-- `CDeterministicMNStateDiff`; of `state` only the fields that `fields` names are meant. -/
structure CDeterministicMNStateDiff where
  fields : Nat := 0
  state : CDeterministicMNState := {}
deriving DecidableEq, Repr

namespace CDeterministicMNStateDiff

/-- `fields & Field_f`. -/
def has (d : CDeterministicMNStateDiff) (f : StateField) : Bool := d.fields &&& f.bit != 0

/-- `state.f = b.f; fields |= Field_f`, when the two states differ there. -/
def diffLine (a b : CDeterministicMNState) (d : CDeterministicMNStateDiff) (f : StateField) :
    CDeterministicMNStateDiff :=
  if f.get a ≠ f.get b then
    { fields := d.fields ||| f.bit, state := f.set (f.get b) d.state }
  else d

/-- `CDeterministicMNStateDiff(a, b)`. -/
def between (a b : CDeterministicMNState) : CDeterministicMNStateDiff :=
  StateField.all.foldl (diffLine a b) {}

/-- `if (fields & Field_f) target.f = state.f`. -/
def applyLine (d : CDeterministicMNStateDiff) (target : CDeterministicMNState) (f : StateField) :
    CDeterministicMNState :=
  if d.has f then f.set (f.get d.state) target else target

def applyToState (d : CDeterministicMNStateDiff) (target : CDeterministicMNState) :
    CDeterministicMNState :=
  StateField.all.foldl d.applyLine target

end CDeterministicMNStateDiff

end Absolute
