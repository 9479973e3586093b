/-
The members of a quorum and the connections between them.

A quorum is made of the masternodes with the highest scores.  Its members form a ring, and each
of them connects to those at distances that are powers of two.
-/
import AbsoluteCore.Llmq.Commitment
import Mathlib.Data.Nat.Log
import Mathlib.Data.Prod.Lex
import Mathlib.Data.Set.Card
import Mathlib.Logic.Relation

namespace Absolute

open CDeterministicMNList List

/-- A masternode of the list that a quorum can have. -/
structure CDeterministicMNList.Eligible (l : CDeterministicMNList) (d : CDeterministicMN) : Prop where
  mem : l.mnMap[d.proTxHash]? = some d
  notBanned : d.pdmnState.nPoSeBanHeight = -1
  confirmed : d.pdmnState.confirmedHash ≠ 0

/-- The score, and the collateral that decides between equal ones. -/
def CDeterministicMN.rank (sha256 : Uint256 → Uint256 → Uint256) (modifier : Uint256)
    (d : CDeterministicMN) : Uint256 ×ₗ Uint256 ×ₗ Nat :=
  toLex (sha256 d.pdmnState.confirmedHashWithProRegTxHash modifier,
    toLex (d.collateralOutpoint.hash, d.collateralOutpoint.n))

/-- `members` are the first `n` of the eligible masternodes, best first. -/
structure Selects (l : CDeterministicMNList) (rank : CDeterministicMN → Uint256 ×ₗ Uint256 ×ₗ Nat)
    (n : Nat) (members : List CDeterministicMN) : Prop where
  length : members.length = min n {d | l.Eligible d}.ncard
  distinct : (members.map CDeterministicMN.proTxHash).Nodup
  eligible : ∀ d ∈ members, l.Eligible d
  best : ∀ d, l.Eligible d → d ∉ members → ∀ d' ∈ members, rank d < rank d'
  /-- In whatever order the masternodes are met and however they are sorted. -/
  canonical : ∀ sorted : List CDeterministicMN, sorted.Nodup → (∀ d, d ∈ sorted ↔ l.Eligible d) →
    (sorted.Pairwise fun a b => rank b ≤ rank a) → sorted.take n = members

/-- `GetQuorumConnections` terminates with `result`. -/
def Connects (mns : List CDeterministicMN) (forMember : Uint256) (result : Finset Uint256) : Prop :=
  ∃ fuel, getQuorumConnections fuel mns forMember = some result

/-- The member at `(i + 2^k) % n` is `h`. -/
def AtGap (mns : List CDeterministicMN) (i k : Nat) (h : Uint256) : Prop :=
  ∃ d, mns[(i + 2 ^ k) % mns.length]? = some d ∧ d.proTxHash = h

/-- The connections of a quorum are those of the ring. -/
structure RingConnected (mns : List CDeterministicMN) : Prop where
  connects : ∀ i d, mns[i]? = some d → ∃ result, Connects mns d.proTxHash result ∧
    d.proTxHash ∉ result ∧ ∀ h, h ∈ result ↔
      ∃ k ≤ max 1 (Nat.log 2 (mns.length - 1) - 1), (i + 2 ^ k) % mns.length ≠ i ∧ AtGap mns i k h
  strong : 2 ≤ mns.length → ∀ a ∈ mns, ∀ b ∈ mns, Relation.ReflTransGen
    (fun a b => ∃ result, Connects mns a.proTxHash result ∧ b.proTxHash ∈ result) a b

end Absolute
