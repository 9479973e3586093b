/-
What proof of service may do to a masternode.

A ban has three causes and a revival has one.  Both are stated for a single event of a block
and name the transaction of the block that is responsible.  For one masternode, the penalty that
commitments give it is followed through the blocks of a chain by a number.
-/
import AbsoluteCore.Evo.ListStore
import AbsoluteCore.Spec.Chain
import AbsoluteCore.Spec.ListEvent

namespace Absolute

open CDeterministicMNList

def NonnegPenalties (l : CDeterministicMNList) : Prop :=
  ∀ (h : Uint256) (d : CDeterministicMN), l.mnMap[h]? = some d → 0 ≤ d.pdmnState.nPoSePenalty

/-- The events at list `l` that may ban masternode `d`, of hash `h`. -/
inductive BanCause (txs : List CTransaction) (l : CDeterministicMNList) (h : Uint256)
    (d : CDeterministicMN) : EventSource × ListEvent → Prop
  /-- A commitment reports it missing, and its penalty reaches the maximum of the list. -/
  | punish {tx : CTransaction} {qc : CFinalCommitmentTxPayload} {penalty : Int} (hmem : tx ∈ txs)
      (hpayload : tx.getCommitment = some qc)
      (hreached : l.calcMaxPoSePenalty ≤ d.pdmnState.nPoSePenalty + penalty) :
      BanCause txs l h d (.transaction tx, .punish h penalty)
  /-- Its owner gives it another operator key. -/
  | changeKey {tx : CTransaction} {proTx : CProUpRegTx} (hmem : tx ∈ txs)
      (hpayload : tx.getProUpRegTx = some proTx) (hhash : proTx.proTxHash = h)
      (hkey : d.pdmnState.pubKeyOperator ≠ proTx.pubKeyOperator) :
      BanCause txs l h d (.transaction tx, .updateRegistrar proTx)
  /-- Its operator gives it up. -/
  | revoke {tx : CTransaction} {proTx : CProUpRevTx} (hmem : tx ∈ txs)
      (hpayload : tx.getProUpRevTx = some proTx) (hhash : proTx.proTxHash = h) :
      BanCause txs l h d (.transaction tx, .revoke proTx)

/-- The event that may lift the ban of masternode `d`, of hash `h`. -/
inductive ReviveCause (txs : List CTransaction) (h : Uint256) (d : CDeterministicMN) :
    EventSource × ListEvent → Prop
  | updateService {tx : CTransaction} {proTx : CProUpServTx} (hmem : tx ∈ txs)
      (hpayload : tx.getProUpServTx = some proTx) (hhash : proTx.proTxHash = h)
      (hoperator : d.pdmnState.pubKeyOperator.isValid = true)
      (hvoting : d.pdmnState.keyIDVoting ≠ 0) (howner : d.pdmnState.keyIDOwner ≠ 0) :
      ReviveCause txs h d (.transaction tx, .updateService proTx)

/--
What one event does to the proof of service of masternode `h`, which is `d` before it and
`d'` after it, in a block of height `nHeight`.
-/
structure PoSeStep (nHeight : Int) (txs : List CTransaction) (l : CDeterministicMNList)
    (x : EventSource × ListEvent) (h : Uint256) (d d' : CDeterministicMN) : Prop where
  banned : isMNValid d = true → isMNPoSeBanned d' = true → BanCause txs l h d x
  revived : isMNPoSeBanned d = true → isMNValid d' = true →
    ReviveCause txs h d x ∧ d'.pdmnState.nPoSePenalty = 0 ∧ d'.pdmnState.nPoSeRevivedHeight = nHeight
  staysBanned : isMNPoSeBanned d = true → isMNPoSeBanned d' = true →
    d'.pdmnState.nPoSeBanHeight = d.pdmnState.nPoSeBanHeight

/--
Connecting `block` to `c` was a run of events that leads from the list of `c` to the list of
`c'`, in which every event is a `PoSeStep` for every masternode that is there before and after
it and leaves no negative penalty.
-/
def PoSeBlock (env : Env) (c : Chain) (block : CBlock) (c' : Chain) : Prop :=
  ∃ (newList : CDeterministicMNList)
    (events : List (CDeterministicMNList × (EventSource × ListEvent) × CDeterministicMNList)),
    buildNewListFromBlock env c.lists block c.tip = .ok newList ∧
    c'.list = { newList with blockHash := block.hash } ∧
    Lts.Run (BlockStep env c.lists c.tip block.vtx.tail)
      { c.list with blockHash := 0, nHeight := c.tip.nHeight + 1 } events newList ∧
    ∀ l x l', (l, x, l') ∈ events → NonnegPenalties l' ∧
      ∀ (h : Uint256) (d d' : CDeterministicMN), l.mnMap[h]? = some d → l'.mnMap[h]? = some d' →
        PoSeStep (c.tip.nHeight + 1) block.vtx.tail l x h d d'

/-! ### Reports of commitments -/

section

variable (env : Env) (h : Uint256)

/-- The members of its quorum that a commitment reports, with their bits in `validMembers`. -/
def reported (lists : CBlockIndex → CDeterministicMNList) (pindexPrev : CBlockIndex)
    (tx : CTransaction) : List (CDeterministicMN × Bool) :=
  let reports : Option (List (CDeterministicMN × Bool)) := do
    let pindexQuorum ← CDeterministicMNManager.quorumIndexOf env pindexPrev tx
    let qc ← tx.getCommitment
    let members ← (getAllQuorumMembers env lists qc.commitment.llmqType pindexQuorum).toOption
    return members.zip qc.commitment.validMembers
  reports.getD []

/-- How many reports are failures of masternode `h`. -/
def countFailures (reports : List (CDeterministicMN × Bool)) : Nat :=
  reports.countP fun r => decide (r.1.proTxHash = h ∧ r.2 = false)

/-- How often transactions on top of the chain report masternode `h` as missing. -/
def failures (c : Chain) (txs : List CTransaction) : Nat :=
  (txs.map fun tx => countFailures h (reported env c.lists c.tip tx)).sum

/-- Connecting a block, `l` is the list after its transactions `txs` and before the others. -/
def Between (x : Chain × CBlock × Chain) (txs : List CTransaction) (l : CDeterministicMNList) :
    Prop :=
  txs <+: x.2.1.vtx.tail ∧ listAfter env x.1.lists x.1.tip txs = .ok l

def BannedIn (l : CDeterministicMNList) : Prop :=
  ∃ d : CDeterministicMN, l.mnMap[h]? = some d ∧ isMNPoSeBanned d = true

def BannedAt (penalty : Int) (l : CDeterministicMNList) : Prop :=
  ∃ d : CDeterministicMN, l.mnMap[h]? = some d ∧ isMNPoSeBanned d = true ∧
    d.pdmnState.nPoSePenalty = penalty

/-- The block neither removes nor revives the banned masternode. -/
structure StaysBanned (x : Chain × CBlock × Chain) : Prop where
  between : ∀ txs l, Between env x txs l → BannedIn h l
  after : BannedIn h x.2.2.list

/-- A transaction that reports masternode `h` as missing finds its penalty at the maximum of the
list. -/
def PunishedAtMax (x : Chain × CBlock × Chain) : Prop :=
  ∀ txs tx l d, Between env x txs l → txs ++ [tx] <+: x.2.1.vtx.tail → l.mnMap[h]? = some d →
    failures env h x.1 [tx] ≠ 0 → d.pdmnState.nPoSePenalty = l.calcMaxPoSePenalty

/-! ### Failures of one masternode among `n` -/

/-- There are `n` masternodes while the block is connected, and `h` is one of them. -/
structure Counted (n : Nat) (x : Chain × CBlock × Chain) : Prop where
  between : ∀ txs l, Between env x txs l → l.getAllMNsCount = n ∧ h ∈ l.mnMap
  after : h ∈ x.2.2.list.mnMap

/-- Masternode `h` is banned at some time while the block is connected. -/
def BannedWithin (x : Chain × CBlock × Chain) : Prop := ∃ txs l, Between env x txs l ∧ BannedIn h l

/-- The transactions give masternode `h` no new operator key and do not give it up. -/
def OperatorStays (txs : List CTransaction) : Prop :=
  ∀ tx ∈ txs, (∀ p, tx.getProUpRegTx = some p → p.proTxHash ≠ h) ∧
    ∀ p, tx.getProUpRevTx = some p → p.proTxHash ≠ h

end

/-- What one failure adds to a penalty. -/
def failurePenalty (n : Nat) : Int := (max 100 (n : Int) * 66).tdiv 100

/-- The penalty after some failures; `none` if they ban the masternode. -/
def afterFailures (n : Nat) : Nat → Int → Option Int
  | 0, q => some q
  | k + 1, q =>
    if max 100 (n : Int) ≤ q + failurePenalty n then none
    else afterFailures n k (q + failurePenalty n)

/-- The penalty after a block, which lowers it by one before the failures in it count. -/
def afterBlock (n : Nat) (q : Int) (k : Nat) : Option Int := afterFailures n k (max 0 (q - 1))

/-- With the penalty `q` before the first of three failures, and the second and third so many blocks
after those before them, a failure reaches the maximum. -/
def ReachesMax (n : Nat) (q : Int) (gap₁ gap₂ : Nat) : Prop :=
  let q₁ := max 0 (q - 1) + failurePenalty n
  let q₂ := max 0 (q₁ - gap₁) + failurePenalty n
  let q₃ := max 0 (q₂ - gap₂) + failurePenalty n
  max 100 (n : Int) ≤ max q₁ (max q₂ q₃)

end Absolute
