/-
A block as a sequence of events on the masternode list.

`BuildNewListFromBlock` touches the list in ten ways and in a fixed order.  An event is one
such touch; `ListStep` says what it does, `Emitted` when a block causes it.  What a whole
block can do to a masternode is then read off single events.
-/
import AbsoluteCore.Evo.DeterministicMNManager
import AbsoluteCore.Lib.Run

namespace Absolute

open CDeterministicMNList

/-- One change of the list while a block is processed. -/
inductive ListEvent where
  /-- The confirmation pass writes the hash of the previous block. -/
  | confirm (proTxHash confirmedHash : Uint256)
  /-- `DecreasePoSePenalties` lowers a penalty by one. -/
  | decrease (proTxHash : Uint256)
  /-- A `ProRegTx` takes the next internal id. -/
  | reserveId
  /-- The masternode is replaced by a new one, or its collateral is spent. -/
  | drop (proTxHash : Uint256)
  /-- A `ProRegTx` adds its masternode. -/
  | add (tx : CTransaction) (proTx : CProRegTx) (internalId : Nat)
  | updateService (proTx : CProUpServTx)
  | updateRegistrar (proTx : CProUpRegTx)
  | revoke (proTx : CProUpRevTx)
  /-- A member that a commitment reports as missing is punished. -/
  | punish (proTxHash : Uint256) (penalty : Int)
  | pay (proTxHash : Uint256)

/-- The masternode whose state an event writes, and how the new state comes from the old. -/
def ListEvent.write (env : Env) (nHeight : Int) (l : CDeterministicMNList) :
    ListEvent → Option (Uint256 × (CDeterministicMNState → CDeterministicMNState))
  | confirm h c => some (h, fun s => s.updateConfirmedHash env.sha256 h c)
  | decrease h => some (h, fun s => { s with nPoSePenalty := s.nPoSePenalty - 1 })
  | updateService p => some (p.proTxHash, updServState nHeight p)
  | updateRegistrar p => some (p.proTxHash, updRegState nHeight p)
  | revoke p => some (p.proTxHash, updRevState nHeight p)
  | punish h penalty => some (h, fun s => l.punishedState s penalty)
  | pay h => some (h, fun s => { s with nLastPaidHeight := nHeight })
  | reserveId | drop _ | add _ _ _ => none

/-- What an event does to the list, in the list's own operations. -/
inductive ListStep (env : Env) (nHeight : Int) :
    CDeterministicMNList → ListEvent → CDeterministicMNList → Prop
  | write {l l' : CDeterministicMNList} {e : ListEvent} {h : Uint256} {dmn : CDeterministicMN}
      {f : CDeterministicMNState → CDeterministicMNState} (hwrite : e.write env nHeight l = some (h, f))
      (hm : l.mnMap[h]? = some dmn)
      (hok : l.updateMN env.serializeHash h (f dmn.pdmnState) = .ok l') : ListStep env nHeight l e l'
  | reserveId (l : CDeterministicMNList) :
      ListStep env nHeight l .reserveId (l.setTotalRegisteredCount (l.nTotalRegisteredCount + 1))
  | drop {l l' : CDeterministicMNList} {h : Uint256}
      (hok : l.removeMN env.serializeHash h = .ok l') : ListStep env nHeight l (.drop h) l'
  | add {l l' : CDeterministicMNList} {tx : CTransaction} {proTx : CProRegTx} {id : Nat}
      (hok : l.addMN env.serializeHash (newMN env tx proTx id nHeight) = .ok l') :
      ListStep env nHeight l (.add tx proTx id) l'

/-- The part of `BuildNewListFromBlock` that causes an event. -/
inductive EventSource where
  | preparation
  | transaction (tx : CTransaction)
  | spending (prevout : COutPoint)
  | payment

/-- The source belongs to a block with these transactions after the coinbase. -/
def EventSource.Of (txs : List CTransaction) : EventSource → Prop
  | transaction tx => tx ∈ txs
  | spending prevout => prevout ∈ spentOutpoints txs
  | preparation | payment => True

/-- When a block on top of `pindexPrev`, whose list is `old`, causes an event at a list. -/
inductive Emitted (env : Env) (pindexPrev : CBlockIndex) (old : CDeterministicMNList) :
    EventSource → CDeterministicMNList → ListEvent → Prop
  | confirm {l : CDeterministicMNList} {dmn : CDeterministicMN}
      (hm : old.mnMap[dmn.proTxHash]? = some dmn) (hconfirmed : isConfirmedBy env dmn pindexPrev) :
      Emitted env pindexPrev old .preparation l (.confirm dmn.proTxHash pindexPrev.getBlockHash)
  | decrease {l : CDeterministicMNList} {h : Uint256} {dmn : CDeterministicMN}
      (hm : l.mnMap[h]? = some dmn) (hpenalty : 0 < dmn.pdmnState.nPoSePenalty)
      (hvalid : dmn.pdmnState.nPoSeBanHeight = -1) :
      Emitted env pindexPrev old .preparation l (.decrease h)
  | reserveId {l : CDeterministicMNList} {tx : CTransaction} {proTx : CProRegTx}
      (hpayload : tx.getProRegTx = some proTx) :
      Emitted env pindexPrev old (.transaction tx) l .reserveId
  | replace {l : CDeterministicMNList} {tx : CTransaction} {proTx : CProRegTx} {h : Uint256}
      {dmn : CDeterministicMN} (hpayload : tx.getProRegTx = some proTx)
      (hm : l.mnMap[h]? = some dmn)
      (hcollateral : dmn.collateralOutpoint = proRegCollateral env tx proTx) :
      Emitted env pindexPrev old (.transaction tx) l (.drop h)
  | add {l : CDeterministicMNList} {tx : CTransaction} {proTx : CProRegTx} {id : Nat}
      (hpayload : tx.getProRegTx = some proTx)
      (hid : l.nTotalRegisteredCount = (id + 1) % 2 ^ 32) :
      Emitted env pindexPrev old (.transaction tx) l (.add tx proTx id)
  | updateService {l : CDeterministicMNList} {tx : CTransaction} {proTx : CProUpServTx}
      (hpayload : tx.getProUpServTx = some proTx) :
      Emitted env pindexPrev old (.transaction tx) l (.updateService proTx)
  | updateRegistrar {l : CDeterministicMNList} {tx : CTransaction} {proTx : CProUpRegTx}
      (hpayload : tx.getProUpRegTx = some proTx) :
      Emitted env pindexPrev old (.transaction tx) l (.updateRegistrar proTx)
  | revoke {l : CDeterministicMNList} {tx : CTransaction} {proTx : CProUpRevTx}
      (hpayload : tx.getProUpRevTx = some proTx) :
      Emitted env pindexPrev old (.transaction tx) l (.revoke proTx)
  | punish {l : CDeterministicMNList} {tx : CTransaction} {qc : CFinalCommitmentTxPayload}
      {h : Uint256} {penalty : Int} (hpayload : tx.getCommitment = some qc)
      (hpenalty : l.calcPenalty 66 = .ok penalty) :
      Emitted env pindexPrev old (.transaction tx) l (.punish h penalty)
  | spend {l : CDeterministicMNList} {h : Uint256} {dmn : CDeterministicMN}
      (hm : l.mnMap[h]? = some dmn) :
      Emitted env pindexPrev old (.spending dmn.collateralOutpoint) l (.drop h)
  | pay {l : CDeterministicMNList} {dmn : CDeterministicMN} (hpayee : old.getMNPayee = some dmn) :
      Emitted env pindexPrev old .payment l (.pay dmn.proTxHash)

/-- One event, from the given source, of a block on top of `pindexPrev`. -/
def StepFrom (env : Env) (lists : CBlockIndex → CDeterministicMNList) (pindexPrev : CBlockIndex)
    (source : EventSource) (l : CDeterministicMNList) (e : ListEvent) (l' : CDeterministicMNList) :
    Prop :=
  Emitted env pindexPrev (lists pindexPrev) source l e ∧
    ListStep env (pindexPrev.nHeight + 1) l e l'

/-- One event of a block on top of `pindexPrev`, with these transactions after the coinbase. -/
def BlockStep (env : Env) (lists : CBlockIndex → CDeterministicMNList) (pindexPrev : CBlockIndex)
    (txs : List CTransaction) (l : CDeterministicMNList) (x : EventSource × ListEvent)
    (l' : CDeterministicMNList) : Prop :=
  x.1.Of txs ∧ StepFrom env lists pindexPrev x.1 l x.2 l'

end Absolute
