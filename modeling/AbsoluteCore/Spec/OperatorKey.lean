/-
Who signs for the operator of a masternode.

`ProUpServTx` and `ProUpRevTx` carry a signature of the operator.  It is checked against the
list of the previous block, while the transaction is applied to a list that the transactions
before it have changed already.  The definitions here say which key the signature should
verify under, and what can be read off the block alone.
-/
import AbsoluteCore.Spec.Chain

namespace Absolute

/-- The masternode, the operator's signature and the signed hash of a special transaction. -/
def operatorSigned (env : Env) (tx : CTransaction) :
    Option (Uint256 × CBLSSignature × Uint256) :=
  if tx.nVersion ≠ 3 then none
  else
    match tx.nType with
    | .providerUpdateService =>
      tx.getProUpServTx.map fun p => (p.proTxHash, p.sig, env.payloadHash (.proUpServ p))
    | .providerUpdateRevoke =>
      tx.getProUpRevTx.map fun p => (p.proTxHash, p.sig, env.payloadHash (.proUpRev p))
    | _ => none

/-- The operator key that a transaction gives the masternode, if it changes the key. -/
def operatorChange (tx : CTransaction) (h : Uint256) : Option CBLSPublicKey :=
  if tx.nVersion ≠ 3 then none
  else
    match tx.nType with
    | .providerUpdateRegistrar =>
      tx.getProUpRegTx.bind fun p => if p.proTxHash = h then some p.pubKeyOperator else none
    | .providerUpdateRevoke =>
      tx.getProUpRevTx.bind fun p => if p.proTxHash = h then some .null else none
    | _ => none

/-- The last key that the transactions give the masternode. -/
def lastOperatorChange (txs : List CTransaction) (h : Uint256) : Option CBLSPublicKey :=
  txs.foldl (fun key tx => (operatorChange tx h).or key) none

/--
Every transaction that needs the operator's signature is signed under the key the masternode
has in the evolving list when the transaction is applied.
-/
def SignedByHolder (env : Env) (lists : CBlockIndex → CDeterministicMNList)
    (pindexPrev : CBlockIndex) (txs : List CTransaction) : Prop :=
  ∀ (pre post : List CTransaction) (tx : CTransaction), txs = pre ++ tx :: post →
    ∀ h sig hash, operatorSigned env tx = some (h, sig, hash) →
      ∃ (l : CDeterministicMNList) (dmn : CDeterministicMN),
        listAfter env lists pindexPrev pre = .ok l ∧ l.mnMap[h]? = some dmn ∧
          env.verifyInsecure sig dmn.pdmnState.pubKeyOperator hash = true

/--
The last transaction before it in the block that changes the masternode's operator key, if
there is one, sets a key that the signature verifies under as well.
-/
def SignedUnderChanges (env : Env) (txs : List CTransaction) : Prop :=
  ∀ (pre post : List CTransaction) (tx : CTransaction), txs = pre ++ tx :: post →
    ∀ h sig hash, operatorSigned env tx = some (h, sig, hash) →
      ∀ key, lastOperatorChange pre h = some key → env.verifyInsecure sig key hash = true

end Absolute
