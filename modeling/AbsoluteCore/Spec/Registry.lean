/-
The register of masternodes, without the machinery that keeps it.

For the question whether two masternodes can come to share an address or a key, a
masternode is its collateral, its address, its owner and its operator key.  `Registry`
keeps just these, and `apply` says what a transaction of a block makes of them, or that
the block is refused there.  Nothing here has an index that could fall out of step.
-/
import AbsoluteCore.Evo.DeterministicMNManager

namespace Absolute

/-- What the other masternodes can collide with. -/
structure Registration where
  collateral : COutPoint
  addr : CService
  owner : CKeyID
  operatorKey : CBLSPublicKey

/-- The registered masternodes, by the hash of their `ProRegTx`. -/
abbrev Registry := Uint256 → Option Registration

def CDeterministicMN.registration (dmn : CDeterministicMN) : Registration where
  collateral := dmn.collateralOutpoint
  addr := dmn.pdmnState.addr
  owner := dmn.pdmnState.keyIDOwner
  operatorKey := dmn.pdmnState.pubKeyOperator

def CDeterministicMNList.registry (l : CDeterministicMNList) : Registry :=
  fun h => l.mnMap[h]?.map CDeterministicMN.registration

namespace Registry

variable (reg : Registry)

/-- The register without the masternode on this collateral. -/
def withoutCollateral (c : COutPoint) : Registry :=
  fun h => (reg h).filter fun r => r.collateral ≠ c

/-- Some masternode of the register has an address or a key of `r`. -/
def Conflicts (r : Registration) : Prop :=
  ∃ h r', reg h = some r' ∧
    ((r.addr ≠ .null ∧ r'.addr = r.addr) ∨ r'.owner = r.owner ∨ r'.operatorKey = r.operatorKey)

open Classical in
/-- A new masternode takes the place of the one on its collateral and must not conflict. -/
noncomputable def register (h : Uint256) (r : Registration) : Option Registry :=
  if (reg.withoutCollateral r.collateral).Conflicts r then none
  else some (Function.update (reg.withoutCollateral r.collateral) h (some r))

open Classical in
/-- A new address must not be another masternode's. -/
noncomputable def setService (h : Uint256) (a : CService) : Option Registry :=
  (reg h).bind fun r =>
    if ∃ h' r', h' ≠ h ∧ reg h' = some r' ∧ r'.addr = a then none
    else some (Function.update reg h (some { r with addr := a }))

/-- A new operator key clears the address; no one asks whose key it is. -/
def setOperator (h : Uint256) (k : CBLSPublicKey) : Option Registry :=
  (reg h).map fun r => Function.update reg h
    (some (if r.operatorKey = k then r else { r with operatorKey := k, addr := .null }))

def revoke (h : Uint256) : Option Registry :=
  (reg h).map fun r =>
    Function.update reg h (some { r with operatorKey := .null, addr := .null })

/-- A commitment of a quorum whose first block is not where its height says. -/
def CommitmentRefused (env : Env) (pindexPrev : CBlockIndex) (qc : CFinalCommitmentTxPayload) :
    Prop :=
  qc.commitment.isNull = false ∧ ∀ params, env.llmqs qc.commitment.llmqType = some params →
    (pindexPrev.getAncestor (qc.nHeight - qc.nHeight % params.dkgInterval : Nat)).map
      CBlockIndex.getBlockHash ≠ some qc.commitment.quorumHash

open Classical in
/-- What a transaction makes of the register; `none` when the block is refused at it. -/
noncomputable def apply (env : Env) (pindexPrev : CBlockIndex) (reg : Registry)
    (tx : CTransaction) : Option Registry :=
  if tx.nVersion ≠ 3 then some reg
  else
    match tx.nType, tx.vExtraPayload with
    | .providerRegister, .proReg p =>
      reg.register (env.txHash tx)
        ⟨proRegCollateral env tx p, p.addr, p.keyIDOwner, p.pubKeyOperator⟩
    | .providerUpdateService, .proUpServ p => reg.setService p.proTxHash p.addr
    | .providerUpdateRegistrar, .proUpReg p => reg.setOperator p.proTxHash p.pubKeyOperator
    | .providerUpdateRevoke, .proUpRev p => reg.revoke p.proTxHash
    | .quorumCommitment, .commitment qc =>
      if CommitmentRefused env pindexPrev qc then none else some reg
    | _, _ => some reg

/-- The transaction gives a registered masternode the operator key of another one. -/
def TakesKey (tx : CTransaction) : Prop :=
  tx.nVersion = 3 ∧ tx.nType = .providerUpdateRegistrar ∧
    ∃ p, tx.getProUpRegTx = some p ∧ (reg p.proTxHash).isSome = true ∧
      ∃ h r, h ≠ p.proTxHash ∧ reg h = some r ∧ r.operatorKey = p.pubKeyOperator

/--
Among the transactions there is a `ProUpRegTx` whose operator key, after the ones before
it, is registered to another masternode.
-/
def KeyClash (env : Env) (pindexPrev : CBlockIndex) (reg : Registry) (txs : List CTransaction) :
    Prop :=
  ∃ pre tx post reg', txs = pre ++ tx :: post ∧
    pre.foldlM (apply env pindexPrev) reg = some reg' ∧ reg'.TakesKey tx

end Registry

end Absolute
