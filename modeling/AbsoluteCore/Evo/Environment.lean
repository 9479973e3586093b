/-
What the masternode code is given from outside: chain parameters, hash functions,
signature schemes, scripts, the coins of the chain and the block index.

None of it is assumed to have a property here.  A result that needs one, such as that
`::SerializeHash` does not collide, says so.
-/
import AbsoluteCore.Evo.DeterministicMNList

namespace Absolute

/-- `Consensus::LLMQParams`, the fields that block validation reads. -/
structure LLMQParams where
  size : Nat
  minSize : Nat
  dkgInterval : Nat
deriving DecidableEq, Repr

/-- `NetworkIDString()`. -/
inductive Network where
  | main
  | test
  | devnet
  | regtest
deriving DecidableEq, Repr

/-- `Params(CBaseChainParams::MAIN).GetDefaultPort()`. -/
def mainnetDefaultPort : Nat := 18888

structure Env where
  -- `Params()` and `Params().GetConsensus()`
  network : Network
  dip0003Height : Int
  dip0003EnforcementHeight : Int
  dip0003EnforcementHash : Uint256
  nMasternodeMinimumConfirmations : Int
  /-- `llmqs`, by the number of the type. -/
  llmqs : Nat → Option LLMQParams
  fAllowPrivateNet : Bool
  -- hash functions
  /-- `::SerializeHash` on the types of unique properties. -/
  serializeHash : UniqueProperty → Uint256
  /-- `tx.GetHash()`. -/
  txHash : CTransaction → Uint256
  /-- `CSHA256` over the concatenation of two hashes. -/
  sha256 : Uint256 → Uint256 → Uint256
  /-- `::SerializeHash(std::make_pair((uint8_t)llmqType, blockHash))`. -/
  quorumModifier : Nat → Uint256 → Uint256
  calcTxInputsHash : CTransaction → Uint256
  /-- `::SerializeHash(proTx)`, which leaves the signature out. -/
  payloadHash : TxPayload → Uint256
  -- signatures
  /-- `CHashSigner::VerifyHash(hash, keyID, vchSig)`. -/
  verifyHash : Uint256 → CKeyID → List UInt8 → Bool
  /-- `CMessageSigner::VerifyMessage(keyID, vchSig, proTx.MakeSignString())`. -/
  verifyMessage : CKeyID → List UInt8 → CProRegTx → Bool
  /-- `impl.Verify({hash}, {pubKey.impl})`, on the points of a signature and a key. -/
  blsVerify : Nat → Nat → Uint256 → Bool
  -- the chain
  extractDestination : CScript → Option CTxDestination
  /-- `GetUTXOCoin(outpoint)` when the block with this index is the tip. -/
  getUTXOCoin : CBlockIndex → COutPoint → Option Coin
  mapBlockIndex : Uint256 → Option CBlockIndex
  /-- Whether DIP0008 is active after this block. -/
  dip0008Active : CBlockIndex → Bool

namespace Env

def verifyInsecure (env : Env) (sig : CBLSSignature) (pubKey : CBLSPublicKey) (hash : Uint256) :
    Bool :=
  match sig.impl, pubKey.impl with
  | some s, some k => env.blsVerify s k hash
  | _, _ => false

def isDIP3Enforced (env : Env) (nHeight : Int) : Bool := nHeight ≥ env.dip0003EnforcementHeight

end Env

end Absolute
