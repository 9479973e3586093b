/-
Verification of signatures in batches.

`CBLSBatchVerifier` collects messages from several sources and verifies all of them at once.  When
that fails it goes back to the messages of each source, and on request to single messages.

How a batch is verified is kept apart from what follows from the answer: the two ways the source has
stand at the end, over the operations of the signature scheme.
-/
import AbsoluteCore.Lib.Buckets
import AbsoluteCore.Primitives

namespace Absolute

/-- `CBLSBatchVerifier::Message`; its signature and its key are valid ones. -/
structure BatchMessage (κ S P : Type) where
  msgId : κ
  msgHash : Uint256
  sig : S
  pubKey : P
deriving DecidableEq, Repr

/-- How the verifier checks one message and a batch. -/
structure BatchChecks (κ S P : Type) where
  /-- `msg.sig.VerifyInsecure(msg.pubKey, msg.msgHash)`. -/
  verifyInsecure : BatchMessage κ S P → Bool
  verifyBatch : List (Uint256 × List (BatchMessage κ S P)) → Bool

variable {ι κ S P : Type} [LinearOrder ι] [LinearOrder κ] [DecidableEq S] [DecidableEq P]

/-- `byMessageHash[msg.msgHash].emplace_back(msg)` for each message. -/
def byMessageHash (msgs : List (BatchMessage κ S P)) : List (Uint256 × List (BatchMessage κ S P)) :=
  Buckets.collect (msgs.map fun msg => (msg.msgHash, msg))

namespace Batch

variable (batch : List (ι × BatchMessage κ S P))

/-- `messages.emplace(msgId, msg).first`: a message that is there under the id stays. -/
def emplace (msg : BatchMessage κ S P) : BatchMessage κ S P :=
  ((batch.map Prod.snd).find? fun known => known.msgId = msg.msgId).getD msg

def push (x : ι × BatchMessage κ S P) : List (ι × BatchMessage κ S P) :=
  batch ++ [(x.1, emplace batch x.2)]

/-- The map `messages`, in the order of the ids. -/
def messages : List (BatchMessage κ S P) :=
  (batch.map Prod.snd).dedup.insertionSort fun a b => a.msgId ≤ b.msgId

end Batch

structure CBLSBatchVerifier (ι κ S P : Type) where
  perMessageFallback : Bool
  subBatchSize : Nat := 0
  /-- What the two maps of messages have: each message with the source it came from. -/
  pushed : List (ι × BatchMessage κ S P) := []
  badSources : Finset ι := ∅
  badMessages : Finset κ := ∅

namespace CBLSBatchVerifier

variable (checks : BatchChecks κ S P) (v : CBLSBatchVerifier ι κ S P)

/-- The messages of a source one by one. -/
def verifyMessages (msgs : List (BatchMessage κ S P)) (badMessages : Finset κ) : Finset κ :=
  msgs.foldl (fun bad msg =>
    -- "same message might be invalid from different source"
    if msg.msgId ∈ bad then bad
    else if !checks.verifyInsecure msg then insert msg.msgId bad
    else bad) badMessages

/-- One source in `Verify`, after the full batch has failed. -/
def verifySource (onlySource : Bool) (v : CBLSBatchVerifier ι κ S P)
    (p : ι × List (BatchMessage κ S P)) : CBLSBatchVerifier ι κ S P :=
  let batchValid := !onlySource && checks.verifyBatch (byMessageHash p.2)
  if batchValid then v
  else
    { v with
      badSources := insert p.1 v.badSources
      badMessages :=
        if v.perMessageFallback then
          match p.2 with
          | [msg] => insert msg.msgId v.badMessages
          | msgs => verifyMessages checks msgs v.badMessages
        else v.badMessages }

def verify : CBLSBatchVerifier ι κ S P :=
  let messagesBySource := Buckets.collect v.pushed
  if checks.verifyBatch (byMessageHash (Batch.messages v.pushed)) then v
  else messagesBySource.foldl (verifySource checks (messagesBySource.length = 1)) v

def clearMessages : CBLSBatchVerifier ι κ S P :=
  { v with pushed := [] }

def pushMessage (sourceId : ι) (msg : BatchMessage κ S P) : CBLSBatchVerifier ι κ S P :=
  let v := { v with pushed := Batch.push v.pushed (sourceId, msg) }
  if v.subBatchSize ≠ 0 ∧ (Batch.messages v.pushed).length ≥ v.subBatchSize then
    (v.verify checks).clearMessages
  else v

end CBLSBatchVerifier

/-! ### Aggregation -/

/-- The operations on valid signatures and keys. -/
structure BlsSigOps (S P : Type) where
  /-- `sig.AggregateInsecure(o)`. -/
  aggregateSigs : S → S → S
  /-- `pubKey.AggregateInsecure(o)`. -/
  aggregateKeys : P → P → P
  verifyInsecure : S → P → Uint256 → Bool
  verifyInsecureAggregated : S → List P → List Uint256 → Bool

/-- The first value, or the aggregate with what is there. -/
def aggregate {α : Type} (add : α → α → α) : Option α → α → α
  | none, b => b
  | some a, b => add a b

/-- What is built up over a batch. -/
structure Aggregate (κ S P : Type) where
  aggSig : Option S := none
  msgHashes : List Uint256 := []
  pubKeys : List P := []
  dups : Finset κ := ∅

namespace BlsSigOps

variable (ops : BlsSigOps S P) (agg : Aggregate κ S P)
  (groups : List (Uint256 × List (BatchMessage κ S P)))

def verifyAggregate : Bool :=
  match agg.aggSig with
  | none => true
  | some aggSig => ops.verifyInsecureAggregated aggSig agg.pubKeys agg.msgHashes

/-- One message for the hash of `VerifyBatchInsecure`, with the aggregates of the signatures and of
the keys for this hash. -/
def addMessage (agg : Option S × Finset κ × Option P) (msg : BatchMessage κ S P) :
    Option S × Finset κ × Option P :=
  if msg.msgId ∈ agg.2.1 then agg
  else
    (some (aggregate ops.aggregateSigs agg.1 msg.sig), insert msg.msgId agg.2.1,
      some (aggregate ops.aggregateKeys agg.2.2 msg.pubKey))

def addHash (p : Uint256 × List (BatchMessage κ S P)) : Aggregate κ S P :=
  match p.2.foldl (addMessage ops) (agg.aggSig, agg.dups, none) with
  -- only duplicates for this hash
  | (aggSig, dups, none) => { agg with aggSig := aggSig, dups := dups }
  | (aggSig, dups, some aggPubKey) =>
    { aggSig := aggSig
      msgHashes := agg.msgHashes ++ [p.1]
      pubKeys := agg.pubKeys ++ [aggPubKey]
      dups := dups }

def verifyBatchInsecure : Bool :=
  verifyAggregate ops (groups.foldl (addHash ops) {})

/-- The last message of one hash in `VerifyBatchSecureStep`. -/
def addLast (p : Uint256 × List (BatchMessage κ S P)) : Aggregate κ S P :=
  match p.2.getLast? with
  | none => agg
  | some msg =>
    if msg.msgId ∈ agg.dups then agg
    else
      { aggSig := some (aggregate ops.aggregateSigs agg.aggSig msg.sig)
        msgHashes := agg.msgHashes ++ [p.1]
        pubKeys := agg.pubKeys ++ [msg.pubKey]
        dups := insert msg.msgId agg.dups }

/-- `messageIts.pop_back()` for every hash; a hash without messages is erased. -/
def popBack : List (Uint256 × List (BatchMessage κ S P)) :=
  (groups.map fun p => (p.1, p.2.dropLast)).filter fun p => !p.2.isEmpty

/-- The loop of `VerifyBatchSecure`; a step takes at least one message away. -/
def verifySteps : Nat → List (Uint256 × List (BatchMessage κ S P)) → Bool
  | 0, _ => true
  | n + 1, groups =>
    if groups.isEmpty then true
    else if verifyAggregate ops (groups.foldl (addLast ops) {}) then verifySteps n (popBack groups)
    else false

def verifyBatchSecure : Bool :=
  verifySteps ops (groups.flatMap Prod.snd).length groups

/-- The checks of a verifier in one of its two modes. -/
def checks (secureVerification : Bool) : BatchChecks κ S P where
  verifyInsecure msg := ops.verifyInsecure msg.sig msg.pubKey msg.msgHash
  verifyBatch groups :=
    if secureVerification then verifyBatchSecure ops groups else verifyBatchInsecure ops groups

end BlsSigOps

end Absolute
