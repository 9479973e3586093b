/-
A session of the distributed key generation, as one node runs it.

The session of the source shares its members with everyone who holds a pointer to them; here
they are the elements of a list, and a member is changed by writing the list at its index.
What the session reads from elsewhere is a parameter: the operator's decryption and the results of
the worker threads.  Premature commitments, relaying, debug counters, logging and simulated errors are
left out.
-/
import AbsoluteCore.Bls.Keys
import AbsoluteCore.Llmq.Commitment

namespace Absolute

/-! ### Messages -/

/-- `CDKGContribution`; the encrypted shares are the blobs, one for each member. -/
structure CDKGContribution where
  llmqType : Nat
  quorumHash : Uint256
  proTxHash : Uint256
  vvec : BLSVerificationVector Nat
  blobs : List (List UInt8)
  sig : CBLSSignature
deriving DecidableEq, Repr

structure CDKGComplaint where
  llmqType : Nat
  quorumHash : Uint256
  proTxHash : Uint256
  badMembers : List Bool
  complainForMembers : List Bool
  sig : CBLSSignature
deriving DecidableEq, Repr

/-- `CDKGJustification`: shares by the index of the member they were meant for. -/
structure CDKGJustification where
  llmqType : Nat
  quorumHash : Uint256
  proTxHash : Uint256
  contributions : List (Nat × Option Nat)
  sig : CBLSSignature
deriving DecidableEq, Repr

/-! ### State -/

structure CDKGMember where
  dmn : CDeterministicMN
  idx : Nat
  id : CBLSId
  contributions : Finset Uint256 := ∅
  complaints : Finset Uint256 := ∅
  justifications : Finset Uint256 := ∅
  badMemberVotes : Finset Uint256 := ∅
  complaintsFromOthers : Finset Uint256 := ∅
  bad : Bool := false
  weComplain : Bool := false
  someoneComplain : Bool := false

def CDKGMember.new (dmn : CDeterministicMN) (idx : Nat) : CDKGMember where
  dmn := dmn
  idx := idx
  id := .fromHash dmn.proTxHash

/-- `Consensus::LLMQParams`, the fields that a session reads. -/
structure DKGParams where
  size : Nat
  minSize : Nat
  threshold : Nat
deriving DecidableEq, Repr

structure CDKGSession where
  params : DKGParams
  /-- `pindexQuorum->GetBlockHash()`. -/
  quorumHash : Uint256
  members : List CDKGMember
  membersMap : Std.ExtTreeMap Uint256 Nat compare
  receivedVvecs : List (Option (BLSVerificationVector Nat))
  receivedSkContributions : List (Option Nat)
  /-- Null for an observer. -/
  myProTxHash : Uint256
  myId : CBLSId
  /-- `(size_t)-1` for an observer. -/
  myIdx : Nat
  contributions : Std.ExtTreeMap Uint256 CDKGContribution compare := ∅
  complaints : Std.ExtTreeMap Uint256 CDKGComplaint compare := ∅
  justifications : Std.ExtTreeMap Uint256 CDKGJustification compare := ∅
  pendingContributionVerifications : List Nat := []

/-- What the session is given from outside. -/
structure DKGEnv where
  env : Env
  bls : BlsOps Nat Nat
  /-- `contributions->Decrypt(idx, *activeMasternodeInfo.blsKeyOperator, sk, ..)`. -/
  decrypt : List (List UInt8) → Nat → Option (Option Nat)
  /-- `blsWorker.VerifyContributionShares(forId, vvecs, skShares)`. -/
  verifyContributionShares : CBLSId → List (Option (BLSVerificationVector Nat)) →
    List (Option Nat) → Except Halt (List Bool)

namespace CDKGSession

/-- `Init`; the index of the node itself is the first one with its hash. -/
def init (params : DKGParams) (quorumHash : Uint256) (mns : List CDeterministicMN)
    (myProTxHash : Uint256) : Option CDKGSession :=
  if mns.length < params.minSize then none
  else
    let hashes := mns.map (·.proTxHash)
    let mine := myProTxHash ≠ 0 ∧ myProTxHash ∈ hashes
    some {
      params := params
      quorumHash := quorumHash
      members := mns.zipIdx.map fun (dmn, i) => .new dmn i
      membersMap := mns.zipIdx.foldl (fun m (dmn, i) => m.insertIfNew dmn.proTxHash i) ∅
      receivedVvecs := List.replicate mns.length none
      receivedSkContributions := List.replicate mns.length none
      myProTxHash := if mine then myProTxHash else 0
      myId := if mine then .fromHash myProTxHash else none
      myIdx := if mine then hashes.idxOf myProTxHash else 2 ^ 64 - 1 }

def areWeMember (s : CDKGSession) : Bool := s.myProTxHash != 0

/-- `GetMember`: null for a hash that is not in the map. -/
def getMember (s : CDKGSession) (proTxHash : Uint256) : Option CDKGMember :=
  match s.membersMap[proTxHash]? with
  | none => none
  | some i => s.members[i]?

/-- A write through the pointer to a member. -/
def modifyMember (s : CDKGSession) (idx : Nat) (f : CDKGMember → CDKGMember) : CDKGSession :=
  { s with members := s.members.modify idx f }

def markBadMember (s : CDKGSession) (idx : Nat) : CDKGSession :=
  s.modifyMember idx fun m => { m with bad := true }

/--
What the overloads of `PreVerifyMessage` share: the message is for this quorum and from a
member of it.  They return whether the message passes and whether its sender is banned.
-/
def preVerifyMessage (s : CDKGSession) (quorumHash proTxHash : Uint256)
    (check : CDKGMember → Bool × Bool) : Bool × Bool :=
  if quorumHash ≠ s.quorumHash then (false, false)
  else match s.getMember proTxHash with
    | none => (false, true)
    | some member => check member

variable {s : CDKGSession} {check : CDKGMember → Bool × Bool} {quorumHash proTxHash : Uint256}
  (e : DKGEnv)

theorem preVerifyMessage_passes
    (h : (s.preVerifyMessage quorumHash proTxHash check).1 = true) : quorumHash = s.quorumHash ∧
      ∃ member, s.getMember proTxHash = some member ∧ (check member).1 = true := by
  unfold preVerifyMessage at h
  split at h
  · simp at h
  · next hquorum =>
      refine ⟨not_not.mp hquorum, ?_⟩
      split at h
      · simp at h
      · next member hm => exact ⟨member, hm, h⟩

theorem preVerifyMessage_member (h : (s.preVerifyMessage quorumHash proTxHash check).1 = true) :
    (s.getMember proTxHash).isSome := by
  obtain ⟨-, member, hm, -⟩ := preVerifyMessage_passes h
  rw [hm]
  rfl

/-! ### Contributions -/

/-- The indexes of the members whose shares `VerifyPendingContributions` still has to check. -/
def pendingIndexes (s : CDKGSession) : Except Halt (List Nat) := do
  let pend ← s.pendingContributionVerifications.mapM fun idx => do
    let m ← at? s.members idx
    return (idx, m.bad || m.weComplain)
  return (pend.filter fun p => !p.2).map (·.1)

/-- One pass of the loop over the verdicts. -/
def applyVerdict (s : CDKGSession) (verdict : Nat × Bool) : CDKGSession :=
  if verdict.2 then s
  else s.modifyMember verdict.1 fun m => { m with weComplain := true }

def verifyPendingContributions (s : CDKGSession) : Except Halt CDKGSession := do
  if s.pendingContributionVerifications = [] then return s
  else do
    let memberIndexes ← s.pendingIndexes
    let vvecs ← memberIndexes.mapM (at? s.receivedVvecs)
    let skContributions ← memberIndexes.mapM (at? s.receivedSkContributions)
    let s := { s with pendingContributionVerifications := [] }
    let result ← e.verifyContributionShares s.myId vvecs skContributions
    if result.length ≠ memberIndexes.length then return s
    else return (memberIndexes.zip result).foldl applyVerdict s

def receiveContribution (s : CDKGSession) (hash : Uint256) (qc : CDKGContribution) :
    Except Halt CDKGSession := do
  let member ← pointee (s.getMember qc.proTxHash)
  if 2 ≤ member.contributions.card then return s
  else do
    let s := { s with contributions := s.contributions.insertIfNew hash qc }
    let s := s.modifyMember member.idx fun m =>
      { m with contributions := insert hash m.contributions }
    if 1 < (insert hash member.contributions).card then return s.markBadMember member.idx
    else do
      let s := { s with receivedVvecs := s.receivedVvecs.set member.idx (some qc.vvec) }
      if s.areWeMember = false then return s
      else match e.decrypt qc.blobs s.myIdx with
        | none => return s.modifyMember member.idx fun m => { m with weComplain := true }
        | some skContribution => do
          let s := { s with
            receivedSkContributions := s.receivedSkContributions.set member.idx skContribution
            pendingContributionVerifications :=
              s.pendingContributionVerifications ++ [member.idx] }
          if 32 ≤ s.pendingContributionVerifications.length then
            s.verifyPendingContributions e
          else return s

/-- `VerifyAndComplain`, up to the complaint it sends: silent members are bad. -/
def verifyAndComplain (s : CDKGSession) : Except Halt CDKGSession :=
  if s.areWeMember = false then .ok s
  else do
    let s ← s.verifyPendingContributions e
    return { s with members := s.members.map fun m =>
      if m.contributions = ∅ then { m with bad := true } else m }

/-! ### Complaints -/

def preVerifyComplaint (s : CDKGSession) (qc : CDKGComplaint) : Bool × Bool :=
  s.preVerifyMessage qc.quorumHash qc.proTxHash fun member =>
    if qc.badMembers.length ≠ s.params.size then (false, true)
    else if qc.complainForMembers.length ≠ s.params.size then (false, true)
    else if 2 ≤ member.complaints.card then (false, false)
    else (true, false)

/-- What the complaint says about one member. -/
def applyComplaint (qc : CDKGComplaint) (m : CDKGMember) (bad complain : Bool) : CDKGMember :=
  let m := if bad then { m with badMemberVotes := insert qc.proTxHash m.badMemberVotes } else m
  if complain then
    { m with complaintsFromOthers := insert qc.proTxHash m.complaintsFromOthers
             someoneComplain := true }
  else m

def receiveComplaint (s : CDKGSession) (hash : Uint256) (qc : CDKGComplaint) :
    Except Halt CDKGSession := do
  let member ← pointee (s.getMember qc.proTxHash)
  if 2 ≤ member.complaints.card then return s
  else do
    let s := { s with complaints := s.complaints.insertIfNew hash qc }
    let s := s.modifyMember member.idx fun m => { m with complaints := insert hash m.complaints }
    if 1 < (insert hash member.complaints).card then return s.markBadMember member.idx
    else do
      let members ← s.members.zipIdx.mapM fun (m, i) => do
        let bad ← at? qc.badMembers i
        let complain ← at? qc.complainForMembers i
        return applyComplaint qc m bad complain
      return { s with members := members }

/-! ### Justifications -/

/-- The loop of `PreVerifyMessage` over the shares; `seen` is `contributionsSet`. -/
def preVerifyShares (count : Nat) : List (Nat × Option Nat) → Finset Nat → Bool
  | [], _ => true
  | p :: rest, seen =>
    if p.1 > count then false
    else if p.1 ∈ seen then false
    else if p.2.isNone then false
    else preVerifyShares count rest (insert p.1 seen)

def preVerifyJustification (s : CDKGSession) (qj : CDKGJustification) : Bool × Bool :=
  s.preVerifyMessage qj.quorumHash qj.proTxHash fun member =>
    if qj.contributions = [] then (false, true)
    else if preVerifyShares s.members.length qj.contributions ∅ = false then (false, true)
    else if 2 ≤ member.justifications.card then (false, false)
    else (true, false)

/-- One pass of the loop that applies the verdict on a share for `member2`. -/
def applyShare (idx : Nat) (s : CDKGSession) (share : CDKGMember × Option Nat × Bool) :
    CDKGSession :=
  if share.2.2 = false then s.markBadMember idx
  else
    let s := if s.areWeMember ∧ share.1.id = s.myId then
        { s with receivedSkContributions := s.receivedSkContributions.set idx share.2.1 }.modifyMember
          idx fun m => { m with weComplain := false }
      else s
    s.modifyMember idx fun m =>
      { m with complaintsFromOthers := m.complaintsFromOthers.erase share.1.dmn.proTxHash }

/-- What `ReceiveMessage` does with the shares. -/
def receiveShares (s : CDKGSession) (member : CDKGMember) (qj : CDKGJustification) :
    Except Halt CDKGSession := do
  let members2 ← qj.contributions.mapM fun p => at? s.members p.1
  if members2.any (fun m => m.dmn.proTxHash ∉ member.complaintsFromOthers) then
    return s.markBadMember member.idx
  else do
    let vvec ← at? s.receivedVvecs member.idx
    let shares ← (members2.zip qj.contributions).mapM fun (m, p) => do
      let result ← asyncVerifyContributionShare e.bls m.id vvec p.2
      return (m, p.2, result)
    return shares.foldl (applyShare member.idx) s

def receiveJustification (s : CDKGSession) (hash : Uint256) (qj : CDKGJustification) :
    Except Halt CDKGSession := do
  let member ← pointee (s.getMember qj.proTxHash)
  if 2 ≤ member.justifications.card then return s
  else do
    let s := { s with justifications := s.justifications.insertIfNew hash qj }
    let s := s.modifyMember member.idx fun m =>
      { m with justifications := insert hash m.justifications }
    if 1 < (insert hash member.justifications).card then return s.markBadMember member.idx
    else if member.bad then return s
    else s.receiveShares e member qj

end CDKGSession

end Absolute
