/-
When a batch of messages is authenticated.

The first loop of `BatchVerifyMessageSigs` stops the node, finds a sign hash twice or
aggregates everything.  After a failed aggregate the loop over the senders always ends with
the last one, so that the short path for a single sender is taken for every batch.
-/
import AbsoluteCore.Spec.DKGMessages
import AbsoluteCore.Proofs.Evo.NewList

namespace Absolute

open Fallible List Option Except Function CDKGMember

variable {σ M : Type} {env : Env} {ops : DKGMessageOps σ M} {session : σ}
variable {messages pre rest : List (NodeId × M)} {p : NodeId × M} {st : BatchScan}

/-! ### Single messages -/

/-- The operator key of the member that the message names. -/
def operatorKey (ops : DKGMessageOps σ M) (session : σ) (msg : M) : CBLSPublicKey :=
  ((ops.getMember session (ops.proTxHash msg)).map (·.dmn.pdmnState.pubKeyOperator)).getD .null

def Named (ops : DKGMessageOps σ M) (session : σ) (messages : List (NodeId × M)) : Prop :=
  ∀ p ∈ messages, (ops.getMember session (ops.proTxHash p.2)).isSome

theorem Named.tail (h : Named ops session (p :: rest)) : Named ops session rest :=
  fun q hq => h q (mem_cons_of_mem p hq)

theorem Named.head (h : Named ops session (p :: rest)) :
    ∃ member, ops.getMember session (ops.proTxHash p.2) = some member :=
  isSome_iff_exists.mp (h p mem_cons_self)

theorem named_preverifiedMessages (ops : DKGMessageOps σ M) (session : σ)
    (msgs : List (NodeId × Option M)) :
    Named ops session (preverifiedMessages ops session msgs) := by
  intro p hp
  obtain ⟨⟨nodeId, msg⟩, -, heq⟩ := mem_filterMap.mp hp
  obtain ⟨m, -, hm⟩ := bind_eq_some_iff.mp heq
  by_cases hpre : (ops.preVerifyMessage session m).1 = true
  · rw [if_pos hpre, some.injEq] at hm
    rw [← hm]
    exact ops.preVerify_member session m hpre
  · rw [if_neg hpre] at hm
    simp at hm

theorem authentic_iff {msg : M} (hm : (ops.getMember session (ops.proTxHash msg)).isSome) :
    Authentic env ops session msg ↔
      env.verifyInsecure (ops.sig msg) (operatorKey ops session msg) (ops.getSignHash msg) = true := by
  obtain ⟨member, hm⟩ := isSome_iff_exists.mp hm
  unfold Authentic operatorKey
  simp [hm]

/-! ### The first loop -/

/-- The state of the loop after the messages of `pre`, none of which shares its sign hash. -/
structure Scanned (ops : DKGMessageOps σ M) (session : σ) (pre : List (NodeId × M))
    (st : BatchScan) : Prop where
  ret : st.ret = ∅
  first : st.first = decide (pre = [])
  aggSig : st.aggSig = pre.map fun q => ops.sig q.2
  pubKeys : st.pubKeys = pre.map fun q => operatorKey ops session q.2
  messageHashes : st.messageHashes = pre.map fun q => ops.getSignHash q.2
  single : st.revertToSingleVerification = false
  nodup : (pre.map fun q => ops.getSignHash q.2).Nodup
  valid : 1 < pre.length → ∀ q ∈ pre, (ops.sig q.2).isValid = true

theorem scanned_nil (ops : DKGMessageOps σ M) (session : σ) : Scanned ops session [] {} where
  ret := rfl
  first := rfl
  aggSig := rfl
  pubKeys := rfl
  messageHashes := rfl
  single := rfl
  nodup := nodup_nil
  valid := by simp

theorem Scanned.aggregate (h : Scanned ops session pre st) (p) :
    (pre ≠ [] ∧ (∃ q ∈ pre ++ [p], (ops.sig q.2).isValid = false) ∧
      (if st.first then .ok [ops.sig p.2] else aggregateInsecure st.aggSig (ops.sig p.2)) =
        (.error .assert : Except Halt AggregatedSignature)) ∨
    ((pre ≠ [] → ∀ q ∈ pre ++ [p], (ops.sig q.2).isValid = true) ∧
      (if st.first then .ok [ops.sig p.2] else aggregateInsecure st.aggSig (ops.sig p.2)) =
        (.ok ((pre ++ [p]).map fun q => ops.sig q.2) : Except Halt AggregatedSignature)) := by
  by_cases hpre : pre = []
  · subst hpre
    right
    simp [h.first]
  · have hfirst : st.first = false := by simp [h.first, hpre]
    have hagg : (if st.first then .ok [ops.sig p.2] else aggregateInsecure st.aggSig (ops.sig p.2)) =
        aggregateInsecure (pre.map fun q => ops.sig q.2) (ops.sig p.2) := by
      rw [hfirst, h.aggSig]
      rfl
    rw [hagg]
    unfold aggregateInsecure
    have hall : ((pre.map fun q => ops.sig q.2).all CBLSSignature.isValid &&
        (ops.sig p.2).isValid) = true ↔ ∀ q ∈ pre ++ [p], (ops.sig q.2).isValid = true := by
      rw [Bool.and_eq_true, List.all_map, List.all_eq_true, forall_mem_append,
        forall_mem_singleton]
      rfl
    by_cases hvalid : ∀ q ∈ pre ++ [p], (ops.sig q.2).isValid = true
    · refine .inr ⟨fun _ => hvalid, ?_⟩
      rw [if_pos (hall.mpr hvalid), map_append]
      rfl
    · refine .inl ⟨hpre, ?_, if_neg (mt hall.mp hvalid)⟩
      push Not at hvalid
      simpa using hvalid

theorem Scanned.snoc (h : Scanned ops session pre st) {member : CDKGMember}
    (hm : ops.getMember session (ops.proTxHash p.2) = some member)
    (hnew : ops.getSignHash p.2 ∉ st.messageHashes)
    (hvalid : pre ≠ [] → ∀ q ∈ pre ++ [p], (ops.sig q.2).isValid = true) :
    Scanned ops session (pre ++ [p])
      { st with
        aggSig := (pre ++ [p]).map fun q => ops.sig q.2
        first := false
        pubKeys := st.pubKeys ++ [member.dmn.pdmnState.pubKeyOperator]
        messageHashes := st.messageHashes ++ [ops.getSignHash p.2] } where
  ret := h.ret
  first := by simp
  aggSig := rfl
  pubKeys := by simp [h.pubKeys, operatorKey, hm]
  messageHashes := by simp [h.messageHashes]
  single := h.single
  nodup := by
    rw [h.messageHashes] at hnew
    rw [map_append, nodup_append]
    refine ⟨h.nodup, by simp, ?_⟩
    intro a ha b hb
    rw [map_singleton, mem_singleton] at hb
    intro heq
    exact hnew (hb ▸ heq ▸ ha)
  valid := by
    intro hlen
    refine hvalid ?_
    intro hnil
    simp [hnil] at hlen

/--
**The first loop** fails its assert because of a null signature, meets a sign hash twice, or
aggregates every message.
-/
theorem scanMessages_cases :
    ∀ (rest : List (NodeId × M)), Scanned ops session pre st → Named ops session rest →
      (scanMessages ops session st rest = .error .assert ∧ NullAggregated ops (pre ++ rest)) ∨
      (∃ st', scanMessages ops session st rest = .ok st' ∧ st'.ret = ∅ ∧
        st'.revertToSingleVerification = true ∧
        ¬((pre ++ rest).map fun q => ops.getSignHash q.2).Nodup) ∨
      (∃ st', scanMessages ops session st rest = .ok st' ∧ Scanned ops session (pre ++ rest) st') := by
  intro rest
  induction rest generalizing pre st with
  | nil =>
    intro h _
    refine .inr (.inr ⟨st, rfl, ?_⟩)
    rwa [append_nil]
  | cons p rest ih =>
    intro h hnamed
    obtain ⟨member, hm⟩ := hnamed.head
    have hassoc : pre ++ p :: rest = (pre ++ [p]) ++ rest := by simp
    rcases h.aggregate p with ⟨hpre, hnull, hfail⟩ | ⟨hvalid, hok⟩
    · refine .inl ⟨?_, pre, p, rest, rfl, hpre, h.nodup, hnull⟩
      simp only [scanMessages, hm, hfail, error_bind]
    by_cases hmem : ops.getSignHash p.2 ∈ st.messageHashes
    · have hscan : scanMessages ops session st (p :: rest) = .ok { st with
          aggSig := (pre ++ [p]).map fun q => ops.sig q.2
          first := false
          revertToSingleVerification := true } := by
        simp only [scanMessages, hm, hok, ok_bind, if_pos hmem]
        rfl
      refine .inr (.inl ⟨_, hscan, h.ret, rfl, ?_⟩)
      rw [h.messageHashes] at hmem
      rw [hassoc, map_append, map_append, nodup_append, nodup_append]
      rintro ⟨⟨-, -, hdisj⟩, -, -⟩
      exact hdisj _ hmem _ (by simp) rfl
    · have hrest := ih (h.snoc hm hmem hvalid) hnamed.tail
      rw [hassoc]
      simp only [scanMessages, hm, hok, ok_bind, if_neg hmem]
      exact hrest

theorem Scanned.not_nullAggregated (h : Scanned ops session messages st) :
    ¬NullAggregated ops messages := by
  rintro ⟨pre, p, post, heq, hpre, -, q, hq, hnull⟩
  have hlen : 1 < messages.length := by
    have hpos := length_pos_iff.mpr hpre
    rw [heq, length_append, length_cons]
    omega
  have hmem : q ∈ messages := by
    rw [heq]
    rcases mem_append.mp hq with hq | hq
    · exact mem_append_left _ hq
    · rw [mem_singleton.mp hq]
      exact mem_append_right _ mem_cons_self
  rw [h.valid hlen q hmem] at hnull
  simp at hnull

/-- **The aggregate verifies exactly when every message is authentic.** -/
theorem Scanned.verifyInsecureAggregated_iff (h : Scanned ops session messages st)
    (hnamed : Named ops session messages) (hne : messages ≠ []) :
    verifyInsecureAggregated env st.aggSig st.pubKeys st.messageHashes = true ↔
      ∀ p ∈ messages, Authentic env ops session p.2 := by
  unfold verifyInsecureAggregated
  rw [h.aggSig, h.pubKeys, h.messageHashes, zip_map', zip_map']
  simp only [Bool.and_eq_true, bne_iff_ne, ne_eq, map_eq_nil_iff, hne, not_false_eq_true,
    true_and, List.all_map, List.all_eq_true, comp_apply]
  exact forall₂_congr fun p hp => (authentic_iff (hnamed p hp)).symm

/-! ### The loops after it -/

/-- **`first` is never cleared**, so every message overwrites `firstNodeId`. -/
theorem scanSenders_last (messages : List (NodeId × M)) (st : SenderScan) (hfirst : st.first = true) :
    (scanSenders st messages).nodeIdsAllSame = st.nodeIdsAllSame ∧
      (scanSenders st messages).firstNodeId =
        (messages.getLast?.map (·.1)).getD st.firstNodeId := by
  induction messages generalizing st with
  | nil => exact ⟨rfl, rfl⟩
  | cons p rest ih =>
    have hstep : scanSenders st (p :: rest) = scanSenders { st with firstNodeId := p.1 } rest := by
      simp only [scanSenders, hfirst, if_true]
    rw [hstep]
    obtain ⟨hsame, hlast⟩ := ih { st with firstNodeId := p.1 } hfirst
    refine ⟨hsame, hlast.trans ?_⟩
    cases rest with
    | nil => rfl
    | cons q rest =>
      rfl

/-- What verification one by one adds to `ret`: every node with a message that is not authentic. -/
structure Judged (env : Env) (ops : DKGMessageOps σ M) (session : σ) (messages : List (NodeId × M))
    (ret ret' : Finset NodeId) : Prop where
  sub : ret ⊆ ret'
  bad : ∀ nodeId ∈ ret', nodeId ∈ ret ∨
    ∃ p ∈ messages, p.1 = nodeId ∧ ¬Authentic env ops session p.2
  good : ∀ p ∈ messages, p.1 ∉ ret' → Authentic env ops session p.2

theorem Judged.cons {ret ret₁ ret' : Finset NodeId} (h : Judged env ops session messages ret₁ ret')
    (hsub : ret ⊆ ret₁)
    (hnew : ∀ nodeId ∈ ret₁, nodeId ∈ ret ∨ p.1 = nodeId ∧ ¬Authentic env ops session p.2)
    (hp : p.1 ∉ ret₁ → Authentic env ops session p.2) :
    Judged env ops session (p :: messages) ret ret' where
  sub := hsub.trans h.sub
  bad nodeId hmem := by
    rcases h.bad nodeId hmem with hold | ⟨q, hq, hbad⟩
    · exact (hnew nodeId hold).imp_right fun hbad => ⟨p, mem_cons_self, hbad⟩
    · exact .inr ⟨q, mem_cons_of_mem _ hq, hbad⟩
  good q hq hnot := by
    rcases mem_cons.mp hq with rfl | hq
    · exact hp fun hmem => hnot (h.sub hmem)
    · exact h.good q hq hnot

theorem verifyOneByOne_spec (env) :
    ∀ (messages : List (NodeId × M)) (ret : Finset NodeId), Named ops session messages →
      ∃ ret', verifyOneByOne env ops session ret messages = .ok ret' ∧
        Judged env ops session messages ret ret' := by
  intro messages
  induction messages with
  | nil =>
    intro ret _
    exact ⟨ret, rfl, subset_refl _, fun _ h => .inl h, by simp⟩
  | cons p rest ih =>
    intro ret hnamed
    obtain ⟨member, hm⟩ := hnamed.head
    by_cases hskip : p.1 ∈ ret
    · obtain ⟨ret', hok, hjudged⟩ := ih ret hnamed.tail
      exact ⟨ret', by simp only [verifyOneByOne, if_pos hskip, hok],
        hjudged.cons subset_rfl (fun _ h => .inl h) fun hnot => absurd hskip hnot⟩
    by_cases hauth : Authentic env ops session p.2
    · obtain ⟨ret', hok, hjudged⟩ := ih ret hnamed.tail
      refine ⟨ret', ?_, hjudged.cons subset_rfl (fun _ h => .inl h) fun _ => hauth⟩
      obtain ⟨_, hm', hverify⟩ := hauth
      simp only [verifyOneByOne, if_neg hskip, hm', pointee, ok_bind, hverify, if_true, hok]
    · obtain ⟨ret', hok, hjudged⟩ := ih (insert p.1 ret) hnamed.tail
      have hverify : ¬env.verifyInsecure (ops.sig p.2) member.dmn.pdmnState.pubKeyOperator
          (ops.getSignHash p.2) = true := fun h => hauth ⟨member, hm, h⟩
      refine ⟨ret', by simp only [verifyOneByOne, if_neg hskip, hm, pointee, ok_bind,
        if_neg hverify, hok], hjudged.cons (Finset.subset_insert _ _) ?_ ?_⟩
      · intro nodeId hmem
        rcases Finset.mem_insert.mp hmem with rfl | hmem
        · exact .inr ⟨rfl, hauth⟩
        · exact .inl hmem
      · exact fun hnot => absurd (Finset.mem_insert_self _ _) hnot

theorem deliver_handed (badNodes : Finset NodeId) :
    ∀ (messages : List (NodeId × M)) (session : σ),
      (deliver ops badNodes session messages).1 = messages.filter fun p => p.1 ∉ badNodes := by
  intro messages
  induction messages with
  | nil => intro session; rfl
  | cons p rest ih =>
    intro session
    by_cases hbad : p.1 ∈ badNodes
    · rw [deliver, if_pos hbad, ih, filter_cons_of_neg (by simpa using hbad)]
    · rw [deliver, if_neg hbad, filter_cons_of_pos (by simpa using hbad)]
      simp only [ops.receive_ban]
      rw [← ih (ops.receiveMessage session (ops.serializeHash p.2) p.2).1]
      rfl

/-! ### The batch -/

theorem batchVerifyMessageSigs_cases (env : Env) (hne : messages ≠ [])
    (hnamed : Named ops session messages) :
    (batchVerifyMessageSigs env ops session messages = .error .assert ∧
      NullAggregated ops messages) ∨
    (∃ ret, batchVerifyMessageSigs env ops session messages = .ok ret ∧
      ¬(messages.map fun q => ops.getSignHash q.2).Nodup ∧
      (∀ nodeId ∈ ret, ∃ p ∈ messages, p.1 = nodeId ∧ ¬Authentic env ops session p.2) ∧
      ∀ p ∈ messages, p.1 ∉ ret → Authentic env ops session p.2) ∨
    (¬NullAggregated ops messages ∧ (messages.map fun q => ops.getSignHash q.2).Nodup ∧
      ((batchVerifyMessageSigs env ops session messages = .ok ∅ ∧
        ∀ p ∈ messages, Authentic env ops session p.2) ∨
      (∃ last, messages.getLast? = some last ∧
        batchVerifyMessageSigs env ops session messages = .ok {last.1} ∧
        ∃ p ∈ messages, ¬Authentic env ops session p.2))) := by
  have hempty : ¬messages.isEmpty = true := by simpa using hne
  unfold batchVerifyMessageSigs
  rw [if_neg hempty]
  rcases scanMessages_cases messages (scanned_nil ops session) hnamed with
    ⟨hfail, hnull⟩ | ⟨st, hok, hret, hrevert, hdup⟩ | ⟨st, hok, hst⟩
  · exact .inl ⟨by rw [hfail]; rfl, hnull⟩
  · obtain ⟨ret, hone, hjudged⟩ := verifyOneByOne_spec env messages st.ret hnamed
    refine .inr (.inl ⟨ret, ?_, hdup, ?_, hjudged.good⟩)
    · rw [hok, ok_bind, if_pos hrevert, hone]
    · intro nodeId hmem
      rcases hjudged.bad nodeId hmem with h | h
      · simp [hret] at h
      · exact h
  · refine .inr (.inr ⟨hst.not_nullAggregated, hst.nodup, ?_⟩)
    have hsingle : ¬st.revertToSingleVerification = true := by simp [hst.single]
    by_cases hall : ∀ p ∈ messages, Authentic env ops session p.2
    · refine .inl ⟨?_, hall⟩
      rw [hok, ok_bind, if_neg hsingle,
        if_pos ((hst.verifyInsecureAggregated_iff hnamed hne).mpr hall), hst.ret]
      rfl
    · obtain ⟨last, hlast⟩ : ∃ last, messages.getLast? = some last :=
        ⟨_, getLast?_eq_some_getLast hne⟩
      obtain ⟨hsame, hfirst⟩ := scanSenders_last messages {} rfl
      refine .inr ⟨last, hlast, ?_, ?_⟩
      · rw [hok, ok_bind, if_neg hsingle,
          if_neg (fun h => hall ((hst.verifyInsecureAggregated_iff hnamed hne).mp h)), if_pos hsame,
          hfirst, hlast, hst.ret]
        rfl
      · push Not at hall
        exact hall

theorem authenticatedBatch_of_bad {pendingMessages : List (NodeId × Option M)} {maxCount : Nat}
    {badNodes : Finset NodeId}
    (hne : preverifiedMessages ops session (pendingMessages.take maxCount) ≠ [])
    (hbad : batchVerifyMessageSigs env ops session
      (preverifiedMessages ops session (pendingMessages.take maxCount)) = .ok badNodes) :
    AuthenticatedBatch env ops session pendingMessages maxCount ↔
      (∀ p ∈ preverifiedMessages ops session (pendingMessages.take maxCount),
        p.1 ∉ badNodes → Authentic env ops session p.2) ∧
      ∀ nodeId ∈ badNodes, ∃ p ∈ preverifiedMessages ops session (pendingMessages.take maxCount),
        p.1 = nodeId ∧ ¬Authentic env ops session p.2 := by
  have hempty : ¬(preverifiedMessages ops session (pendingMessages.take maxCount)).isEmpty = true := by
    simpa using hne
  unfold AuthenticatedBatch processPendingMessageBatch
  simp only [if_neg hempty, hbad, ok_bind, pure_eq_ok, forall_eq', deliver_handed, mem_filter,
    decide_eq_true_eq, and_imp]

/--
**When a batch is authenticated**: the node stops at an assert while it aggregates, or two
messages share their sign hash, or all messages that are not authentic come from the sender of
the last one.
-/
theorem authenticatedBatch_iff (env : Env) (ops : DKGMessageOps σ M) (session : σ)
    (pendingMessages : List (NodeId × Option M)) (maxCount : Nat) :
    AuthenticatedBatch env ops session pendingMessages maxCount ↔
      NullAggregated ops (preverifiedMessages ops session (pendingMessages.take maxCount)) ∨
      ¬((preverifiedMessages ops session (pendingMessages.take maxCount)).map
        fun q => ops.getSignHash q.2).Nodup ∨
      OnlyLastSenderBad env ops session
        (preverifiedMessages ops session (pendingMessages.take maxCount)) := by
  have hnamed := named_preverifiedMessages ops session
    (pendingMessages.take maxCount)
  by_cases hne : preverifiedMessages ops session (pendingMessages.take maxCount) = []
  · have hauth : AuthenticatedBatch env ops session pendingMessages maxCount := by
      intro out hout
      unfold processPendingMessageBatch at hout
      simp only [hne, isEmpty_nil, if_true, pure_eq_ok] at hout
      subst hout
      simp
    refine iff_of_true hauth (.inr (.inr ?_))
    intro p hp
    simp [hne] at hp
  rcases batchVerifyMessageSigs_cases env hne hnamed with
    ⟨hfail, hnull⟩ | ⟨ret, hok, hdup, hbad, hgood⟩ | ⟨hnull, hnodup, ⟨hok, hall⟩ | ⟨last, hlast, hok, hsome⟩⟩
  · refine iff_of_true ?_ (.inl hnull)
    intro out hout
    unfold processPendingMessageBatch at hout
    simp [hne, hfail] at hout
  · exact iff_of_true ((authenticatedBatch_of_bad hne hok).mpr ⟨hgood, hbad⟩) (.inr (.inl hdup))
  · refine iff_of_true ?_ (.inr (.inr fun p hp hnot => absurd (hall p hp) hnot))
    exact (authenticatedBatch_of_bad hne hok).mpr ⟨fun p hp _ => hall p hp, by simp⟩
  · -- the only bad node is the last sender, whatever the others sent
    have honly : OnlyLastSenderBad env ops session
        (preverifiedMessages ops session (pendingMessages.take maxCount)) ↔
        ∀ p ∈ preverifiedMessages ops session (pendingMessages.take maxCount),
          ¬Authentic env ops session p.2 → p.1 = last.1 := by
      simp [OnlyLastSenderBad, hlast]
    rw [authenticatedBatch_of_bad hne hok]
    simp only [hnull, hnodup, not_true_eq_false, false_or, honly]
    constructor
    · rintro ⟨hgood, -⟩ p hp hnot
      by_contra hother
      exact hnot (hgood p hp (by simpa using hother))
    · intro hlastBad
      refine ⟨?_, ?_⟩
      · intro p hp hnot
        by_contra hauth
        exact hnot (by simp [hlastBad p hp hauth])
      · intro nodeId hmem
        obtain ⟨p, hp, hnot⟩ := hsome
        refine ⟨p, hp, ?_, hnot⟩
        rw [Finset.mem_singleton.mp hmem]
        exact hlastBad p hp hnot

/-! ### A batch in which the wrong peer is punished -/

/-- An observer's session of a quorum with masternodes 1 and 2, whose keys are 1 and 2. -/
def observerSession : CDKGSession :=
  (CDKGSession.init ⟨2, 1, 2⟩ 7 [registeredMN 1 0, registeredMN 2 1] 0).get rfl

/-- A complaint in the name of this member, signed with this key. -/
def sampleComplaint (proTxHash : Uint256) (key : Nat) : CDKGComplaint where
  llmqType := 1
  quorumHash := 7
  proTxHash := proTxHash
  badMembers := [false, false]
  complainForMembers := [false, false]
  sig := ⟨some key⟩

/--
Peer 8 forges a complaint of member 1 and peer 9 sends an honest one of member 2: peer 9 is
bad, and the forged complaint reaches the session.
-/
theorem authenticatedBatch_forged :
    ∃ out, processPendingMessageBatch (sampleEnv []) (complaintOps (·.proTxHash) (·.proTxHash))
        (.ok observerSession) [(8, some (sampleComplaint 1 5)), (9, some (sampleComplaint 2 2))] 2 =
        .ok out ∧
      out.badNodes = {9} ∧ out.handed = [(8, sampleComplaint 1 5)] ∧
      ¬Authentic (sampleEnv []) (complaintOps (·.proTxHash) (·.proTxHash)) (.ok observerSession)
        (sampleComplaint 1 5) ∧
      Authentic (sampleEnv []) (complaintOps (·.proTxHash) (·.proTxHash)) (.ok observerSession)
        (sampleComplaint 2 2) := by
  refine ⟨_, rfl, rfl, rfl, ?_, ?_⟩
  · rintro ⟨member, hm, hverify⟩
    have hkey : member = new (registeredMN 1 0) 0 := by
      have hsome : some (new (registeredMN 1 0) 0) = some member := hm
      exact (some.inj hsome).symm
    subst hkey
    exact absurd hverify (by decide)
  · exact ⟨new (registeredMN 2 1) 1, rfl, rfl⟩

end Absolute
