/-
The commitment that is offered for the next block.

A message is dropped when a commitment is known that has no more signers than its own, and one with
fewer signers does not replace what is known.  So after the first commitment of a quorum the messages
change nothing, and the best commitment is offered just where it came first or was added by the node
itself.
-/
import AbsoluteCore.Proofs.Llmq.QuorumRuns
import AbsoluteCore.Spec.MinableCommitments

namespace Absolute

open CQuorumBlockProcessor MinableOp List Function Option Except Fallible MinableCommitments

variable {qe : QuorumEnv}

/-! ### What is kept of a list of commitments -/

namespace MinableOp

/-- What is known for a quorum after another commitment. -/
def keepStep (known : Option CFinalCommitment) (op : MinableOp) : Option CFinalCommitment :=
  match known with
  | none => some op.qc
  | some qc => if op.isAdd ∧ qc.countSigners < op.qc.countSigners then some op.qc else some qc

/-- The one that came first and those that were added are all the loop looks at. -/
theorem foldl_keepStep (ops : List MinableOp) (first : CFinalCommitment) :
    ∃ qc, ops.foldl keepStep (some first) = some qc ∧
      (qc = first ∨ ∃ op ∈ ops, op.isAdd = true ∧ op.qc = qc) ∧
      first.countSigners ≤ qc.countSigners ∧
      ∀ op ∈ ops, op.isAdd = true → op.qc.countSigners ≤ qc.countSigners := by
  induction ops generalizing first with
  | nil => exact ⟨first, rfl, .inl rfl, le_refl _, fun _ h => (by cases h)⟩
  | cons op ops ih =>
    by_cases hreplace : op.isAdd ∧ first.countSigners < op.qc.countSigners
    · obtain ⟨qc, hfold, hfrom, hle, hadds⟩ := ih op.qc
      refine ⟨qc, ?_, .inr ?_, hreplace.2.le.trans hle, ?_⟩
      · rw [foldl_cons, keepStep, if_pos hreplace]
        exact hfold
      · rcases hfrom with rfl | ⟨op', hop', hadd, heq⟩
        · exact ⟨op, mem_cons_self, hreplace.1, rfl⟩
        · exact ⟨op', mem_cons_of_mem _ hop', hadd, heq⟩
      · intro op' hop' hadd
        rcases mem_cons.mp hop' with rfl | hop'
        · exact hle
        · exact hadds op' hop' hadd
    · obtain ⟨qc, hfold, hfrom, hle, hadds⟩ := ih first
      refine ⟨qc, ?_, ?_, hle, ?_⟩
      · rw [foldl_cons, keepStep, if_neg hreplace]
        exact hfold
      · rcases hfrom with rfl | ⟨op', hop', hadd, heq⟩
        · exact .inl rfl
        · exact .inr ⟨op', mem_cons_of_mem _ hop', hadd, heq⟩
      · intro op' hop' hadd
        rcases mem_cons.mp hop' with rfl | hop'
        · have hnot : ¬ first.countSigners < op'.qc.countSigners := fun h => hreplace ⟨hadd, h⟩
          omega
        · exact hadds op' hop' hadd

/-- What is kept is the best, just where one of the best came first or was added. -/
theorem isBest_keepStep_iff {ops : List MinableOp} {qc : CFinalCommitment}
    (hfold : ops.foldl keepStep none = some qc) :
    IsBest ops qc ↔ ∃ op ∈ ops, IsBest ops op.qc ∧ (op.isAdd = true ∨ ops.head? = some op) := by
  cases ops with
  | nil => cases hfold
  | cons first rest =>
    obtain ⟨kept, hkept, hfrom, hfirst, hadds⟩ := foldl_keepStep rest first.qc
    obtain rfl : kept = qc := some.inj (hkept.symm.trans hfold)
    constructor
    · intro hbest
      rcases hfrom with rfl | ⟨op, hop, hadd, rfl⟩
      · exact ⟨first, mem_cons_self, hbest, .inr rfl⟩
      · exact ⟨op, mem_cons_of_mem _ hop, hbest, .inl hadd⟩
    · intro ⟨op, hop, hbest, hway⟩
      have hle : op.qc.countSigners ≤ kept.countSigners := by
        rcases hway with hadd | hhead
        · rcases mem_cons.mp hop with rfl | hop
          · exact hfirst
          · exact hadds op hop hadd
        · rw [← some.inj hhead]
          exact hfirst
      refine ⟨?_, fun op' hop' => (hbest.2 op' hop').trans hle⟩
      rcases hfrom with rfl | ⟨op', hop', -, heq⟩
      · exact ⟨first, mem_cons_self, rfl⟩
      · exact ⟨op', mem_cons_of_mem _ hop', heq⟩

variable {op : MinableOp}

theorem received_append_of_valid (hvalid : op.isValid qe = true)
    (done : List MinableOp) (k : Nat × Uint256) :
    received qe k (done ++ [op]) = received qe k done ++ if op.quorum = k then [op] else [] := by
  unfold received
  by_cases hk : op.quorum = k
  · simp [hvalid, hk]
  · simp [hk]

theorem received_append_of_invalid (hvalid : op.isValid qe = false)
    (done : List MinableOp) (k : Nat × Uint256) :
    received qe k (done ++ [op]) = received qe k done := by
  unfold received
  simp [hvalid]

end MinableOp

/-! ### What the two maps hold -/

namespace MinableCommitments

variable {done : List MinableOp} {m m' : MinableCommitments} {op : MinableOp}
  {qc : CFinalCommitment}

/-- The commitments are stored under their hashes, and those of quorums are their own. -/
structure Stored (qe : QuorumEnv) (done : List MinableOp) (m : MinableCommitments) : Prop where
  byQuorum : ∀ k hash, m.minableCommitmentsByQuorum k = some hash →
    ∃ qc, m.minableCommitments hash = some qc ∧ (qc.llmqType, qc.quorumHash) = k
  received : ∀ hash qc, m.minableCommitments hash = some qc →
    qe.commitmentHash qc = hash ∧ ∃ op ∈ done, op.qc = qc

theorem Stored.mono (h : Stored qe done m) (op) : Stored qe (done ++ [op]) m := by
  refine ⟨h.byQuorum, fun hash qc hqc => ?_⟩
  obtain ⟨hhash, op', hop', heq⟩ := h.received hash qc hqc
  exact ⟨hhash, op', mem_append_left _ hop', heq⟩

theorem Stored.find_eq_none (h : Stored qe done m) {k : Nat × Uint256} :
    m.find k = none ↔ m.minableCommitmentsByQuorum k = none := by
  unfold find
  cases hk : m.minableCommitmentsByQuorum k with
  | none => simp
  | some hash =>
    obtain ⟨qc, hqc, -⟩ := h.byQuorum k hash hk
    simp [hqc]

/-- The commitment has more signers than what is known, and is stored for its quorum. -/
structure Puts (qe : QuorumEnv) (qc : CFinalCommitment) (m m' : MinableCommitments) : Prop where
  more : ∀ known ∈ m.find (qc.llmqType, qc.quorumHash), known.countSigners < qc.countSigners
  byQuorum : ∀ k, m'.minableCommitmentsByQuorum k =
    if k = (qc.llmqType, qc.quorumHash) then some (qe.commitmentHash qc)
    else m.minableCommitmentsByQuorum k
  stored : ∀ hash, m'.minableCommitments hash =
    if hash = qe.commitmentHash qc then some qc else m.minableCommitments hash

theorem Stored.put (h : Stored qe done m)
    (hhash : ∀ a ∈ done, qe.commitmentHash a.qc = qe.commitmentHash op.qc → a.qc = op.qc)
    (hputs : Puts qe op.qc m m') : Stored qe (done ++ [op]) m' ∧
      ∀ k, m'.find k = if k = op.quorum then some op.qc else m.find k := by
  -- A commitment that is there under the new hash is the new one.
  have hkept : ∀ hash qc, m.minableCommitments hash = some qc → m'.minableCommitments hash = some qc := by
    intro hash qc hqc
    rw [hputs.stored]
    split_ifs with heq
    · obtain ⟨hqcHash, op', hop', rfl⟩ := h.received hash qc hqc
      rw [hhash op' hop' (hqcHash.trans heq)]
    · exact hqc
  refine ⟨⟨fun k hash hk => ?_, fun hash qc hqc => ?_⟩, fun k => ?_⟩
  · rw [hputs.byQuorum] at hk
    split_ifs at hk with heq
    · exact ⟨op.qc, by rw [hputs.stored, if_pos (some.inj hk).symm], heq.symm⟩
    · obtain ⟨qc, hqc, hquorum⟩ := h.byQuorum k hash hk
      exact ⟨qc, hkept hash qc hqc, hquorum⟩
  · rw [hputs.stored] at hqc
    split_ifs at hqc with heq
    · obtain rfl := some.inj hqc
      exact ⟨heq.symm, op, by simp, rfl⟩
    · exact (h.mono op).received hash qc hqc
  · unfold find
    rw [hputs.byQuorum]
    split_ifs with heq heq' heq'
    · rw [bind_some, hputs.stored, if_pos rfl]
    · exact absurd heq heq'
    · exact absurd heq' heq
    · cases hk : m.minableCommitmentsByQuorum k with
      | none => rfl
      | some hash =>
        obtain ⟨qc, hqc, -⟩ := h.byQuorum k hash hk
        rw [bind_some, bind_some, hkept hash qc hqc, hqc]

/-- `AddMinableCommitment` never misses a commitment, and prefers more signers. -/
theorem Stored.addMinableCommitment (h : Stored qe done m)
    (hhash : ∀ a ∈ done, qe.commitmentHash a.qc = qe.commitmentHash qc → a.qc = qc) :
    ∃ m' relay, m.addMinableCommitment qe qc = .ok (m', relay) ∧
      (m' = m ∧ (∃ known, m.find (qc.llmqType, qc.quorumHash) = some known ∧
        qc.countSigners ≤ known.countSigners) ∨ Puts qe qc m m') := by
  unfold MinableCommitments.addMinableCommitment
  dsimp only
  cases hk : m.minableCommitmentsByQuorum (qc.llmqType, qc.quorumHash) with
  | none =>
    have hfind := h.find_eq_none.mpr hk
    refine ⟨_, _, rfl, .inr ⟨by simp [hfind], update_apply _ _ _, fun hash => ?_⟩⟩
    dsimp only
    rw [emplace_apply]
    split_ifs with heq
    · cases hold : m.minableCommitments (qe.commitmentHash qc) with
      | none => rfl
      | some known =>
        obtain ⟨hqc, op', hop', rfl⟩ := h.received _ known hold
        rw [getD_some, hhash op' hop' hqc]
    · rfl
  | some oldHash =>
    obtain ⟨old, hold, -⟩ := h.byQuorum _ _ hk
    have hfind : m.find (qc.llmqType, qc.quorumHash) = some old := by rw [find, hk, bind_some, hold]
    dsimp only
    rw [hold]
    dsimp only
    by_cases hmore : qc.countSigners > old.countSigners
    · rw [if_pos hmore]
      refine ⟨_, _, rfl, .inr ⟨by simpa [hfind] using hmore, update_apply _ _ _, fun hash => ?_⟩⟩
      dsimp only
      rw [emplace_apply, update_self]
      split_ifs with heq
      · rfl
      · rw [update_of_ne heq]
    · rw [if_neg hmore]
      exact ⟨m, false, rfl, .inl ⟨rfl, old, hfind, not_lt.mp hmore⟩⟩

/-! ### Messages -/

theorem exists_verifyCommitment {params : LLMQMiningParams}
    (hparams : params ∈ qe.llmqs) (pquorumIndex : CBlockIndex) :
    ∃ ok, verifyCommitment qe qc params pquorumIndex = .ok ok := by
  have hconsensus : qe.consensus.llmqs params.type = some params.toLLMQParams := by
    show (qe.params params.type).map _ = _
    rw [QuorumEnv.params_eq_some.mpr ⟨hparams, rfl⟩]
    rfl
  unfold verifyCommitment getAllQuorumMembers
  rw [hconsensus]
  exact ⟨_, rfl⟩

/-- The node and what it has received up to now. -/
structure Sound (qe : QuorumEnv) (done : List MinableOp) (m : MinableCommitments) : Prop where
  stored : Stored qe done m
  find : ∀ k, m.find k = (MinableOp.received qe k done).foldl keepStep none

theorem Sound.invalid (h : Sound qe done m) (hvalid : op.isValid qe = false) :
    Sound qe (done ++ [op]) m where
  stored := h.stored.mono op
  find k := by
    rw [received_append_of_invalid hvalid]
    exact h.find k

theorem Sound.valid (h : Sound qe done m) (hvalid : op.isValid qe = true)
    (hstored : Stored qe (done ++ [op]) m')
    (hfind : ∀ k, m'.find k = if k = op.quorum then keepStep (m.find k) op else m.find k) :
    Sound qe (done ++ [op]) m' where
  stored := hstored
  find k := by
    rw [received_append_of_valid hvalid, hfind, h.find]
    by_cases hk : k = op.quorum
    · rw [if_pos hk, if_pos hk.symm, foldl_append]
      rfl
    · rw [if_neg hk, if_neg (Ne.symm hk), append_nil]

/-- What is known is not replaced. -/
theorem Sound.same (h : Sound qe done m) (hvalid : op.isValid qe = true)
    {known : CFinalCommitment} (hknown : m.find op.quorum = some known)
    (hkeep : ¬(op.isAdd ∧ known.countSigners < op.qc.countSigners)) : Sound qe (done ++ [op]) m := by
  refine h.valid hvalid (h.stored.mono op) fun k => ?_
  split_ifs with hk
  · rw [hk, hknown, keepStep, if_neg hkeep]
  · rfl

/-- A commitment is added that comes from the node itself, or has fewer signers than what is known. -/
theorem Sound.add (h : Sound qe done m) (hvalid : op.isValid qe = true)
    (hhash : ∀ a ∈ done, qe.commitmentHash a.qc = qe.commitmentHash op.qc → a.qc = op.qc)
    (hfewer : op.isAdd = true ∨
      ∀ known, m.find op.quorum = some known → op.qc.countSigners < known.countSigners) :
    ∃ m' relay, m.addMinableCommitment qe op.qc = .ok (m', relay) ∧ Sound qe (done ++ [op]) m' ∧
      (m' = m ∧ m.find op.quorum ≠ none ∨ Puts qe op.qc m m') := by
  obtain ⟨m', relay, heq, ⟨rfl, known, hknown, hle⟩ | hputs⟩ := h.stored.addMinableCommitment hhash
  · refine ⟨_, relay, heq, h.same hvalid hknown fun hless => ?_, .inl ⟨rfl, ?_⟩⟩
    · exact hless.2.not_ge hle
    · exact hknown ▸ some_ne_none known
  · obtain ⟨hstored, hfind⟩ := h.stored.put hhash hputs
    refine ⟨m', relay, heq, h.valid hvalid hstored fun k => ?_, .inr hputs⟩
    rw [hfind]
    split_ifs with hk
    · rw [hk]
      cases hknown : m.find op.quorum with
      | none => rfl
      | some known =>
        have hmore := hputs.more known hknown
        have hadd := hfewer.resolve_right fun hfewer => (hfewer known hknown).asymm hmore
        rw [keepStep, if_pos ⟨hadd, hmore⟩]
    · rfl

/-- A message that is not valid is dropped.  A valid one is dropped where a commitment is known that
has no more signers, and else it is added. -/
theorem processMessage_cases (chainTip : CBlockIndex) (qc : CFinalCommitment)
    (m : MinableCommitments) :
    ((message chainTip qc).isValid qe = false ∧
      ∃ score, m.processMessage qe chainTip qc = .ok (m, score)) ∨
    (message chainTip qc).isValid qe = true ∧
      ((∃ known, m.find (qc.llmqType, qc.quorumHash) = some known ∧
          known.countSigners ≤ qc.countSigners ∧ m.processMessage qe chainTip qc = .ok (m, 0)) ∨
        (∀ known, m.find (qc.llmqType, qc.quorumHash) = some known →
          qc.countSigners < known.countSigners) ∧
        m.processMessage qe chainTip qc =
          (m.addMinableCommitment qe qc).map fun added => (added.1, 0)) := by
  unfold processMessage
  by_cases hnull : qc.isNull = true
  · rw [if_pos hnull]
    exact .inl ⟨by simp [isValid, hnull], 100, rfl⟩
  rw [if_neg hnull]
  cases hparams : qe.params qc.llmqType with
  | none => exact .inl ⟨by simp [isValid, hparams], 100, rfl⟩
  | some params =>
    obtain ⟨hmem, htype⟩ := QuorumEnv.params_eq_some.mp hparams
    cases hindex : qe.env.mapBlockIndex qc.quorumHash with
    | none => exact .inl ⟨by simp [isValid, hparams, hindex], 0, rfl⟩
    | some pquorumIndex =>
      dsimp only
      by_cases hactive : chainTip.getAncestor pquorumIndex.nHeight = some pquorumIndex
      swap
      · rw [if_pos hactive]
        exact .inl ⟨by simp [isValid, hparams, hindex, hactive], 0, rfl⟩
      rw [if_neg (not_not_intro hactive)]
      by_cases hfirst : pquorumIndex.nHeight % (params.dkgInterval : Int) = 0
      swap
      · rw [if_pos (by omega)]
        exact .inl ⟨by simp [isValid, hparams, hindex, hfirst], 100, rfl⟩
      rw [if_neg (by omega), ← htype]
      obtain ⟨ok, hverify⟩ : ∃ ok, verifyCommitment qe qc params pquorumIndex = .ok ok :=
        exists_verifyCommitment hmem pquorumIndex
      have hvalid : (message chainTip qc).isValid qe = ok := by
        simp [isValid, hparams, hindex, hactive, hfirst, hverify, hnull, Except.toOption]
      rw [hvalid]
      by_cases hfilter : ∃ known, m.find (qc.llmqType, qc.quorumHash) = some known ∧
          known.countSigners ≤ qc.countSigners
      · rw [if_pos (by simpa [Option.any_eq_true] using hfilter)]
        obtain ⟨known, hknown, hle⟩ := hfilter
        cases ok with
        | false => exact .inl ⟨rfl, 0, rfl⟩
        | true => exact .inr ⟨rfl, .inl ⟨known, hknown, hle, rfl⟩⟩
      · rw [if_neg (by simpa [Option.any_eq_true] using hfilter), hverify, ok_bind]
        cases ok with
        | false => exact .inl ⟨rfl, 100, rfl⟩
        | true =>
          refine .inr ⟨rfl, .inr ⟨fun known hknown => ?_, ?_⟩⟩
          · by_contra hle
            exact hfilter ⟨known, hknown, not_lt.mp hle⟩
          · cases m.addMinableCommitment qe qc with
            | error fail => rfl
            | ok added => rfl

theorem Sound.apply (h : Sound qe done m) (op : MinableOp)
    (hhash : ∀ a ∈ done, qe.commitmentHash a.qc = qe.commitmentHash op.qc → a.qc = op.qc) :
    ∃ m', m.apply qe op = .ok m' ∧ Sound qe (done ++ [op]) m' := by
  cases op with
  | message chainTip qc =>
    rcases processMessage_cases chainTip qc m with
      ⟨hvalid, score, heq⟩ | ⟨hvalid, ⟨known, hknown, -, heq⟩ | ⟨hfewer, heq⟩⟩
    · exact ⟨m, by rw [MinableCommitments.apply, heq]; rfl, h.invalid hvalid⟩
    · refine ⟨m, by rw [MinableCommitments.apply, heq]; rfl, h.same hvalid hknown ?_⟩
      exact fun hadd => Bool.false_ne_true hadd.1
    · obtain ⟨m', relay, hadd, hsound, -⟩ := h.add hvalid hhash (.inr hfewer)
      have hadd : m.addMinableCommitment qe qc = .ok (m', relay) := hadd
      exact ⟨m', by rw [MinableCommitments.apply, heq, hadd]; rfl, hsound⟩
  | add qc =>
    obtain ⟨m', relay, heq, hsound, -⟩ := h.add rfl hhash (.inl rfl)
    have heq : m.addMinableCommitment qe qc = .ok (m', relay) := heq
    exact ⟨m', by rw [MinableCommitments.apply, heq]; rfl, hsound⟩

theorem exists_foldlM_apply (ops : List MinableOp)
    (hhash : ∀ a ∈ ops, ∀ b ∈ ops, qe.commitmentHash a.qc = qe.commitmentHash b.qc → a.qc = b.qc) :
    ∃ m, ops.foldlM (apply qe) {} = .ok m ∧ Sound qe ops m := by
  induction ops using List.reverseRecOn with
  | nil =>
    refine ⟨{}, rfl, ⟨⟨?_, ?_⟩, fun _ => rfl⟩⟩
    · intro k hash hk
      cases hk
    · intro hash qc hqc
      cases hqc
  | append_singleton done op ih =>
    obtain ⟨m, hfold, hsound⟩ := ih fun a ha b hb =>
      hhash a (mem_append_left _ ha) b (mem_append_left _ hb)
    obtain ⟨m', heq, hsound'⟩ := hsound.apply op fun a ha =>
      hhash a (mem_append_left _ ha) op (by simp)
    refine ⟨m', ?_, hsound'⟩
    rw [foldlM_append, hfold, ok_bind, foldlM_cons, heq]
    rfl

/-- **The commitment that is offered is the best only by its way to the node.**  While a commitment
is required, `GetMinableCommitment` returns one with the most signers of all valid ones received for
the quorum if and only if one of the best was the first to be received or was added by the node
itself. -/
theorem getMinableCommitment_isBest_iff (ops : List MinableOp)
    (hhash : ∀ a ∈ ops, ∀ b ∈ ops, qe.commitmentHash a.qc = qe.commitmentHash b.qc → a.qc = b.qc)
    {chainTip : CBlockIndex} {params : LLMQMiningParams} {nHeight : Int} {s : CQuorumBlockProcessor}
    (hrequired : (s.isCommitmentRequired chainTip params nHeight).1 = true) {atTip : List MinableOp}
    (hatTip : atTip =
      MinableOp.received qe (params.type, getQuorumBlockHash chainTip params nHeight) ops)
    (hne : atTip ≠ []) :
    ∃ m, ops.foldlM (MinableCommitments.apply qe) {} = .ok m ∧
      ((∃ qc, m.getMinableCommitment chainTip params nHeight s = .ok (some qc) ∧
          IsBest atTip qc) ↔
        ∃ op ∈ atTip, IsBest atTip op.qc ∧ (op.isAdd = true ∨ atTip.head? = some op)) := by
  obtain ⟨m, hfold, hsound⟩ := exists_foldlM_apply ops hhash
  refine ⟨m, hfold, ?_⟩
  have hzero : getQuorumBlockHash chainTip params nHeight ≠ 0 := by
    intro hzero
    rw [isCommitmentRequired, if_pos hzero] at hrequired
    cases hrequired
  obtain ⟨kept, hkept⟩ : ∃ kept, atTip.foldl keepStep none = some kept := by
    cases atTip with
    | nil => exact absurd rfl hne
    | cons first rest =>
      obtain ⟨kept, hkept, -⟩ := foldl_keepStep rest first.qc
      exact ⟨kept, hkept⟩
  have hfind := hsound.find (params.type, getQuorumBlockHash chainTip params nHeight)
  rw [← hatTip, hkept] at hfind
  have hget : m.getMinableCommitment chainTip params nHeight s = .ok (some kept) := by
    obtain ⟨hash, hbyQuorum, hminable⟩ := bind_eq_some_iff.mp hfind
    unfold getMinableCommitment
    rw [hrequired, if_neg (by simp)]
    rw [if_neg hzero, hbyQuorum]
    dsimp only
    rw [hminable]
  rw [hget, ← isBest_keepStep_iff hkept]
  constructor
  · intro ⟨qc, heq, hbest⟩
    obtain rfl := some.inj (ok.inj heq)
    exact hbest
  · intro hbest
    exact ⟨kept, rfl, hbest⟩

/-! ### The two maps -/

/-- The first commitment of a quorum stays, and what enters later has more signers. -/
structure Kept (qe : QuorumEnv) (qcs : List CFinalCommitment) (m : MinableCommitments) : Prop where
  first : ∀ k qc, firstOf qcs k = some qc → m.minableCommitments (qe.commitmentHash qc) = some qc
  later : ∀ hash qc, m.minableCommitments hash = some qc →
    ∃ first, firstOf qcs (qc.llmqType, qc.quorumHash) = some first ∧
      (qc = first ∨ first.countSigners < qc.countSigners)

section

variable {qcs : List CFinalCommitment} {qc : CFinalCommitment} {k : Nat × Uint256}

theorem firstOf_append : firstOf (qcs ++ [qc]) k =
    (firstOf qcs k).or (if (qc.llmqType, qc.quorumHash) = k then some qc else none) := by
  unfold firstOf
  by_cases hk : (qc.llmqType, qc.quorumHash) = k <;> simp [hk]

theorem Sound.find_adds (h : Sound qe (qcs.map .add) m) (k) :
    (firstOf qcs k = none ∧ m.find k = none) ∨
      ∃ first kept, firstOf qcs k = some first ∧ m.find k = some kept ∧
        first.countSigners ≤ kept.countSigners ∧
        ∀ qc ∈ qcs, (qc.llmqType, qc.quorumHash) = k → qc.countSigners ≤ kept.countSigners := by
  have hreceived : received qe k (qcs.map .add) =
      (qcs.filter fun qc => (qc.llmqType, qc.quorumHash) = k).map .add := by
    rw [received, List.filter_map]
    rfl
  have hfirst : (qcs.filter fun qc => (qc.llmqType, qc.quorumHash) = k).head? = firstOf qcs k :=
    head?_filter
  rw [h.find, hreceived, ← hfirst]
  cases hfilter : qcs.filter fun qc => (qc.llmqType, qc.quorumHash) = k with
  | nil => exact .inl ⟨rfl, rfl⟩
  | cons first rest =>
    obtain ⟨kept, hkept, -, hle, hadds⟩ := foldl_keepStep (rest.map .add) first
    refine .inr ⟨first, kept, rfl, hkept, hle, fun qc hqc hk => ?_⟩
    have hmem : qc ∈ first :: rest := hfilter ▸ mem_filter.mpr ⟨hqc, by simpa using hk⟩
    rcases mem_cons.mp hmem with rfl | hrest
    · exact hle
    · exact hadds (.add qc) (mem_map_of_mem hrest) rfl

theorem Kept.add {m' : MinableCommitments} (h : Kept qe qcs m) (hsound : Sound qe (qcs.map .add) m)
    (hhash : ∀ a ∈ qcs, qe.commitmentHash a = qe.commitmentHash qc → a = qc)
    (hadd : m' = m ∧ m.find (qc.llmqType, qc.quorumHash) ≠ none ∨ Puts qe qc m m') :
    Kept qe (qcs ++ [qc]) m' := by
  rcases hadd with ⟨rfl, hsome⟩ | ⟨hmore, -, hminable⟩
  · have hfirst : ∀ k, firstOf (qcs ++ [qc]) k = firstOf qcs k := by
      intro k
      rw [firstOf_append]
      rcases hsound.find_adds k with ⟨-, hnone⟩ | ⟨first, -, hfirst, -⟩
      · rw [if_neg fun hk : (qc.llmqType, qc.quorumHash) = k => hsome (hk ▸ hnone), or_none]
      · rw [hfirst, some_or]
    exact ⟨fun k first hk => h.first k first (hfirst k ▸ hk),
      fun hash e he => hfirst _ ▸ h.later hash e he⟩
  · refine ⟨fun k first hfirst => ?_, fun hash e he => ?_⟩
    · rw [firstOf_append] at hfirst
      rw [hminable]
      rcases or_eq_some_iff.mp hfirst with hold | ⟨-, hnew⟩
      · split_ifs with heq
        · rw [hhash first (mem_of_find?_eq_some hold) heq]
        · exact h.first k first hold
      · split_ifs at hnew
        obtain rfl := some.inj hnew
        exact if_pos rfl
    · rw [hminable] at he
      split_ifs at he
      · obtain rfl := some.inj he
        rcases hsound.find_adds (qc.llmqType, qc.quorumHash) with
          ⟨hnone, -⟩ | ⟨first, kept, hfirst, hkept, hle, -⟩
        · exact ⟨qc, by simp [firstOf_append, hnone], .inl rfl⟩
        · exact ⟨first, by simp [firstOf_append, hfirst], .inr (hle.trans_lt (hmore kept hkept))⟩
      · obtain ⟨first, hfirst, hcases⟩ := h.later hash e he
        exact ⟨first, by simp [firstOf_append, hfirst], hcases⟩

theorem exists_kept (hhash : ∀ a ∈ qcs, ∀ b ∈ qcs, qe.commitmentHash a = qe.commitmentHash b → a = b) :
    ∃ m, (qcs.map .add).foldlM (apply qe) {} = .ok m ∧
      Sound qe (qcs.map .add) m ∧ Kept qe qcs m := by
  induction qcs using List.reverseRecOn with
  | nil =>
    obtain ⟨m, hm, hsound⟩ := @exists_foldlM_apply qe [] (by simp)
    obtain rfl := ok.inj hm
    exact ⟨_, rfl, hsound, fun _ _ h => (by cases h), fun _ _ h => (by cases h)⟩
  | append_singleton qcs qc ih =>
    obtain ⟨m, hfold, hsound, hkept⟩ := ih fun a ha b hb =>
      hhash a (mem_append_left _ ha) b (mem_append_left _ hb)
    have hnew : ∀ a ∈ qcs, qe.commitmentHash a = qe.commitmentHash qc → a = qc := fun a ha =>
      hhash a (mem_append_left _ ha) qc (by simp)
    have hnew' : ∀ a ∈ qcs.map add, qe.commitmentHash a.qc = qe.commitmentHash (add qc).qc →
      a.qc = (add qc).qc := by simpa [MinableOp.qc] using hnew
    obtain ⟨m', relay, heq, hsound', hadd⟩ := hsound.add rfl hnew' (.inl rfl)
    have heq : m.addMinableCommitment qe qc = .ok (m', relay) := heq
    rw [map_append, foldlM_append, hfold, ok_bind]
    refine ⟨m', ?_, hsound', hkept.add hsound hnew hadd⟩
    rw [map_singleton, foldlM_cons, apply, heq]
    rfl

/-- The first commitment of a quorum is for it alone, and so is the one with the most signers. -/
theorem Kept.le_first (h : Kept qe qcs m) (hsound : Sound qe (qcs.map .add) m)
    (hb : m.Bijection qe) (hqc : qc ∈ qcs) {first : CFinalCommitment}
    (hfirst : firstOf qcs (qc.llmqType, qc.quorumHash) = some first) :
    qc.countSigners ≤ first.countSigners := by
  have hstored := h.first _ first hfirst
  obtain ⟨k, hk, -⟩ := (hb.2 _ first hstored).2
  obtain ⟨qc', hqc', rfl⟩ := hsound.stored.byQuorum k _ hk
  obtain rfl : first = qc' := some.inj (hstored.symm.trans hqc')
  have hquorum : (first.llmqType, first.quorumHash) = (qc.llmqType, qc.quorumHash) := by
    simpa using find?_some hfirst
  rcases hsound.find_adds (qc.llmqType, qc.quorumHash) with ⟨hnone, -⟩ | ⟨_, kept, -, hfind, -, hmax⟩
  · rw [hfirst] at hnone
    cases hnone
  · rw [← hquorum, find, hk, bind_some, hstored] at hfind
    exact some.inj hfind ▸ hmax qc hqc rfl

end

/--
**The two maps are in bijection** after a sequence of calls exactly if no commitment has more signers
than the first one of its quorum: a commitment that is superseded stays.
-/
theorem bijection_iff (qcs : List CFinalCommitment)
    (hhash : ∀ a ∈ qcs, ∀ b ∈ qcs, qe.commitmentHash a = qe.commitmentHash b → a = b) :
    ∃ m, (qcs.map .add).foldlM (MinableCommitments.apply qe) {} = .ok m ∧
      (m.Bijection qe ↔ ∀ qc ∈ qcs, ∀ first ∈ firstOf qcs (qc.llmqType, qc.quorumHash),
        qc.countSigners ≤ first.countSigners) := by
  obtain ⟨m, hfold, hsound, hkept⟩ := exists_kept hhash
  refine ⟨m, hfold, fun hb qc hqc first hfirst => hkept.le_first hsound hb hqc hfirst,
    fun hfirst => ?_⟩
  have honly : ∀ hash qc, m.minableCommitments hash = some qc →
      firstOf qcs (qc.llmqType, qc.quorumHash) = some qc := by
    intro hash qc hqc
    obtain ⟨-, op, hop, rfl⟩ := hsound.stored.received hash qc hqc
    obtain ⟨qc, hmem, rfl⟩ := mem_map.mp hop
    obtain ⟨first, hf, rfl | hless⟩ := hkept.later hash qc hqc
    · exact hf
    · exact absurd (hfirst qc hmem first hf) hless.not_ge
  refine ⟨fun k hash hk => ?_, fun hash qc hqc => ?_⟩
  · obtain ⟨qc, hqc, -⟩ := hsound.stored.byQuorum k hash hk
    exact ⟨qc, hqc⟩
  · have hhashqc := (hsound.stored.received hash qc hqc).1
    refine ⟨hhashqc, (qc.llmqType, qc.quorumHash), ?_, fun k hk => ?_⟩
    · rcases hsound.find_adds (qc.llmqType, qc.quorumHash) with
        ⟨hnone, -⟩ | ⟨first, kept, -, hfind, -, -⟩
      · rw [honly hash qc hqc] at hnone
        cases hnone
      · obtain ⟨hash', hk, -⟩ := bind_eq_some_iff.mp hfind
        obtain ⟨qc', hqc', hquorum⟩ := hsound.stored.byQuorum _ hash' hk
        have hfirst' := honly hash' qc' hqc'
        rw [hquorum, honly hash qc hqc] at hfirst'
        obtain rfl := some.inj hfirst'
        rw [← hhashqc, (hsound.stored.received hash' qc hqc').1]
        exact hk
    · obtain ⟨qc', hqc', rfl⟩ := hsound.stored.byQuorum k hash hk
      rw [some.inj (hqc.symm.trans hqc')]

/-! ### A better commitment in a message -/

open QuorumNode (sampleLLMQ sampleQuorums)

def pairLLMQ : LLMQMiningParams := { sampleLLMQ with size := 2 }

def pairMNList : CDeterministicMNList where
  mnMap := .ofList ([1, 2].map fun proTxHash => (proTxHash, { registeredMN proTxHash 0 with
    pdmnState := { (registeredMN proTxHash 0).pdmnState with confirmedHash := 1 } }))

noncomputable def pairQuorums : QuorumEnv :=
  { sampleQuorums 1 with
    llmqs := [pairLLMQ], llmqs_sorted := pairwise_singleton _ _, lists := fun _ => pairMNList }

/-- Commitments for the quorum of the genesis block, with one signer and with two. -/
def oneSigner : CFinalCommitment :=
  { QuorumNode.sampleCommitment 7 with signers := [true, false], validMembers := [true, true] }

def twoSigners : CFinalCommitment :=
  { QuorumNode.sampleCommitment 9 with signers := [true, true], validMembers := [true, true] }

theorem hash_pair : ∀ a ∈ [oneSigner, twoSigners], ∀ b ∈ [oneSigner, twoSigners],
    pairQuorums.commitmentHash a = pairQuorums.commitmentHash b → a = b := by decide +kernel

theorem bijection_iff_worseLater : ∃ m,
    ([twoSigners, oneSigner].map .add).foldlM (MinableCommitments.apply pairQuorums) {} = .ok m ∧
      m.Bijection pairQuorums := by
  obtain ⟨m, hfold, hiff⟩ := bijection_iff [twoSigners, oneSigner] fun a ha b hb =>
    hash_pair a (by simpa [or_comm] using ha) b (by simpa [or_comm] using hb)
  exact ⟨m, hfold, hiff.mpr (by decide)⟩

/-- The commitment with one signer stays, and no quorum has it. -/
theorem bijection_superseded : ∃ m,
    ([oneSigner, twoSigners].map .add).foldlM (MinableCommitments.apply pairQuorums) {} = .ok m ∧
      ¬ m.Bijection pairQuorums := by
  obtain ⟨m, hfold, hsound, hkept⟩ := exists_kept hash_pair
  refine ⟨m, hfold, fun hb => ?_⟩
  have hfirst : firstOf [oneSigner, twoSigners] (twoSigners.llmqType, twoSigners.quorumHash) =
    some oneSigner := rfl
  exact absurd (hkept.le_first hsound hb (by simp) hfirst) (by decide)

def worseThenAdded : List MinableOp := [.message (.genesis 10) oneSigner, .add twoSigners]

def twoMessages : List MinableOp :=
  [.message (.genesis 10) oneSigner, .message (.genesis 10) twoSigners]

/-- The better commitment is found where the node adds it. -/
theorem getMinableCommitment_isBest_added : ∃ m,
    worseThenAdded.foldlM (MinableCommitments.apply pairQuorums) {} = .ok m ∧
    ∃ qc, m.getMinableCommitment (.genesis 10) pairLLMQ 1 {} = .ok (some qc) ∧
      IsBest worseThenAdded qc := by
  have hqc : ∀ op ∈ worseThenAdded, op.qc ∈ [oneSigner, twoSigners] := by
    simp [worseThenAdded, qc]
  have hhash : ∀ a ∈ worseThenAdded, ∀ b ∈ worseThenAdded,
      pairQuorums.commitmentHash a.qc = pairQuorums.commitmentHash b.qc → a.qc = b.qc :=
    fun a ha b hb => hash_pair a.qc (hqc a ha) b.qc (hqc b hb)
  have hrequired : (isCommitmentRequired (.genesis 10) pairLLMQ 1 {}).1 = true := by
    decide +kernel
  have hreceived : worseThenAdded = received pairQuorums
      (pairLLMQ.type, getQuorumBlockHash (.genesis 10) pairLLMQ 1) worseThenAdded := by
    refine (filter_eq_self.mpr fun op hop => ?_).symm
    simp only [worseThenAdded, mem_cons, not_mem_nil, or_false] at hop
    rcases hop with rfl | rfl
    · decide +kernel
    · decide +kernel
  have hbest : IsBest worseThenAdded twoSigners := by
    refine ⟨⟨.add twoSigners, by simp [worseThenAdded], rfl⟩, fun op hop => ?_⟩
    simp only [worseThenAdded, mem_cons, not_mem_nil, or_false] at hop
    rcases hop with rfl | rfl
    · decide
    · decide
  obtain ⟨m, hfold, hiff⟩ :=
    getMinableCommitment_isBest_iff _ hhash hrequired hreceived (cons_ne_nil _ _)
  exact ⟨m, hfold, hiff.mpr ⟨.add twoSigners, by simp [worseThenAdded], hbest, .inl rfl⟩⟩

/-- A message with one signer and then one with two: the first is offered. -/
theorem getMinableCommitment_not_best :
    (MinableOp.message (.genesis 10) twoSigners).isValid pairQuorums = true ∧
      (isCommitmentRequired (.genesis 10) pairLLMQ 1 {}).1 = true ∧
      oneSigner.countSigners < twoSigners.countSigners ∧
      ∃ m, twoMessages.foldlM (MinableCommitments.apply pairQuorums) {} = .ok m ∧
        m.getMinableCommitment (.genesis 10) pairLLMQ 1 {} = .ok (some oneSigner) := by
  refine ⟨by decide +kernel, by decide +kernel, by decide, ?_⟩
  have htest : (twoMessages.foldlM (apply pairQuorums) {}).toOption.any (fun m =>
        (m.getMinableCommitment (.genesis 10) pairLLMQ 1 {}).toOption = some (some oneSigner)) =
          true := by decide +kernel
  obtain ⟨m, hfold, hget⟩ := any_toOption.mp htest
  exact ⟨m, hfold, toOption_eq_some.mp (of_decide_eq_true hget)⟩

end MinableCommitments

end Absolute
