/-
Chains that follow the rules for commitments.

A block is judged by the chain below it: what its session has mined so far says whether it has to
carry a commitment, and for which quorum.  From that rule of single blocks follows the one of whole
sessions, since blocks of one session share the quorum and blocks of different ones do not.
-/
import AbsoluteCore.Spec.QuorumChain

namespace Absolute

open List Option Std Fallible Nat CBlockIndex

/-! ### Indexes of a chain -/

namespace CBlockIndex

variable {p q : CBlockIndex} {height : Int}

theorem nHeight_of_getAncestor (h : p.getAncestor height = some q) : q.nHeight = height := by
  induction p with
  | genesis hash =>
    rw [getAncestor] at h
    split_ifs at h with h0
    obtain rfl := some.inj h
    rw [h0]
    rfl
  | next hash p ih =>
    rw [getAncestor] at h
    split_ifs at h with h0
    · obtain rfl := some.inj h
      rw [h0]
      rfl
    · exact ih h

theorem exists_getAncestor (h0 : 0 ≤ height) (h : height ≤ p.nHeight) :
    ∃ q, p.getAncestor height = some q := by
  induction p with
  | genesis hash =>
    have h : height ≤ 0 := h
    exact ⟨genesis hash, if_pos (by omega)⟩
  | next hash p ih =>
    rw [getAncestor]
    by_cases heq : height = p.nHeight + 1
    · exact ⟨next hash p, if_pos heq⟩
    · rw [if_neg heq]
      have h : height ≤ p.nHeight + 1 := h
      exact ih (by omega)

theorem getAncestor_eq_none (h : p.nHeight < height) : p.getAncestor height = none := by
  cases hq : p.getAncestor height with
  | none => rfl
  | some q =>
    have hle := (onChain_of_getAncestor hq).nHeight_le
    rw [nHeight_of_getAncestor hq] at hle
    omega

/-- The ancestors of a block of the chain are those of the chain. -/
theorem OnChain.getAncestor (h : q.OnChain p) (hle : height ≤ q.nHeight) :
    p.getAncestor height = q.getAncestor height := by
  induction p with
  | genesis hash => rw [show q = genesis hash from h]
  | next hash p ih =>
    rcases h with rfl | h
    · rfl
    · have hq := h.nHeight_le
      rw [CBlockIndex.getAncestor, if_neg (by omega)]
      exact ih h

theorem getAncestor_self (p : CBlockIndex) : p.getAncestor p.nHeight = some p := by
  cases p with
  | genesis hash => exact if_pos rfl
  | next hash p => exact if_pos rfl

theorem OnChain.getAncestor_nHeight (h : q.OnChain p) : p.getAncestor q.nHeight = some q := by
  rw [h.getAncestor le_rfl, getAncestor_self]

end CBlockIndex

variable {qc : CFinalCommitment} {rest chain above : List CBlock} {genesis : Uint256}
  {height llmqType : Nat} {b : CBlock} {qcs : List CFinalCommitment}

theorem nHeight_indexOf (genesis chain) : (indexOf genesis chain).nHeight = chain.length := by
  induction chain with
  | nil => rfl
  | cons b rest ih =>
    rw [indexOf, nHeight, ih, length_cons]
    omega

theorem onChain_indexOf_drop (genesis chain) (n : Nat) :
    (indexOf genesis (chain.drop n)).OnChain (indexOf genesis chain) := by
  induction n generalizing chain with
  | zero => exact .refl _
  | succ n ih =>
    cases chain with
    | nil => exact .refl _
    | cons b rest => exact .inr (ih rest)

theorem onChain_indexOf_append (genesis) (above below : List CBlock) :
    (indexOf genesis below).OnChain (indexOf genesis (above ++ below)) := by
  have hdrop := onChain_indexOf_drop genesis (above ++ below) above.length
  rwa [drop_left] at hdrop

theorem exists_drop_of_onChain {p : CBlockIndex} (h : p.OnChain (indexOf genesis chain)) :
    ∃ n, n ≤ chain.length ∧ p = indexOf genesis (chain.drop n) := by
  induction chain with
  | nil => exact ⟨0, le_rfl, h⟩
  | cons b rest ih =>
    rcases h with rfl | h
    · exact ⟨0, zero_le _, rfl⟩
    · obtain ⟨n, hn, rfl⟩ := ih h
      exact ⟨n + 1, succ_le_succ hn, rfl⟩

theorem blockAt_eq_none (h : chain.length < height) : blockAt height chain = none := by
  induction chain with
  | nil => rfl
  | cons b rest ih =>
    rw [length_cons] at h
    rw [blockAt, if_neg (by omega), ih (by omega)]

theorem le_length_of_blockAt (h : blockAt height chain = some b) : height ≤ chain.length := by
  by_contra hlt
  rw [blockAt_eq_none (by omega)] at h
  cases h

theorem blockAt_cons_of_le (h : height ≤ rest.length) :
    blockAt height (b :: rest) = blockAt height rest := by
  rw [blockAt, if_neg (by omega)]

theorem exists_split_of_blockAt (h : blockAt height chain = some b) :
    ∃ above rest, chain = above ++ b :: rest ∧ height = rest.length + 1 := by
  induction chain with
  | nil => cases h
  | cons c rest ih =>
    rw [blockAt] at h
    split_ifs at h with hheight
    · obtain rfl := some.inj h
      exact ⟨[], rest, rfl, hheight⟩
    · obtain ⟨above, below, rfl, hbelow⟩ := ih h
      exact ⟨c :: above, below, rfl, hbelow⟩

theorem blockAt_append (h : height ≤ rest.length + 1) :
    blockAt height (above ++ b :: rest) = blockAt height (b :: rest) := by
  induction above with
  | nil => rfl
  | cons c above ih =>
    rw [cons_append, blockAt_cons_of_le, ih]
    rw [length_append, length_cons]
    omega

/-! ### Commitments of a block -/

/-- A successful pass over the transactions has all commitments, one of each type. -/
theorem collectBlockCommitment_fold {vtx : List CTransaction} {ret : List CFinalCommitment}
    (h : vtx.foldlM collectBlockCommitment ret = .ok qcs) :
    qcs = ret ++ (CBlock.mk 0 vtx).commitments ∧
      (ret.Pairwise (fun a b => a.llmqType ≠ b.llmqType) →
        qcs.Pairwise fun a b => a.llmqType ≠ b.llmqType) := by
  induction vtx generalizing ret with
  | nil =>
    rw [foldlM_nil, pure_eq_ok] at h
    subst h
    exact ⟨by simp [CBlock.commitments], id⟩
  | cons tx vtx ih =>
    rw [foldlM_cons, bind_eq_ok] at h
    obtain ⟨ret', htx, hrest⟩ := h
    obtain ⟨hqcs, hpairwise⟩ := ih hrest
    unfold collectBlockCommitment at htx
    by_cases htype : tx.nType = .quorumCommitment
    · rw [if_pos htype] at htx
      cases hpayload : tx.getCommitment with
      | none =>
        rw [hpayload] at htx
        cases htx
      | some qc =>
        rw [hpayload] at htx
        obtain ⟨u, hfresh, htx⟩ := bind_eq_ok.mp htx
        rw [pure_eq_ok] at htx
        subst htx
        have hnew : ∀ c ∈ ret, c.llmqType ≠ qc.commitment.llmqType := by
          intro c hc heq
          have hany : (ret.any fun c => c.llmqType = qc.commitment.llmqType) = true :=
            any_eq_true.mpr ⟨c, hc, by simpa using heq⟩
          rw [rejectIf, if_pos hany] at hfresh
          cases hfresh
        refine ⟨?_, fun hret => hpairwise ?_⟩
        · rw [hqcs, append_assoc]
          simp [CBlock.commitments, htype, hpayload]
        · refine pairwise_append.mpr ⟨hret, pairwise_singleton _ _, ?_⟩
          intro a ha b hb
          rw [mem_singleton] at hb
          subst hb
          exact hnew a ha
    · rw [if_neg htype] at htx
      obtain rfl := pure_eq_ok.mp htx
      refine ⟨?_, hpairwise⟩
      rw [hqcs]
      simp [CBlock.commitments, htype]

def OneOfEachType (b : CBlock) : Prop := b.commitments.Pairwise fun a b => a.llmqType ≠ b.llmqType

theorem commitments_of_collect (h : b.vtx.foldlM collectBlockCommitment [] = .ok qcs) :
    qcs = b.commitments ∧ OneOfEachType b := by
  obtain ⟨hqcs, hpairwise⟩ := collectBlockCommitment_fold h
  have heq : qcs = b.commitments := hqcs
  rw [heq] at hpairwise
  exact ⟨heq, hpairwise .nil⟩

theorem carried_eq_of_mem (h : OneOfEachType b) (hqc : qc ∈ b.commitments) :
    b.carried qc.llmqType = [qc] := by
  unfold CBlock.carried
  unfold OneOfEachType at h
  generalize b.commitments = qcs at h hqc
  induction qcs with
  | nil => cases hqc
  | cons c qcs ih =>
    obtain ⟨hc, hqcs⟩ := pairwise_cons.mp h
    rcases mem_cons.mp hqc with rfl | hmem
    · rw [filter_cons_of_pos (by simp), filter_eq_nil_iff.mpr]
      intro a ha
      simpa using (hc a ha).symm
    · rw [filter_cons_of_neg (by simpa using hc qc hmem)]
      exact ih hqcs hmem

theorem mem_carried : qc ∈ b.carried llmqType ↔ qc ∈ b.commitments ∧ qc.llmqType = llmqType := by
  rw [CBlock.carried, mem_filter, decide_eq_true_eq]

variable {qe : QuorumEnv}

theorem minedIn_eq_some (h : OneOfEachType b) : minedIn qe llmqType height b = some qc ↔
      qe.env.dip0003Height ≤ height ∧ qc ∈ b.carried llmqType ∧ qc.isNull = false := by
  unfold minedIn
  by_cases hactive : (height : Int) < qe.env.dip0003Height
  · have hnot : ¬ qe.env.dip0003Height ≤ height := by omega
    simp [hnot]
  · rw [if_neg hactive]
    have hle : qe.env.dip0003Height ≤ height := by omega
    constructor
    · intro hfind
      exact ⟨hle, mem_of_find?_eq_some hfind, by simpa using find?_some hfind⟩
    · intro ⟨_, hmem, hnull⟩
      obtain ⟨hqc, rfl⟩ := mem_carried.mp hmem
      rw [carried_eq_of_mem h hqc]
      simp [hnull]

theorem mem_commitments_of_minedIn (h : minedIn qe llmqType height b = some qc) :
    qe.env.dip0003Height ≤ height ∧ qc ∈ b.carried llmqType ∧ qc.isNull = false := by
  unfold minedIn at h
  split_ifs at h with hactive
  exact ⟨by omega, mem_of_find?_eq_some h, by simpa using find?_some h⟩

/-! ### The rule of a block -/

/-- A block on top of the chain has to carry a commitment: it is in the mining window of a session
that has not mined one yet. -/
def Required (qe : QuorumEnv) (genesis : Uint256) (rest : List CBlock) (params : LLMQMiningParams) :
    Prop :=
  InWindow params (rest.length + 1) ∧
    ∃ base, (indexOf genesis rest).getAncestor
        ((rest.length + 1) / params.dkgInterval * params.dkgInterval : Nat) = some base ∧
      minedFor qe params.type base.getBlockHash rest = none

/-- What a block on top of the chain carries. -/
structure BlockRule (qe : QuorumEnv) (genesis : Uint256) (rest : List CBlock) (b : CBlock) :
    Prop where
  /-- The commitments can be read, and there is one of each type. -/
  collected : b.vtx.foldlM collectBlockCommitment [] = .ok b.commitments
  oneOfEachType : OneOfEachType b
  /-- Those that are required, and no others. -/
  required : ∀ params ∈ qe.llmqs,
    (∃ qc ∈ b.commitments, qc.llmqType = params.type) ↔ Required qe genesis rest params
  /-- For the quorum of the session. -/
  quorum : ∀ qc ∈ b.commitments, ∃ params ∈ qe.llmqs, qc.llmqType = params.type ∧
    ∃ base, (indexOf genesis rest).getAncestor
        ((rest.length + 1) / params.dkgInterval * params.dkgInterval : Nat) = some base ∧
      qc.quorumHash = base.getBlockHash

/-- All blocks to which the rules apply follow them. -/
def FollowsRules (qe : QuorumEnv) (genesis : Uint256) : List CBlock → Prop
  | [] => True
  | b :: rest => FollowsRules qe genesis rest ∧
      (qe.env.dip0003Height ≤ (rest.length + 1 : Nat) → BlockRule qe genesis rest b)

theorem FollowsRules.of_append
    (h : FollowsRules qe genesis (above ++ rest)) : FollowsRules qe genesis rest := by
  induction above with
  | nil => exact h
  | cons b above ih => exact ih h.1

theorem QuorumEnv.eq_of_type {p q : LLMQMiningParams} (hp : p ∈ qe.llmqs) (hq : q ∈ qe.llmqs)
    (h : p.type = q.type) : p = q := by
  by_contra hne
  have hpairwise : qe.llmqs.Pairwise fun p q => p.type ≠ q.type :=
    qe.llmqs_sorted.imp fun hlt => ne_of_lt hlt
  have hsymm : Symm fun p q : LLMQMiningParams => p.type ≠ q.type := ⟨fun _ _ h => h.symm⟩
  exact hpairwise.forall hp hq hne h

/-! ### Mined quorums -/

section Mined

variable {llmqType height : Nat} {quorumHash : Uint256} {chain : List CBlock} {b : CBlock}

theorem exists_of_minedFor {r : CFinalCommitment × Uint256}
    (h : minedFor qe llmqType quorumHash chain = some r) :
    ∃ height b, blockAt height chain = some b ∧ minedIn qe llmqType height b = some r.1 ∧
      r.1.quorumHash = quorumHash ∧ r.2 = b.hash := by
  induction chain with
  | nil => cases h
  | cons b rest ih =>
    rw [minedFor] at h
    split at h
    · next qc hfilter =>
        obtain rfl := some.inj h
        obtain ⟨hmined, hhash⟩ := filter_eq_some_iff.mp hfilter
        exact ⟨rest.length + 1, b, if_pos rfl, hmined, by simpa using hhash, rfl⟩
    · obtain ⟨height, c, hat, hmined⟩ := ih h
      refine ⟨height, c, ?_, hmined⟩
      rw [blockAt_cons_of_le (le_length_of_blockAt hat), hat]

theorem minedFor_ne_none {qc : CFinalCommitment} (hat : blockAt height chain = some b)
    (hmined : minedIn qe llmqType height b = some qc) :
    minedFor qe llmqType qc.quorumHash chain ≠ none := by
  induction chain with
  | nil => cases hat
  | cons c rest ih =>
    rw [minedFor]
    split
    · exact some_ne_none _
    · next hfilter =>
        rw [blockAt] at hat
        split_ifs at hat with hheight
        · obtain rfl := some.inj hat
          rw [← hheight, hmined] at hfilter
          simp at hfilter
        · exact ih hat

end Mined

/-! ### The rule of a session -/

namespace FollowsRules

variable {genesis : Uint256} {chain : List CBlock} {params : LLMQMiningParams} {height : Nat}
  {b : CBlock}
variable {above rest : List CBlock} {base : CBlockIndex} {qc : CFinalCommitment}

/-- A block of the chain is judged by what is below it. -/
theorem exists_rule (h : FollowsRules qe genesis chain) (hat : blockAt height chain = some b)
    (hactive : qe.env.dip0003Height ≤ height) :
    ∃ above rest, chain = above ++ b :: rest ∧ height = rest.length + 1 ∧
      BlockRule qe genesis rest b := by
  obtain ⟨above, rest, rfl, rfl⟩ := exists_split_of_blockAt hat
  exact ⟨above, rest, rfl, rfl, (FollowsRules.of_append h).2 hactive⟩

theorem getAncestor_below {x : Nat} (hx : x ≤ rest.length) :
    (indexOf genesis (above ++ b :: rest)).getAncestor x = (indexOf genesis rest).getAncestor x := by
  have hon := onChain_indexOf_append genesis (above ++ [b]) rest
  rw [append_assoc, singleton_append] at hon
  refine hon.getAncestor ?_
  rw [nHeight_indexOf]
  omega

theorem sessionStart_le (hbase : (indexOf genesis rest).getAncestor
      ((rest.length + 1) / params.dkgInterval * params.dkgInterval : Nat) = some base) :
    (rest.length + 1) / params.dkgInterval * params.dkgInterval ≤ rest.length := by
  have hle := (onChain_of_getAncestor hbase).nHeight_le
  rw [nHeight_of_getAncestor hbase, nHeight_indexOf] at hle
  omega

/-- What a block carries is for the quorum of its session. -/
theorem exists_quorum (h : FollowsRules qe genesis chain) (hat : blockAt height chain = some b)
    (hactive : qe.env.dip0003Height ≤ height) (hqc : qc ∈ b.commitments) :
    ∃ params ∈ qe.llmqs, qc.llmqType = params.type ∧
      ∃ base, (indexOf genesis chain).getAncestor
          (height / params.dkgInterval * params.dkgInterval : Nat) = some base ∧
        qc.quorumHash = base.getBlockHash := by
  obtain ⟨above, rest, rfl, rfl, hrule⟩ := h.exists_rule hat hactive
  obtain ⟨params, hparams, htype, base, hbase, hhash⟩ := hrule.quorum qc hqc
  refine ⟨params, hparams, htype, base, ?_, hhash⟩
  rw [getAncestor_below (sessionStart_le hbase), hbase]

theorem quorum_of_carried (h : FollowsRules qe genesis chain) (hparams : params ∈ qe.llmqs)
    (hat : blockAt height chain = some b) (hactive : qe.env.dip0003Height ≤ height)
    (hqc : qc ∈ b.carried params.type) : ∃ base, (indexOf genesis chain).getAncestor
        (height / params.dkgInterval * params.dkgInterval : Nat) = some base ∧
      qc.quorumHash = base.getBlockHash := by
  obtain ⟨hmem, htype⟩ := mem_carried.mp hqc
  obtain ⟨q, hq, hqtype, hbase⟩ := h.exists_quorum hat hactive hmem
  obtain rfl : q = params := qe.eq_of_type hq hparams (hqtype.symm.trans htype)
  exact hbase

/-- Blocks below that have mined for the same quorum are of the same session. -/
theorem minedBelow_of_minedFor (hknown : (indexOf genesis chain).Known qe.env)
    (h : FollowsRules qe genesis chain) (hparams : params ∈ qe.llmqs)
    (hchain : chain = above ++ b :: rest) (hbase : (indexOf genesis rest).getAncestor
      ((rest.length + 1) / params.dkgInterval * params.dkgInterval : Nat) = some base)
    (hmined : minedFor qe params.type base.getBlockHash rest ≠ none) :
    MinedBelow qe params ((rest.length + 1) / params.dkgInterval) chain (rest.length + 1) := by
  obtain ⟨r, hr⟩ := ne_none_iff_exists'.mp hmined
  obtain ⟨height', b', hat, hin, hhash, -⟩ := exists_of_minedFor hr
  obtain ⟨hactive, hcarried, hnull⟩ := mem_commitments_of_minedIn hin
  have hle := le_length_of_blockAt hat
  have hat' : blockAt height' chain = some b' := by
    rw [hchain, blockAt_append (by omega), blockAt_cons_of_le hle, hat]
  -- The quorum is the first block of the session, so the two sessions start at one height.
  obtain ⟨base', hbase', hhash'⟩ := h.quorum_of_carried hparams hat' hactive hcarried
  have hbase : (indexOf genesis chain).getAncestor
      ((rest.length + 1) / params.dkgInterval * params.dkgInterval : Nat) = some base := by
    rw [hchain, getAncestor_below (sessionStart_le hbase), hbase]
  have heq : base' = base := by
    refine (hknown.onChain (onChain_of_getAncestor hbase')).eq_of_hash
      (hknown.onChain (onChain_of_getAncestor hbase)) ?_
    rw [← hhash', hhash]
  have hstart := nHeight_of_getAncestor hbase'
  rw [heq, nHeight_of_getAncestor hbase] at hstart
  have hsession : height' / params.dkgInterval = (rest.length + 1) / params.dkgInterval :=
    (eq_of_mul_eq_mul_right params.dkgInterval_pos (by exact_mod_cast hstart)).symm
  exact ⟨height', b', r.1, by omega, ⟨hat', hsession, hactive⟩, hcarried, hnull⟩

/-- A session that has mined does not require another commitment. -/
theorem not_required_of_minedBelow (h : FollowsRules qe genesis chain) (hparams : params ∈ qe.llmqs)
    (hchain : chain = above ++ b :: rest)
    (hmined : MinedBelow qe params ((rest.length + 1) / params.dkgInterval) chain (rest.length + 1)) :
    ¬ Required qe genesis rest params := by
  intro ⟨_, base, hbase, hnone⟩
  obtain ⟨height', b', qc, hlt, hsession, hcarried, hnull⟩ := hmined
  obtain ⟨base', hbase', hhash'⟩ :=
    h.quorum_of_carried hparams hsession.blockAt hsession.active hcarried
  rw [hsession.session, hchain, getAncestor_below (sessionStart_le hbase), hbase] at hbase'
  obtain rfl := some.inj hbase'
  have hat : blockAt height' rest = some b' := by
    have hat := hsession.blockAt
    rwa [hchain, blockAt_append (by omega), blockAt_cons_of_le (by omega)] at hat
  obtain ⟨_, _, _, _, hrule⟩ := h.exists_rule hsession.blockAt hsession.active
  have hin : minedIn qe params.type height' b' = some qc :=
    (minedIn_eq_some hrule.oneOfEachType).mpr ⟨hsession.active, hcarried, hnull⟩
  rw [← hhash'] at hnone
  exact minedFor_ne_none hat hin hnone

section

variable (hknown : (indexOf genesis chain).Known qe.env) (h : FollowsRules qe genesis chain)
  (hparams : params ∈ qe.llmqs)

include hknown h hparams

/-- In the window, before the session has mined, a commitment is required. -/
theorem required_of_window (hchain : chain = above ++ b :: rest)
    (hwindow : InWindow params (rest.length + 1))
    (hmined : ¬ MinedBelow qe params ((rest.length + 1) / params.dkgInterval) chain
      (rest.length + 1)) : Required qe genesis rest params := by
  -- The window does not hold the first block of the session.
  have hphase : 0 < (rest.length + 1) % params.dkgInterval :=
    Nat.lt_of_lt_of_le params.dkgMiningWindowStart_pos hwindow.1
  have hdiv := Nat.div_add_mod' (rest.length + 1) params.dkgInterval
  obtain ⟨base, hbase⟩ := exists_getAncestor (p := indexOf genesis rest)
    (Int.natCast_nonneg ((rest.length + 1) / params.dkgInterval * params.dkgInterval))
    (by rw [nHeight_indexOf]; omega)
  refine ⟨hwindow, base, hbase, ?_⟩
  by_contra hsome
  exact hmined (minedBelow_of_minedFor hknown h hparams hchain hbase hsome)

theorem sessionRule (session : Nat) : SessionRule qe genesis chain params session where
  outside height b hsession hwindow := by
    obtain ⟨above, rest, hchain, rfl, hrule⟩ := h.exists_rule hsession.blockAt hsession.active
    rw [eq_nil_iff_forall_not_mem]
    intro qc hqc
    obtain ⟨hmem, htype⟩ := mem_carried.mp hqc
    exact hwindow ((hrule.required params hparams).mp ⟨qc, hmem, htype⟩).1
  inside height b hsession hwindow hmined := by
    obtain ⟨above, rest, hchain, rfl, hrule⟩ := h.exists_rule hsession.blockAt hsession.active
    obtain rfl := hsession.session
    obtain ⟨qc, hmem, htype⟩ := (hrule.required params hparams).mpr
      (h.required_of_window hknown hparams hchain hwindow hmined)
    have hcarried : b.carried params.type = [qc] := by
      rw [← htype, carried_eq_of_mem hrule.oneOfEachType hmem]
    obtain ⟨base, hbase, hhash⟩ := h.quorum_of_carried hparams hsession.blockAt hsession.active
      (mem_carried.mpr ⟨hmem, htype⟩)
    exact ⟨qc, base, hcarried, hbase, hhash⟩
  after height b hsession hmined := by
    obtain ⟨above, rest, hchain, rfl, hrule⟩ := h.exists_rule hsession.blockAt hsession.active
    obtain rfl := hsession.session
    rw [eq_nil_iff_forall_not_mem]
    intro qc hqc
    obtain ⟨hmem, htype⟩ := mem_carried.mp hqc
    exact h.not_required_of_minedBelow hparams hchain hmined
      ((hrule.required params hparams).mp ⟨qc, hmem, htype⟩)

end

end FollowsRules

end Absolute
