/-
The penalty of one masternode, block by block.

While it is not banned its penalty is a number that every block lowers by one and every failure
raises, up to the ban (`afterBlock`).  What a block does to it besides is a ban by its owner or its
operator.  A banned masternode keeps its penalty, unless it is punished below the maximum.
-/
import AbsoluteCore.Proofs.Evo.PoSe

namespace Absolute

open Fallible Lts CDeterministicMNList List Option Except Std.ExtTreeMap

variable {env : Env} {lists : CBlockIndex → CDeterministicMNList} {pindexPrev : CBlockIndex}
  {tx : CTransaction} {txs : List CTransaction} {l l' : CDeterministicMNList} {h x : Uint256}
  {d d' : CDeterministicMN} {n k : Nat} {q : Int} {s : CDeterministicMNState}

/-! ### Reports -/

/-- Masternode `h` is `d` in a list of `n`. -/
structure Member (env : Env) (n : Nat) (h : Uint256) (l : CDeterministicMNList)
    (d : CDeterministicMN) : Prop where
  indexed : l.Indexed env.serializeHash
  count : l.getAllMNsCount = n
  height : 0 ≤ l.nHeight
  get : l.mnMap[h]? = some d

theorem Member.updateMN (hl : Member env n h l d)
    (hok : l.updateMN env.serializeHash x s = .ok l') :
    Member env n h l' (if x = h then { d with pdmnState := s } else d) := by
  obtain ⟨dmn, hdmn, -, hupd⟩ := hl.indexed.updateMN_inv hok
  refine ⟨hupd.indexed, ?_, hupd.nHeight ▸ hl.height, ?_⟩
  · rw [← hl.count, getAllMNsCount, getAllMNsCount, hupd.mnMap, size_insert, if_pos]
    rw [contains_eq_isSome_getElem?, hdmn]
    rfl
  · rw [hupd.mnMap, Std.ExtTreeMap.getElem?_insert]
    simp only [Nat.compare_eq_eq]
    split_ifs with hx
    · subst hx
      rw [some.inj (hdmn.symm.trans hl.get)]
    · exact hl.get

theorem Member.calcPenalty (hl : Member env n h l d) :
    l.calcPenalty 66 = .ok (failurePenalty n) := by
  rw [← hl.count]
  rfl

theorem Member.report (hl : Member env n h l d) {r : CDeterministicMN × Bool}
    (hok : punishMember env l r = .ok l') :
    Member env n h l' (if r.1.proTxHash = h ∧ r.2 = false then
      { d with pdmnState := l.punishedState d.pdmnState (failurePenalty n) } else d) := by
  unfold punishMember at hok
  by_cases hfail : r.1.proTxHash = h ∧ r.2 = false
  · have hhas : l.hasMN r.1.proTxHash = true ∧ r.2 = false := by
      rw [hfail.1, hasMN, getMN, hl.get]
      exact ⟨rfl, hfail.2⟩
    rw [if_pos hhas, hl.calcPenalty, ok_bind, hfail.1] at hok
    obtain ⟨-, dmn, hdmn, hupd⟩ := poSePunish_eq_ok.mp hok
    obtain rfl : dmn = d := some.inj (hdmn.symm.trans hl.get)
    have hnew := hl.updateMN hupd
    rw [if_pos rfl] at hnew
    rwa [if_pos hfail]
  · rw [if_neg hfail]
    split_ifs at hok with hcond
    · rw [hl.calcPenalty, ok_bind] at hok
      obtain ⟨-, dmn, -, hupd⟩ := poSePunish_eq_ok.mp hok
      have hnew := hl.updateMN hupd
      rwa [if_neg fun heq => hfail ⟨heq, hcond.2⟩] at hnew
    · exact ok.inj hok ▸ hl

/-- What `k` failures among `n` masternodes make of a state. -/
structure Fares (n k : Nat) (s s' : CDeterministicMNState) : Prop where
  banned : s.nPoSeBanHeight ≠ -1 → (k ≠ 0 → s.nPoSePenalty = max 100 (n : Int)) →
    s'.nPoSeBanHeight ≠ -1 ∧ s'.nPoSePenalty = s.nPoSePenalty
  survives : s.nPoSeBanHeight = -1 → ∀ q, afterFailures n k s.nPoSePenalty = some q →
    s'.nPoSeBanHeight = -1 ∧ s'.nPoSePenalty = q
  reached : s.nPoSeBanHeight = -1 → afterFailures n k s.nPoSePenalty = none →
    s'.nPoSeBanHeight ≠ -1

theorem failurePenalty_nonneg (n : Nat) : 0 ≤ failurePenalty n :=
  Int.tdiv_nonneg (by omega) (by omega)

/-- Once banned, a masternode stays so under any reports. -/
theorem Member.reports_banned {rs : List (CDeterministicMN × Bool)} (hl : Member env n h l d)
    (hban : d.pdmnState.nPoSeBanHeight ≠ -1) (hok : rs.foldlM (punishMember env) l = .ok l') :
    ∃ d', Member env n h l' d' ∧ d'.pdmnState.nPoSeBanHeight ≠ -1 := by
  refine foldlM_inv (fun l => ∃ d, Member env n h l d ∧ d.pdmnState.nPoSeBanHeight ≠ -1) rs l l'
    ?_ ⟨d, hl, hban⟩ hok
  rintro r - l l' ⟨d, hl, hban⟩ hr
  refine ⟨_, hl.report hr, ?_⟩
  split_ifs
  · rw [punishedState_nPoSeBanHeight, if_neg fun hreached => hban hreached.2]
    exact hban
  · exact hban

theorem Member.reports {rs : List (CDeterministicMN × Bool)} (hl : Member env n h l d)
    (hok : rs.foldlM (punishMember env) l = .ok l') :
    ∃ d', Member env n h l' d' ∧ Fares n (countFailures h rs) d.pdmnState d'.pdmnState := by
  induction rs generalizing l d with
  | nil =>
    refine ⟨d, ok.inj hok ▸ hl, fun hban _ => ⟨hban, rfl⟩, fun hban q hq => ⟨hban, ?_⟩, ?_⟩
    · exact some.inj hq
    · exact fun _ hnone => nomatch hnone
  | cons r rs ih =>
    rw [foldlM_cons, bind_eq_ok] at hok
    obtain ⟨l₁, hr, hrs⟩ := hok
    have hl₁ := hl.report hr
    have hmax : l.calcMaxPoSePenalty = max 100 (n : Int) := by rw [← hl.count]; rfl
    have hpos := failurePenalty_nonneg n
    have hheight := hl.height
    by_cases hfail : r.1.proTxHash = h ∧ r.2 = false
    · have hcount : countFailures h (r :: rs) = countFailures h rs + 1 :=
        countP_cons_of_pos (decide_eq_true hfail)
      rw [if_pos hfail] at hl₁
      obtain ⟨d', hd', hfares⟩ := ih hl₁ hrs
      have hpen := punishedState_nPoSePenalty (failurePenalty n) d.pdmnState l
      have hheightBan := punishedState_nPoSeBanHeight (failurePenalty n) d.pdmnState l
      rw [hmax] at hpen hheightBan
      refine ⟨d', hd', fun hban hat => ?_, fun hban q hq => ?_, fun hban hnone => ?_⟩
      · have hat := hat (by omega)
        rw [if_neg fun hreached => hban hreached.2] at hheightBan
        rw [← hheightBan] at hban
        obtain ⟨hban', hpen'⟩ := hfares.banned hban fun _ => by dsimp only; omega
        exact ⟨hban', by rw [hpen']; dsimp only; omega⟩
      · rw [hcount, afterFailures] at hq
        split_ifs at hq with hreached
        rw [if_neg (by omega)] at hheightBan
        refine hfares.survives (hheightBan.trans hban) q ?_
        rw [hpen, min_eq_right (by omega)]
        exact hq
      · rw [hcount, afterFailures] at hnone
        split_ifs at hnone with hreached
        · rw [if_pos (by omega)] at hheightBan
          obtain ⟨d'', hd'', hban''⟩ := hl₁.reports_banned (by dsimp only; omega) hrs
          rwa [some.inj (hd'.get.symm.trans hd''.get)]
        · rw [if_neg (by omega)] at hheightBan
          refine hfares.reached (hheightBan.trans hban) ?_
          rw [hpen, min_eq_right (by omega)]
          exact hnone
    · rw [if_neg hfail] at hl₁
      rw [countFailures, countP_cons_of_neg (by simpa using hfail)]
      exact ih hl₁ hrs

/-! ### Transactions -/

theorem reported_eq_nil (h : ¬ (tx.nVersion = 3 ∧ tx.nType = .quorumCommitment)) :
    reported env lists pindexPrev tx = [] := by
  simp [reported, CDeterministicMNManager.quorumIndexOf, h]

theorem foldlM_reported (hok : processCommitment env lists pindexPrev l tx = .ok l')
    (h3 : tx.nVersion = 3) (htype : tx.nType = .quorumCommitment) :
    (reported env lists pindexPrev tx).foldlM (punishMember env) l = .ok l' := by
  unfold processCommitment handleQuorumCommitment at hok
  obtain ⟨qc, hqc, hok⟩ := bind_eq_ok.mp hok
  rw [deref_eq_ok] at hqc
  split at hok
  · next hnull =>
    have hnone : reported env lists pindexPrev tx = [] := by
      simp [reported, CDeterministicMNManager.quorumIndexOf, hqc, hnull]
    rw [hnone]
    exact hok
  · next hnull =>
    simp only [bind_eq_ok, deref_eq_ok, orReject_eq_ok] at hok
    obtain ⟨params, hparams, pindexQuorum, hquorum, -, -, members, hmembers, -, -, hfold⟩ := hok
    have hindex : CDeterministicMNManager.quorumIndexOf env pindexPrev tx = some pindexQuorum := by
      rw [← hquorum, Nat.cast_sub (Nat.mod_le _ _)]
      simp [CDeterministicMNManager.quorumIndexOf, h3, htype, hqc, hnull, hparams]
    have hreported : reported env lists pindexPrev tx = members.zip qc.commitment.validMembers := by
      simp [reported, hindex, hqc, hmembers, Except.toOption]
    rw [hreported]
    exact hfold

/-- What a transaction other than a commitment does to a masternode: it keeps the penalty and may ban
in its own way, or it revives. -/
def Untouched (h : Uint256) (tx : CTransaction) (s s' : CDeterministicMNState) : Prop :=
  s'.nPoSePenalty = s.nPoSePenalty ∧
      (s'.nPoSeBanHeight = s.nPoSeBanHeight ∨ s'.nPoSeBanHeight ≠ -1 ∧ ¬ OperatorStays h [tx]) ∨
    s.nPoSeBanHeight ≠ -1 ∧ s'.nPoSeBanHeight = -1

section

variable (hidx : l.Indexed env.serializeHash) (hd : l.mnMap[h]? = some d)
  (hd' : l'.mnMap[h]? = some d')

include hidx hd hd'

theorem untouched_of_updateMN {dmn : CDeterministicMN} (hget : l.mnMap[x]? = some dmn)
    (hok : l.updateMN env.serializeHash x s = .ok l')
    (hs : x = h → Untouched h tx dmn.pdmnState s) : Untouched h tx d.pdmnState d'.pdmnState := by
  obtain ⟨dmn', hdmn', -, hupd⟩ := hidx.updateMN_inv hok
  obtain rfl := some.inj (hget.symm.trans hdmn')
  rw [hupd.mnMap] at hd'
  rcases MapTotal.insert_eq_some.mp hd' with ⟨rfl, rfl⟩ | ⟨-, hsame⟩
  · obtain rfl := some.inj (hget.symm.trans hd)
    exact hs rfl
  · rw [some.inj (hsame.symm.trans hd)]
    exact .inl ⟨rfl, .inl rfl⟩

theorem untouched_processProRegTx (hinj : Function.Injective env.serializeHash)
    (hnew : NotReadded env h (.transaction tx))
    (hok : processProRegTx env pindexPrev (pindexPrev.nHeight + 1) l tx = .ok l') :
    Untouched h tx d.pdmnState d'.pdmnState := by
  obtain ⟨p, hp, -⟩ := bind_eq_ok.mp hok
  rw [deref_eq_ok, getProRegTx_eq_some] at hp
  obtain ⟨tr, hrun⟩ : ∃ tr, Run (StepFrom env (fun _ => l) pindexPrev (.transaction tx)) l tr l' :=
    processProRegTx_run hinj hidx hok
  -- none of its events writes a state
  refine state_of_run (P := Untouched h tx d.pdmnState) hrun hidx hnew ?_ ?_ d' hd'
  · intro l e f s hemit hwrite
    cases hemit <;> simp_all [ListEvent.write, CTransaction.getProUpServTx,
      CTransaction.getProUpRegTx, CTransaction.getProUpRevTx, CTransaction.getCommitment]
  · intro d₀ hd₀
    rw [some.inj (hd₀.symm.trans hd)]
    exact .inl ⟨rfl, .inl rfl⟩

theorem untouched_processProUpServTx
    (hok : processProUpServTx env (pindexPrev.nHeight + 1) l tx = .ok l') :
    Untouched h tx d.pdmnState d'.pdmnState := by
  unfold processProUpServTx at hok
  simp only [bind_eq_ok, deref_eq_ok, orReject_eq_ok] at hok
  obtain ⟨p, hp, -, -, dmn, hget, hupdate⟩ := hok
  refine untouched_of_updateMN hidx hd hd' hget hupdate fun _ => ?_
  by_cases hrevives : Revives dmn.pdmnState
  · exact .inr ⟨hrevives.1, (updServState_of_revives _ p hrevives).2.1⟩
  · obtain ⟨hpenalty, hban, -⟩ := updServState_of_not_revives (pindexPrev.nHeight + 1) p hrevives
    exact .inl ⟨hpenalty, .inl hban⟩

theorem untouched_processProUpRegTx
    (hok : processProUpRegTx env (pindexPrev.nHeight + 1) l tx = .ok l') :
    Untouched h tx d.pdmnState d'.pdmnState := by
  unfold processProUpRegTx at hok
  simp only [bind_eq_ok, deref_eq_ok, orReject_eq_ok] at hok
  obtain ⟨p, hp, dmn, hget, hupdate⟩ := hok
  refine untouched_of_updateMN hidx hd hd' hget hupdate fun hhash => ?_
  have hheight := pindexPrev.nHeight_nonneg
  refine .inl ⟨by simp, ?_⟩
  rw [updRegState_nPoSeBanHeight]
  split_ifs
  · exact .inr ⟨by omega, fun hstays => (hstays tx mem_cons_self).1 p hp hhash⟩
  · exact .inl rfl

theorem untouched_processProUpRevTx
    (hok : processProUpRevTx env (pindexPrev.nHeight + 1) l tx = .ok l') :
    Untouched h tx d.pdmnState d'.pdmnState := by
  unfold processProUpRevTx at hok
  simp only [bind_eq_ok, deref_eq_ok, orReject_eq_ok] at hok
  obtain ⟨p, hp, dmn, hget, hupdate⟩ := hok
  refine untouched_of_updateMN hidx hd hd' hget hupdate fun hhash => ?_
  have hheight := pindexPrev.nHeight_nonneg
  refine .inl ⟨by simp, ?_⟩
  rw [updRevState_nPoSeBanHeight]
  split_ifs
  · exact .inr ⟨by omega, fun hstays => (hstays tx mem_cons_self).2 p hp hhash⟩
  · exact .inl rfl

/-- A transaction reports, or has nothing to do with reports. -/
theorem processTx_cases (hinj : Function.Injective env.serializeHash)
    (hnew : tx.nVersion = 3 → tx.nType = .providerRegister → NotReadded env h (.transaction tx))
    (hok : processTx env lists pindexPrev l tx = .ok l') :
    (reported env lists pindexPrev tx).foldlM (punishMember env) l = .ok l' ∨
      reported env lists pindexPrev tx = [] ∧ Untouched h tx d.pdmnState d'.pdmnState := by
  unfold processTx at hok
  by_cases h3 : tx.nVersion = 3
  · rw [if_neg (not_not.mpr h3)] at hok
    by_cases htype : tx.nType = .quorumCommitment
    · rw [htype] at hok
      exact .inl (foldlM_reported hok h3 htype)
    · have hnil : reported env lists pindexPrev tx = [] := reported_eq_nil fun hc => htype hc.2
      rw [hnil]
      split at hok
      · next htype =>
        exact .inr ⟨rfl, untouched_processProRegTx hidx hd hd' hinj (hnew h3 htype) hok⟩
      · exact .inr ⟨rfl, untouched_processProUpServTx hidx hd hd' hok⟩
      · exact .inr ⟨rfl, untouched_processProUpRegTx hidx hd hd' hok⟩
      · exact .inr ⟨rfl, untouched_processProUpRevTx hidx hd hd' hok⟩
      · next hc => exact absurd hc htype
      · exact .inl hok
  · rw [if_pos h3] at hok
    rw [reported_eq_nil fun hc => h3 hc.1]
    exact .inl hok

end

/-! ### Before and after the transactions -/

def SamePoSe (s s' : CDeterministicMNState) : Prop :=
  s'.nPoSePenalty = s.nPoSePenalty ∧ s'.nPoSeBanHeight = s.nPoSeBanHeight

theorem exists_confirmed (hidx : (lists pindexPrev).Indexed env.serializeHash)
    (hd : (lists pindexPrev).mnMap[h]? = some d)
    (hok : ((lists pindexPrev).forEachMN false).foldlM (confirmMN env pindexPrev)
      (blockStart lists pindexPrev) = .ok l) :
    ∃ d₁, Member env (lists pindexPrev).getAllMNsCount h l d₁ ∧
      SamePoSe d.pdmnState d₁.pdmnState := by
  have hheight := pindexPrev.nHeight_nonneg
  have hstart : Member env (lists pindexPrev).getAllMNsCount h (blockStart lists pindexPrev) d :=
    ⟨hidx.of_maps rfl rfl, rfl, by dsimp only [blockStart]; omega, hd⟩
  refine foldlM_inv (fun l => ∃ d₁, Member env (lists pindexPrev).getAllMNsCount h l d₁ ∧
    SamePoSe d.pdmnState d₁.pdmnState) _ _ _ ?_ ⟨d, hstart, rfl, rfl⟩ hok
  rintro dmn hdmn l l' ⟨d₁, hl, hsame⟩ hstep
  unfold confirmMN at hstep
  split_ifs at hstep
  · refine ⟨_, hl.updateMN hstep, ?_⟩
    split_ifs with heq
    · have hget := (hidx.mem_forEachMN.mp hdmn).1
      rw [heq, hd] at hget
      rw [some.inj hget]
      exact ⟨rfl, rfl⟩
    · exact hsame
  · exact ⟨d₁, ok.inj hstep ▸ hl, hsame⟩

/-- `DecreasePoSePenalties` lowers each penalty that it meets once. -/
theorem Member.exists_decreased (hl : Member env n h l d) (hnonneg : 0 ≤ d.pdmnState.nPoSePenalty)
    (hok : decreasePoSePenalties env l = .ok l') :
    ∃ d', Member env n h l' d' ∧ d'.pdmnState.nPoSeBanHeight = d.pdmnState.nPoSeBanHeight ∧
      d'.pdmnState.nPoSePenalty = if d.pdmnState.nPoSeBanHeight = -1 then
        max 0 (d.pdmnState.nPoSePenalty - 1) else d.pdmnState.nPoSePenalty := by
  unfold decreasePoSePenalties at hok
  have hnodup := (hl.indexed.nodup_forEachMN true).sublist
    ((filter_sublist (p := fun dmn : CDeterministicMN => dmn.pdmnState.nPoSePenalty > 0 &&
      dmn.pdmnState.nPoSeBanHeight == -1) (l := l.forEachMN true)).map CDeterministicMN.proTxHash)
  have hmem : h ∈ ((l.forEachMN true).filter fun dmn => dmn.pdmnState.nPoSePenalty > 0 &&
      dmn.pdmnState.nPoSeBanHeight == -1).map CDeterministicMN.proTxHash ↔
      0 < d.pdmnState.nPoSePenalty ∧ d.pdmnState.nPoSeBanHeight = -1 := by
    have hkey := hl.indexed.keyed _ _ hl.get
    simp only [List.mem_map, List.mem_filter, hl.indexed.mem_forEachMN, Bool.and_eq_true, decide_eq_true_eq,
      beq_iff_eq, isMNValid_iff]
    constructor
    · rintro ⟨dmn, ⟨⟨hget, -⟩, hcond⟩, rfl⟩
      rwa [some.inj (hget.symm.trans hl.get)] at hcond
    · intro hcond
      exact ⟨d, ⟨⟨hkey.symm ▸ hl.get, fun _ => hcond.2⟩, hcond⟩, hkey⟩
  generalize (((l.forEachMN true).filter _).map CDeterministicMN.proTxHash) = hs at hok hnodup hmem
  have hothers : ∀ {hs : List Uint256} {d l l'}, h ∉ hs → Member env n h l d →
      hs.foldlM (CDeterministicMNList.poSeDecrease env.serializeHash) l = .ok l' →
      Member env n h l' d := by
    intro hs d l l' hnot hl hfold
    refine foldlM_inv (Member env n h · d) hs l l' ?_ hl hfold
    intro x hx l l' hl hstep
    obtain ⟨dmn, -, -, hupd⟩ := poSeDecrease_eq_ok.mp hstep
    have hnew := hl.updateMN hupd
    rwa [if_neg (ne_of_mem_of_not_mem hx hnot)] at hnew
  by_cases hin : h ∈ hs
  · have hcond := hmem.mp hin
    obtain ⟨pre, post, rfl⟩ := append_of_mem hin
    have hnot := (nodup_middle.mp hnodup).notMem
    rw [mem_append, not_or] at hnot
    simp only [foldlM_append, foldlM_cons, bind_eq_ok] at hok
    obtain ⟨l₁, hpre, l₂, hself, hpost⟩ := hok
    have hl₁ := hothers hnot.1 hl hpre
    obtain ⟨dmn, hget, -, hupd⟩ := poSeDecrease_eq_ok.mp hself
    obtain rfl : dmn = d := some.inj (hget.symm.trans hl₁.get)
    have hl₂ := hl₁.updateMN hupd
    rw [if_pos rfl] at hl₂
    refine ⟨_, hothers hnot.2 hl₂ hpost, rfl, ?_⟩
    rw [if_pos hcond.2, max_eq_right (by omega)]
  · refine ⟨d, hothers hin hl hok, rfl, ?_⟩
    split_ifs with hban
    · have hzero : ¬ 0 < d.pdmnState.nPoSePenalty := fun hpos => hin (hmem.mpr ⟨hpos, hban⟩)
      omega
    · rfl

/-- The rest of the block does not touch penalties and bans. -/
theorem samePoSe_of_rest {block : CBlock} (hinj : Function.Injective env.serializeHash)
    (hidx : l.Indexed env.serializeHash) (hd : l.mnMap[h]? = some d)
    (hafter : listAfter env lists pindexPrev block.vtx.tail = .ok l)
    (hbuild : buildNewListFromBlock env lists block pindexPrev = .ok l')
    (hd' : l'.mnMap[h]? = some d') : SamePoSe d.pdmnState d'.pdmnState := by
  unfold buildNewListFromBlock at hbuild
  rw [hafter, ok_bind] at hbuild
  obtain ⟨l₁, hspend, hpay⟩ := bind_eq_ok.mp hbuild
  have hstart : ∀ d₁ : CDeterministicMN, l.mnMap[h]? = some d₁ →
      SamePoSe d.pdmnState d₁.pdmnState := by
    intro d₁ hd₁
    rw [some.inj (hd₁.symm.trans hd)]
    exact ⟨rfl, rfl⟩
  obtain ⟨hidx₁, hkept⟩ := foldlM_inv (fun l => l.Indexed env.serializeHash ∧
    ∀ d₁ : CDeterministicMN, l.mnMap[h]? = some d₁ → SamePoSe d.pdmnState d₁.pdmnState) _ _ _
    (fun prevout _ l l' hl hstep => by
      obtain ⟨tr, hrun⟩ : ∃ tr, Run (StepFrom env lists pindexPrev (.spending prevout)) l tr l' :=
        spendCollateral_run hinj hl.1 hstep
      refine ⟨indexed_of_run hrun hl.1, state_of_run hrun hl.1
        (fun _ _ hsource => nomatch hsource) ?_ hl.2⟩
      intro l e f s hemit hwrite
      cases hemit
      cases hwrite) ⟨hidx, hstart⟩ hspend
  obtain ⟨tr, hrun⟩ := payMN_run hpay
  refine state_of_run hrun hidx₁ (fun _ _ hsource => nomatch hsource) ?_ hkept d' hd'
  intro l e f s hemit hwrite hs
  cases hemit
  obtain ⟨rfl, rfl⟩ := hwrite
  exact hs

/-! ### Blocks -/

theorem failures_append (c : Chain) (txs txs' : List CTransaction) :
    failures env h c (txs ++ txs') = failures env h c txs + failures env h c txs' := by
  simp [failures]

theorem member_listAfter (hinj : Function.Injective env.serializeHash)
    (hidx : (lists pindexPrev).Indexed env.serializeHash)
    (hok : listAfter env lists pindexPrev txs = .ok l) (hd : l.mnMap[h]? = some d) :
    Member env l.getAllMNsCount h l d := by
  have hheight := pindexPrev.nHeight_nonneg
  have hheader := (keepsHeader_listAfter env lists pindexPrev txs l hok).2
  refine ⟨?_, rfl, by dsimp only at hheader; omega, hd⟩
  refine listAfter_inv (fun _ l => l.Indexed env.serializeHash)
    (fun l hl => (prepareList_run hidx hl).1) ?_ txs l hok
  intro done tx l l' _ hl hprocess
  obtain ⟨tr, hrun⟩ := processTx_run hinj hl hprocess
  exact indexed_of_run hrun hl

section

variable {c c' : Chain} {block : CBlock} {d₀ : CDeterministicMN}
  (hinj : Function.Injective env.serializeHash) (hserved : Served env c.list)
  (hd₀ : c.list.mnMap[h]? = some d₀)

include hserved hd₀

theorem exists_prepared (hok : prepareList env c.lists c.tip = .ok l) :
    ∃ d, l.mnMap[h]? = some d ∧ d.pdmnState.nPoSeBanHeight = d₀.pdmnState.nPoSeBanHeight ∧
      d.pdmnState.nPoSePenalty = if d₀.pdmnState.nPoSeBanHeight = -1 then
        max 0 (d₀.pdmnState.nPoSePenalty - 1) else d₀.pdmnState.nPoSePenalty := by
  obtain ⟨l₁, hconfirm, hdecrease⟩ := bind_eq_ok.mp hok
  obtain ⟨d₁, hl₁, hpenalty, hban⟩ := exists_confirmed hserved.wellFormed.indexed hd₀ hconfirm
  obtain ⟨d, hl, hdec⟩ := hl₁.exists_decreased
    (hpenalty ▸ hserved.penalties h d₀ hd₀) hdecrease
  rw [hpenalty, hban] at hdec
  exact ⟨d, hl.get, hdec⟩

include hinj

/-- A transaction of a block reports the masternode some times, or it has other effects. -/
theorem fares_or_untouched (hcheck : checkSpecialTx env c.lists tx c.tip = .ok ())
    (hl : Member env n h l d) (hok : processTx env c.lists c.tip l tx = .ok l')
    (hd' : l'.mnMap[h]? = some d') :
    Fares n (failures env h c [tx]) d.pdmnState d'.pdmnState ∨
      failures env h c [tx] = 0 ∧ Untouched h tx d.pdmnState d'.pdmnState := by
  have hone : failures env h c [tx] = countFailures h (reported env c.lists c.tip tx) := by
    simp [failures]
  rw [hone]
  rcases processTx_cases hl.indexed hl.get hd' hinj (fun h3 htype =>
    (checkSpecialTx_cases hcheck).notReadded hinj hserved.wellFormed (by simp [h3, htype]) hd₀) hok
    with hfold | ⟨hnil, huntouched⟩
  · obtain ⟨d'', hd'', hfares⟩ := hl.reports hfold
    rw [some.inj (hd'.symm.trans hd''.get)]
    exact .inl hfares
  · rw [hnil]
    exact .inr ⟨rfl, huntouched⟩

theorem BannedAt.between (hstart : BannedAt h q c.list)
    (hcheck : ∀ tx ∈ block.vtx, checkSpecialTx env c.lists tx c.tip = .ok ())
    (hstays : StaysBanned env h (c, block, c')) (hmax : PunishedAtMax env h (c, block, c')) :
    ∀ txs l, listAfter env c.lists c.tip txs = .ok l → txs <+: block.vtx.tail → BannedAt h q l := by
  refine listAfter_inv _ ?_ ?_
  · intro l hl _
    obtain ⟨d, hd, hbanned, rfl⟩ := hstart
    obtain ⟨d', hd', hban, hpenalty⟩ := exists_prepared hserved hd hl
    rw [isMNPoSeBanned_iff] at hbanned
    rw [if_neg hbanned] at hpenalty
    exact ⟨d', hd', isMNPoSeBanned_iff.mpr (hban ▸ hbanned), hpenalty⟩
  · intro done tx l l' hl ih hprocess hpre
    have hdone : done <+: block.vtx.tail := (prefix_append _ _).trans hpre
    obtain ⟨d, hd, hbanned, rfl⟩ := ih hdone
    have hl' : listAfter env c.lists c.tip (done ++ [tx]) = .ok l' := by
      rw [listAfter_snoc, hl]
      exact hprocess
    obtain ⟨d', hd', hbanned'⟩ := hstays.between _ _ ⟨hpre, hl'⟩
    refine ⟨d', hd', hbanned', ?_⟩
    rw [isMNPoSeBanned_iff] at hbanned hbanned'
    have hmember := member_listAfter hinj hserved.wellFormed.indexed hl hd
    have htx : tx ∈ block.vtx := mem_of_mem_tail (hpre.subset (by simp))
    rcases fares_or_untouched hinj hserved hd₀ (hcheck tx htx) hmember hprocess hd' with
      hfares | ⟨-, ⟨hsame, -⟩ | ⟨-, hrevived⟩⟩
    · exact (hfares.banned hbanned (hmax done tx l d ⟨hdone, hl⟩ hpre hd)).2
    · exact hsame
    · exact absurd hrevived hbanned'

end

/-- **A banned masternode that is punished only at the maximum keeps its penalty in a block.** -/
theorem BannedAt.block {c c' : Chain} {block : CBlock} (hinj : Function.Injective env.serializeHash)
    (hserved : Served env c.list) (hahead : c.AheadEmpty)
    (hconnect : Chain.Connect env c block c') (hstart : BannedAt h q c.list)
    (hstays : StaysBanned env h (c, block, c')) (hmax : PunishedAtMax env h (c, block, c')) :
    BannedAt h q c'.list := by
  obtain ⟨d₀, hd₀, -⟩ := id hstart
  obtain ⟨d', hd', hbanned'⟩ := hstays.after
  obtain ⟨hcheck, newList, hbuild, hlist⟩ := hconnect.built hahead hd'
  obtain ⟨l, hafter, -⟩ := bind_eq_ok.mp hbuild
  obtain ⟨d, hd, -, rfl⟩ :=
    hstart.between hinj hserved hd₀ hcheck hstays hmax _ _ hafter prefix_rfl
  have hmember := member_listAfter hinj hserved.wellFormed.indexed hafter hd
  have hnew : newList.mnMap[h]? = some d' := by
    rw [← hd', hlist]
  exact ⟨d', hd', hbanned', (samePoSe_of_rest hinj hmember.indexed hd hafter hbuild hnew).1⟩

theorem afterFailures_add (n a b : Nat) (q : Int) :
    afterFailures n (a + b) q = (afterFailures n a q).bind (afterFailures n b) := by
  induction a generalizing q with
  | zero => rw [Nat.zero_add, afterFailures, Option.bind_some]
  | succ a ih =>
    rw [Nat.succ_add, afterFailures, afterFailures]
    split_ifs
    · rfl
    · exact ih _

/-- Masternode `h` went through the transactions `txs` without a ban, and its penalty is `q`. -/
structure Unbanned (env : Env) (h : Uint256) (c : Chain) (txs : List CTransaction)
    (l : CDeterministicMNList) (q : Int) : Prop where
  state : ∃ d : CDeterministicMN, l.mnMap[h]? = some d ∧ d.pdmnState.nPoSeBanHeight = -1 ∧
    d.pdmnState.nPoSePenalty = q
  earlier : ∀ txs' l', txs' <+: txs → listAfter env c.lists c.tip txs' = .ok l' → ¬ BannedIn h l'

theorem not_bannedIn (hd : l.mnMap[h]? = some d) (hban : d.pdmnState.nPoSeBanHeight = -1) :
    ¬ BannedIn h l := by
  rintro ⟨d', hd', hbanned⟩
  rw [some.inj (hd'.symm.trans hd)] at hbanned
  exact isMNPoSeBanned_iff.mp hbanned hban

theorem Unbanned.snoc {c : Chain} (htxs : Unbanned env h c txs l q)
    (hok : listAfter env c.lists c.tip (txs ++ [tx]) = .ok l') (hd' : l'.mnMap[h]? = some d')
    (hban : d'.pdmnState.nPoSeBanHeight = -1) :
    Unbanned env h c (txs ++ [tx]) l' d'.pdmnState.nPoSePenalty := by
  refine ⟨⟨d', hd', hban, rfl⟩, fun txs₀ l₀ hpre hok₀ => ?_⟩
  rcases prefix_concat_iff.mp hpre with rfl | hearlier
  · rw [ok.inj (hok₀.symm.trans hok)]
    exact not_bannedIn hd' hban
  · exact htxs.earlier txs₀ l₀ hearlier hok₀

section

variable {c c' : Chain} {block : CBlock} {d₀ : CDeterministicMN}
  (hinj : Function.Injective env.serializeHash) (hserved : Served env c.list)
  (hd₀ : c.list.mnMap[h]? = some d₀) (hban₀ : d₀.pdmnState.nPoSeBanHeight = -1)
  (hn : Counted env h n (c, block, c'))

include hinj hserved hd₀ hban₀ hn

/--
Within a block the penalty of the masternode follows `afterFailures`, up to a ban that the failures
reach or that the owner or the operator brings about.
-/
theorem unbanned_or_banned
    (hcheck : ∀ tx ∈ block.vtx, checkSpecialTx env c.lists tx c.tip = .ok ()) :
    ∀ txs l, listAfter env c.lists c.tip txs = .ok l → txs <+: block.vtx.tail →
    (∃ q, afterBlock n d₀.pdmnState.nPoSePenalty (failures env h c txs) = some q ∧
      Unbanned env h c txs l q) ∨
    BannedWithin env h (c, block, c') ∧
      (afterBlock n d₀.pdmnState.nPoSePenalty (failures env h c txs) = none ∨
        ¬ OperatorStays h txs) := by
  refine listAfter_inv _ ?_ ?_
  · intro l hl _
    obtain ⟨d, hd, hban, hpenalty⟩ := exists_prepared hserved hd₀ hl
    rw [if_pos hban₀] at hpenalty
    refine .inl ⟨d.pdmnState.nPoSePenalty, congrArg some hpenalty.symm,
      ⟨d, hd, hban.trans hban₀, rfl⟩, fun txs l' hpre hl' => ?_⟩
    obtain rfl := prefix_nil.mp hpre
    have hprepared : prepareList env c.lists c.tip = .ok l' := by simpa [listAfter] using hl'
    rw [ok.inj (hprepared.symm.trans hl)]
    exact not_bannedIn hd (hban.trans hban₀)
  · intro done tx l l' hl ih hprocess hpre
    have hdone : done <+: block.vtx.tail := (prefix_append _ _).trans hpre
    have hl' : listAfter env c.lists c.tip (done ++ [tx]) = .ok l' := by
      rw [listAfter_snoc, hl]
      exact hprocess
    unfold afterBlock at ih ⊢
    rw [failures_append, afterFailures_add]
    rcases ih hdone with ⟨q, hq, hunbanned⟩ | ⟨hwithin, hcause⟩
    · obtain ⟨d, hd, hban, rfl⟩ := hunbanned.state
      obtain ⟨hcount, -⟩ := hn.between _ _ ⟨hdone, hl⟩
      obtain ⟨d', hd'⟩ := isSome_iff_exists.mp
        (Std.ExtTreeMap.isSome_getElem?_iff_mem.mpr (hn.between _ _ ⟨hpre, hl'⟩).2)
      have hmember := member_listAfter hinj hserved.wellFormed.indexed hl hd
      rw [hcount] at hmember
      have htx : tx ∈ block.vtx := mem_of_mem_tail (hpre.subset (by simp))
      have hwithin (hban' : d'.pdmnState.nPoSeBanHeight ≠ -1) : BannedWithin env h (c, block, c') :=
        ⟨_, _, ⟨hpre, hl'⟩, d', hd', isMNPoSeBanned_iff.mpr hban'⟩
      rw [hq, Option.bind_some]
      rcases fares_or_untouched hinj hserved hd₀ (hcheck tx htx) hmember hprocess hd' with
        hfares | ⟨hnone, ⟨hsame, hbanSame | ⟨hban', hoperator⟩⟩ | ⟨hbanned, -⟩⟩
      · cases hafter : afterFailures n (failures env h c [tx]) d.pdmnState.nPoSePenalty with
        | some q' =>
          obtain ⟨hban', rfl⟩ := hfares.survives hban q' hafter
          exact .inl ⟨_, rfl, hunbanned.snoc hl' hd' hban'⟩
        | none => exact .inr ⟨hwithin (hfares.reached hban hafter), .inl rfl⟩
      · rw [hnone, afterFailures, ← hsame]
        exact .inl ⟨_, rfl, hunbanned.snoc hl' hd' (hbanSame.trans hban)⟩
      · exact .inr ⟨hwithin hban', .inr fun hstays => hoperator fun tx htx =>
          hstays tx (mem_append_right _ htx)⟩
      · exact absurd hban hbanned
    · refine .inr ⟨hwithin, hcause.imp (fun hnone => ?_) fun hoperator hstays => ?_⟩
      · rw [hnone, Option.bind_none]
      · exact hoperator fun tx htx => hstays tx (mem_append_left _ htx)

/-- A block lowers the penalty and adds what the failures in it give, or there is a ban in it. -/
theorem unbanned_block (hahead : c.AheadEmpty) (hconnect : Chain.Connect env c block c') :
    ((∃ d : CDeterministicMN, c'.list.mnMap[h]? = some d ∧ d.pdmnState.nPoSeBanHeight = -1 ∧
        afterBlock n d₀.pdmnState.nPoSePenalty (failures env h c block.vtx.tail) =
          some d.pdmnState.nPoSePenalty) ∧ ¬ BannedWithin env h (c, block, c')) ∨
      BannedWithin env h (c, block, c') ∧
        (afterBlock n d₀.pdmnState.nPoSePenalty (failures env h c block.vtx.tail) = none ∨
          ¬ OperatorStays h block.vtx.tail) := by
  obtain ⟨d', hd'⟩ := isSome_iff_exists.mp (Std.ExtTreeMap.isSome_getElem?_iff_mem.mpr hn.after)
  obtain ⟨hcheck, newList, hbuild, hlist⟩ := hconnect.built hahead hd'
  obtain ⟨l, hafter, -⟩ := bind_eq_ok.mp hbuild
  rcases unbanned_or_banned hinj hserved hd₀ hban₀ hn hcheck _ _ hafter prefix_rfl with
    ⟨q, hq, hunbanned⟩ | hbanned
  · obtain ⟨d, hd, hban, rfl⟩ := hunbanned.state
    have hmember := member_listAfter hinj hserved.wellFormed.indexed hafter hd
    have hnew : newList.mnMap[h]? = some d' := by
      rw [← hd', hlist]
    obtain ⟨hpenalty, hban'⟩ := samePoSe_of_rest hinj hmember.indexed hd hafter hbuild hnew
    refine .inl ⟨⟨d', hd', hban'.trans hban, hpenalty ▸ hq⟩, ?_⟩
    rintro ⟨txs, l', ⟨hpre, hl'⟩, hbanned⟩
    exact hunbanned.earlier txs l' hpre hl' hbanned
  · exact .inr hbanned

end

theorem between_of_inits {p : CDeterministicMNList → Bool} {x : Chain × CBlock × Chain}
    (hall : ∀ txs ∈ x.2.1.vtx.tail.inits,
      (listAfter env x.1.lists x.1.tip txs).toOption.all p = true) {txs : List CTransaction}
    {l : CDeterministicMNList} (hl : Between env x txs l) : p l = true := by
  have htxs := hall txs ((mem_inits _ _).mpr hl.1)
  rwa [hl.2] at htxs

/-! ### Two masternodes and quorums of two -/

/-- Two masternodes with the hashes 100 and 101, and quorums of two from every fifth block. -/
noncomputable def quorumEnv : Env :=
  { sampleEnv [registerAt (sampleAddr 7) 5, registerAt (sampleAddr 8) 6] with
    nMasternodeMinimumConfirmations := 0
    llmqs := fun _ => some ⟨2, 1, 5⟩
    mapBlockIndex := fun h => if h = 45 then
      some (.next 45 (.next 44 (.next 43 (.next 42 shortChain.tip)))) else none }

/-- A commitment of a quorum, in a block of height `nHeight`, in which the second member is missing. -/
def missingTx (quorumHash : Uint256) (nHeight : Nat) : CTransaction :=
  sampleTx .quorumCommitment (.commitment
    { nVersion := 1, nHeight := nHeight, commitment :=
      { nVersion := 1, llmqType := 1, quorumHash := quorumHash, signers := [true, false],
        validMembers := [true, false], quorumPublicKey := ⟨some 1⟩, quorumVvecHash := 1,
        quorumSig := ⟨some 1⟩, membersSig := ⟨some 1⟩ } })

/-- The two masternodes are registered and confirmed, and a quorum is formed. -/
def quorumBlocks : List CBlock :=
  [⟨42, [sampleCoinbase, registerAt (sampleAddr 7) 5, registerAt (sampleAddr 8) 6]⟩,
    ⟨43, [sampleCoinbase]⟩, ⟨44, [sampleCoinbase]⟩, ⟨45, [sampleCoinbase]⟩]

/-- Masternode 100 fails twice; then come a quiet block and a third failure. -/
def missingBlocks : List CBlock :=
  [⟨46, [sampleCoinbase, missingTx 45 6]⟩, ⟨47, [sampleCoinbase, missingTx 45 7]⟩,
    ⟨48, [sampleCoinbase]⟩, ⟨49, [sampleCoinbase, missingTx 45 9]⟩]

noncomputable def quorumChain (blocks : List CBlock) : Chain :=
  (quorumBlocks ++ blocks).foldl (Chain.connect quorumEnv) shortChain

/-- Masternode 100 is given up by its operator. -/
def revokeTx : CTransaction :=
  sampleTx .providerUpdateRevoke (.proUpRev
    { nVersion := 1, proTxHash := 100, nReason := 0, inputsHash := 0, sig := ⟨some 5⟩ })

/-- The penalty and the heights of the ban and of the revival of a masternode. -/
def poSeOf (l : CDeterministicMNList) (h : Uint256) : Option (Int × Int × Int) :=
  (l.mnMap[h]?).map fun d => (d.pdmnState.nPoSePenalty, d.pdmnState.nPoSeBanHeight,
    d.pdmnState.nPoSeRevivedHeight)

theorem bannedAt_of_poSeOf {b r : Int} (hpose : poSeOf l h = some (q, b, r)) (hb : b ≠ -1) :
    BannedAt h q l := by
  obtain ⟨d, hd, hstate⟩ := Option.map_eq_some_iff.mp hpose
  obtain ⟨rfl, rfl, -⟩ := hstate
  exact ⟨d, hd, isMNPoSeBanned_iff.mpr hb, rfl⟩

theorem BannedAt.bannedIn (hl : BannedAt h q l) : BannedIn h l := by
  obtain ⟨d, hd, hbanned, -⟩ := hl
  exact ⟨d, hd, hbanned⟩

theorem exists_quorumChain_run (blocks : List CBlock)
    (haccepts : ∀ x ∈ shortChain.steps quorumEnv (quorumBlocks ++ blocks),
      x.1.accepts quorumEnv x.2.1 = true) :
    ∃ tr, Run (Chain.Connect quorumEnv) (.genesis 40) tr (quorumChain blocks) := by
  have hfirst : Chain.Connect quorumEnv (.genesis 40) ⟨41, []⟩ shortChain := .inactive (by decide)
  exact ⟨_, .cons hfirst (Chain.run_steps rfl haccepts)⟩

/-! ### Runs -/

/--
**The penalty of a banned masternode stands still**, in every run of blocks that neither revives nor
removes it, if it is punished only at times when its penalty is the maximum of the list.
-/
theorem penalty_of_banned_run (env : Env) (hinj : Function.Injective env.serializeHash)
    (htx : Function.Injective env.txHash) (blockHash : Uint256)
    (tr₀ tr : List (Chain × CBlock × Chain)) (c₀ c : Chain)
    (hrun₀ : Run (Chain.Connect env) (Chain.genesis blockHash) tr₀ c₀)
    (hrun : Run (Chain.Connect env) c₀ tr c) (h : Uint256) (penalty : Int)
    (hstart : BannedAt h penalty c₀.list)
    (hblocks : ∀ x ∈ tr, StaysBanned env h x ∧ PunishedAtMax env h x) :
    BannedAt h penalty c.list := by
  have hserved := (served_of_run hinj htx (hrun₀.append hrun)).2
  have hsteps : ∀ x ∈ tr, (Served env x.1.list ∧ x.1.AheadEmpty) ∧
      StaysBanned env h x ∧ PunishedAtMax env h x :=
    fun x hx => ⟨hserved x (mem_append_right _ hx), hblocks x hx⟩
  refine ((hrun.and_mem hsteps).invariant (fun c => BannedAt h penalty c.list) ?_ hstart).1
  rintro c block c' hc ⟨hconnect, ⟨hserved, hahead⟩, hstays, hmax⟩
  exact hc.block hinj hserved hahead hconnect hstays hmax

/-- Banned by two failures, masternode 100 keeps the maximum through another one. -/
theorem penalty_of_banned_run_missing :
    ((quorumChain (missingBlocks.take 2)).steps quorumEnv (missingBlocks.drop 2)).map
        (fun x => failures quorumEnv 100 x.1 x.2.1.vtx.tail) = [0, 1] ∧
      BannedAt 100 100 ((missingBlocks.drop 2).foldl (Chain.connect quorumEnv)
        (quorumChain (missingBlocks.take 2))).list := by
  obtain ⟨tr₀, hrun₀⟩ := exists_quorumChain_run (missingBlocks.take 2) (by decide +kernel)
  have hall : ∀ x ∈ (quorumChain (missingBlocks.take 2)).steps quorumEnv (missingBlocks.drop 2),
      (∀ txs ∈ x.2.1.vtx.tail.inits, (listAfter quorumEnv x.1.lists x.1.tip txs).toOption.all
        (fun l => poSeOf l 100 == some (100, 7, -1) && l.calcMaxPoSePenalty == 100) = true) ∧
      poSeOf x.2.2.list 100 = some (100, 7, -1) := by
    decide +kernel
  refine ⟨by decide +kernel, penalty_of_banned_run quorumEnv pairingHash_injective
    (numberedTxHash_injective _) 40 tr₀ _ _ _ hrun₀ (Chain.run_steps rfl (by decide +kernel)) 100 100
    (bannedAt_of_poSeOf (b := 7) (r := -1) (by decide +kernel) (by decide)) fun x hx => ?_⟩
  obtain ⟨hinits, hafter⟩ := hall x hx
  have hbetween {txs l} (hl : Between quorumEnv x txs l) :
      poSeOf l 100 = some (100, 7, -1) ∧ l.calcMaxPoSePenalty = 100 := by
    simpa using between_of_inits hinits hl
  refine ⟨⟨fun txs l hl => ?_, ?_⟩, fun txs tx l d hl _ hd _ => ?_⟩
  · exact (bannedAt_of_poSeOf (hbetween hl).1 (by decide)).bannedIn
  · exact (bannedAt_of_poSeOf hafter (by decide)).bannedIn
  · obtain ⟨hpose, hmax⟩ := hbetween hl
    rw [poSeOf, hd, Option.map_some, some.injEq, Prod.mk.injEq] at hpose
    exact hpose.1.trans hmax.symm

/-- A commitment of a quorum from before the ban raises the penalty of the banned masternode. -/
theorem penalty_of_banned_raised :
    (∃ tr, Run (Chain.Connect quorumEnv) (.genesis 40) tr (quorumChain [⟨46, [sampleCoinbase, revokeTx]⟩])) ∧
      Chain.Connect quorumEnv (quorumChain [⟨46, [sampleCoinbase, revokeTx]⟩])
        ⟨47, [sampleCoinbase, missingTx 45 7]⟩
        (quorumChain [⟨46, [sampleCoinbase, revokeTx]⟩, ⟨47, [sampleCoinbase, missingTx 45 7]⟩]) ∧
      poSeOf (quorumChain [⟨46, [sampleCoinbase, revokeTx]⟩]).list 100 = some (0, 6, -1) ∧
      poSeOf (quorumChain [⟨46, [sampleCoinbase, revokeTx]⟩,
        ⟨47, [sampleCoinbase, missingTx 45 7]⟩]).list 100 = some (66, 6, -1) :=
  ⟨exists_quorumChain_run _ (by decide +kernel), Chain.connect_of_accepts rfl (by decide +kernel),
    by decide +kernel, by decide +kernel⟩

/--
Along a run the penalty follows `afterBlock`, up to a ban that failures reach or that the owner or
the operator brings about.
-/
theorem unbanned_run {c₀ c : Chain} {tr : List (Chain × CBlock × Chain)}
    (hinj : Function.Injective env.serializeHash) (hrun : Run (Chain.Connect env) c₀ tr c)
    (hserved : ∀ x ∈ tr, Served env x.1.list ∧ x.1.AheadEmpty)
    (hn : ∀ x ∈ tr, Counted env h n x) (hd : c₀.list.mnMap[h]? = some d)
    (hban : d.pdmnState.nPoSeBanHeight = -1) :
    ((∃ q, (tr.map fun x => failures env h x.1 x.2.1.vtx.tail).foldlM (afterBlock n)
        d.pdmnState.nPoSePenalty = some q) ∧ ∀ x ∈ tr, ¬ BannedWithin env h x) ∨
      (∃ x ∈ tr, BannedWithin env h x) ∧
        ((tr.map fun x => failures env h x.1 x.2.1.vtx.tail).foldlM (afterBlock n)
          d.pdmnState.nPoSePenalty = none ∨ ∃ x ∈ tr, ¬ OperatorStays h x.2.1.vtx.tail) := by
  induction hrun generalizing d with
  | nil c => exact .inl ⟨⟨_, rfl⟩, by simp⟩
  | cons hconnect _ ih =>
    simp only [forall_mem_cons] at hserved hn
    simp only [List.map_cons, foldlM_cons, forall_mem_cons, exists_mem_cons_iff]
    rcases unbanned_block hinj hserved.1.1 hd hban hn.1 hserved.1.2 hconnect with
      ⟨⟨d', hd', hban', hafter⟩, hnot⟩ | ⟨hwithin, hcause⟩
    · rw [hafter, Option.bind_eq_bind, Option.bind_some]
      rcases ih hserved.2 hn.2 hd' hban' with ⟨hfold, hnone⟩ | ⟨hsome, hcause⟩
      · exact .inl ⟨hfold, hnot, hnone⟩
      · exact .inr ⟨.inr hsome, hcause.imp_right .inr⟩
    · refine .inr ⟨.inl hwithin, hcause.imp (fun hnone => ?_) .inl⟩
      rw [hnone, Option.bind_eq_bind, Option.bind_none]

/-! ### Three failures -/

theorem afterFailures_eq_some {q' : Int} : afterFailures n k q = some q' ↔
    q' = q + k * failurePenalty n ∧ (k ≠ 0 → q' < max 100 (n : Int)) := by
  have hpos := failurePenalty_nonneg n
  induction k generalizing q with
  | zero => simp [afterFailures, eq_comm]
  | succ k ih =>
    have hk : (0 : Int) ≤ k * failurePenalty n := mul_nonneg (by omega) hpos
    have hsucc : ((k + 1 : Nat) : Int) * failurePenalty n = failurePenalty n + k * failurePenalty n := by
      push_cast
      ring
    rw [afterFailures, hsucc]
    split_ifs with hreached
    · simp only [false_iff]
      omega
    · refine ih.trans ?_
      rcases Nat.eq_zero_or_pos k with rfl | hk0
      · simp only [Nat.cast_zero, zero_mul] at hk ⊢
        omega
      · have hne : k ≠ 0 := by omega
        simp only [hne, ne_eq, not_false_eq_true, Nat.succ_ne_zero, true_imp_iff, add_assoc]

theorem afterBlock_eq_some {q' : Int} : afterBlock n q k = some q' ↔
    q' = max 0 (q - 1) + k * failurePenalty n ∧ (k ≠ 0 → q' < max 100 (n : Int)) :=
  afterFailures_eq_some

/-- Any blocks lower a penalty by at most one each, and quiet blocks lower it so. -/
theorem foldlM_afterBlock {ks : List Nat} (hq : 0 ≤ q) :
    (∀ q', ks.foldlM (afterBlock n) q = some q' → max 0 (q - ks.length) ≤ q') ∧
      ((∀ k ∈ ks, k = 0) → ks.foldlM (afterBlock n) q = some (max 0 (q - ks.length))) := by
  induction ks generalizing q with
  | nil =>
    simp only [foldlM_nil, length_nil, Nat.cast_zero, sub_zero, max_eq_right hq]
    exact ⟨fun q' hq' => (some.inj hq').le, fun _ => rfl⟩
  | cons k ks ih =>
    simp only [foldlM_cons, Option.bind_eq_bind, Option.bind_eq_some_iff, length_cons,
      Nat.cast_add, Nat.cast_one, forall_mem_cons]
    have hpos : 0 ≤ k * failurePenalty n := mul_nonneg (by omega) (failurePenalty_nonneg n)
    constructor
    · rintro q' ⟨q₁, hfirst, hrest⟩
      obtain ⟨rfl, -⟩ := afterBlock_eq_some.mp hfirst
      have hle := (ih (by omega)).1 q' hrest
      omega
    · rintro ⟨rfl, hzero⟩
      refine ⟨_, rfl, ?_⟩
      rw [(ih (le_max_left _ _)).2 hzero, some.injEq]
      omega

variable {k₁ k₂ k₃ : Nat} {ks₁ ks₂ : List Nat}

theorem not_reachesMax {q' : Int} (h₁ : k₁ ≠ 0) (h₂ : k₂ ≠ 0) (h₃ : k₃ ≠ 0)
    (hsome : (k₁ :: ks₁ ++ k₂ :: ks₂ ++ [k₃]).foldlM (afterBlock n) q = some q') :
    ¬ ReachesMax n q (ks₁.length + 1) (ks₂.length + 1) := by
  have hpos := failurePenalty_nonneg n
  have hle {k : Nat} (hk : k ≠ 0) : failurePenalty n ≤ k * failurePenalty n :=
    le_mul_of_one_le_left hpos (by omega)
  have hdecay {a p p' : Int} {m : Nat} (ha : a ≤ p) (hp : max 0 (p - m) ≤ p') :
      max 0 (a - (m + 1)) ≤ max 0 (p' - 1) := by omega
  have hnonneg {a p : Int} (hp : max 0 a + failurePenalty n ≤ p) : 0 ≤ p := by omega
  simp only [cons_append, append_assoc, foldlM_cons, foldlM_append, foldlM_nil, Option.bind_eq_bind,
    Option.bind_eq_some_iff, Option.pure_def, afterBlock_eq_some] at hsome
  obtain ⟨p₁, ⟨hp₁, hlt₁⟩, p₂, hmid₁, p₃, ⟨hp₃, hlt₃⟩, p₄, hmid₂, p₅, ⟨hp₅, hlt₅⟩, -⟩ := hsome
  have hq₁ := add_le_add (le_refl (max 0 (q - 1))) (hle h₁)
  rw [← hp₁] at hq₁
  have hq₂ := add_le_add (hdecay hq₁ ((foldlM_afterBlock (hnonneg hq₁)).1 _ hmid₁)) (hle h₂)
  rw [← hp₃] at hq₂
  have hq₃ := add_le_add (hdecay hq₂ ((foldlM_afterBlock (hnonneg hq₂)).1 _ hmid₂)) (hle h₃)
  rw [← hp₅] at hq₃
  simp only [ReachesMax, Nat.cast_add, Nat.cast_one, not_le]
  exact max_lt (hq₁.trans_lt (hlt₁ h₁)) (max_lt (hq₂.trans_lt (hlt₃ h₂)) (hq₃.trans_lt (hlt₅ h₃)))

theorem reachesMax_of_none (hzero : ∀ k ∈ ks₁ ++ ks₂, k = 0)
    (hnone : (1 :: ks₁ ++ 1 :: ks₂ ++ [1]).foldlM (afterBlock n) q = none) :
    ReachesMax n q (ks₁.length + 1) (ks₂.length + 1) := by
  have hpos := failurePenalty_nonneg n
  by_contra hnot
  simp only [ReachesMax, Nat.cast_add, Nat.cast_one, not_le, max_lt_iff] at hnot
  rw [forall_mem_append] at hzero
  have hstep {p p' : Int} (hp' : p' = max 0 (p - 1) + failurePenalty n)
      (hlt : p' < max 100 (n : Int)) : afterBlock n p 1 = some p' :=
    afterBlock_eq_some.mpr ⟨by rw [hp', Nat.cast_one, one_mul], fun _ => hlt⟩
  simp only [cons_append, append_assoc, foldlM_cons, foldlM_append, foldlM_nil,
    Option.bind_eq_bind] at hnone
  rw [hstep rfl (by omega), Option.bind_some, (foldlM_afterBlock (by omega)).2 hzero.1,
    Option.bind_some, hstep rfl (by omega), Option.bind_some,
    (foldlM_afterBlock (by omega)).2 hzero.2, Option.bind_some, hstep rfl (by omega)] at hnone
  cases hnone

/-- Quorums of two from the list of the first block. -/
noncomputable def apartEnv : Env :=
  { sampleEnv [] with
    nMasternodeMinimumConfirmations := 0
    llmqs := fun _ => some ⟨2, 1, 200⟩
    mapBlockIndex := fun h => if h = 40 then some (.genesis 40) else none }

def confirmedMN (i : Nat) : CDeterministicMN :=
  { registeredMN i i with pdmnState :=
    { (registeredMN i i).pdmnState with confirmedHash := 1, confirmedHashWithProRegTxHash := i } }

/-- A chain with 99 confirmed masternodes. -/
def apartChain : Chain where
  tip := shortChain.tip
  lists := fun _ => ((List.range 99).foldlM (fun l i => addMN pairingHash l (confirmedMN i))
    { nTotalRegisteredCount := 99 }).toOption.getD {}

/-- A hundred blocks, with failures of masternode 97 in the first, the last and the one numbered 50. -/
def apartBlocks : List CBlock :=
  (List.range 100).map fun i =>
    ⟨42 + i, sampleCoinbase :: if i ∈ [0, 50, 99] then [missingTx 40 (i + 2)] else []⟩

end Absolute
