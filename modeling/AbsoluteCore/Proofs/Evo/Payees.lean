/-
`GetMNPayee` is fair.

Every block is one round of the queue of the payees: a masternode keeps its key, unless the
block pays, registers or revives it, and then its key has the height of the block, which is
above all that were there.  What is proved of such queues in general is then read off.
-/
import AbsoluteCore.Spec.Payees
import AbsoluteCore.Proofs.Evo.Replay

namespace Absolute

open Fallible Lts CDeterministicMNList LeastFirst List Function Option Except Prod
  CDeterministicMNState CDeterministicMN Std.ExtTreeMap CTransaction ListEvent Chain

variable {env : Env} {lists : CBlockIndex → CDeterministicMNList} {pindexPrev : CBlockIndex}
  {tx : CTransaction} {l l' old : CDeterministicMNList} {nHeight : Int} {e : ListEvent}
  {b a p d' d : CDeterministicMN} {h o blockHash : Uint256} {s : CDeterministicMNState}
  {f : CDeterministicMNState → CDeterministicMNState} {source : EventSource} {block : CBlock}
  {c c' : Chain} {tr : List (Chain × CBlock × Chain)}

/-! ### The order of the payees -/

theorem compareByLastPaid_iff : compareByLastPaid a b = true ↔ payKey a < payKey b := by
  unfold compareByLastPaid payKey
  rw [Prod.Lex.toLex_lt_toLex]
  dsimp only
  split
  · next heq => simp [heq]
  · next hne => simp [hne]

theorem payQueue_eq_some {k : Int ×ₗ Nat} : payQueue l h = some k ↔
      ∃ dmn : CDeterministicMN, l.mnMap[h]? = some dmn ∧ isMNValid dmn = true ∧ payKey dmn = k := by
  unfold payQueue
  simp only [map_eq_some_iff, filter_eq_some_iff, and_assoc]

theorem payQueue_ne_none : payQueue l h ≠ none ↔ HasValidMN l h := by
  rw [ne_none_iff_exists']
  simp only [payQueue_eq_some]
  constructor
  · rintro ⟨k, dmn, hget, hvalid, -⟩
    exact ⟨dmn, hget, hvalid⟩
  · rintro ⟨dmn, hget, hvalid⟩
    exact ⟨_, dmn, hget, hvalid, rfl⟩

/-- The loop of `GetMNPayee` looks for the least key. -/
theorem getMNPayee_eq_argmin (l : CDeterministicMNList) :
    l.getMNPayee = (l.forEachMN true).argmin payKey := by
  have hbody : ∀ best dmn, betterPayee best dmn =
      argAux (fun b c : CDeterministicMN => payKey b < payKey c) best dmn := by
    intro best dmn
    cases best with
    | none => rfl
    | some b => simp only [betterPayee, argAux, compareByLastPaid_iff]
  have hloop : (l.forEachMN true).foldl betterPayee none = (l.forEachMN true).argmin payKey := by
    congr 1
    funext best dmn
    exact hbody best dmn
  unfold getMNPayee
  split
  · next hsize =>
      have hnil : l.forEachMN true = [] := by
        rw [← Std.ExtTreeMap.length_toList, length_eq_zero_iff] at hsize
        simp [forEachMN, hsize]
      rw [hnil]
      rfl
  · exact hloop

theorem getMNPayee_ne_none (hidx : l.Indexed env.serializeHash)
    (hm : HasValidMN l h) : l.getMNPayee ≠ none := by
  rw [getMNPayee_eq_argmin]
  intro hnone
  rw [argmin_eq_none] at hnone
  obtain ⟨dmn, hget, hvalid⟩ := hm
  have hmem : dmn ∈ l.forEachMN true :=
    hidx.mem_forEachMN.mpr ⟨by rw [hidx.keyed h dmn hget]; exact hget, fun _ => hvalid⟩
  rw [hnone] at hmem
  simp at hmem

/-- The chosen masternode is the first of the queue. -/
theorem least_getMNPayee (hidx : l.Indexed env.serializeHash) (hp : l.getMNPayee = some p) :
    Least (payQueue l) p.proTxHash ∧ l.mnMap[p.proTxHash]? = some p ∧ isMNValid p = true := by
  rw [getMNPayee_eq_argmin] at hp
  obtain ⟨hget, hvalid⟩ := hidx.mem_forEachMN.mp (argmin_mem hp)
  refine ⟨⟨payQueue_ne_none.mpr ⟨p, hget, hvalid rfl⟩, ?_⟩, hget, hvalid rfl⟩
  intro j hj hne
  obtain ⟨d, hd, hdvalid⟩ := payQueue_ne_none.mp hj
  refine ⟨payKey p, payKey d, payQueue_eq_some.mpr ⟨p, hget, hvalid rfl, rfl⟩,
    payQueue_eq_some.mpr ⟨d, hd, hdvalid, rfl⟩, ?_⟩
  have hhash := hidx.keyed j d hd
  have hmem : d ∈ l.forEachMN true :=
    hidx.mem_forEachMN.mpr ⟨by rw [hhash]; exact hd, fun _ => hdvalid⟩
  refine lt_of_le_of_ne (le_of_mem_argmin hmem hp) fun heq => hne ?_
  -- equal keys have equal hashes
  have hsame : p.proTxHash = d.proTxHash := congrArg (fun k => (ofLex k).2) heq
  rw [hsame]
  exact hhash.symm

/-! ### Heights -/

/--
From one state of a masternode to a later one of the same block, before the payment: it
became valid only if it was revived, at the height of the block.
-/
def HeightsMove (nHeight : Int) (s s' : CDeterministicMNState) : Prop :=
  s'.nRegisteredHeight = s.nRegisteredHeight ∧ s'.nLastPaidHeight = s.nLastPaidHeight ∧
    ((s'.nPoSeRevivedHeight = s.nPoSeRevivedHeight ∧
      (s'.nPoSeBanHeight = -1 → s.nPoSeBanHeight = -1)) ∨ s'.nPoSeRevivedHeight = nHeight)

theorem HeightsMove.refl (s) : HeightsMove nHeight s s :=
  ⟨rfl, rfl, .inl ⟨rfl, id⟩⟩

theorem HeightsMove.trans {s' s'' : CDeterministicMNState} (h : HeightsMove nHeight s s')
    (h' : HeightsMove nHeight s' s'') : HeightsMove nHeight s s'' := by
  obtain ⟨hreg, hpaid, hrev⟩ := h
  obtain ⟨hreg', hpaid', hrev'⟩ := h'
  refine ⟨hreg'.trans hreg, hpaid'.trans hpaid, ?_⟩
  rcases hrev' with ⟨hsame, hban⟩ | hnew
  · rcases hrev with ⟨hsame', hban'⟩ | hnew
    · exact .inl ⟨hsame.trans hsame', fun hvalid => hban' (hban hvalid)⟩
    · exact .inr (hsame.trans hnew)
  · exact .inr hnew

def SameHeights (s s' : CDeterministicMNState) : Prop :=
  s'.nRegisteredHeight = s.nRegisteredHeight ∧ s'.nLastPaidHeight = s.nLastPaidHeight ∧
    s'.nPoSeRevivedHeight = s.nPoSeRevivedHeight

/-- An event before the payment writes no height but that of a revival. -/
theorem write_sameHeights (hwrite : e.write env nHeight l = some (o, f)) (hpay : ∀ h, e ≠ .pay h)
    (s) (hrevive : ∀ p, e = .updateService p → ¬Revives s) :
    SameHeights s (f s) ∧ (s.nPoSeBanHeight ≠ -1 → (f s).nPoSeBanHeight = s.nPoSeBanHeight) := by
  cases e with
  | updateService p =>
    simp only [write, some.injEq, Prod.mk.injEq] at hwrite
    obtain ⟨-, rfl⟩ := hwrite
    obtain ⟨-, hban, hsame⟩ := updServState_of_not_revives nHeight p (hrevive p rfl)
    exact ⟨⟨by simp, by simp, hsame⟩, fun _ => hban⟩
  | pay h => exact absurd rfl (hpay h)
  | _ =>
    simp only [write, some.injEq, Prod.mk.injEq, reduceCtorEq] at hwrite <;>
      obtain ⟨-, rfl⟩ := hwrite <;>
      refine ⟨⟨by simp [updateConfirmedHash],
        by simp [updateConfirmedHash],
        by simp [updateConfirmedHash]⟩, fun hbanned => ?_⟩ <;>
      simp [updateConfirmedHash, updRegState_nPoSeBanHeight,
        updRevState_nPoSeBanHeight, punishedState_nPoSeBanHeight, hbanned]

theorem heightsMove_write (hwrite : e.write env nHeight l = some (o, f)) (hpay : ∀ h, e ≠ .pay h)
    (s) : HeightsMove nHeight s (f s) := by
  by_cases hrevive : ∃ p, e = .updateService p ∧ Revives s
  · obtain ⟨p, rfl, hrev⟩ := hrevive
    simp only [write, some.injEq, Prod.mk.injEq] at hwrite
    obtain ⟨-, rfl⟩ := hwrite
    exact ⟨by simp, by simp, .inr (updServState_of_revives nHeight p hrev).2.2⟩
  · obtain ⟨⟨hreg, hpaid, hsame⟩, hban⟩ := write_sameHeights hwrite hpay s
      fun p heq hrev => hrevive ⟨p, heq, hrev⟩
    refine ⟨hreg, hpaid, .inl ⟨hsame, fun hvalid => ?_⟩⟩
    by_contra hbanned
    exact hbanned ((hban hbanned).symm.trans hvalid)

theorem Emitted.ne_pay (h : Emitted env pindexPrev old source l e) (hsource : source ≠ .payment) :
    ∀ o, e ≠ .pay o := by
  rintro o rfl
  cases h with
  | pay _ => exact hsource rfl

/-- Before the payment, a masternode has the heights of the old list, or the block registers it. -/
inductive Early (old : CDeterministicMNList) (nHeight : Int) (h : Uint256)
    (s : CDeterministicMNState) : Prop
  | moved (d : CDeterministicMN) (hd : old.mnMap[h]? = some d)
      (hmove : HeightsMove nHeight d.pdmnState s)
  | registered (hreg : s.nRegisteredHeight = nHeight) (hpaid : s.nLastPaidHeight = 0)
      (hrev : s.nPoSeRevivedHeight = -1 ∨ s.nPoSeRevivedHeight = nHeight)

def EarlyHeights (old : CDeterministicMNList) (nHeight : Int) (l : CDeterministicMNList) : Prop :=
  ∀ (h : Uint256) (d' : CDeterministicMN), l.mnMap[h]? = some d' → Early old nHeight h d'.pdmnState

theorem EarlyHeights.step {txs : List CTransaction} {x : EventSource × ListEvent}
    (hl : EarlyHeights (lists pindexPrev) (pindexPrev.nHeight + 1) l)
    (hidx : l.Indexed env.serializeHash) (hstep : EarlyStep env lists pindexPrev txs l x l') :
    EarlyHeights (lists pindexPrev) (pindexPrev.nHeight + 1) l' := by
  have hpay := hstep.2.2.1.ne_pay hstep.1
  have hlist := hstep.2.2.2
  intro h d' hd'
  cases hd : l.mnMap[h]? with
  | none =>
    obtain ⟨tx, p, id, -, -, rfl⟩ := hlist.newcomer hidx hd hd'
    exact .registered rfl rfl (.inl rfl)
  | some d =>
    have hmove : HeightsMove (pindexPrev.nHeight + 1) d.pdmnState d'.pdmnState := by
      rcases hlist.survivor hidx hd hd' with rfl | ⟨f, hwrite, rfl⟩
      · exact HeightsMove.refl _
      · exact heightsMove_write hwrite hpay d.pdmnState
    rcases hl h d hd with ⟨d₀, hd₀, hmove₀⟩ | ⟨hreg, hpaid, hrev⟩
    · exact .moved d₀ hd₀ (hmove₀.trans hmove)
    · refine .registered (hmove.1.trans hreg) (hmove.2.1.trans hpaid) ?_
      rcases hmove.2.2 with ⟨hsame, -⟩ | hnew
      · rw [hsame]
        exact hrev
      · exact .inr hnew

/-- The payment writes the height of the block to its payee. -/
theorem members_payMN (hidx : l.Indexed env.serializeHash) {payee : Option CDeterministicMN}
    (hok : payMN env nHeight payee l = .ok l')
    (hd' : l'.mnMap[h]? = some d') : ∃ d : CDeterministicMN, l.mnMap[h]? = some d ∧
      d'.pdmnState = { d.pdmnState with
        nLastPaidHeight := (if payee.map proTxHash = some h then nHeight
          else d.pdmnState.nLastPaidHeight) } := by
  cases payee with
  | none =>
    obtain rfl := ok.inj hok
    exact ⟨d', hd', by simp⟩
  | some p =>
    unfold payMN at hok
    dsimp only [getMN] at hok
    split at hok
    · next hnone =>
        obtain rfl := ok.inj hok
        refine ⟨d', hd', ?_⟩
        have hne : p.proTxHash ≠ h := by
          rintro rfl
          rw [hnone] at hd'
          simp at hd'
        simp [hne]
    · next dmn hget =>
        obtain ⟨d, hd, -, hl'⟩ := hidx.updateMN_inv hok
        rw [hget, some.injEq] at hd
        subst hd
        rw [hl'.mnMap] at hd'
        rcases MapTotal.insert_eq_some.mp hd' with ⟨rfl, rfl⟩ | ⟨hne, hd'⟩
        · exact ⟨dmn, hget, by simp⟩
        · exact ⟨d', hd', by simp [Ne.symm hne]⟩

/-- What a block makes of the heights of a masternode. -/
def BlockHeights (old : CDeterministicMNList) (nHeight : Int) (paid : Prop) [Decidable paid]
    (h : Uint256) (s' : CDeterministicMNState) : Prop :=
  ∃ s, Early old nHeight h s ∧
    s' = { s with nLastPaidHeight := if paid then nHeight else s.nLastPaidHeight }

theorem block_heights (hinj : Injective env.serializeHash)
    (hidx : (lists pindexPrev).Indexed env.serializeHash)
    (hok : buildNewListFromBlock env lists block pindexPrev = .ok l')
    (hd' : l'.mnMap[h]? = some d') : BlockHeights (lists pindexPrev) (pindexPrev.nHeight + 1)
      ((lists pindexPrev).getMNPayee.map proTxHash = some h) h d'.pdmnState := by
  obtain ⟨l, tr, hrun, hidx', hpay⟩ := buildNewListFromBlock_run hinj hidx hok
  have hstart : (blockStart lists pindexPrev).Indexed env.serializeHash := hidx.of_maps rfl rfl
  have hearly : EarlyHeights (lists pindexPrev) (pindexPrev.nHeight + 1) l := by
    have hinv := hrun.invariant
      (fun l => l.Indexed env.serializeHash ∧
        EarlyHeights (lists pindexPrev) (pindexPrev.nHeight + 1) l)
      (fun _ _ _ hl hs => ⟨hs.2.2.2.indexed hl.1, hl.2.step hl.1 hs⟩)
      ⟨hstart, fun h d hd => .moved d hd (.refl _)⟩
    exact hinv.1.2
  obtain ⟨d, hd, hstate⟩ := members_payMN hidx' hpay hd'
  exact ⟨d.pdmnState, hearly h d hd, hstate⟩

/-! ### Keys -/

/-- No height of a masternode is above the given one. -/
def Aged (nHeight : Int) (l : CDeterministicMNList) : Prop :=
  ∀ (h : Uint256) (d : CDeterministicMN), l.mnMap[h]? = some d →
    d.pdmnState.nRegisteredHeight ≤ nHeight ∧ d.pdmnState.nLastPaidHeight ≤ nHeight ∧
      d.pdmnState.nPoSeRevivedHeight ≤ nHeight

theorem Aged.getHeight_le (hl : Aged nHeight l)
    (hd : l.mnMap[h]? = some d) : compareByLastPaidGetHeight d ≤ nHeight := by
  obtain ⟨hreg, hpaid, hrev⟩ := hl h d hd
  unfold compareByLastPaidGetHeight
  dsimp only
  split_ifs <;> assumption

theorem SameHeights.getHeight_eq (h : SameHeights d.pdmnState d'.pdmnState) :
    compareByLastPaidGetHeight d' = compareByLastPaidGetHeight d := by
  unfold compareByLastPaidGetHeight
  dsimp only
  rw [h.1, h.2.1, h.2.2]

theorem getHeight_of_moved (hpos : 0 < nHeight) (hpaid : d.pdmnState.nLastPaidHeight ≤ nHeight)
    (hrev : d.pdmnState.nPoSeRevivedHeight ≤ nHeight)
    (hnow : d.pdmnState.nLastPaidHeight = nHeight ∨ d.pdmnState.nPoSeRevivedHeight = nHeight) :
    compareByLastPaidGetHeight d = nHeight := by
  unfold compareByLastPaidGetHeight
  dsimp only
  split_ifs <;> omega

section Block

variable {old : CDeterministicMNList} {paid : Prop} [Decidable paid] {h : Uint256}
  {d' : CDeterministicMN}

section

variable (hb : BlockHeights old (nHeight + 1) paid h d'.pdmnState) (hold : Aged nHeight old)
  (hpos : 0 ≤ nHeight)

include hb hold hpos

theorem BlockHeights.aged :
    d'.pdmnState.nRegisteredHeight ≤ nHeight + 1 ∧ d'.pdmnState.nLastPaidHeight ≤ nHeight + 1 ∧
      d'.pdmnState.nPoSeRevivedHeight ≤ nHeight + 1 := by
  obtain ⟨s, hearly, hs⟩ := hb
  have hle : s.nRegisteredHeight ≤ nHeight + 1 ∧ s.nLastPaidHeight ≤ nHeight + 1 ∧
      s.nPoSeRevivedHeight ≤ nHeight + 1 := by
    cases hearly with
    | moved d hd hmove =>
      obtain ⟨hreg, hpaid, hrev⟩ := hmove
      have hold := hold h d hd
      omega
    | registered hreg hpaid hrev => omega
  rw [hs]
  dsimp only
  split <;> omega

/--
**After a block a valid masternode has its old key**, or one of the height of the block: then
it was paid, registered or revived.
-/
theorem BlockHeights.getHeight (hvalid : isMNValid d' = true) :
    (¬ paid ∧ ∃ d : CDeterministicMN, old.mnMap[h]? = some d ∧ isMNValid d = true ∧
      compareByLastPaidGetHeight d' = compareByLastPaidGetHeight d) ∨
    compareByLastPaidGetHeight d' = nHeight + 1 := by
  obtain ⟨-, hpaidLe, hrevLe⟩ := hb.aged hold hpos
  obtain ⟨s, hearly, hs⟩ := hb
  by_cases hpay : paid
  · rw [if_pos hpay] at hs
    exact .inr (getHeight_of_moved (by omega) hpaidLe hrevLe (.inl (by rw [hs])))
  · rw [if_neg hpay] at hs
    obtain rfl : d'.pdmnState = s := hs
    cases hearly with
    | moved d hd hmove =>
      obtain ⟨hreg, hpaid, ⟨hsame, hban⟩ | hnew⟩ := hmove
      · refine .inl ⟨hpay, d, hd, ?_, SameHeights.getHeight_eq ⟨hreg, hpaid, hsame⟩⟩
        exact isMNValid_iff.mpr (hban (isMNValid_iff.mp hvalid))
      · exact .inr (getHeight_of_moved (by omega) hpaidLe hrevLe (.inr hnew))
    | registered hreg hpaid hrev =>
      refine .inr ?_
      rcases hrev with hnone | hnew
      · unfold compareByLastPaidGetHeight
        simp [hnone, hpaid, hreg]
      · exact getHeight_of_moved (by omega) hpaidLe hrevLe (.inr hnew)

end

end Block

/-! ### A block is a round -/

/-- A key of the next height is above the whole queue. -/
theorem Aged.above (hl : Aged nHeight l)
    (hd : compareByLastPaidGetHeight d = nHeight + 1) : Above (payQueue l) (payKey d) := by
  intro j k hj
  obtain ⟨d', hd', -, rfl⟩ := payQueue_eq_some.mp hj
  have hle := hl.getHeight_le hd'
  exact Prod.Lex.toLex_lt_toLex.mpr (.inl (by dsimp only; omega))

theorem payKey_congr (hhash : a.proTxHash = b.proTxHash)
    (hheight : compareByLastPaidGetHeight a = compareByLastPaidGetHeight b) :
    payKey a = payKey b := by
  unfold payKey
  rw [hhash, hheight]

/-- The entries of one masternode in two lists that are steady. -/
theorem Steady.entry (h : Steady l l') (hd : l.mnMap[o]? = some d) :
    ∃ d' : CDeterministicMN, l'.mnMap[o]? = some d' ∧ standing d' = standing d := by
  have heq := h o
  rw [hd, map_some, map_eq_some_iff] at heq
  exact heq

section

variable (hinj : Injective env.serializeHash) (htx : Injective env.txHash)
  (hwf : WellFormed env (lists pindexPrev)) (haged : Aged pindexPrev.nHeight (lists pindexPrev))
  {block : CBlock} (hok : buildNewListFromBlock env lists block pindexPrev = .ok l')
  {p : CDeterministicMN}

include hinj htx hwf haged hok

theorem round_of_block (hp : (lists pindexPrev).getMNPayee = some p) :
    Round (payQueue (lists pindexPrev)) p.proTxHash (payQueue l') := by
  have hidx' := (wellFormed_buildNewListFromBlock hinj htx hwf hok).indexed
  refine ⟨(least_getMNPayee hwf.indexed hp).1, fun i k hi => ?_⟩
  obtain ⟨d', hd', hvalid, rfl⟩ := payQueue_eq_some.mp hi
  rcases (block_heights hinj hwf.indexed hok hd').getHeight haged pindexPrev.nHeight_nonneg hvalid
    with ⟨hunpaid, d, hd, hdvalid, hheight⟩ | hnew
  · refine .inl ⟨fun heq => hunpaid (by rw [hp, heq]; rfl), payQueue_eq_some.mpr ?_⟩
    have hhash : d.proTxHash = d'.proTxHash :=
      (hwf.indexed.keyed i d hd).trans (hidx'.keyed i d' hd').symm
    exact ⟨d, hd, hdvalid, payKey_congr hhash hheight.symm⟩
  · exact .inr (haged.above hnew)

omit htx in
/-- In a steady block the key changes only by payment. -/
theorem steady_getHeight {o : Uint256} {d d' : CDeterministicMN}
    (hd : (lists pindexPrev).mnMap[o]? = some d) (hd' : l'.mnMap[o]? = some d')
    (hstanding : standing d' = standing d) :
    compareByLastPaidGetHeight d' =
      if (lists pindexPrev).getMNPayee.map proTxHash = some o
      then pindexPrev.nHeight + 1 else compareByLastPaidGetHeight d := by
  simp only [standing, Prod.mk.injEq] at hstanding
  obtain ⟨-, hreg, hrev⟩ := hstanding
  obtain ⟨hregLe, -, hrevLe⟩ := haged o d hd
  have hpos := pindexPrev.nHeight_nonneg
  obtain ⟨s, hearly, hs⟩ := block_heights hinj hwf.indexed hok hd'
  rw [hs] at hreg
  cases hearly with
  | moved d₀ hd₀ hmove =>
    rw [hd, some.injEq] at hd₀
    subst hd₀
    split
    · next hpay =>
        rw [if_pos hpay] at hs
        have hnow : d'.pdmnState.nLastPaidHeight = pindexPrev.nHeight + 1 := by rw [hs]
        exact getHeight_of_moved (by omega) hnow.le (by omega) (.inl hnow)
    · next hpay =>
        rw [if_neg hpay] at hs
        exact SameHeights.getHeight_eq ⟨by rw [hs]; exact hreg, by rw [hs]; exact hmove.2.1, hrev⟩
  | registered hnew _ _ =>
    dsimp only at hreg
    omega

theorem steadyRound_of_block (hsteady : Steady (lists pindexPrev) l')
    (hp : (lists pindexPrev).getMNPayee = some p) :
    SteadyRound (payQueue (lists pindexPrev)) p.proTxHash (payQueue l') := by
  have hidx := hwf.indexed
  have hidx' := (wellFormed_buildNewListFromBlock hinj htx hwf hok).indexed
  obtain ⟨hleast, hget, hvalid⟩ := least_getMNPayee hidx hp
  refine ⟨hleast, ?_, ?_⟩
  · intro i hne
    have hunpaid : ¬ (lists pindexPrev).getMNPayee.map proTxHash = some i := by
      rw [hp]
      simpa using fun heq => hne heq.symm
    cases hd : (lists pindexPrev).mnMap[i]? with
    | none =>
      have hnone := hsteady i
      rw [hd, map_none, map_eq_none_iff] at hnone
      simp only [payQueue, hd, hnone]
    | some d =>
      obtain ⟨d', hd', hstanding⟩ := hsteady.entry hd
      have hkey : payKey d' = payKey d := by
        refine payKey_congr ((hidx'.keyed i d' hd').trans (hidx.keyed i d hd).symm) ?_
        rw [steady_getHeight hinj hwf haged hok hd hd' hstanding, if_neg hunpaid]
      have hsame : isMNValid d' = isMNValid d := congrArg fst hstanding
      simp only [payQueue, hd, hd', filter_some, hsame]
      split
      · simp [hkey]
      · rfl
  · obtain ⟨p', hp', hstanding⟩ := hsteady.entry hget
    have hsame : isMNValid p' = isMNValid p := congrArg fst hstanding
    refine ⟨payKey p', payQueue_eq_some.mpr ⟨p', hp', hsame.trans hvalid, rfl⟩, haged.above ?_⟩
    rw [steady_getHeight hinj hwf haged hok hget hp' hstanding, if_pos (by rw [hp]; rfl)]

end

/-! ### A masternode that stays valid -/

theorem Emitted.of_proUpServ {p : CProUpServTx}
    (h : Emitted env pindexPrev old (.transaction tx) l e) (hp : tx.getProUpServTx = some p) :
    e = .updateService p := by
  rw [getProUpServTx_eq_some] at hp
  cases h with
  | updateService hpayload =>
    rw [getProUpServTx_eq_some, hp, TxPayload.proUpServ.injEq] at hpayload
    rw [hpayload]
  | reserveId hpayload => simp [getProRegTx, hp] at hpayload
  | replace hpayload _ _ => simp [getProRegTx, hp] at hpayload
  | add hpayload _ => simp [getProRegTx, hp] at hpayload
  | updateRegistrar hpayload => simp [getProUpRegTx, hp] at hpayload
  | revoke hpayload => simp [getProUpRevTx, hp] at hpayload
  | punish hpayload _ => simp [getCommitment, hp] at hpayload

/-- The list is indexed and the masternode has the heights of `s` in it. -/
def Calm (env : Env) (s : CDeterministicMNState) (h : Uint256) (l : CDeterministicMNList) : Prop :=
  l.Indexed env.serializeHash ∧
    ∀ d : CDeterministicMN, l.mnMap[h]? = some d → SameHeights s d.pdmnState

theorem Calm.run
    {tr : List (CDeterministicMNList × ListEvent × CDeterministicMNList)} (hl : Calm env s h l)
    (hrun : Run (StepFrom env lists pindexPrev source) l tr l') (hsource : source ≠ .payment)
    (hadd : NotReadded env h source)
    (hvalid : ∀ tx, source = .transaction tx → ∀ d : CDeterministicMN, l.mnMap[h]? = some d →
      isMNValid d = true) : Calm env s h l' := by
  -- it is not banned either, when the source could revive it
  have hrest := state_of_run (P := fun s' => SameHeights s s' ∧ ∀ tx p, source = .transaction tx →
      tx.getProUpServTx = some p → s'.nPoSeBanHeight = -1) hrun hl.1 hadd ?_
    (fun d hd => ⟨hl.2 d hd, fun tx _ heq _ => isMNValid_iff.mp (hvalid tx heq d hd)⟩)
  · exact ⟨indexed_of_run hrun hl.1, fun d hd => (hrest d hd).1⟩
  rintro l e f s' hemit hwrite ⟨hsame, hvalid⟩
  -- a `ProUpServTx` finds the masternode valid, so there is nothing to revive
  have hnot : ∀ p, e = .updateService p → ¬Revives s' := by
    rintro p rfl hrev
    cases hemit with
    | updateService hpayload => exact hrev.1 (hvalid _ p rfl hpayload)
  obtain ⟨hsame', -⟩ := write_sameHeights hwrite (hemit.ne_pay hsource) s' hnot
  refine ⟨⟨hsame'.1.trans hsame.1, hsame'.2.1.trans hsame.2.1, hsame'.2.2.trans hsame.2.2⟩, ?_⟩
  rintro tx p rfl hp
  obtain rfl := hemit.of_proUpServ hp
  simp only [write, some.injEq, Prod.mk.injEq] at hwrite
  obtain ⟨-, rfl⟩ := hwrite
  exact (updServState_of_not_revives _ p (hnot p rfl)).2.1.trans (hvalid tx p rfl hp)

section

variable (hinj : Injective env.serializeHash) (hwf : WellFormed env (lists pindexPrev))
  {h : Uint256} {d : CDeterministicMN} (hd : (lists pindexPrev).mnMap[h]? = some d)

include hinj hwf hd

/-- A block whose transactions find the masternode valid does not move it. -/
theorem calm_listAfter {txs : List CTransaction}
    (hcheck : ∀ tx ∈ txs, checkSpecialTx env lists tx pindexPrev = .ok ())
    (hvalid : ∀ k l, listAfter env lists pindexPrev (txs.take k) = .ok l → HasValidMN l h)
    (hl : listAfter env lists pindexPrev txs = .ok l) : Calm env d.pdmnState h l := by
  refine listAfter_inv (fun done l => done <+: txs → Calm env d.pdmnState h l) ?_ ?_ txs l hl
    (prefix_refl txs)
  · intro l hprepare _
    obtain ⟨-, tr, hrun⟩ := prepareList_run hwf.indexed hprepare
    have hstart : Calm env d.pdmnState h (blockStart lists pindexPrev) := by
      refine ⟨hwf.indexed.of_maps rfl rfl, fun d' hd' => ?_⟩
      obtain rfl := some.inj (hd.symm.trans hd')
      exact ⟨rfl, rfl, rfl⟩
    exact hstart.run hrun (by simp) (by simp [NotReadded]) (by simp)
  · intro done tx l l' hdone ih hprocess hsnoc
    have hdonePrefix : done <+: txs := (prefix_append done [tx]).trans hsnoc
    have hcalm := ih hdonePrefix
    have hchecked := checkSpecialTx_cases (hcheck tx (hsnoc.subset (by simp)))
    by_cases hplain : tx.nVersion ≠ 3 ∨ tx.nType = .normal ∨ tx.nType = .coinbase
    · rw [processTx_of_plain hplain, ok.injEq] at hprocess
      exact hprocess ▸ hcalm
    obtain ⟨tr, hrun⟩ := processTx_run hinj hcalm.1 hprocess
    refine hcalm.run hrun (by simp) (hchecked.notReadded hinj hwf hplain hd) fun _ _ d' hd' => ?_
    have hnow := hvalid done.length l
    rw [← prefix_iff_eq_take.mp hdonePrefix] at hnow
    obtain ⟨d'', hd'', hvalid''⟩ := hnow hdone
    obtain rfl := some.inj (hd'.symm.trans hd'')
    exact hvalid''

/-- Through a whole block in which it stays valid, a masternode is only paid. -/
theorem sameHeights_block {block : CBlock}
    (hcheck : ∀ tx ∈ block.vtx, checkSpecialTx env lists tx pindexPrev = .ok ())
    (hvalid : ∀ k l, listAfter env lists pindexPrev (block.vtx.tail.take k) = .ok l → HasValidMN l h)
    (hok : buildNewListFromBlock env lists block pindexPrev = .ok l') {d' : CDeterministicMN}
    (hd' : l'.mnMap[h]? = some d')
    (hunpaid : (lists pindexPrev).getMNPayee.map proTxHash ≠ some h) :
    SameHeights d.pdmnState d'.pdmnState := by
  unfold buildNewListFromBlock at hok
  simp only [bind_eq_ok] at hok
  obtain ⟨l₁, htxs, l₂, hspend, hpay⟩ := hok
  have hcalm := calm_listAfter hinj hwf hd (fun tx htx => hcheck tx (mem_of_mem_tail htx)) hvalid
    htxs
  have hspent := foldlM_inv (Calm env d.pdmnState h) _ l₁ l₂ (fun prevout _ t t' ht hstep => by
    have hspend : ∃ tr, Run (StepFrom env lists pindexPrev (.spending prevout)) t tr t' :=
      spendCollateral_run hinj ht.1 hstep
    obtain ⟨tr, hrun⟩ := hspend
    exact ht.run hrun (by simp) (by simp [NotReadded]) (by simp)) hcalm hspend
  obtain ⟨d₂, hd₂, hstate⟩ := members_payMN hspent.1 hpay hd'
  rw [if_neg hunpaid] at hstate
  rw [hstate]
  exact hspent.2 d₂ hd₂

end

/-! ### Chains -/

/-- What the lists of a chain have. -/
structure Paying (env : Env) (c : Chain) : Prop where
  ahead : c.AheadEmpty
  wellFormed : WellFormed env c.list
  aged : Aged c.tip.nHeight c.list

theorem paying_of_empty (hahead : c.AheadEmpty)
    (hlist : c.list = { blockHash := blockHash }) : Paying env c where
  ahead := hahead
  wellFormed := hlist ▸ wellFormed_empty env blockHash
  aged := by
    intro h d hd
    rw [hlist] at hd
    simp at hd

theorem Paying.connect (hinj : Injective env.serializeHash)
    (htx : Injective env.txHash) (hc : Paying env c)
    (hconnect : Connect env c block c') : Paying env c' := by
  have hahead := hconnect.aheadEmpty hc.ahead
  rcases hconnect.list_cases hc.ahead with ⟨-, hlist⟩ | ⟨-, -, newList, hbuild, hlist⟩
  · exact paying_of_empty hahead hlist
  · refine ⟨hahead, ?_, ?_⟩
    · rw [hlist]
      exact (wellFormed_buildNewListFromBlock hinj htx hc.wellFormed hbuild).of_maps rfl rfl
    · rw [hlist, hconnect.nHeight_eq]
      intro h d hd
      exact (block_heights hinj hc.wellFormed.indexed hbuild hd).aged hc.aged
        c.tip.nHeight_nonneg

theorem paying_of_run (hinj : Injective env.serializeHash) (htx : Injective env.txHash)
    (hrun : Run (Connect env) (genesis blockHash) tr c) : Paying env c :=
  (hrun.invariant (Paying env) (fun _ _ _ hc h => hc.connect hinj htx h)
    (paying_of_empty (fun _ _ => rfl) rfl)).1

def payeeHash (x : Chain × CBlock × Chain) : Uint256 :=
  (x.1.list.getMNPayee.map CDeterministicMN.proTxHash).getD 0

theorem payeeHash_eq {x : Chain × CBlock × Chain}
    (hp : x.1.list.getMNPayee = some p) : payeeHash x = p.proTxHash := by
  rw [payeeHash, hp]
  rfl

theorem map_payees (h : ∀ x ∈ tr, x.1.list.getMNPayee ≠ none) :
    (payees tr).map proTxHash = tr.map payeeHash := by
  induction tr with
  | nil => rfl
  | cons x rest ih =>
    have hrest := ih fun y hy => h y (mem_cons_of_mem _ hy)
    obtain ⟨p, hp⟩ := ne_none_iff_exists'.mp (h x mem_cons_self)
    rw [map_cons, payeeHash_eq hp, ← hrest]
    unfold payees
    rw [filterMap_cons, hp]
    rfl

section Run

variable {c c' c₀ : Chain} {block : CBlock} {tr : List (Chain × CBlock × Chain)} {h : Uint256}

section

variable (hinj : Injective env.serializeHash) (htx : Injective env.txHash)
  (hc : Paying env c) (hconnect : Chain.Connect env c block c')

include hinj htx hc hconnect

/-- While it stays valid and is not chosen, a masternode keeps its key. -/
theorem StaysValid.payQueue_eq (hstay : StaysValid env (c, block, c') h)
    (hunpaid : ∀ p, c.list.getMNPayee = some p → p.proTxHash ≠ h) {k : Int ×ₗ Nat}
    (hk : payQueue c.list h = some k) : payQueue c'.list h = some k := by
  obtain ⟨d, hd, -, rfl⟩ := payQueue_eq_some.mp hk
  obtain ⟨d', hd', hvalid'⟩ := hstay.after
  obtain ⟨hcheck, newList, hbuild, hlist⟩ := hconnect.built hc.ahead hd'
  have hnew : newList.mnMap[h]? = some d' := by
    rw [hlist] at hd'
    exact hd'
  have hnot : c.list.getMNPayee.map proTxHash ≠ some h := by
    intro heq
    obtain ⟨p, hp, hhash⟩ := map_eq_some_iff.mp heq
    exact hunpaid p hp hhash
  have hsame := sameHeights_block hinj hc.wellFormed hd hcheck hstay.during hbuild hnew hnot
  have hidx' := (wellFormed_buildNewListFromBlock hinj htx hc.wellFormed hbuild).indexed
  refine payQueue_eq_some.mpr ⟨d', hd', hvalid', payKey_congr ?_ hsame.getHeight_eq⟩
  exact (hidx'.keyed h d' hnew).trans (hc.wellFormed.indexed.keyed h d hd).symm

omit hinj htx in
/-- A block of a chain builds its list and pays someone, if there is someone to pay before and after
it. -/
theorem exists_payee (hm : HasValidMN c.list h) (hm' : HasValidMN c'.list h) : ∃ p newList,
    c.list.getMNPayee = some p ∧ payeeHash (c, block, c') = p.proTxHash ∧
      buildNewListFromBlock env c.lists block c.tip = .ok newList ∧
      c'.list = { newList with blockHash := block.hash } := by
  obtain ⟨p, hp⟩ := ne_none_iff_exists'.mp (getMNPayee_ne_none hc.wellFormed.indexed hm)
  obtain ⟨d', hd', -⟩ := hm'
  obtain ⟨-, newList, hbuild, hlist⟩ := hconnect.built hc.ahead hd'
  exact ⟨p, newList, hp, payeeHash_eq hp, hbuild, hlist⟩

theorem round_of_connect (hm : HasValidMN c.list h) (hm' : HasValidMN c'.list h) :
    Round (payQueue c.list) (payeeHash (c, block, c')) (payQueue c'.list) := by
  obtain ⟨p, newList, hp, hhash, hbuild, hlist⟩ := exists_payee hc hconnect hm hm'
  rw [hhash, hlist]
  exact round_of_block hinj htx hc.wellFormed hc.aged hbuild hp

theorem steadyRound_of_connect (hsteady : Steady c.list c'.list) (hm : HasValidMN c.list h)
    (hm' : HasValidMN c'.list h) :
    SteadyRound (payQueue c.list) (payeeHash (c, block, c')) (payQueue c'.list) := by
  obtain ⟨p, newList, hp, hhash, hbuild, hlist⟩ := exists_payee hc hconnect hm hm'
  rw [hlist] at hsteady
  rw [hhash, hlist]
  exact steadyRound_of_block hinj htx hc.wellFormed hc.aged hbuild hsteady hp

end

theorem revived_le_of_getHeight_le {d : CDeterministicMN} (hpos : 0 ≤ nHeight)
    (hle : compareByLastPaidGetHeight d ≤ nHeight) : d.pdmnState.nPoSeRevivedHeight ≤ nHeight := by
  unfold compareByLastPaidGetHeight at hle
  dsimp only at hle
  split_ifs at hle <;> omega

/-- The period in which a masternode waits for its payment. -/
theorem payees_while_waiting (hinj : Injective env.serializeHash)
    (htx : Injective env.txHash) (hc₀ : Paying env c₀)
    (hrun : Run (Connect env) c₀ tr c) {m : CDeterministicMN}
    (hm : c₀.list.mnMap[h]? = some m) (hvalid : isMNValid m = true)
    (hstay : ∀ x ∈ tr, StaysValid env x h)
    (hunpaid : ∀ x ∈ tr, ∀ p, x.1.list.getMNPayee = some p → p.proTxHash ≠ h) :
    (payees tr).length = tr.length ∧
      ((payees tr).map proTxHash).Nodup ∧
      ∀ p ∈ payees tr, ∃ p₀ : CDeterministicMN, c₀.list.mnMap[p.proTxHash]? = some p₀ ∧
        isMNValid p₀ = true ∧ compareByLastPaid p₀ m = true ∧
        p.pdmnState.nPoSeRevivedHeight ≤ c₀.tip.nHeight := by
  have hinv := (hrun.and_mem fun x hx => And.intro (hstay x hx) (hunpaid x hx)).invariant
    (fun c => Paying env c ∧ payQueue c.list h = some (payKey m))
    (fun c block c' hc hs => ⟨hc.1.connect hinj htx hs.1,
      hs.2.1.payQueue_eq hinj htx hc.1 hs.1 hs.2.2 hc.2⟩)
    ⟨hc₀, payQueue_eq_some.mpr ⟨m, hm, hvalid, rfl⟩⟩
  have hwaits : ∀ x ∈ tr, HasValidMN x.1.list h := fun x hx =>
    payQueue_ne_none.mp (by rw [(hinv.2 x hx).1.2]; simp)
  have hpayee : ∀ x ∈ tr, x.1.list.getMNPayee ≠ none := fun x hx =>
    getMNPayee_ne_none (hinv.2 x hx).1.1.wellFormed.indexed (hwaits x hx)
  have hmap := map_payees hpayee
  have hrounds := hrun.map (fun c => payQueue c.list) payeeHash fun x hx =>
    round_of_connect hinj htx (hinv.2 x hx).1.1 (hinv.2 x hx).2.1 (hwaits x hx) (hstay x hx).after
  obtain ⟨hnodup, hserved⟩ := LeastFirst.fair hrounds (m := h) (by
      intro y hy
      obtain ⟨x, hx, rfl⟩ := mem_map.mp hy
      exact (hinv.2 x hx).1.2) (by
      intro y hy
      obtain ⟨x, hx, rfl⟩ := mem_map.mp hy
      obtain ⟨p, hp⟩ := ne_none_iff_exists'.mp (hpayee x hx)
      rw [payeeHash_eq hp]
      exact hunpaid x hx p hp)
  refine ⟨?_, ?_, ?_⟩
  · have hlen := congrArg length hmap
    simpa using hlen
  · rw [hmap]
    rw [List.map_map] at hnodup
    exact hnodup
  · intro p hp
    obtain ⟨x, hx, hget⟩ := mem_filterMap.mp hp
    obtain ⟨k, hk₀, hk, hlt⟩ := hserved _ (mem_map_of_mem hx)
    simp only [payeeHash_eq hget] at hk₀ hk
    obtain ⟨p₀, hp₀, hvalid₀, rfl⟩ := payQueue_eq_some.mp hk₀
    obtain ⟨-, hself, hpvalid⟩ := least_getMNPayee (hinv.2 x hx).1.1.wellFormed.indexed hget
    have hkey : payKey p = payKey p₀ := by
      obtain ⟨p', hp', -, hkey⟩ := payQueue_eq_some.mp hk
      rw [hself, some.injEq] at hp'
      rw [hp', hkey]
    refine ⟨p₀, hp₀, hvalid₀, compareByLastPaid_iff.mpr hlt, ?_⟩
    refine revived_le_of_getHeight_le c₀.tip.nHeight_nonneg ?_
    have hheight : compareByLastPaidGetHeight p = compareByLastPaidGetHeight p₀ :=
      congrArg (fun k => (ofLex k).1) hkey
    rw [hheight]
    exact hc₀.aged.getHeight_le hp₀

/-! ### The projection -/

/-- The valid masternodes in the order of `GetProjectedMNPayees`. -/
theorem ordered_projected (hidx : l.Indexed env.serializeHash) :
    Ordered (payQueue l) (((l.forEachMN true).insertionSort
      fun a b => !compareByLastPaid b a).map proTxHash) := by
  have hle : ∀ a b : CDeterministicMN, ((!compareByLastPaid b a) = true) ↔ payKey a ≤ payKey b := by
    intro a b
    rw [Bool.not_eq_true', ← Bool.not_eq_true, compareByLastPaid_iff, not_lt]
  have hperm := perm_insertionSort (fun a b => !compareByLastPaid b a) (l.forEachMN true)
  have hmem : ∀ d, d ∈ (l.forEachMN true).insertionSort (fun a b => !compareByLastPaid b a) ↔
      l.mnMap[d.proTxHash]? = some d ∧ isMNValid d = true := by
    intro d
    rw [hperm.mem_iff, hidx.mem_forEachMN]
    simp
  have hkey : ∀ d, d ∈ (l.forEachMN true).insertionSort (fun a b => !compareByLastPaid b a) →
      payQueue l d.proTxHash = some (payKey d) := by
    intro d hd
    obtain ⟨hget, hvalid⟩ := (hmem d).mp hd
    exact payQueue_eq_some.mpr ⟨d, hget, hvalid, rfl⟩
  refine ⟨?_, ?_, ?_⟩
  · intro i hi
    obtain ⟨d, hd, rfl⟩ := mem_map.mp hi
    rw [hkey d hd]
    simp
  · have hsorted := KeyedRows.pairwise_insertionSort_key hle (l.forEachMN true)
    have hnodup : (((l.forEachMN true).insertionSort fun a b => !compareByLastPaid b a).map
        proTxHash).Nodup :=
      (hperm.map _).nodup_iff.mpr (hidx.nodup_forEachMN true)
    rw [pairwise_map]
    refine (hsorted.and (pairwise_map.mp hnodup)).imp_of_mem ?_
    rintro a b ha hb ⟨hab, hne⟩
    refine ⟨_, _, hkey a ha, hkey b hb, lt_of_le_of_ne hab fun heq => hne ?_⟩
    exact congrArg (fun k => (ofLex k).2) heq
  · intro i _ j hj hwaits
    obtain ⟨d, hd, hvalid⟩ := payQueue_ne_none.mp hwaits
    refine absurd (mem_map.mpr ⟨d, (hmem d).mpr ⟨?_, hvalid⟩, hidx.keyed j d hd⟩) hj
    rw [hidx.keyed j d hd]
    exact hd

theorem Steady.hasValidMN (hsteady : Steady l l') (hm : HasValidMN l h) : HasValidMN l' h := by
  obtain ⟨d, hd, hvalid⟩ := hm
  obtain ⟨d', hd', hstanding⟩ := hsteady.entry hd
  have hsame : isMNValid d' = isMNValid d := congrArg fst hstanding
  exact ⟨d', hd', hsame.trans hvalid⟩

theorem payees_of_steady (hinj : Injective env.serializeHash)
    (htx : Injective env.txHash) (hc₀ : Paying env c₀)
    (hrun : Run (Connect env) c₀ tr c) (hsteady : ∀ x ∈ tr, Steady x.1.list x.2.2.list)
    (hlen : tr.length ≤ c₀.list.getValidMNsCount) :
    (payees tr).map proTxHash =
      (c₀.list.getProjectedMNPayees tr.length).map proTxHash := by
  have hprojected : (c₀.list.getProjectedMNPayees tr.length).map proTxHash =
      (((c₀.list.forEachMN true).insertionSort fun a b => !compareByLastPaid b a).map
        proTxHash).take tr.length := by
    unfold getProjectedMNPayees
    rw [min_eq_left hlen, map_take]
  rw [hprojected]
  by_cases hempty : tr = []
  · subst hempty
    rfl
  -- a run with a block in it starts with someone to pay, who stays
  have hsome : ∃ h, HasValidMN c₀.list h := by
    have hpos : 0 < (c₀.list.forEachMN true).length :=
      lt_of_lt_of_le (length_pos_iff.mpr hempty) hlen
    obtain ⟨d, hd⟩ := exists_mem_of_length_pos hpos
    obtain ⟨hget, hvalid⟩ := hc₀.wellFormed.indexed.mem_forEachMN.mp hd
    exact ⟨_, d, hget, hvalid rfl⟩
  obtain ⟨h, hm⟩ := hsome
  have hinv := (hrun.and_mem hsteady).invariant (fun c => Paying env c ∧ HasValidMN c.list h)
    (fun c block c' hc hs => ⟨hc.1.connect hinj htx hs.1, hs.2.hasValidMN hc.2⟩) ⟨hc₀, hm⟩
  have hmap := map_payees fun x hx =>
    getMNPayee_ne_none (hinv.2 x hx).1.1.wellFormed.indexed (hinv.2 x hx).1.2
  have hrounds := hrun.map (fun c => payQueue c.list) payeeHash fun x hx =>
    steadyRound_of_connect hinj htx (hinv.2 x hx).1.1 (hinv.2 x hx).2.1 (hsteady x hx)
      (hinv.2 x hx).1.2 ((hsteady x hx).hasValidMN (hinv.2 x hx).1.2)
  have hserved := LeastFirst.steady (ordered_projected hc₀.wellFormed.indexed) hrounds (by
    simpa [getValidMNsCount] using hlen)
  rw [List.map_map, List.length_map] at hserved
  rw [hmap, ← hserved]
  rfl

end Run

/--
**Payments are fair.**  Take any list that blocks lead to, and any run of blocks on it.

While a masternode is valid and waits for its payment, every block chooses someone; nobody is
chosen twice; and whoever is chosen was valid and before it in the order of the first list and
has not been revived since, so that neither new nor revived masternodes come first.

While no masternode is added, removed, banned or revived, the masternodes are chosen as
`GetProjectedMNPayees` said.
-/
theorem getMNPayee_fair (env : Env) (hinj : Function.Injective env.serializeHash)
    (htx : Function.Injective env.txHash) (blockHash : Uint256)
    (tr₀ : List (Chain × CBlock × Chain)) (c₀ : Chain)
    (hreach : Run (Chain.Connect env) (Chain.genesis blockHash) tr₀ c₀)
    (tr : List (Chain × CBlock × Chain)) (c : Chain) (hrun : Run (Chain.Connect env) c₀ tr c) :
    (∀ (h : Uint256) (m : CDeterministicMN), c₀.list.mnMap[h]? = some m → isMNValid m = true →
      (∀ x ∈ tr, StaysValid env x h) →
      (∀ x ∈ tr, ∀ p, x.1.list.getMNPayee = some p → p.proTxHash ≠ h) →
      (payees tr).length = tr.length ∧ ((payees tr).map CDeterministicMN.proTxHash).Nodup ∧
      ∀ p ∈ payees tr, ∃ p₀ : CDeterministicMN, c₀.list.mnMap[p.proTxHash]? = some p₀ ∧
        isMNValid p₀ = true ∧ compareByLastPaid p₀ m = true ∧
        p.pdmnState.nPoSeRevivedHeight ≤ c₀.tip.nHeight) ∧
    ((∀ x ∈ tr, Steady x.1.list x.2.2.list) → tr.length ≤ c₀.list.getValidMNsCount →
      (payees tr).map CDeterministicMN.proTxHash =
        (c₀.list.getProjectedMNPayees tr.length).map CDeterministicMN.proTxHash) := by
  have hc₀ := paying_of_run hinj htx hreach
  refine ⟨?_, payees_of_steady hinj htx hc₀ hrun⟩
  intro h m hm hvalid hstay hunpaid
  exact payees_while_waiting hinj htx hc₀ hrun hm hvalid hstay hunpaid

/-! ### Two masternodes and a block that pays one of them -/

theorem steady_of_toList
    (h : l'.mnMap.toList.map (fun p => (p.1, standing p.2)) =
      l.mnMap.toList.map (fun p => (p.1, standing p.2))) : Steady l l' := by
  have hentry : ∀ (l : CDeterministicMNList) (o : Uint256) (s : Bool × Int × Int),
      (l.mnMap[o]?).map standing = some s ↔
        (o, s) ∈ l.mnMap.toList.map fun p => (p.1, standing p.2) := by
    intro l o s
    rw [Option.map_eq_some_iff, List.mem_map]
    constructor
    · rintro ⟨d, hd, rfl⟩
      exact ⟨(o, d), mem_toList_iff_getElem?_eq_some.mpr hd, rfl⟩
    · rintro ⟨⟨o', d⟩, hmem, heq⟩
      obtain ⟨rfl, rfl⟩ := mk.inj heq
      exact ⟨d, mem_toList_iff_getElem?_eq_some.mp hmem, rfl⟩
  intro o
  refine Option.ext fun s => ?_
  rw [hentry, hentry, h]

def sampleAddr (n : Nat) : CService := ⟨0xffff01020300 + n, 1000⟩

/-- Surroundings in which two `ProRegTx` with addresses have the hashes 100 and 101. -/
noncomputable def pairEnv : Env :=
  sampleEnv [registerAt (sampleAddr 5) 5, registerAt (sampleAddr 6) 6]

/-- Registers the two masternodes. -/
def pairBlock : CBlock where
  hash := 42
  vtx := [sampleCoinbase, registerAt (sampleAddr 5) 5, registerAt (sampleAddr 6) 6]

/-- A block with nothing but its coinbase. -/
def quietBlock : CBlock where
  hash := 43
  vtx := [sampleCoinbase]

/-- The chain after the two masternodes have been registered. -/
noncomputable def pairChain : Chain := shortChain.connect pairEnv pairBlock

/-- The chain after a block that pays the first of them. -/
noncomputable def quietChain : Chain := pairChain.connect pairEnv quietBlock

theorem quietBlock_staysValid : StaysValid pairEnv (pairChain, quietBlock, quietChain) 101 where
  during := by
    intro k l hl
    have htail : quietBlock.vtx.tail.take k = [] := take_nil
    rw [htail] at hl
    have hvalid : (listAfter pairEnv pairChain.lists pairChain.tip []).map
        (fun l => (l.mnMap[(101 : Uint256)]?).map isMNValid) = .ok (some true) := rfl
    rw [hl] at hvalid
    obtain ⟨d, hd, hdvalid⟩ := map_eq_some_iff.mp (ok.inj hvalid)
    exact ⟨d, hd, hdvalid⟩
  after := by
    have hvalid : (quietChain.list.mnMap[(101 : Uint256)]?).map isMNValid = some true := by
      rw [quietChain, list_connect]
      rfl
    obtain ⟨d, hd, hdvalid⟩ := map_eq_some_iff.mp hvalid
    exact ⟨d, hd, hdvalid⟩

theorem getMNPayee_fair_pair :
    ∃ tr₀ tr, Run (Chain.Connect pairEnv) (Chain.genesis 40) tr₀ pairChain ∧
      Run (Chain.Connect pairEnv) pairChain tr quietChain ∧
      (payees tr).length = 1 ∧
      (payees tr).map CDeterministicMN.proTxHash =
        (pairChain.list.getProjectedMNPayees 1).map CDeterministicMN.proTxHash := by
  have hreach : Run (Chain.Connect pairEnv) (genesis 40)
      [(genesis 40, ⟨41, []⟩, shortChain), (shortChain, pairBlock, pairChain)] pairChain :=
    .cons (Chain.Connect.inactive (by decide)) (.single (connect_of_accepts rfl (by decide +kernel)))
  have hrun : Run (Chain.Connect pairEnv) pairChain [(pairChain, quietBlock, quietChain)]
      quietChain := .single (connect_of_accepts rfl (by decide +kernel))
  have hfair := getMNPayee_fair pairEnv pairingHash_injective (numberedTxHash_injective _) 40 _ _
    hreach _ _ hrun
  have hvalid : (pairChain.list.mnMap[(101 : Uint256)]?).map isMNValid = some true := by
    rw [pairChain, list_connect]
    rfl
  have hpayee : pairChain.list.getMNPayee.map proTxHash = some 100 := by
    rw [pairChain, list_connect]
    rfl
  obtain ⟨m, hm, hmvalid⟩ := map_eq_some_iff.mp hvalid
  have hwaiting := hfair.1 101 m hm hmvalid
    (by
      intro x hx
      obtain rfl := mem_singleton.mp hx
      exact quietBlock_staysValid)
    (by
      intro x hx p hp
      obtain rfl := mem_singleton.mp hx
      rw [hp, map_some, some.injEq] at hpayee
      rw [hpayee]
      decide)
  refine ⟨_, _, hreach, hrun, hwaiting.1, hfair.2 ?_ ?_⟩
  · intro x hx
    obtain rfl := mem_singleton.mp hx
    refine steady_of_toList ?_
    rw [quietChain, list_connect, pairChain, list_connect]
    rfl
  · have hcount : pairChain.list.getValidMNsCount = 2 := by
      rw [pairChain, list_connect]
      rfl
    rw [hcount]
    decide

end Absolute
