/-
Bans, revivals and penalties along every chain.

Each kind of event is looked at once: which ones touch the ban height, and which ones can
lower a penalty.  Blocks are runs of events and chains are runs of blocks, so the rest is
the invariant rule, twice.
-/
import AbsoluteCore.Spec.PoSe
import AbsoluteCore.Proofs.Evo.OperatorKey

namespace Absolute

open Fallible Lts CDeterministicMNList List Function Option Except Std.ExtTreeMap PoSeStep Chain

variable {env : Env} {lists : CBlockIndex → CDeterministicMNList} {pindexPrev : CBlockIndex}
  {tx : CTransaction} {txs : List CTransaction} {l l' : CDeterministicMNList} {nHeight : Int}
  {e : ListEvent} {source : EventSource} {h : Uint256} {d d' : CDeterministicMN}
variable {x : EventSource × ListEvent} {proTx : CProUpServTx} {penalty : Int}
  {s : CDeterministicMNState}

/-! ### Bans and revivals -/

/-- An event that leaves the ban height alone bans and revives nobody. -/
theorem PoSeStep.of_unchanged (hban : d'.pdmnState.nPoSeBanHeight = d.pdmnState.nPoSeBanHeight) :
    PoSeStep nHeight txs l x h d d' := by
  refine ⟨?_, ?_, fun _ _ => hban⟩
  · intro hvalid hbanned
    rw [isMNPoSeBanned_iff, hban] at hbanned
    exact absurd (isMNValid_iff.mp hvalid) hbanned
  · intro hbanned hvalid
    rw [isMNValid_iff, hban] at hvalid
    exact absurd hvalid (isMNPoSeBanned_iff.mp hbanned)

/-- An event that can only ban keeps the height of a ban that is there. -/
theorem PoSeStep.of_ban {n : Int} {P : Prop} [Decidable P]
    (hban : d'.pdmnState.nPoSeBanHeight =
      if P ∧ d.pdmnState.nPoSeBanHeight = -1 then n else d.pdmnState.nPoSeBanHeight)
    (hcause : P → BanCause txs l h d x) : PoSeStep nHeight txs l x h d d' := by
  by_cases hP : P ∧ d.pdmnState.nPoSeBanHeight = -1
  · refine ⟨fun _ _ => hcause hP.1, ?_, ?_⟩
    · intro hbanned _
      exact absurd hP.2 (isMNPoSeBanned_iff.mp hbanned)
    · intro hbanned _
      exact absurd hP.2 (isMNPoSeBanned_iff.mp hbanned)
  · rw [if_neg hP] at hban
    exact of_unchanged hban

theorem poSeStep_updateService (hmem : tx ∈ txs) (hpayload : tx.getProUpServTx = some proTx)
    (hd' : d' = { d with pdmnState := updServState nHeight proTx d.pdmnState }) :
    PoSeStep nHeight txs l (.transaction tx, .updateService proTx) proTx.proTxHash d d' := by
  by_cases hrevives : Revives d.pdmnState
  · obtain ⟨hpenalty, hban, hrevived⟩ := updServState_of_revives nHeight proTx hrevives
    subst hd'
    refine ⟨?_, ?_, ?_⟩
    · intro hvalid _
      exact absurd (isMNValid_iff.mp hvalid) hrevives.1
    · intro _ _
      obtain ⟨-, hoperator, hvoting, howner⟩ := hrevives
      exact ⟨.updateService hmem hpayload rfl hoperator hvoting howner, hpenalty, hrevived⟩
    · intro _ hbanned
      exact absurd hban (isMNPoSeBanned_iff.mp hbanned)
  · subst hd'
    exact of_unchanged (updServState_of_not_revives nHeight proTx hrevives).2.1

/-- **What one event may do to a ban.** -/
theorem BlockStep.poSeStep (hstep : BlockStep env lists pindexPrev txs l x l')
    (hidx : l.Indexed env.serializeHash) (hd : l.mnMap[h]? = some d)
    (hd' : l'.mnMap[h]? = some d') : PoSeStep (pindexPrev.nHeight + 1) txs l x h d d' := by
  obtain ⟨source, e⟩ := x
  obtain ⟨hof, hemitted, hlist⟩ := hstep
  rcases hlist.survivor hidx hd hd' with rfl | ⟨f, hwrite, hnew⟩
  · exact of_unchanged rfl
  cases hemitted <;>
    obtain ⟨rfl, rfl⟩ := hwrite
  case updateService proTx hpayload => exact poSeStep_updateService hof hpayload hnew
  case updateRegistrar proTx hpayload =>
    refine of_ban (n := pindexPrev.nHeight + 1) ?_ (fun hkey => .changeKey hof hpayload rfl hkey)
    rw [hnew]
    exact updRegState_nPoSeBanHeight _ _ _
  case revoke proTx hpayload =>
    refine of_ban (n := pindexPrev.nHeight + 1) (P := True) ?_ (fun _ => .revoke hof hpayload rfl)
    rw [hnew]
    simp only [true_and]
    exact updRevState_nPoSeBanHeight _ _ _
  case punish penalty hpayload _ =>
    have hban := punishedState_nPoSeBanHeight penalty d.pdmnState l
    refine of_ban (n := l.nHeight) (P := min l.calcMaxPoSePenalty
      (d.pdmnState.nPoSePenalty + penalty) ≥ l.calcMaxPoSePenalty) ?_
      (fun hreached => .punish hof hpayload (le_min_iff.mp hreached).2)
    rw [hnew]
    exact hban
  -- the other events write other fields
  all_goals
    subst hnew
    exact of_unchanged rfl

/-! ### Penalties -/

theorem calcPenalty_nonneg (hok : l.calcPenalty 66 = .ok penalty) : 0 ≤ penalty := by
  have hmax : 0 ≤ l.calcMaxPoSePenalty := le_max_of_le_left (by norm_num)
  have heq : penalty = (l.calcMaxPoSePenalty * 66).tdiv 100 := (ok.inj hok).symm
  rw [heq]
  exact Int.tdiv_nonneg (by omega) (by omega)

theorem updServState_nPoSePenalty_nonneg
    (hs : 0 ≤ s.nPoSePenalty) : 0 ≤ (updServState nHeight proTx s).nPoSePenalty := by
  by_cases hrevives : Revives s
  · rw [(updServState_of_revives nHeight proTx hrevives).1]
  · rw [(updServState_of_not_revives nHeight proTx hrevives).1]
    exact hs

theorem punishedState_nPoSePenalty_nonneg (hs : 0 ≤ s.nPoSePenalty) (hpenalty : 0 ≤ penalty) :
    0 ≤ (l.punishedState s penalty).nPoSePenalty := by
  rw [punishedState_nPoSePenalty]
  exact le_min (le_max_of_le_left (by norm_num)) (by omega)

theorem Emitted.nPoSePenalty_nonneg {old : CDeterministicMNList}
    {f : CDeterministicMNState → CDeterministicMNState} (hemitted : Emitted env pindexPrev old source l e)
    (hwrite : e.write env nHeight l = some (h, f)) (hd : l.mnMap[h]? = some d)
    (hnonneg : 0 ≤ d.pdmnState.nPoSePenalty) : 0 ≤ (f d.pdmnState).nPoSePenalty := by
  cases hemitted <;>
    obtain ⟨rfl, rfl⟩ := hwrite
  case decrease dmn hpenalty _ hm =>
    -- `DecreasePoSePenalties` only takes masternodes with a penalty
    rw [hm, some.injEq] at hd
    subst hd
    show 0 ≤ dmn.pdmnState.nPoSePenalty - 1
    omega
  case updateService => exact updServState_nPoSePenalty_nonneg hnonneg
  case updateRegistrar => simpa using hnonneg
  case revoke => simpa using hnonneg
  case punish hpenalty => exact punishedState_nPoSePenalty_nonneg hnonneg (calcPenalty_nonneg hpenalty)
  all_goals exact hnonneg

/-- **Events leave no negative penalty.** -/
theorem StepFrom.nonnegPenalties (hstep : StepFrom env lists pindexPrev source l e l')
    (hidx : l.Indexed env.serializeHash) (hl : NonnegPenalties l) : NonnegPenalties l' := by
  intro o d' hd'
  cases hd : l.mnMap[o]? with
  | none =>
    obtain ⟨tx, p, id, -, -, rfl⟩ := hstep.2.newcomer hidx hd hd'
    exact le_refl _
  | some d =>
    rcases hstep.2.survivor hidx hd hd' with rfl | ⟨f, hwrite, rfl⟩
    · exact hl o _ hd
    · exact hstep.1.nPoSePenalty_nonneg hwrite hd (hl o d hd)

/-! ### Blocks and chains -/

/-- What the lists of a chain have. -/
structure Served (env : Env) (l : CDeterministicMNList) : Prop where
  wellFormed : WellFormed env l
  penalties : NonnegPenalties l

theorem BlockStep.served (htx : Injective env.txHash)
    (hstep : BlockStep env lists pindexPrev txs l x l') (hl : Served env l) : Served env l' :=
  ⟨hstep.2.wellFormed htx hl.wellFormed, hstep.2.nonnegPenalties hl.wellFormed.indexed hl.penalties⟩

section

variable (hinj : Injective env.serializeHash) {block : CBlock} {c : Chain}

include hinj

/-- A block, with its payment, is a run of its events. -/
theorem blockStep_run (hidx : (lists pindexPrev).Indexed env.serializeHash)
    (hok : buildNewListFromBlock env lists block pindexPrev = .ok l') :
    ∃ tr, Run (BlockStep env lists pindexPrev block.vtx.tail) (blockStart lists pindexPrev) tr l' := by
  obtain ⟨l, tr, hrun, -, hpay⟩ := buildNewListFromBlock_run hinj hidx hok
  obtain ⟨tr', hrun'⟩ := payMN_run hpay
  have hearly := hrun.relabel id fun _ _ _ hstep => hstep.2
  have hlast : Run (BlockStep env lists pindexPrev block.vtx.tail) l _ l' :=
    hrun'.relabel (fun e => (EventSource.payment, e)) fun _ _ _ hstep => ⟨trivial, hstep⟩
  exact ⟨_, hearly.append hlast⟩

theorem served_buildNewListFromBlock (htx : Injective env.txHash)
    (hl : Served env (lists pindexPrev))
    (hok : buildNewListFromBlock env lists block pindexPrev = .ok l') : Served env l' := by
  obtain ⟨tr, hrun⟩ := blockStep_run hinj hl.wellFormed.indexed hok
  exact (hrun.invariant (Served env) (fun _ _ _ hs hstep => hstep.served htx hs)
    ⟨hl.wellFormed.of_maps rfl rfl, hl.penalties⟩).1

theorem poSeBlock_of_build (htx : Injective env.txHash) {c' : Chain}
    {newList : CDeterministicMNList} (hc : Served env c.list)
    (hbuild : buildNewListFromBlock env c.lists block c.tip = .ok newList)
    (hlist : c'.list = { newList with blockHash := block.hash }) : PoSeBlock env c block c' := by
  obtain ⟨events, hrun⟩ := blockStep_run hinj hc.wellFormed.indexed hbuild
  refine ⟨newList, events, hbuild, hlist, hrun, ?_⟩
  have hevents := (hrun.invariant (Served env) (fun _ _ _ hs hstep => hstep.served htx hs)
    ⟨hc.wellFormed.of_maps rfl rfl, hc.penalties⟩).2
  intro l x l' hx
  obtain ⟨hl, hstep⟩ := hevents (l, x, l') hx
  refine ⟨(hstep.served htx hl).penalties, ?_⟩
  intro h d d' hd hd'
  exact hstep.poSeStep hl.wellFormed.indexed hd hd'

theorem served_of_run (htx : Injective env.txHash) {blockHash : Uint256}
    {tr : List (Chain × CBlock × Chain)} (hrun : Run (Connect env) (genesis blockHash) tr c) :
    (Served env c.list ∧ c.AheadEmpty) ∧ ∀ x ∈ tr, Served env x.1.list ∧ x.1.AheadEmpty := by
  obtain ⟨hc, hsteps⟩ := list_invariant (P := fun _ => True) (Served env)
    (fun blockHash => ⟨wellFormed_empty env blockHash, fun _ _ hd => by simp at hd⟩)
    (fun c block c' newList _ hc _ hbuild => by
      have hnew := served_buildNewListFromBlock hinj htx hc hbuild
      exact ⟨hnew.wellFormed.of_maps rfl rfl, hnew.penalties⟩)
    hrun (fun _ _ => trivial)
  exact ⟨hc, fun x hx => (hsteps x hx).1⟩

end

/--
**Proof of service along every chain.**  In every chain the penalties of the last list are not
negative and the next block can be prepared, so that no assert of `PoSeDecrease` fails; every
block is a run of events each of which bans, revives and keeps bans as `PoSeStep` says.  Blocks
below the activation height have no list to change.
-/
theorem poSe_of_run (env : Env) (hinj : Function.Injective env.serializeHash)
    (htx : Function.Injective env.txHash) (blockHash : Uint256) (tr : List (Chain × CBlock × Chain))
    (c : Chain) (hrun : Run (Chain.Connect env) (Chain.genesis blockHash) tr c) :
    NonnegPenalties c.list ∧
    (∃ l, prepareList env c.lists c.tip = .ok l) ∧
    ∀ (block : CBlock) (c' : Chain), Chain.Connect env c block c' →
      (c.tip.nHeight + 1 < env.dip0003Height ∧ c'.list = { blockHash := block.hash }) ∨
      (env.dip0003Height ≤ c.tip.nHeight + 1 ∧ PoSeBlock env c block c') := by
  obtain ⟨⟨hc, hahead⟩, -⟩ := served_of_run hinj htx hrun
  obtain ⟨l, hprepare, -⟩ := prepareList_ok hc.wellFormed
  refine ⟨hc.penalties, ⟨l, hprepare⟩, ?_⟩
  intro block c' hconnect
  rcases hconnect.list_cases hahead with hinactive | ⟨hactive, -, newList, hbuild, hlist⟩
  · exact .inl hinactive
  · exact .inr ⟨hactive, poSeBlock_of_build hinj htx hc hbuild hlist⟩

/-- The chain with the banned masternode 100, and the block in which its operator revives it. -/
theorem poSe_of_run_revived : NonnegPenalties registeredChain.list ∧
    ∃ c', Chain.Connect chainEnv registeredChain serviceBlock c' ∧
      PoSeBlock chainEnv registeredChain serviceBlock c' := by
  obtain ⟨hpenalties, -, hblocks⟩ := poSe_of_run chainEnv pairingHash_injective
    (numberedTxHash_injective _) 40 _ _ registeredChain_run
  obtain ⟨c', hconnect⟩ := serviceBlock_connect
  rcases hblocks serviceBlock c' hconnect with ⟨hlow, -⟩ | ⟨-, hblock⟩
  · exact absurd hlow (by decide)
  · exact ⟨hpenalties, c', hconnect, hblock⟩

end Absolute
