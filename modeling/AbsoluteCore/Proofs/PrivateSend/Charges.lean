/-
Whom the mixing server charges.

A client that has sent its entry is never charged while entries are awaited.  While
signatures are awaited it is charged for any input that nobody has signed, and for
the inputs of everybody else who uses its collateral.  Its own signatures count only
as far as nothing stops them: the first that is refused ends its message.
-/
import AbsoluteCore.Proofs.PrivateSend.Signatures

namespace Absolute

open List Option CPrivateSendEntry CTxIn

variable {env : MixingEnv}

/-! ### Signatures that are taken -/

theorem isSome_addSigToInputs {txin : CTxIn} {inputs : List CTxDSIn}
    (hmem : txin.key ∈ inputs.map fun txdsin => txdsin.key)
    (hunsigned : ∀ txdsin ∈ inputs, txdsin.key = txin.key → txdsin.fHasSig = false) :
    (addSigToInputs txin inputs).isSome = true := by
  induction inputs with
  | nil => cases hmem
  | cons txdsin rest ih =>
    rw [addSigToInputs]
    by_cases hsame : txdsin.prevout = txin.prevout ∧ txdsin.nSequence = txin.nSequence
    · have hsig := hunsigned txdsin mem_cons_self (key_eq.mpr hsame)
      simp [hsame, hsig]
    · rw [if_neg hsame, isSome_map]
      rw [map_cons, mem_cons] at hmem
      rcases hmem with hkey | hmem
      · exact absurd (key_eq.mp hkey.symm) hsame
      · exact ih hmem fun x hx => hunsigned x (mem_cons_of_mem _ hx)

namespace CPrivateSendServer

variable {entries : List CPrivateSendEntry} {s s' : CPrivateSendServer} {txin : CTxIn}
  {key : COutPoint × Nat} {i : ServerInput}
  {tr : List (CPrivateSendServer × ServerInput × CPrivateSendServer)}

theorem isSome_addSigToEntries
    (hmem : txin.key ∈ (entries.flatMap vecTxDSIn).map fun txdsin => txdsin.key)
    (hunsigned : ∀ txdsin ∈ entries.flatMap vecTxDSIn,
      txdsin.key = txin.key → txdsin.fHasSig = false) :
    (addSigToEntries txin entries).isSome = true := by
  induction entries with
  | nil => cases hmem
  | cons entry rest ih =>
    rw [addSigToEntries]
    cases hentry : entry.addScriptSig txin with
    | some entry' => rfl
    | none =>
      rw [CPrivateSendEntry.addScriptSig, map_eq_none_iff] at hentry
      rw [isSome_map]
      refine ih ?_ fun x hx => hunsigned x (mem_append_right _ hx)
      rw [flatMap_cons, map_append, mem_append] at hmem
      refine hmem.resolve_left fun hown => ?_
      -- an entry with such an input would have taken the signature
      have hsome := isSome_addSigToInputs hown fun x hx =>
        hunsigned x (mem_append_left _ hx)
      rw [hentry] at hsome
      cases hsome

def HasSig (s : CPrivateSendServer) (key : COutPoint × Nat) : Prop :=
  ∃ txdsin ∈ s.inputs, txdsin.key = key ∧ txdsin.fHasSig = true

theorem HasSig.signed (hs : HasSig s key) (h : Signed s s') : HasSig s' key := by
  obtain ⟨x, hx, hkey, hsig⟩ := hs
  exact ⟨x, h.kept x hx hsig, hkey, hsig⟩

/-- The first signature of an unhindered message is taken, and the others are still unhindered. -/
theorem Unhindered.cons {rest : List CTxIn} (h : Unhindered env s (txin :: rest))
    (hprev : NoPrevPubKey s) :
    s.addScriptSig env txin = (s.withSig txin, true) ∧ HasSig (s.withSig txin) txin.key ∧
      Unhindered env (s.withSig txin) rest := by
  obtain ⟨hinput, hnone⟩ := h.unsigned txin mem_cons_self
  have hfresh := h.fresh txin mem_cons_self
  have hvalid := (isInputScriptSigValid_iff hprev txin).mpr (h.valid txin mem_cons_self)
  have hawaits : (addSigToEntries txin s.vecEntries).isSome = true := by
    refine isSome_addSigToEntries (hasInput_iff.mp hinput) fun x hx hkey => ?_
    rw [key_eq] at hkey
    exact hnone x hx hkey.1 hkey.2
  have hadd : s.addScriptSig env txin = (s.withSig txin, true) := by
    rw [addScriptSig_of_valid hfresh hvalid, hawaits]
  have hsigned := signed_withSig s txin
  refine ⟨hadd, ?_, ?_⟩
  · obtain ⟨entries', hentries⟩ := isSome_iff_exists.mp hawaits
    have hwith : (s.withSig txin).vecEntries = entries' := by rw [withSig, hentries]; rfl
    rw [HasSig, inputs, hwith]
    exact (takesSig_addSigToEntries hentries).1.signed
  · obtain ⟨hnotMem, honce⟩ := nodup_cons.mp h.once
    obtain ⟨hother, hdifferent⟩ := nodup_cons.mp h.different
    refine ⟨fun x hx => ⟨?_, fun y hy hprevout hsequence => ?_⟩, honce, fun x hx y hy => ?_,
      hdifferent, fun x hx => ?_⟩
    · rw [hasInput_iff, hsigned.map_key, ← hasInput_iff]
      exact (h.unsigned x (mem_cons_of_mem _ hx)).1
    · -- an input that took the signature is not one of the others
      rcases mem_withSig hy with hold | ⟨hsame, -⟩
      · exact (h.unsigned x (mem_cons_of_mem _ hx)).2 y hold hprevout hsequence
      · refine absurd (mem_map.mpr ⟨x, hx, ?_⟩) hnotMem
        exact hprevout.symm.trans (key_eq.mp hsame).1
    · rcases mem_withSig hy with hold | ⟨-, hsame⟩
      · exact h.fresh x (mem_cons_of_mem _ hx) y hold
      · exact fun heq => hother (mem_map.mpr ⟨x, hx, heq.symm.trans hsame⟩)
    · exact (hsigned.trueAlone_iff x).mpr (h.valid x (mem_cons_of_mem _ hx))

theorem Unhindered.addScriptSigs {vecTxIn : List CTxIn} :
    ∀ {s : CPrivateSendServer}, Unhindered env s vecTxIn → NoPrevPubKey s →
      ∀ txin ∈ vecTxIn, HasSig (CPrivateSendServer.addScriptSigs env vecTxIn s).1 txin.key := by
  induction vecTxIn with
  | nil => exact fun _ _ txin htxin => by cases htxin
  | cons txin rest ih =>
    intro s h hprev x hx
    obtain ⟨hadd, hhas, hrest⟩ := h.cons hprev
    rw [CPrivateSendServer.addScriptSigs, hadd]
    rcases mem_cons.mp hx with rfl | hx
    · exact hhas.signed (signed_addScriptSigs env rest _)
    · exact ih hrest ((signed_withSig s txin).noPrevPubKey hprev) x hx

/-! ### Nothing is lost while signatures are awaited -/

theorem Step.signed (h : Step env s i s') (hfull : Full s) (hstate : s.nState = .signing) :
    ∃ t, Signed s t ∧ (s'.vecEntries = t.vecEntries ∨ s'.vecEntries = []) := by
  obtain ⟨t, ht, hmoves⟩ := step_cases h
  refine ⟨t, ?_, hmoves.vecEntries⟩
  cases ht with
  | nothing => exact Signed.refl s
  | entry haccept => exact absurd haccept.passes.1.room (Nat.not_lt.mpr (hfull hstate))
  | signatures hmsg hversion => exact signed_addScriptSigs env _ s

/-- A signature stays until the session is reset. -/
theorem HasSig.run
    (h : Lts.Run (Step env) s tr s') (hstate : ∀ x ∈ tr, x.1.nState = .signing) (hfull : Full s)
    (hs : HasSig s key ∨ s.vecEntries = []) : HasSig s' key ∨ s'.vecEntries = [] := by
  have hinv := (h.and_mem hstate).invariant
    (fun t => Full t ∧ (HasSig t key ∨ t.vecEntries = [])) ?_ ⟨hfull, hs⟩
  · exact hinv.1.2
  · rintro t i t' ⟨htfull, ht⟩ ⟨hstep, htstate⟩
    refine ⟨hstep.full htfull, ?_⟩
    obtain ⟨u, hsigned, heq | hnil⟩ := hstep.signed htfull htstate
    · rw [HasSig, inputs, heq]
      refine ht.imp (·.signed hsigned) fun hnil => ?_
      have hentries := hsigned.entries
      rw [hnil] at hentries
      exact map_eq_nil_iff.mp hentries
    · exact .inr hnil

/-! ### Entries do not share inputs -/

def Separate (s : CPrivateSendServer) : Prop :=
  (s.vecEntries.map prevouts).Pairwise List.Disjoint

theorem Step.separate (h : Step env s i s') (hs : Separate s) : Separate s' := by
  refine Step.invariant (fun t ht => ?_) (fun t t' hmove ht => ?_) h
  · cases ht with
    | nothing => exact hs
    | entry haccept =>
      obtain ⟨hpass, rfl⟩ := haccept.passes
      rw [Separate, map_append, pairwise_append]
      refine ⟨hs, pairwise_singleton _ _, ?_⟩
      intro prevouts hprevouts _ hnew prevout hmem hmem'
      obtain ⟨entry, hentry, rfl⟩ := mem_map.mp hprevouts
      obtain rfl := mem_singleton.mp hnew
      obtain ⟨x, hx, rfl⟩ := mem_map.mp hmem
      obtain ⟨y, hy, hxy⟩ := mem_map.mp hmem'
      exact hpass.unused y hy x (mem_flatMap.mpr ⟨entry, hentry, hx⟩) hxy.symm
    | signatures hmsg hversion =>
      rw [Separate, (signed_addScriptSigs env _ s).map_entries prevouts_unsigned]
      exact hs
  · unfold Separate
    rcases hmove.vecEntries with heq | hnil
    · rw [heq]
      exact ht
    · rw [hnil]
      exact List.Pairwise.nil

/-- Only one input of the session spends a coin of an entry without repetitions. -/
theorem Separate.eq_of_prevout (hs : Separate s) {k : Nat} {entry : CPrivateSendEntry}
    (hentry : s.vecEntries[k]? = some entry) (hdistinct : entry.prevouts.Nodup) {x y : CTxDSIn}
    (hx : x ∈ entry.vecTxDSIn) (hy : y ∈ s.inputs) (hxy : x.prevout = y.prevout) : x = y := by
  obtain ⟨other, hother, hy⟩ := mem_flatMap.mp hy
  obtain ⟨j, hj⟩ := mem_iff_getElem?.mp hother
  have hxmem : y.prevout ∈ entry.prevouts := mem_map.mpr ⟨x, hx, hxy⟩
  have hymem : y.prevout ∈ other.prevouts := mem_map.mpr ⟨y, hy, rfl⟩
  by_cases hjk : j = k
  · rw [hjk, hentry] at hj
    obtain rfl := some.inj hj
    exact inj_on_of_nodup_map hdistinct hx hy hxy
  · exfalso
    have hdisjoint : ∀ {a b : Nat} {e e' : CPrivateSendEntry}, a < b → s.vecEntries[a]? = some e →
        s.vecEntries[b]? = some e' → List.Disjoint e.prevouts e'.prevouts := by
      intro a b e e' hab ha hb
      obtain ⟨ha', rfl⟩ := List.getElem?_eq_some_iff.mp ha
      obtain ⟨hb', rfl⟩ := List.getElem?_eq_some_iff.mp hb
      exact List.pairwise_iff_getElem.mp (List.pairwise_map.mp hs) a b ha' hb' hab
    rcases Nat.lt_or_gt_of_ne hjk with hlt | hgt
    · exact hdisjoint hlt hj hentry hymem hxmem
    · exact hdisjoint hgt hentry hj hxmem hymem

/-! ### Charges -/

theorem mem_offenders_of_chargeFees {draws : Draws} {txCollateral : CMutableTransaction}
    (h : s.chargeFees env draws = some txCollateral) : txCollateral ∈ s.offenders env := by
  unfold chargeFees at h
  dsimp only at h
  split_ifs at h
  exact mem_of_getElem? h

/-- A signature that came in time is there as long as the session is. -/
theorem SignedInTime.hasSig {input : CTxDSIn} (hrun : Run env tr s)
    (h : SignedInTime env tr input) (hne : s.vecEntries ≠ []) : HasSig s input.key := by
  obtain ⟨before, t, i, t', after, rfl, hstate, hafter, pfrom, vecTxIn, hmsg, hversion, hclear,
    txin, htxin, hprevout, hsequence⟩ := h
  obtain ⟨u, hbefore, hrest⟩ := hrun.exists_of_append
  cases hrest with
  | cons hstep hrest =>
    have hfull : Full t :=
      (hbefore.invariant Full (fun _ _ _ hx hst => hst.full hx) fun h => by cases h).1
    have hhas := hclear.addScriptSigs (noPrevPubKey_of_run hbefore) txin htxin
    have hkey : txin.key = input.key := key_eq.mpr ⟨hprevout, hsequence⟩
    rw [hkey] at hhas
    have ht' : HasSig t' input.key ∨ t'.vecEntries = [] := by
      rcases (hstep.signatures hmsg hversion).vecEntries with heq | hnil
      · refine .inl ?_
        rw [HasSig, inputs, heq]
        exact hhas
      · exact .inr hnil
    exact (HasSig.run hrest hafter (hstep.full hfull) ht').resolve_right hne

/--
`ChargeFees` spares the collateral of a client whose entry is in the session, and whose inputs have
all been signed in time if signatures are awaited, unless another entry has the same collateral.
-/
theorem chargeFees_spares (env : MixingEnv) {s : CPrivateSendServer}
    {tr : List (CPrivateSendServer × ServerInput × CPrivateSendServer)} (h : Run env tr s)
    {k : Nat} {entry : CPrivateSendEntry} (hentry : s.vecEntries[k]? = some entry)
    (hdistinct : entry.prevouts.Nodup)
    (hsigned : s.nState = .signing → ∀ txdsin ∈ entry.vecTxDSIn, SignedInTime env tr txdsin)
    (hunshared : ∀ j other, s.vecEntries[j]? = some other → j ≠ k →
      ¬ env.SameCollateral other.txCollateral entry.txCollateral)
    {draws : Draws} {txCollateral : CMutableTransaction}
    (hcharged : s.chargeFees env draws = some txCollateral) :
    ¬ env.SameCollateral txCollateral entry.txCollateral := by
  have hmem := mem_of_getElem? hentry
  have hoffender := mem_offenders_of_chargeFees hcharged
  intro hsame
  unfold offenders at hoffender
  cases hstate : s.nState with
  | acceptingEntries =>
    rw [hstate] at hoffender
    obtain ⟨-, hmissing⟩ := mem_filter.mp hoffender
    rw [Bool.not_eq_true', List.any_eq_false] at hmissing
    exact hmissing entry hmem (beq_iff_eq.mpr hsame.symm)
  | signing =>
    rw [hstate] at hoffender
    obtain ⟨other, hother, hunsigned⟩ := mem_flatMap.mp hoffender
    obtain ⟨txdsin, htxdsin, rfl⟩ := mem_map.mp hunsigned
    obtain ⟨htxdsin, hnosig⟩ := mem_filter.mp htxdsin
    obtain ⟨j, hj⟩ := mem_iff_getElem?.mp hother
    by_cases hjk : j = k
    · rw [hjk, hentry] at hj
      obtain rfl := some.inj hj
      have hseparate : Separate s :=
        (h.invariant Separate (fun _ _ _ ht hstep => hstep.separate ht) List.Pairwise.nil).1
      obtain ⟨y, hy, hkey, hsig⟩ :=
        (hsigned hstate txdsin htxdsin).hasSig h (ne_nil_of_mem hmem)
      obtain rfl := hseparate.eq_of_prevout hentry hdistinct htxdsin hy (key_eq.mp hkey).1.symm
      rw [hsig] at hnosig
      cases hnosig
    · exact hunshared j other hj hjk hsame
  | idle => rw [hstate] at hoffender; cases hoffender
  | queue => rw [hstate] at hoffender; cases hoffender
  | error => rw [hstate] at hoffender; cases hoffender
  | success => rw [hstate] at hoffender; cases hoffender

/-! ### A client that is charged although it signed -/

/-- The good signature of a client for one of its coins. -/
def clientSig (n k : Nat) : CTxIn :=
  ⟨⟨n, k⟩, [9, 0x30, 6, 2, 1, UInt8.ofNat (k + 1), 2, 1, 1, 1, 33] ++ clientPubKey n, 0⟩

def clientSigs (n : Nat) (coins : List Nat) : List CTxIn := coins.map (clientSig n)

/-- The lowest random numbers, with which somebody is charged. -/
def noDraws : Draws := ⟨0, 0, 0, 0, 0, fun _ => 99⟩

/-- Three clients register and send an entry, the first with two coins. -/
def untilFinal : List ServerInput :=
  registration ++
    [send 1 (.dsVin (client 1) (clientEntry 1 [0, 1])),
      send 1 (.dsVin (client 2) (clientEntry 2 [0])),
      send 1 (.dsVin (client 3) (clientEntry 3 [0]))]

/-- The first client has signed in time.  The second has not, and is charged. -/
theorem chargeFees_spares_first :
    ∃ tr s, Run mixingEnv tr s ∧
      (∃ entry, s.vecEntries[0]? = some entry ∧ entry.txCollateral = clientCollateral 1 ∧
        ∀ txdsin ∈ entry.vecTxDSIn, SignedInTime mixingEnv tr txdsin) ∧
      s.chargeFees mixingEnv noDraws = some (clientCollateral 2) ∧
      ¬ mixingEnv.SameCollateral (clientCollateral 2) (clientCollateral 1) := by
  let vecTxIn := clientSigs 1 [0, 1]
  let i := send 2 (.dsSignFinalTx (client 1) vecTxIn)
  obtain ⟨t, ht, htstate, hinput, hnone, hfresh, hvalid, s, sent, hs, entry, hentry, hcollateral,
    hdistinct, hcovered, hothers, hcharged⟩ :
      ∃ t, replay mixingEnv untilFinal {} = .ok t ∧ t.nState = .signing ∧
        (∀ txin ∈ vecTxIn, ∃ txdsin ∈ t.inputs,
          txdsin.prevout = txin.prevout ∧ txdsin.nSequence = txin.nSequence) ∧
        (∀ txdsin ∈ t.inputs, txdsin.fHasSig = false) ∧
        (∀ txin ∈ vecTxIn, ∀ txdsin ∈ t.inputs, txdsin.scriptSig ≠ txin.scriptSig) ∧
        (∀ txin ∈ vecTxIn, t.isInputScriptSigValid mixingEnv txin = true) ∧
      ∃ s sent, t.handle mixingEnv i = .ok (s, sent) ∧
      ∃ entry, s.vecEntries[0]? = some entry ∧ entry.txCollateral = clientCollateral 1 ∧
        entry.prevouts.Nodup ∧
        (∀ txdsin ∈ entry.vecTxDSIn, ∃ txin ∈ vecTxIn,
          txin.prevout = txdsin.prevout ∧ txin.nSequence = txdsin.nSequence) ∧
        (∀ other ∈ s.vecEntries.tail,
          mixingEnv.getHash other.txCollateral ≠ mixingEnv.getHash entry.txCollateral) ∧
        s.chargeFees mixingEnv noDraws = some (clientCollateral 2) :=
    ⟨_, rfl, rfl, by decide, by decide, by decide, by decide, _, _, rfl, _, rfl, rfl, by decide,
      by decide, by decide, rfl⟩
  obtain ⟨before, hbefore⟩ : ∃ tr, Run mixingEnv tr t := ⟨_, run_of_replay ht⟩
  have hrun : Run mixingEnv (before ++ [(t, i, s)]) s :=
    Lts.Run.append hbefore (.single ⟨sent, hs⟩)
  have hprev := noPrevPubKey_of_run hbefore
  have hclear : Unhindered mixingEnv t vecTxIn :=
    ⟨fun txin htxin => ⟨hinput txin htxin, fun x hx _ _ => hnone x hx⟩, by decide, hfresh,
      by decide, fun txin htxin => (isInputScriptSigValid_iff hprev txin).mp (hvalid txin htxin)⟩
  have hsigned : ∀ txdsin ∈ entry.vecTxDSIn,
      SignedInTime mixingEnv (before ++ [(t, i, s)]) txdsin := fun txdsin htxdsin =>
    ⟨before, t, i, s, [], rfl, htstate, fun x hx => (by cases hx), client 1, vecTxIn, rfl,
      by decide, hclear, hcovered txdsin htxdsin⟩
  refine ⟨_, s, hrun, ⟨entry, hentry, hcollateral, hsigned⟩, hcharged, ?_⟩
  rw [← hcollateral]
  refine chargeFees_spares mixingEnv hrun hentry hdistinct (fun _ => hsigned) ?_ hcharged
  intro j other hj hne
  obtain ⟨j', rfl⟩ := Nat.exists_eq_succ_of_ne_zero hne
  rw [← getElem?_tail] at hj
  exact hothers other (mem_of_getElem? hj)

/--
Somebody else signs one input of the first client with a script that pushes true.  Then its message
ends at that input, and it is charged for the other one, although all its signatures were good.
-/
theorem chargeFees_of_cooperative :
    ∃ before t t' after s sent, Run mixingEnv before t ∧ t.nState = .signing ∧
      (∀ txin ∈ clientSigs 1 [0, 1], mixingEnv.Satisfies t.finalMutableTransaction txin) ∧
      t.handle mixingEnv (send 2 (.dsSignFinalTx (client 1) (clientSigs 1 [0, 1])))
        = .ok (t', sent) ∧
      Lts.Run (Step mixingEnv) t' after s ∧ s.nState = .signing ∧
      s.vecEntries.map (fun entry => (entry.prevouts, entry.txCollateral)) =
        [([⟨1, 0⟩, ⟨1, 1⟩], clientCollateral 1), ([⟨2, 0⟩], clientCollateral 2),
          ([⟨3, 0⟩], clientCollateral 3)] ∧
      s.chargeFees mixingEnv noDraws = some (clientCollateral 1) := by
  obtain ⟨t, ht, htstate, hfirst, hsecond, t', sent, ht', s, hs, hstate, hentries, hcharged⟩ :
      ∃ t, replay mixingEnv
          (untilFinal ++ [send 2 (.dsSignFinalTx (client 3) [⟨⟨1, 0⟩, [0x51], 0⟩])]) {} = .ok t ∧
        t.nState = .signing ∧
        mixingEnv.Satisfies t.finalMutableTransaction (clientSig 1 0) ∧
        mixingEnv.Satisfies t.finalMutableTransaction (clientSig 1 1) ∧
      ∃ t' sent, t.handle mixingEnv (send 2 (.dsSignFinalTx (client 1) (clientSigs 1 [0, 1])))
          = .ok (t', sent) ∧
      ∃ s, replay mixingEnv
          [send 2 (.dsSignFinalTx (client 2) (clientSigs 2 [0])),
            send 2 (.dsSignFinalTx (client 3) (clientSigs 3 [0]))] t' = .ok s ∧
        s.nState = .signing ∧
        s.vecEntries.map (fun entry => (entry.prevouts, entry.txCollateral)) =
          [([⟨1, 0⟩, ⟨1, 1⟩], clientCollateral 1), ([⟨2, 0⟩], clientCollateral 2),
            ([⟨3, 0⟩], clientCollateral 3)] ∧
        s.chargeFees mixingEnv noDraws = some (clientCollateral 1) :=
    ⟨_, rfl, rfl, ⟨0, _, _, rfl, rfl, rfl, rfl, rfl⟩, ⟨1, _, _, rfl, rfl, rfl, rfl, rfl⟩, _, _, rfl, _,
      rfl, rfl, rfl, rfl⟩
  refine ⟨_, t, t', _, s, sent, run_of_replay ht, htstate, ?_, ht', run_of_replay hs, hstate,
    hentries, hcharged⟩
  intro txin htxin
  rcases mem_cons.mp htxin with rfl | htxin
  · exact hfirst
  · obtain rfl := mem_singleton.mp htxin
    exact hsecond

end CPrivateSendServer

end Absolute
