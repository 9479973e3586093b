/-
What a step of the mixing server can do.

A step takes something in, an entry or some signatures or nothing, and then makes
quiet moves: it forgets queues, starts or resets a session, lets a client join,
changes the number of participants or the state, or makes the final transaction.
`step_cases` says this once; every invariant of the server is checked against the
few kinds of moves.
-/
import AbsoluteCore.Spec.Mixing

namespace Absolute

open Fallible Relation List Option Except CPrivateSendEntry Function ReflTransGen

variable {txin : CTxIn}

/-! ### Signatures only add signatures -/

def CTxIn.key (txin : CTxIn) : COutPoint × Nat := (txin.prevout, txin.nSequence)

theorem CTxIn.key_eq {a b : CTxIn} :
    a.key = b.key ↔ a.prevout = b.prevout ∧ a.nSequence = b.nSequence := Prod.mk.injEq .. ▸ Iff.rfl

def CTxDSIn.unsigned (txdsin : CTxDSIn) : CTxDSIn :=
  { txdsin with scriptSig := [], fHasSig := false }

def CPrivateSendEntry.unsigned (entry : CPrivateSendEntry) : CPrivateSendEntry :=
  { entry with vecTxDSIn := entry.vecTxDSIn.map CTxDSIn.unsigned }

@[simp] theorem CPrivateSendEntry.prevouts_unsigned (entry : CPrivateSendEntry) :
    entry.unsigned.prevouts = entry.prevouts := by
  simp [unsigned, prevouts, CTxDSIn.unsigned]

/-- One of the inputs waited for the signature of `txin`, and has it now. -/
def TakesSig (txin : CTxIn) (inputs inputs' : List CTxDSIn) : Prop :=
  ∃ before a after, inputs = before ++ a :: after ∧
    inputs' = before ++ { a with scriptSig := txin.scriptSig, fHasSig := true } :: after ∧
    a.key = txin.key ∧ a.fHasSig = false

theorem takesSig_addSigToInputs {inputs inputs' : List CTxDSIn}
    (h : addSigToInputs txin inputs = some inputs') : TakesSig txin inputs inputs' := by
  induction inputs generalizing inputs' with
  | nil => cases h
  | cons txdsin rest ih =>
    rw [addSigToInputs] at h
    split_ifs at h with hsame hsig
    · obtain rfl := some.inj h
      exact ⟨[], txdsin, rest, rfl, rfl, CTxIn.key_eq.mpr hsame, Bool.eq_false_iff.mpr hsig⟩
    · obtain ⟨rest', hrest, rfl⟩ := map_eq_some_iff.mp h
      obtain ⟨before, a, after, rfl, rfl, ha⟩ := ih hrest
      exact ⟨txdsin :: before, a, after, rfl, rfl, ha⟩

namespace TakesSig

variable {inputs inputs' : List CTxDSIn} (h : TakesSig txin inputs inputs') {x : CTxDSIn}

include h

theorem append (before after : List CTxDSIn) :
    TakesSig txin (before ++ (inputs ++ after)) (before ++ (inputs' ++ after)) := by
  obtain ⟨pre, a, post, rfl, rfl, ha⟩ := h
  exact ⟨before ++ pre, a, post ++ after, by simp, by simp, ha⟩

theorem unsigned : inputs'.map CTxDSIn.unsigned = inputs.map CTxDSIn.unsigned := by
  obtain ⟨pre, a, post, rfl, rfl, -⟩ := h
  simp [CTxDSIn.unsigned]

theorem kept (hx : x ∈ inputs) (hsig : x.fHasSig = true) : x ∈ inputs' := by
  obtain ⟨pre, a, post, rfl, rfl, -, hnone⟩ := h
  have hne : x ≠ a := by
    rintro rfl
    simp [hnone] at hsig
  simp only [mem_append, mem_cons, hne, false_or] at hx ⊢
  exact hx.imp id .inr

theorem mem (hx : x ∈ inputs') :
    x ∈ inputs ∨ (x.key = txin.key ∧ x.scriptSig = txin.scriptSig) := by
  obtain ⟨pre, a, post, rfl, rfl, hkey, -⟩ := h
  simp only [mem_append, mem_cons] at hx ⊢
  rcases hx with hx | rfl | hx
  · exact .inl (.inl hx)
  · exact .inr ⟨hkey, rfl⟩
  · exact .inl (.inr (.inr hx))

theorem signed : ∃ x ∈ inputs', x.key = txin.key ∧ x.fHasSig = true := by
  obtain ⟨pre, a, post, rfl, rfl, hkey, -⟩ := h
  exact ⟨{ a with scriptSig := txin.scriptSig, fHasSig := true }, by simp, hkey, rfl⟩

end TakesSig

namespace CPrivateSendServer

variable {env : MixingEnv}
variable {draws : Draws} {dsa : CPrivateSendAccept} {i : ServerInput} {pfrom : Peer}
  {s s' : CPrivateSendServer} {sent : List Sent} {txin : CTxIn} {vecTxIn : List CTxIn} {view : View}
  {entries entries' : List CPrivateSendEntry} {α : Type}

/-- One entry takes the signature, and the others stay. -/
theorem exists_of_addSigToEntries (h : addSigToEntries txin entries = some entries') :
    ∃ before entry entry' after, entries = before ++ entry :: after ∧
      entries' = before ++ entry' :: after ∧ entry.addScriptSig txin = some entry' := by
  induction entries generalizing entries' with
  | nil => cases h
  | cons entry rest ih =>
    rw [addSigToEntries] at h
    cases hentry : entry.addScriptSig txin with
    | some entry' =>
      rw [hentry] at h
      exact ⟨[], entry, entry', rest, rfl, (some.inj h).symm, hentry⟩
    | none =>
      rw [hentry] at h
      obtain ⟨rest', hrest, rfl⟩ := map_eq_some_iff.mp h
      obtain ⟨before, e, e', after, rfl, rfl, he⟩ := ih hrest
      exact ⟨entry :: before, e, e', after, rfl, rfl, he⟩

theorem takesSig_addSigToEntries (h : addSigToEntries txin entries = some entries') :
    TakesSig txin (entries.flatMap vecTxDSIn) (entries'.flatMap vecTxDSIn) ∧
      entries'.map unsigned = entries.map unsigned := by
  obtain ⟨before, entry, entry', after, rfl, rfl, hentry⟩ := exists_of_addSigToEntries h
  obtain ⟨inputs, hinputs, rfl⟩ := map_eq_some_iff.mp hentry
  have htakes := takesSig_addSigToInputs hinputs
  refine ⟨?_, by simp [unsigned, htakes.unsigned]⟩
  rw [flatMap_append, flatMap_append]
  exact htakes.append _ _

/-- What signatures change of a session. -/
structure Signed (s s' : CPrivateSendServer) : Prop where
  entries : s'.vecEntries.map unsigned = s.vecEntries.map unsigned
  /-- A signature that is there stays as it is. -/
  kept : ∀ txdsin ∈ s.inputs, txdsin.fHasSig = true → txdsin ∈ s'.inputs
  final : s'.finalMutableTransaction.withoutSigs = s.finalMutableTransaction.withoutSigs
  rest : ∃ vecEntries vin, s' = { s with
    vecEntries := vecEntries
    finalMutableTransaction := { s.finalMutableTransaction with vin := vin } }

theorem Signed.refl (s) : Signed s s where
  entries := rfl
  kept := fun _ h _ => h
  final := rfl
  rest := ⟨s.vecEntries, s.finalMutableTransaction.vin, rfl⟩

theorem Signed.trans {s'' : CPrivateSendServer} (h : Signed s s') (h' : Signed s' s'') :
    Signed s s'' where
  entries := h'.entries.trans h.entries
  kept := fun x hx hsig => h'.kept x (h.kept x hx hsig) hsig
  final := h'.final.trans h.final
  rest := by
    obtain ⟨vecEntries, vin, rfl⟩ := h.rest
    obtain ⟨vecEntries', vin', rfl⟩ := h'.rest
    exact ⟨vecEntries', vin', rfl⟩

/-- What can be read off an entry without its signatures. -/
theorem Signed.map_entries (h : Signed s s') {f : CPrivateSendEntry → α}
    (hf : ∀ entry, f entry.unsigned = f entry) : s'.vecEntries.map f = s.vecEntries.map f := by
  have hmap := congrArg (map f) h.entries
  simpa only [List.map_map, comp_def, hf] using hmap

theorem Signed.map_inputs (h : Signed s s') {f : CTxDSIn → α}
    (hf : ∀ txdsin, f txdsin.unsigned = f txdsin) : s'.inputs.map f = s.inputs.map f := by
  have hmap := congrArg flatten (h.map_entries (f := fun entry => entry.vecTxDSIn.map f)
    (by simp [unsigned, comp_def, hf]))
  rwa [← flatMap_def, ← flatMap_def, ← map_flatMap, ← map_flatMap] at hmap

theorem withoutSigs_setFinalSig (txinNew : CTxIn) (tx : CMutableTransaction) :
    ({ tx with vin := tx.vin.map (setFinalSig txinNew) } : CMutableTransaction).withoutSigs
      = tx.withoutSigs := by
  have hsame : ∀ txin : CTxIn,
      ({ setFinalSig txinNew txin with scriptSig := [] } : CTxIn) = { txin with scriptSig := [] } := by
    intro txin
    unfold setFinalSig
    split_ifs <;> rfl
  simp [CMutableTransaction.withoutSigs, hsame]

/-- The session with a signature that passed the check of its script. -/
def withSig (s : CPrivateSendServer) (txin : CTxIn) : CPrivateSendServer :=
  { s with
    vecEntries := (addSigToEntries txin s.vecEntries).getD s.vecEntries
    finalMutableTransaction := { s.finalMutableTransaction with
      vin := s.finalMutableTransaction.vin.map (setFinalSig txin) } }

theorem addScriptSig_of_valid (hfresh : s.FreshSig txin.scriptSig)
    (hvalid : s.isInputScriptSigValid env txin = true) :
    s.addScriptSig env txin = (s.withSig txin, (addSigToEntries txin s.vecEntries).isSome) := by
  have hknown : ¬(s.inputs.any fun txdsin => txdsin.scriptSig == txin.scriptSig) = true := by
    intro hany
    obtain ⟨txdsin, hmem, heq⟩ := any_eq_true.mp hany
    exact hfresh txdsin hmem (beq_iff_eq.mp heq)
  unfold addScriptSig withSig
  rw [if_neg hknown, hvalid]
  simp only [Bool.not_true, Bool.false_eq_true, if_false]
  cases addSigToEntries txin s.vecEntries <;> rfl

theorem addScriptSig_of_not_valid
    (h : ¬(s.FreshSig txin.scriptSig ∧ s.isInputScriptSigValid env txin = true)) :
    s.addScriptSig env txin = (s, false) := by
  unfold addScriptSig
  by_cases hknown : (s.inputs.any fun txdsin => txdsin.scriptSig == txin.scriptSig) = true
  · rw [if_pos hknown]
  · have hfresh : s.FreshSig txin.scriptSig := fun txdsin hmem heq =>
      hknown (any_eq_true.mpr ⟨txdsin, hmem, beq_iff_eq.mpr heq⟩)
    have hvalid : s.isInputScriptSigValid env txin = false :=
      Bool.eq_false_iff.mpr fun hvalid => h ⟨hfresh, hvalid⟩
    rw [if_neg hknown, hvalid]
    rfl

theorem addScriptSig_cases (env : MixingEnv) (s : CPrivateSendServer) (txin : CTxIn) :
    (s.addScriptSig env txin).1 = s ∨
      (s.isInputScriptSigValid env txin = true ∧ (s.addScriptSig env txin).1 = s.withSig txin) := by
  by_cases h : s.FreshSig txin.scriptSig ∧ s.isInputScriptSigValid env txin = true
  · exact .inr ⟨h.2, by rw [addScriptSig_of_valid h.1 h.2]⟩
  · exact .inl (by rw [addScriptSig_of_not_valid h])

/-- A signature that is taken passed the check, and an input waited for it. -/
theorem of_addScriptSig_eq_true (h : (s.addScriptSig env txin).2 = true) :
    s.isInputScriptSigValid env txin = true ∧ s.HasInput txin := by
  by_cases hvalid : s.FreshSig txin.scriptSig ∧ s.isInputScriptSigValid env txin = true
  · rw [addScriptSig_of_valid hvalid.1 hvalid.2] at h
    obtain ⟨entries', hentries⟩ := isSome_iff_exists.mp h
    obtain ⟨before, a, after, hinputs, -, hkey, -⟩ := (takesSig_addSigToEntries hentries).1
    exact ⟨hvalid.2, a, by simp [inputs, hinputs], CTxIn.key_eq.mp hkey⟩
  · rw [addScriptSig_of_not_valid hvalid] at h
    cases h

theorem signed_withSig (s txin) : Signed s (s.withSig txin) where
  entries := by
    unfold withSig
    cases hentries : addSigToEntries txin s.vecEntries with
    | some entries' => exact (takesSig_addSigToEntries hentries).2
    | none => rfl
  kept := by
    unfold withSig inputs
    cases hentries : addSigToEntries txin s.vecEntries with
    | some entries' => exact fun x => (takesSig_addSigToEntries hentries).1.kept
    | none => exact fun x hx _ => hx
  final := withoutSigs_setFinalSig _ _
  rest := ⟨_, _, rfl⟩

theorem mem_withSig {x : CTxDSIn} (hx : x ∈ (s.withSig txin).inputs) :
    x ∈ s.inputs ∨ (x.key = txin.key ∧ x.scriptSig = txin.scriptSig) := by
  unfold withSig inputs at hx
  cases hentries : addSigToEntries txin s.vecEntries with
  | some entries' =>
    rw [hentries] at hx
    exact (takesSig_addSigToEntries hentries).1.mem hx
  | none =>
    rw [hentries] at hx
    exact .inl hx

theorem signed_addScriptSig (env : MixingEnv) (s : CPrivateSendServer) (txin : CTxIn) :
    Signed s (s.addScriptSig env txin).1 := by
  rcases addScriptSig_cases env s txin with h | ⟨-, h⟩
  · rw [h]
    exact Signed.refl s
  · rw [h]
    exact signed_withSig s txin

theorem signed_addScriptSigs (env vecTxIn) :
    ∀ s : CPrivateSendServer, Signed s (addScriptSigs env vecTxIn s).1 := by
  induction vecTxIn with
  | nil => intro s; exact Signed.refl s
  | cons txin rest ih =>
    intro s
    have hstep := signed_addScriptSig env s txin
    rw [addScriptSigs]
    cases hadd : s.addScriptSig env txin with
    | mk s' taken =>
      rw [hadd] at hstep
      cases taken with
      | true => exact hstep.trans (ih s')
      | false => exact hstep

/-! ### Moves -/

/-- What the server does by itself. -/
inductive Move : CPrivateSendServer → CPrivateSendServer → Prop
  | clear (view : View) (s : CPrivateSendServer) : Move s (s.setNull view)
  | queues (s : CPrivateSendServer) (q : List CPrivateSendQueue) :
      Move s { s with vecPrivateSendQueue := q }
  | start (view : View) (s : CPrivateSendServer) (id max : Nat) (dsa : CPrivateSendAccept)
      (hid : s.nSessionID = 0) :
      Move s { s with
        nSessionID := id + 1
        nSessionDenom := dsa.nDenom
        nSessionMaxParticipants := max
        nState := .queue
        nTimeLastSuccessfulStep := view.time
        vecSessionCollaterals := s.vecSessionCollaterals ++ [dsa.txCollateral] }
  | join (s : CPrivateSendServer) (txCollateral : CMutableTransaction) (hid : s.nSessionID ≠ 0) :
      Move s { s with vecSessionCollaterals := s.vecSessionCollaterals ++ [txCollateral] }
  | resize (s : CPrivateSendServer) (n : Nat)
      (h : s.nState = .queue ∨ s.nState = .acceptingEntries) :
      Move s { s with nSessionMaxParticipants := n }
  | accept (view : View) (s : CPrivateSendServer) (h : s.nState = .queue) :
      Move s (s.setState view .acceptingEntries)
  | finalise (view : View) (s : CPrivateSendServer) (h : s.nState = .acceptingEntries)
      (hfull : s.nSessionMaxParticipants ≤ s.vecEntries.length) :
      Move s (setState view { s with finalMutableTransaction := s.entriesTx.sortBIP69 } .signing)

abbrev Moves : CPrivateSendServer → CPrivateSendServer → Prop := ReflTransGen Move

theorem Move.vecEntries (h : Move s s') : s'.vecEntries = s.vecEntries ∨ s'.vecEntries = [] := by
  cases h with
  | clear view _ => exact .inr rfl
  | queues _ q => exact .inl rfl
  | start view _ id max dsa hid => exact .inl rfl
  | join _ c hne => exact .inl rfl
  | resize _ n hstate => exact .inl rfl
  | accept view _ hstate => exact .inl rfl
  | finalise view _ hstate hfull => exact .inl rfl

theorem Moves.vecEntries (h : Moves s s') : s'.vecEntries = s.vecEntries ∨ s'.vecEntries = [] := by
  induction h with
  | refl => exact .inl rfl
  | tail _ hmove ih =>
    rcases hmove.vecEntries with heq | hnil
    · rw [heq]
      exact ih
    · exact .inr hnil

theorem moves_relayStatus (view s) (update : PoolStatusUpdate) :
    Moves s (s.relayStatus view update).1 := by
  unfold relayStatus
  dsimp only
  split_ifs
  · exact .refl
  · exact .single (Move.clear view s)
  · exact .refl

theorem moves_relayToEntries (view s) (message : CService → Sent) :
    Moves s (s.relayToEntries view message).1 := by
  unfold relayToEntries
  dsimp only
  split_ifs
  · exact .refl
  · exact moves_relayStatus view s .rejected

theorem moves_commitFinalTransaction (view draws s) :
    Moves s (s.commitFinalTransaction view draws).1 := by
  unfold commitFinalTransaction
  dsimp only
  split_ifs
  · exact (single (Move.clear view s)).trans (moves_relayToEntries view _ _)
  · exact (moves_relayToEntries view s _).trans (single (Move.clear view _))

theorem moves_checkPool (view draws s) : Moves s (s.checkPool view draws).1 := by
  unfold checkPool
  split_ifs with hfull
  · exact (single (Move.finalise view s hfull.1 hfull.2)).trans
      (moves_relayToEntries view _ _)
  · exact moves_commitFinalTransaction view draws s
  · exact .refl

theorem moves_checkTimeout (env view draws) (s) : Moves s (s.checkTimeout env view draws).1 := by
  have hqueue : Moves s (s.checkQueue view) := by
    unfold checkQueue
    split_ifs
    · exact .refl
    · exact .single (Move.queues s _)
  refine hqueue.trans ?_
  unfold checkTimeout
  dsimp only
  split_ifs with htime hstate haccepting
  · exact .refl
  · exact .single (Move.resize _ _ (Or.inl hstate.1))
  · exact (single (Move.resize _ _ (Or.inr haccepting.1))).trans
      (moves_checkPool view draws _)
  · exact .single (Move.clear view _)

theorem moves_doMaintenance (env view draws) (s) : Moves s (s.doMaintenance env view draws).1 := by
  refine (moves_checkTimeout env view draws s).trans ?_
  unfold doMaintenance checkForCompleteQueue
  dsimp only
  split_ifs with hready
  · exact .single (Move.accept view _ hready.1)
  · exact .refl

theorem moves_processDSQueue (view s pfrom)
    (dsq : CPrivateSendQueue) : Moves s (s.processDSQueue view pfrom dsq).1 := by
  unfold processDSQueue
  split_ifs
  · exact .refl
  · exact .refl
  · exact .refl
  · exact .single (Move.queues s _)

theorem moves_createNewSession (hid : s.nSessionID = 0) :
    Ends (fun r => Moves s r.1) (fun _ => True) (s.createNewSession env view draws dsa) := by
  unfold createNewSession
  split_ifs
  · exact .refl
  · refine Ends.bind_any _ fun refused => ?_
    cases refused with
    | some message => exact .refl
    | none =>
      exact (single (Move.start view s _ _ dsa hid)).trans
        (.single (Move.queues _ _))

theorem moves_addUserToExistingSession (hid : s.nSessionID ≠ 0) :
    Ends (fun r => Moves s r.1) (fun _ => True) (s.addUserToExistingSession env view dsa) := by
  refine Ends.bind_any _ fun refused => ?_
  cases refused with
  | some message => exact .refl
  | none =>
    split_ifs
    · exact .refl
    · exact .refl
    · exact .single (Move.join s dsa.txCollateral hid)

theorem moves_processDSAccept :
    Ends (fun r => Moves s r.1) (fun _ => True) (s.processDSAccept env view draws pfrom dsa) := by
  unfold processDSAccept
  split_ifs with hversion hready hmn hlock hrecent hid
  · exact .refl
  · exact .refl
  · exact .refl
  · exact .refl
  · exact .refl
  · refine (moves_createNewSession hid).bind (fun r hr => ?_) fun _ he => he
    obtain ⟨t, sent, _ | _⟩ := r <;> exact hr
  · refine (moves_addUserToExistingSession hid).bind (fun r hr => ?_) fun _ he => he
    obtain ⟨t, sent, _ | _⟩ := r <;> exact hr

/-! ### Steps -/

/-- What a message brings into the session before anything else happens. -/
inductive Incoming (env : MixingEnv) (s : CPrivateSendServer) (i : ServerInput) :
    CPrivateSendServer → Prop
  | nothing : Incoming env s i s
  | entry {entry : CPrivateSendEntry} {s' : CPrivateSendServer}
      (h : Accepts env s i entry s') : Incoming env s i s'
  | signatures {pfrom : Peer} {vecTxIn : List CTxIn}
      (h : i.message = .dsSignFinalTx pfrom vecTxIn)
      (hversion : minPrivateSendPeerProtoVersion ≤ pfrom.nVersion) :
      Incoming env s i (addScriptSigs env vecTxIn s).1

theorem moves_processDSVin {msg : EntryMessage} (hmsg : i.message = .dsVin pfrom msg) :
    Ends (fun r => ∃ t, Incoming env s i t ∧ Moves t r.1) (fun _ => True)
      (s.processDSVin env i.view i.draws pfrom msg) := by
  unfold processDSVin
  split_ifs with hversion
  · exact ⟨s, Incoming.nothing, .refl⟩
  · cases hadmit : s.admitEntry env i.view (CPrivateSendEntry.unserialize msg pfrom.addr) with
    | error e => trivial
    | ok admitted =>
      cases admitted with
      | error message => exact ⟨s, Incoming.nothing, .refl⟩
      | ok t =>
        exact ⟨t, Incoming.entry ⟨pfrom, msg, hmsg, Nat.le_of_not_lt hversion, rfl, hadmit⟩,
          (moves_checkPool i.view i.draws t).trans (moves_relayStatus i.view _ .accepted)⟩

theorem moves_addScriptSigs (hversion : minPrivateSendPeerProtoVersion ≤ pfrom.nVersion) :
    Moves (addScriptSigs env vecTxIn s).1
      (s.processDSSignFinalTx env view draws pfrom vecTxIn).1 := by
  unfold processDSSignFinalTx
  rw [if_neg (Nat.not_lt.mpr hversion)]
  cases hadd : addScriptSigs env vecTxIn s with
  | mk t taken =>
    cases taken with
    | true => exact moves_checkPool view draws t
    | false => exact moves_relayStatus view t .rejected

theorem moves_processDSSignFinalTx (hmsg : i.message = .dsSignFinalTx pfrom vecTxIn) :
    ∃ t, Incoming env s i t ∧ Moves t (s.processDSSignFinalTx env i.view i.draws pfrom vecTxIn).1 := by
  by_cases hversion : pfrom.nVersion < minPrivateSendPeerProtoVersion
  · unfold processDSSignFinalTx
    rw [if_pos hversion]
    exact ⟨s, Incoming.nothing, .refl⟩
  · exact ⟨_, Incoming.signatures hmsg (Nat.le_of_not_lt hversion),
      moves_addScriptSigs (Nat.le_of_not_lt hversion)⟩

theorem Step.signatures (h : Step env s i s') (hmsg : i.message = .dsSignFinalTx pfrom vecTxIn)
    (hversion : minPrivateSendPeerProtoVersion ≤ pfrom.nVersion) :
    Moves (addScriptSigs env vecTxIn s).1 s' := by
  obtain ⟨sent, h⟩ := h
  have hmoves : Moves (addScriptSigs env vecTxIn s).1
      (s.processDSSignFinalTx env i.view i.draws pfrom vecTxIn).1 := moves_addScriptSigs hversion
  rw [handle, hmsg] at h
  rwa [ok.inj h] at hmoves

/-- A step takes something in and then only makes moves. -/
theorem step_cases (h : Step env s i s') : ∃ t, Incoming env s i t ∧ Moves t s' := by
  obtain ⟨sent, h⟩ := h
  have hends : Ends (fun r => ∃ t, Incoming env s i t ∧ Moves t r.1) (fun _ => True)
      (s.handle env i) := by
    unfold handle
    cases hmsg : i.message with
    | dsAccept pfrom dsa =>
      exact moves_processDSAccept.imp (fun r hr => ⟨s, Incoming.nothing, hr⟩) fun _ he => he
    | dsVin pfrom msg => exact moves_processDSVin hmsg
    | dsSignFinalTx pfrom vecTxIn => exact moves_processDSSignFinalTx hmsg
    | dsQueue pfrom dsq => exact ⟨s, Incoming.nothing, moves_processDSQueue i.view s pfrom dsq⟩
    | maintenance => exact ⟨s, Incoming.nothing, moves_doMaintenance env i.view i.draws s⟩
  exact hends.of_ok h

/-- An invariant of everything that comes in and of every move is an invariant of steps. -/
theorem Step.invariant {I : CPrivateSendServer → Prop} (hin : ∀ t, Incoming env s i t → I t)
    (hmove : ∀ t t', Move t t' → I t → I t') (h : Step env s i s') : I s' := by
  obtain ⟨t, ht, hmoves⟩ := step_cases h
  have hIt := hin t ht
  clear h
  induction hmoves with
  | refl => exact hIt
  | tail _ hmv ih => exact hmove _ _ hmv ih

end CPrivateSendServer

end Absolute
