/-
Which sessions a mixing server lets come about.

`AddEntry` and the handler of DSVIN compare an entry with the other entries, but not
with itself, not with the denomination the session was opened for and not with the
collaterals of those who registered.  The invariant of a session holds along a run if
the messages that bring the entries are proper in these respects.
-/
import AbsoluteCore.Proofs.PrivateSend.Server

namespace Absolute

open Fallible List Except CPrivateSendEntry Nat InputCheck

/-! ### Sums -/

/-- A sum of inputs that was computed is what they are worth. -/
theorem sumInputs_eq_value {env : MixingEnv} {view : View} {prevouts : List COutPoint} {v : Int}
    (h : sumInputs env view prevouts = .value v) : v = (prevouts.map env.worth).sum := by
  have hcheck : ∀ {prevout v}, checkInput env view prevout = .value v → env.worth prevout = v := by
    intro prevout v h
    unfold checkInput at h
    unfold MixingEnv.worth
    cases hout : env.output prevout with
    | none =>
      rw [hout] at h
      split_ifs at h
    | some out =>
      rw [hout] at h
      split_ifs at h <;> exact value.inj h
  induction prevouts generalizing v with
  | nil => exact (value.inj h).symm
  | cons prevout rest ih =>
    rw [sumInputs] at h
    cases hfirst : checkInput env view prevout with
    | missing => rw [hfirst] at h; cases h
    | outOfRange => rw [hfirst] at h; cases h
    | value nValue =>
      rw [hfirst] at h
      cases hrest : sumInputs env view rest with
      | missing => rw [hrest] at h; cases h
      | outOfRange => rw [hrest] at h; cases h
      | value nRest =>
        rw [hrest] at h
        rw [map_cons, sum_cons, hcheck hfirst, ← ih hrest]
        exact (value.inj h).symm

namespace CPrivateSendServer

variable {env : MixingEnv}
variable {entry : CPrivateSendEntry} {i : ServerInput} {s s' : CPrivateSendServer} {view : View}
  (n : Nat)

/-! ### Admission -/

structure PassesChecks (env : MixingEnv) (view : View) (s : CPrivateSendServer)
    (entry : CPrivateSendEntry) : Prop where
  ready : s.isSessionReady = true
  inputsSize : entry.vecTxDSIn.length ≤ privateSendEntryMaxSize
  outputsSize : entry.vecTxOut.length ≤ privateSendEntryMaxSize
  compatible : s.isOutputsCompatibleWithSessionDenom entry.vecTxOut = true
  scripts : checkOutputScripts entry.vecTxOut = none
  noFee : sumInputs env view entry.prevouts = .value (sumOutputs entry.vecTxOut)
  notNull : ∀ txin ∈ entry.vecTxDSIn, txin.prevout ≠ COutPoint.null
  collateral : isCollateralValid env view entry.txCollateral = .ok true
  room : s.vecEntries.length < s.nSessionMaxParticipants
  unused : ∀ txin ∈ entry.vecTxDSIn, ∀ txdsin ∈ s.inputs, txdsin.prevout ≠ txin.prevout

theorem checkEntry_eq_ok :
    s.checkEntry env view entry = .ok none ↔
      s.isSessionReady = true ∧ entry.vecTxDSIn.length ≤ privateSendEntryMaxSize ∧
      entry.vecTxOut.length ≤ privateSendEntryMaxSize ∧
      s.isOutputsCompatibleWithSessionDenom entry.vecTxOut = true ∧
      checkOutputScripts entry.vecTxOut = none ∧
      sumInputs env view entry.prevouts = .value (sumOutputs entry.vecTxOut) := by
  unfold checkEntry prevouts
  split_ifs with hready hin hout hcompat
  · exact iff_of_false (by simp) fun h => by simp [h.1] at hready
  · exact iff_of_false (by simp) fun h => absurd h.2.1 (not_le.mpr hin)
  · exact iff_of_false (by simp) fun h => absurd h.2.2.1 (not_le.mpr hout)
  · exact iff_of_false (by simp) fun h => by simp [h.2.2.2.1] at hcompat
  · simp only [Bool.not_eq_true', Bool.not_eq_false] at hready hcompat
    cases hscripts : checkOutputScripts entry.vecTxOut with
    | some message => simp
    | none =>
      cases hsum : sumInputs env view (entry.vecTxDSIn.map fun txin => txin.prevout) with
      | missing => simp
      | outOfRange => simp
      | value v => simp [hready, hcompat, sub_eq_zero, Nat.le_of_not_lt hin, Nat.le_of_not_lt hout]

theorem addEntry_eq_ok :
    s.addEntry env view entry = .ok (.ok s') ↔
      (∀ txin ∈ entry.vecTxDSIn, txin.prevout ≠ COutPoint.null) ∧
      isCollateralValid env view entry.txCollateral = .ok true ∧
      s.vecEntries.length < s.nSessionMaxParticipants ∧
      (∀ txin ∈ entry.vecTxDSIn, ∀ txdsin ∈ s.inputs, txdsin.prevout ≠ txin.prevout) ∧
      s' = { s with vecEntries := s.vecEntries ++ [entry] } := by
  unfold addEntry
  simp only [any_eq_true, beq_iff_eq]
  split_ifs with hnull hfull hused
  · obtain ⟨txin, htxin, heq⟩ := hnull
    exact iff_of_false (by simp) fun h => h.1 txin htxin heq
  · exact iff_of_false (by simp [bind_eq_ok, apply_ite]) fun h =>
      absurd h.2.2.1 (not_lt.mpr hfull)
  · obtain ⟨txin, htxin, txdsin, htxdsin, heq⟩ := hused
    exact iff_of_false (by simp [bind_eq_ok, apply_ite]) fun h =>
      h.2.2.2.1 txin htxin txdsin htxdsin heq
  · push Not at hnull hused
    rw [bind_eq_ok]
    constructor
    · rintro ⟨_ | _, hvalid, h⟩
      · cases h
      · exact ⟨hnull, hvalid, Nat.lt_of_not_le hfull, hused, (ok.inj (ok.inj h)).symm⟩
    · rintro ⟨-, hvalid, -, -, rfl⟩
      exact ⟨true, hvalid, rfl⟩

/-- An entry is admitted if it passes the checks, and then it is the last entry of the session. -/
theorem admitEntry_eq_ok :
    s.admitEntry env view entry = .ok (.ok s') ↔
      PassesChecks env view s entry ∧ s' = { s with vecEntries := s.vecEntries ++ [entry] } := by
  unfold admitEntry
  rw [bind_eq_ok]
  constructor
  · rintro ⟨refused, hcheck, h⟩
    cases refused with
    | some message => cases h
    | none =>
      obtain ⟨hready, hin, hout, hcompat, hscripts, hsum⟩ := checkEntry_eq_ok.mp hcheck
      obtain ⟨hnull, hvalid, hroom, hunused, hs'⟩ := addEntry_eq_ok.mp h
      exact ⟨⟨hready, hin, hout, hcompat, hscripts, hsum, hnull, hvalid, hroom, hunused⟩, hs'⟩
  · rintro ⟨hpass, hs'⟩
    refine ⟨none, checkEntry_eq_ok.mpr ⟨hpass.ready, hpass.inputsSize, hpass.outputsSize,
      hpass.compatible, hpass.scripts, hpass.noFee⟩, ?_⟩
    exact addEntry_eq_ok.mpr ⟨hpass.notNull, hpass.collateral, hpass.room, hpass.unused, hs'⟩

theorem Accepts.passes (h : Accepts env s i entry s') :
    PassesChecks env i.view s entry ∧ s' = { s with vecEntries := s.vecEntries ++ [entry] } := by
  obtain ⟨pfrom, msg, -, -, -, hadmit⟩ := h
  exact admitEntry_eq_ok.mp hadmit

/-! ### Without a session there is nothing -/

structure Idle (s : CPrivateSendServer) : Prop where
  entries : s.vecEntries = []
  nState : s.nState = .idle
  participants : s.nSessionMaxParticipants = 0

/-- Whenever there is no session id, the server is idle. -/
def WellFormed (s : CPrivateSendServer) : Prop := s.nSessionID = 0 → Idle s

theorem WellFormed.move (h : Move s s') (hs : WellFormed s) : WellFormed s' := by
  cases h with
  | clear view _ => exact fun _ => ⟨rfl, rfl, rfl⟩
  | queues _ q => exact fun hid => ⟨(hs hid).entries, (hs hid).nState, (hs hid).participants⟩
  | start view _ id max dsa hid => exact fun hid => by cases hid
  | join _ c hne => exact fun hid => absurd hid hne
  | resize _ n hstate =>
    intro hid
    rw [(hs hid).nState] at hstate
    rcases hstate with h | h <;> cases h
  | accept view _ hstate =>
    intro hid
    rw [(hs hid).nState] at hstate
    cases hstate
  | finalise view _ hstate hfull =>
    intro hid
    rw [(hs hid).nState] at hstate
    cases hstate

theorem Signed.wellFormed (h : Signed s s') (hs : WellFormed s) : WellFormed s' := by
  have hentries := h.entries
  obtain ⟨entries', vin', rfl⟩ := h.rest
  intro hid
  obtain ⟨hempty, hstate, hmax⟩ := hs hid
  refine ⟨?_, hstate, hmax⟩
  rw [hempty] at hentries
  exact map_eq_nil_iff.mp hentries

theorem WellFormed.incoming (h : Incoming env s i s') (hs : WellFormed s) : WellFormed s' := by
  cases h with
  | nothing => exact hs
  | entry haccept =>
    obtain ⟨hpass, rfl⟩ := haccept.passes
    intro hid
    have hroom := hpass.room
    rw [(hs hid).participants] at hroom
    exact absurd hroom (not_lt_zero _)
  | signatures hmsg hversion => exact (signed_addScriptSigs env _ s).wellFormed hs

theorem Step.wellFormed (h : Step env s i s') (hs : WellFormed s) : WellFormed s' :=
  Step.invariant (fun _ ht => hs.incoming ht) (fun _ _ hmove ht => ht.move hmove) h

/-- While signatures are awaited there is no room for an entry. -/
def Full (s : CPrivateSendServer) : Prop :=
  s.nState = .signing → s.nSessionMaxParticipants ≤ s.vecEntries.length

theorem Full.move (h : Move s s') (hs : Full s) : Full s' := by
  cases h with
  | clear view _ => exact fun hstate => by cases hstate
  | queues _ q => exact hs
  | start view _ id max dsa hid => exact fun hstate => by cases hstate
  | join _ c hne => exact hs
  | resize _ n hstate =>
    intro hsigning
    rcases hstate with h | h <;> rw [h] at hsigning <;> cases hsigning
  | accept view _ hstate => exact fun hstate => by cases hstate
  | finalise view _ hstate hfull => exact fun _ => hfull

theorem Full.incoming (h : Incoming env s i s') (hs : Full s) : Full s' := by
  cases h with
  | nothing => exact hs
  | entry haccept =>
    obtain ⟨hpass, rfl⟩ := haccept.passes
    exact fun hstate => absurd hpass.room (not_lt.mpr (hs hstate))
  | @signatures pfrom vecTxIn hmsg hversion =>
    have hsigned := signed_addScriptSigs env vecTxIn s
    have hlen := congrArg length hsigned.entries
    obtain ⟨entries', vin', heq⟩ := hsigned.rest
    rw [heq, length_map, length_map] at hlen
    rw [heq]
    exact fun hstate => (hs hstate).trans_eq hlen.symm

theorem Step.full (h : Step env s i s') (hs : Full s) : Full s' :=
  Step.invariant (fun _ ht => hs.incoming ht) (fun _ _ hmove ht => ht.move hmove) h

/-! ### The invariant of a session -/

theorem sessionInvariant_of_nil (h : s.vecEntries = []) : SessionInvariant env s where
  distinct := by simp [h]
  worth := by simp [h]
  denominations := by simp [h]
  registered := by simp [h]
  unshared := by simp [h]

/-- The invariant does not look at the signatures. -/
theorem sessionInvariant_unsigned :
    SessionInvariant env { s with vecEntries := s.vecEntries.map unsigned } ↔
      SessionInvariant env s := by
  constructor
  · rintro ⟨hdistinct, hworth, hdenominations, hregistered, hunshared⟩
    simp only [flatMap_map, forall_mem_map, pairwise_map, prevouts_unsigned] at *
    exact ⟨hdistinct, hworth, hdenominations, hregistered, hunshared⟩
  · rintro ⟨hdistinct, hworth, hdenominations, hregistered, hunshared⟩
    constructor <;>
      simp only [flatMap_map, forall_mem_map, pairwise_map, prevouts_unsigned] <;>
      assumption

theorem Signed.sessionInvariant (h : Signed s s') (hs : SessionInvariant env s) :
    SessionInvariant env s' := by
  have hentries := h.entries
  obtain ⟨entries', vin', rfl⟩ := h.rest
  rw [← sessionInvariant_unsigned] at hs ⊢
  rw [hentries]
  exact { hs with }

theorem SessionInvariant.move (h : Move s s') (hwf : WellFormed s) (hs : SessionInvariant env s) :
    SessionInvariant env s' := by
  cases h with
  | clear view _ => exact sessionInvariant_of_nil rfl
  | queues _ q => exact { hs with }
  | start view _ id max dsa hid => exact sessionInvariant_of_nil (hwf hid).entries
  | join _ c hne =>
    refine ⟨hs.distinct, hs.worth, hs.denominations, fun entry hentry => ?_, hs.unshared⟩
    obtain ⟨c', hc', hsame⟩ := hs.registered entry hentry
    exact ⟨c', mem_append_left _ hc', hsame⟩
  | resize _ n hstate => exact { hs with }
  | accept view _ hstate => exact { hs with }
  | finalise view _ hstate hfull => exact { hs with }

theorem mem_flatMap_prevouts {o : COutPoint} :
    o ∈ s.vecEntries.flatMap prevouts ↔ ∃ txdsin ∈ s.inputs, txdsin.prevout = o := by
  simp only [inputs, prevouts, mem_flatMap, mem_map]
  constructor
  · rintro ⟨entry, hentry, txdsin, htxdsin, rfl⟩
    exact ⟨txdsin, ⟨entry, hentry, htxdsin⟩, rfl⟩
  · rintro ⟨txdsin, ⟨entry, hentry, htxdsin⟩, rfl⟩
    exact ⟨entry, hentry, txdsin, htxdsin, rfl⟩

/-- An accepted entry keeps the invariant if its message is proper.  Its denominations are compared
with those of the entries before it. -/
theorem SessionInvariant.accept (h : Accepts env s i entry s') (hs : SessionInvariant env s)
    (hproper : ProperInput env s i) : SessionInvariant env s' := by
  obtain ⟨hpass, rfl⟩ := h.passes
  obtain ⟨pfrom, msg, hmsg, -, rfl, -⟩ := h
  obtain ⟨hnodup, hfirst, hregistered, hunshared⟩ := hproper pfrom msg hmsg hpass.ready hpass.room
  have hdistinct : (unserialize msg pfrom.addr).prevouts.Nodup := by
    simpa [prevouts, unserialize, CTxDSIn.unserialize, Function.comp_def] using hnodup
  constructor
  case distinct =>
    rw [flatMap_append, nodup_append]
    refine ⟨hs.distinct, by simpa using hdistinct, ?_⟩
    rintro o ho o' ho' rfl
    obtain ⟨txdsin, htxdsin, rfl⟩ := mem_flatMap_prevouts.mp ho
    rw [flatMap_cons, flatMap_nil, append_nil] at ho'
    obtain ⟨txin, htxin, heq⟩ := mem_map.mp ho'
    exact hpass.unused txin htxin txdsin htxdsin heq.symm
  case worth =>
    rw [forall_mem_append, forall_mem_singleton, hdistinct.dedup]
    exact ⟨hs.worth, (sumInputs_eq_value hpass.noFee).symm⟩
  case denominations =>
    rw [forall_mem_append, forall_mem_singleton]
    refine ⟨hs.denominations, ?_⟩
    cases hentries : s.vecEntries with
    | nil => exact hfirst hentries
    | cons first rest =>
      have hmem : first ∈ s.vecEntries := hentries ▸ mem_cons_self
      have hcompatible := hpass.compatible
      simp only [isOutputsCompatibleWithSessionDenom, Bool.and_eq_true, all_eq_true,
        beq_iff_eq] at hcompatible
      exact (hcompatible.2 first hmem).trans (hs.denominations first hmem)
  case registered =>
    rw [forall_mem_append, forall_mem_singleton]
    exact ⟨hs.registered, hregistered⟩
  case unshared =>
    rw [pairwise_append]
    refine ⟨hs.unshared, pairwise_singleton _ _, fun other hother e he => ?_⟩
    obtain rfl := mem_singleton.mp he
    exact hunshared other hother

theorem Step.sessionInvariant (h : Step env s i s') (hwf : WellFormed s)
    (hs : SessionInvariant env s) (hproper : ProperInput env s i) : SessionInvariant env s' := by
  have hboth : WellFormed s' ∧ SessionInvariant env s' := by
    refine Step.invariant (I := fun t => WellFormed t ∧ SessionInvariant env t)
      (fun t ht => ?_) (fun t t' hmove ht => ?_) h
    · refine ⟨hwf.incoming ht, ?_⟩
      cases ht with
      | nothing => exact hs
      | entry haccept => exact hs.accept haccept hproper
      | signatures hmsg hversion => exact (signed_addScriptSigs env _ s).sessionInvariant hs
    · exact ⟨ht.1.move hmove, ht.2.move hmove ht.1⟩
  exact hboth.2

/--
**Along every run of the server** whose messages with entries are proper, in the state that they
find, the session has its invariant after every step and right after every entry that is accepted.
-/
theorem sessionInvariant_of_run (env : MixingEnv) {s : CPrivateSendServer}
    {tr : List (CPrivateSendServer × ServerInput × CPrivateSendServer)} (h : Run env tr s)
    (hproper : ∀ x ∈ tr, ProperInput env x.1 x.2.1) :
    ∀ x ∈ tr, SessionInvariant env x.2.2 ∧
      ∀ entry t, Accepts env x.1 x.2.1 entry t → SessionInvariant env t := by
  have hinv := (h.and_mem hproper).invariant (fun t => WellFormed t ∧ SessionInvariant env t)
    (fun t i t' ht hstep =>
      ⟨hstep.1.wellFormed ht.1, hstep.1.sessionInvariant ht.1 ht.2 hstep.2⟩)
    ⟨fun _ => ⟨rfl, rfl, rfl⟩, sessionInvariant_of_nil rfl⟩
  intro x hx
  obtain ⟨⟨hwf, hs⟩, hstep, hproper⟩ := hinv.2 x hx
  exact ⟨hstep.sessionInvariant hwf hs hproper, fun entry t ht => hs.accept ht hproper⟩

/-! ### A session of three clients -/

/-- The state a sequence of messages leads to. -/
def replay (env : MixingEnv) (inputs : List ServerInput) (s : CPrivateSendServer) :
    Except Fail CPrivateSendServer :=
  inputs.foldlM (fun s i => do return (← s.handle env i).1) s

/-- The steps of a replay. -/
def trace (env : MixingEnv) : List ServerInput → CPrivateSendServer →
    List (CPrivateSendServer × ServerInput × CPrivateSendServer)
  | [], _ => []
  | i :: rest, s =>
    match s.handle env i with
    | .ok (s', _) => (s, i, s') :: trace env rest s'
    | .error _ => []

theorem run_of_replay {env : MixingEnv} {inputs : List ServerInput} {s s' : CPrivateSendServer}
    (h : replay env inputs s = .ok s') : Lts.Run (Step env) s (trace env inputs s) s' := by
  induction inputs generalizing s with
  | nil =>
    obtain rfl := pure_eq_ok.mp h
    exact .nil s
  | cons i rest ih =>
    obtain ⟨t, ht, hrest⟩ := bind_eq_ok.mp h
    obtain ⟨⟨t', sent⟩, hhandle, ht⟩ := bind_eq_ok.mp ht
    obtain rfl := pure_eq_ok.mp ht
    rw [trace, hhandle]
    exact .cons ⟨sent, hhandle⟩ (ih hrest)

def clientPubKey : Script.Valtype := 2 :: List.replicate 32 (UInt8.ofNat n)

/-- The pay-to-public-key-hash script of a client. -/
def clientScript : CScript :=
  [0x76, 0xa9, 0x14] ++ (clientPubKey n).take 20 ++ [0x88, 0xac]

/--
Transactions below 10 have two coins of the smallest denomination, the others one coin for a
collateral.  A signature is good for an input if its first number is the index of the coin plus one.
-/
def mixingEnv : MixingEnv where
  getHash := fun tx => (tx.vin.map fun txin => txin.prevout.hash).foldl (fun h n => 1000 * h + n) 0
  hashes := ⟨id, id, id, fun vch => vch.take 20, id⟩
  checkSig := fun tx nIn vchSig _ _ =>
    vchSig[4]? == (tx.vin[nIn]?).map fun txin => UInt8.ofNat (txin.prevout.n + 1)
  transactions := fun hash =>
    if hash < 10 then some { vout := [⟨100001, clientScript hash⟩, ⟨100001, clientScript hash⟩] }
    else some { vout := [⟨40000, clientScript hash⟩] }
  poolMinParticipants := 3
  poolMaxParticipants := 5
  masternodeOutpoint := ⟨999, 0⟩

/-- Everything is unspent and everybody is there. -/
def calmView (time : Int) : View where
  inMempool := fun _ => false
  isSpent := fun _ => false
  isLocked := fun _ => false
  unspent := fun _ => true
  acceptToMemoryPool := fun _ => true
  connected := fun _ => true
  time := time
  adjustedTime := time
  lockQueue := true
  lockMain := true
  isValidMN := fun _ => true
  lastDsq := fun _ => 0
  dsqCount := 0
  validMNsCount := 0
  dsqSigned := fun _ => true

/-- A message at some time, with the lowest random numbers. -/
def send (time : Int) (message : ServerMessage) : ServerInput :=
  ⟨message, calmView time, ⟨0, 0, 0, 0, 0, fun _ => 99⟩⟩

def client : Peer := ⟨⟨n, 0⟩, 70213⟩

def clientCollateral : CMutableTransaction where
  vin := [⟨⟨100 + n, 0⟩, [], 0⟩]
  vout := [⟨20000, clientScript n⟩]

/-- Three clients register for the smallest denomination. -/
def registration : List ServerInput :=
  [send 0 (.dsAccept (client 1) ⟨16, clientCollateral 1⟩),
    send 0 (.dsAccept (client 2) ⟨16, clientCollateral 2⟩),
    send 0 (.dsAccept (client 3) ⟨16, clientCollateral 3⟩), send 0 .maintenance]

/-- An entry of the client with some of its coins, and as many outputs. -/
def clientEntry (coins : List Nat) : EntryMessage where
  vecTxIn := coins.map fun k => ⟨⟨n, k⟩, [], 0⟩
  txCollateral := clientCollateral n
  vecTxOut := coins.map fun k => ⟨100001, clientScript (n + 50 + k)⟩

/-- Each of three clients sends an entry with two coins. -/
def properInputs : List ServerInput :=
  registration ++ [1, 2, 3].map fun n => send 1 (.dsVin (client n) (clientEntry n [0, 1]))

theorem sessionInvariant_of_run_clients :
    ∃ s, Run mixingEnv (trace mixingEnv properInputs {}) s ∧ s.vecEntries.length = 3 ∧
      ∀ x ∈ trace mixingEnv properInputs {}, SessionInvariant mixingEnv x.2.2 ∧
        ∀ entry t, Accepts mixingEnv x.1 x.2.1 entry t → SessionInvariant mixingEnv t := by
  obtain ⟨s, hs, hlen⟩ : ∃ s, replay mixingEnv properInputs {} = .ok s ∧
      s.vecEntries.length = 3 := ⟨_, rfl, rfl⟩
  have hall : ∀ x ∈ trace mixingEnv properInputs {}, (match x.2.1.message with
      | .dsVin _ msg => decide (ProperMessage mixingEnv x.1 msg)
      | _ => true) = true := by
    decide +kernel
  refine ⟨s, run_of_replay hs, hlen,
    sessionInvariant_of_run mixingEnv (run_of_replay hs) fun x hx pfrom msg hmsg _ _ => ?_⟩
  have hproper := hall x hx
  rw [hmsg] at hproper
  exact of_decide_eq_true hproper

/-- An entry that spends one coin twice is accepted. -/
theorem sessionInvariant_coinTwice :
    ∃ tr s, Run mixingEnv tr s ∧
      s.vecEntries.map prevouts = [[⟨1, 0⟩, ⟨1, 0⟩]] ∧
      ¬ SessionInvariant mixingEnv s := by
  obtain ⟨s, hs, hprevouts⟩ : ∃ s, replay mixingEnv
      (registration ++ [send 1 (.dsVin (client 1) (clientEntry 1 [0, 0]))]) {} = .ok s ∧
      s.vecEntries.map prevouts = [[⟨1, 0⟩, ⟨1, 0⟩]] := ⟨_, rfl, rfl⟩
  refine ⟨_, s, run_of_replay hs, hprevouts, fun hinv => ?_⟩
  have hdistinct := hinv.distinct
  rw [List.flatMap, hprevouts] at hdistinct
  exact absurd hdistinct (by decide)

end CPrivateSendServer

end Absolute
