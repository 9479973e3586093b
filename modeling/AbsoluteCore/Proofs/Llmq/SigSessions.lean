/-
The ids of a peer and what is sent to it.

An id that is announced again leaves its old session behind with the same id.  When that session goes
away, or gets another id, it takes the pointer of the new one with it.  This cannot happen while no two
sessions have one id: the pointers are then the inverse of the ids.
-/
import AbsoluteCore.Spec.SigSessions

namespace Absolute

open List Function Batches

variable {Q S : Type} {env : SigSessionEnv}

/-! ### Sessions by their ids -/

namespace CSigSharesNodeState

variable {s : CSigSharesNodeState Q} {signHash : Uint256} {id : UInt32}
  (session : Option (SigSession Q))

def idOf : Option UInt32 :=
  (session.map SigSession.recvSessionId).filter (· ≠ 0xffffffff)

def recvId (s : CSigSharesNodeState Q) (signHash : Uint256) : Option UInt32 :=
  idOf (s.sessions signHash)

/-- The pointers are just those to the sessions that have an id. -/
def Inverse (byRecvId : UInt32 → Option Uint256) (recvId : Uint256 → Option UInt32) : Prop :=
  ∀ id signHash, byRecvId id = some signHash ↔ id ≠ 0xffffffff ∧ recvId signHash = some id

theorem exists_of_recvId (h : s.recvId signHash = some id) :
    ∃ session, s.sessions signHash = some session ∧ session.recvSessionId = id :=
  Option.map_eq_some_iff.mp (Option.filter_eq_some_iff.mp h).1

theorem recvId_update (signHash session)
    (byRecvId : UInt32 → Option Uint256) : recvId ⟨update s.sessions signHash session, byRecvId⟩ =
      update s.recvId signHash (idOf session) := by
  funext h
  simp only [recvId, update_apply]
  split <;> rfl

theorem getD_idOf : (idOf session).getD 0xffffffff = (session.getD {}).recvSessionId := by
  cases session with
  | none => rfl
  | some session =>
    by_cases h : session.recvSessionId = 0xffffffff <;> simp [idOf, Option.filter, h]

theorem recvSessionId_getOrCreateSession (source : SigSource) :
    (s.getOrCreateSession env source).recvSessionId =
      ((s.sessions (env.buildSignHash source)).getD {}).recvSessionId := by
  simp only [getOrCreateSession]
  split <;> rfl

theorem recvId_share (source : SigSource) :
    (s.getOrCreateSessionFromShare env source).recvId = s.recvId := by
  rw [getOrCreateSessionFromShare, recvId_update, update_eq_self_iff]
  simp only [recvId, idOf, Option.map_some, recvSessionId_getOrCreateSession]
  cases s.sessions (env.buildSignHash source) <;> rfl

variable {byRecvId : UInt32 → Option Uint256} {recvId : Uint256 → Option UInt32}

/-- A session loses its id. -/
theorem Inverse.drop (h : Inverse byRecvId recvId) (signHash) :
    Inverse (update byRecvId ((recvId signHash).getD 0xffffffff) none)
      (update recvId signHash none) := by
  intro id k
  have hid := h id k
  have hown := h id signHash
  cases hr : recvId signHash <;> grind [update_apply]

/-- A session without an id gets one that no other has. -/
theorem Inverse.put (h : Inverse byRecvId recvId) {signHash : Uint256}
    (hnone : recvId signHash = none) (hid : id ≠ 0xffffffff) (hunused : ∀ k, recvId k ≠ some id) :
    Inverse (update byRecvId id (some signHash)) (update recvId signHash (some id)) := by
  intro i k
  have hk := h i k
  have hk' := hunused k
  grind [update_apply]

end CSigSharesNodeState

namespace SigPeer

open CSigSharesNodeState

variable {p : SigPeer Q} {id : UInt32} {signHash : Uint256}

structure Inv (p : SigPeer Q) : Prop where
  inverse : Inverse p.state.sessionByRecvId p.state.recvId
  last : ∀ id signHash, p.last id = some signHash → p.state.sessionByRecvId id = some signHash

theorem Inv.right (h : p.Inv) : p.Right where
  announced id signHash hlast := by
    obtain ⟨-, hrecv⟩ := (h.inverse id signHash).mp (h.last id signHash hlast)
    obtain ⟨session, hsession, -⟩ := exists_of_recvId hrecv
    exact ⟨h.last id signHash hlast, hsession ▸ rfl⟩
  pointer id signHash hby := by
    obtain ⟨-, hrecv⟩ := (h.inverse id signHash).mp hby
    exact exists_of_recvId hrecv

theorem forget_eq_some {h : Uint256} :
    p.forget signHash id = some h ↔ p.last id = some h ∧ h ≠ signHash := by
  unfold forget
  split
  · next heq => simp [heq, eq_comm]
  · next hne => exact ⟨fun h' => ⟨h', fun heq => hne (heq ▸ h')⟩, And.left⟩

/-- An announcement is kept where the id of its session is. -/
theorem Inv.of_recvId (h : p.Inv) {s : CSigSharesNodeState Q}
    (hinverse : Inverse s.sessionByRecvId s.recvId)
    (hlast : p.last id = some signHash) (hsame : s.recvId signHash = p.state.recvId signHash) :
    s.sessionByRecvId id = some signHash := by
  rw [hinverse, hsame, ← h.inverse]
  exact h.last id signHash hlast

theorem Inv.announce (h : p.Inv) {ann : CSigSesAnn} {quorum : Option Q}
    (hunused : p.Unused env (.announce ann quorum)) : (p.apply env (.announce ann quorum)).Inv := by
  cases hvalid : ann.valid env with
  | false => simpa [apply, processMessageSigSesAnn, hvalid] using h
  | true =>
    cases quorum with
    | none => simpa [apply, processMessageSigSesAnn, hvalid] using h
    | some quorum =>
      have hid : ann.sessionId ≠ 0xffffffff := by simp_all [CSigSesAnn.valid]
      have hrecv : (p.state.announce env ann quorum).recvId =
          update p.state.recvId (env.buildSignHash ann.toSigSource) (some ann.sessionId) :=
        (recvId_update ..).trans (by simp [idOf, Option.filter, hid])
      have hinverse : Inverse (p.state.announce env ann quorum).sessionByRecvId
          (p.state.announce env ann quorum).recvId := by
        have hby : (p.state.announce env ann quorum).sessionByRecvId =
            update (update p.state.sessionByRecvId
              ((p.state.recvId (env.buildSignHash ann.toSigSource)).getD 0xffffffff) none)
              ann.sessionId (some (env.buildSignHash ann.toSigSource)) := by
          funext id
          simp only [CSigSharesNodeState.announce, recvSessionId_getOrCreateSession, recvId, getD_idOf,
            emplace_apply, update_apply]
          split <;> simp_all
        have htwice := update_idem (a := env.buildSignHash ann.toSigSource) none (some ann.sessionId)
          p.state.recvId
        rw [hby, hrecv, ← htwice]
        refine (h.inverse.drop _).put (update_self ..) hid fun k hk => ?_
        rw [update_apply] at hk
        split at hk
        · cases hk
        · next hne =>
          obtain ⟨session, hsession, heq⟩ := exists_of_recvId hk
          exact hne (hunused hvalid rfl k session hsession heq)
      simp only [apply, processMessageSigSesAnn, hvalid, Option.isSome_some, Bool.not_true,
        Bool.false_eq_true, if_false, Bool.and_self, if_true]
      refine ⟨hinverse, fun id k hk => ?_⟩
      simp only [update_apply] at hk
      split at hk
      · next heq =>
        obtain rfl := Option.some.inj hk
        exact (hinverse _ _).mpr ⟨heq ▸ hid, by rw [hrecv, update_self, heq]⟩
      · obtain ⟨hlast, hne⟩ := forget_eq_some.mp hk
        exact h.of_recvId hinverse hlast (by rw [hrecv, update_of_ne hne])

theorem Inv.remove (h : p.Inv) (signHash) : (p.apply env (.remove signHash)).Inv := by
  have hremoved : Inverse (p.state.removeSession signHash).sessionByRecvId
        (p.state.removeSession signHash).recvId ∧
      ∀ k, k ≠ signHash → (p.state.removeSession signHash).recvId k = p.state.recvId k := by
    unfold removeSession
    split
    · exact ⟨h.inverse, fun k hk => rfl⟩
    · next session hsession =>
      have hid : session.recvSessionId = (p.state.recvId signHash).getD 0xffffffff := by
        rw [recvId, getD_idOf, hsession]
        rfl
      rw [recvId_update, hid]
      exact ⟨h.inverse.drop signHash, fun k hk => update_of_ne hk ..⟩
  refine ⟨hremoved.1, fun id k hk => ?_⟩
  obtain ⟨hlast, hne⟩ := forget_eq_some.mp hk
  exact h.of_recvId hremoved.1 hlast (hremoved.2 k hne)

theorem Inv.apply (h : p.Inv) {op : SigPeerOp Q} (hunused : p.Unused env op) :
    (p.apply env op).Inv := by
  cases op with
  | announce ann quorum => exact h.announce hunused
  | share source => exact ⟨(recvId_share source).symm ▸ h.inverse, h.last⟩
  | remove signHash => exact h.remove signHash

theorem Inv.foldl (h : p.Inv) {ops : List (SigPeerOp Q)} (hunused : p.AllUnused env ops) :
    (ops.foldl (SigPeer.apply env) p).Inv := by
  induction ops generalizing p with
  | nil => exact h
  | cons op ops ih => exact ih (h.apply hunused.1) hunused.2

theorem right_run (ops : List (SigPeerOp Q)) (hunused : AllUnused env {} ops) :
    (run env ops).Right := by
  have hstart : ({} : SigPeer Q).Inv := by
    refine ⟨fun id signHash => ?_, fun id signHash hlast => nomatch hlast⟩
    simp [recvId, idOf]
  exact (hstart.foldl hunused).right

/-- Type 1 is known. -/
def sampleEnv : SigSessionEnv where
  known llmqType := llmqType == 1
  size _ := 10
  buildSignHash source := source.msgHash

def sampleAnn (sessionId : UInt32) (msgHash : Uint256) : CSigSesAnn := ⟨⟨1, 5, 6, msgHash⟩, sessionId⟩

/-- One of two sessions gets another id, the other is removed, and its id is given to a third. -/
def reannounced : List (SigPeerOp Unit) :=
  [.announce (sampleAnn 1 7) (some ()), .announce (sampleAnn 2 8) (some ()),
    .announce (sampleAnn 3 7) (some ()), .remove 8, .announce (sampleAnn 2 9) (some ())]

theorem right_run_reannounced :
    (run sampleEnv reannounced).last 3 = some 7 ∧ (run sampleEnv reannounced).last 2 = some 9 ∧
      (run sampleEnv reannounced).Right := by
  refine ⟨by decide, by decide, right_run _ ⟨?_, ?_, ?_, trivial, ?_, trivial⟩⟩
  all_goals
    intro _ _ signHash session hsession hid
    simp [apply, processMessageSigSesAnn, CSigSharesNodeState.announce, removeSession,
      getOrCreateSession, sampleEnv, sampleAnn, CSigSesAnn.valid, update_apply] at hsession hid ⊢
  all_goals grind

/-- The peer announces two sessions under one id, and the first of them is removed. -/
theorem right_run_displaced :
    let p := run sampleEnv
      [.announce (sampleAnn 1 7) (some ()), .announce (sampleAnn 1 8) (some ()), .remove 7]
    p.last 1 = some 8 ∧ p.state.getSessionByRecvId 1 = none ∧ ¬p.Right := by
  refine ⟨by decide, by decide, fun h => ?_⟩
  exact absurd (h.announced 1 8 (by decide)).1 (by decide)

end SigPeer

/-! ### What is sent -/

namespace CSigSharesManager

/-- The messages pass the checks of the peer and have each collected item once, in order. -/
theorem sendMessages_fits (c : CollectedSigShares S)
    (hsize : ∀ batch ∈ c.sigSharesToSend, batch.sigShares.length ≤ 400) :
    (∀ msg ∈ sendMessages c, tooMany msg = false) ∧
      (sendMessages c).flatMap (fun msg => match msg with | .qsigsesann msgs => msgs | _ => []) =
        c.sigSessionAnnouncements ∧
      (sendMessages c).flatMap (fun msg => match msg with | .qgetsigshares msgs => msgs | _ => []) =
        c.sigSharesToRequest ∧
      (sendMessages c).flatMap (fun msg => match msg with | .qbsigshares msgs => msgs | _ => []) =
        c.sigSharesToSend ∧
      (sendMessages c).flatMap (fun msg => match msg with | .qsigsharesinv msgs => msgs | _ => []) =
        c.sigSharesToAnnounce := by
  refine ⟨?_, ?_, ?_, ?_, ?_⟩
  · intro msg hmsg
    simp only [sendMessages, mem_append, mem_map] at hmsg
    rcases hmsg with ((⟨b, hb, rfl⟩ | ⟨b, hb, rfl⟩) | ⟨b, hb, rfl⟩) | ⟨b, hb, rfl⟩
    · exact decide_eq_false (length_le_of_mem_full (by decide) b hb).not_gt
    · exact decide_eq_false (length_le_of_mem_full (by decide) b hb).not_gt
    · exact decide_eq_false (sum_le_of_mem_weighed [] hsize (Nat.zero_le _) b hb).not_gt
    · exact decide_eq_false (length_le_of_mem_full (by decide) b hb).not_gt
  -- in each list the messages of the other three commands have nothing
  all_goals
    simp [sendMessages, flatMap_map, flatMap_eq_nil_iff.mpr fun _ _ => rfl, flatten_full,
      flatten_weighed]

/-- One announcement more than a message may have, and batches that do not fit one message. -/
def sampleShares : CollectedSigShares Nat where
  sigSessionAnnouncements := replicate 101 (SigPeer.sampleAnn 1 7)
  sigSharesToRequest := [⟨1, [false, true]⟩]
  sigSharesToSend := replicate 2 ⟨1, replicate 300 (0, 5)⟩
  sigSharesToAnnounce := []
  request_ne := by simp [CSigSharesInv.countSet]
  send_ne batch hbatch := by
    rw [eq_of_mem_replicate hbatch]
    exact cons_ne_nil _ _
  announce_ne := by simp

theorem sendMessages_fits_sample :
    (sendMessages sampleShares).length = 5 ∧
      ∀ msg ∈ sendMessages sampleShares, tooMany msg = false :=
  ⟨by decide +kernel, (sendMessages_fits sampleShares (by decide +kernel)).1⟩

end CSigSharesManager

end Absolute
