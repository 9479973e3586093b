/-
What every session has.

`Init` gives each member its index and its id and one place in every vector; nothing that a
session does later changes that.
-/
import AbsoluteCore.Llmq.DKGSession
import AbsoluteCore.Lib.Fallible

namespace Absolute

open Fallible List Option Except

namespace CDKGSession

/-- The members know their places, and the map knows the members. -/
structure WF (s : CDKGSession) : Prop where
  idx : ∀ (i : Nat) (m : CDKGMember), s.members[i]? = some m → m.idx = i
  id : ∀ m ∈ s.members, m.id = .fromHash m.dmn.proTxHash
  map : ∀ (h : Uint256) (i : Nat), s.membersMap[h]? = some i →
    ∃ m, s.members[i]? = some m ∧ m.dmn.proTxHash = h
  vvecs : s.receivedVvecs.length = s.members.length
  sks : s.receivedSkContributions.length = s.members.length

variable {s s' : CDKGSession} {e : DKGEnv} {hash myProTxHash quorumHash : Uint256}
  {params : DKGParams} {mns : List CDeterministicMN}

theorem WF.getMember (hwf : s.WF) {h : Uint256} {m : CDKGMember} (hm : s.getMember h = some m) :
    s.members[m.idx]? = some m ∧ m.dmn.proTxHash = h := by
  unfold CDKGSession.getMember at hm
  cases hi : s.membersMap[h]? with
  | none => simp [hi] at hm
  | some i =>
    rw [hi] at hm
    obtain ⟨m', hm', hhash⟩ := hwf.map h i hi
    have heq : m' = m := by
      have : s.members[i]? = some m := hm
      rw [hm'] at this
      exact some.inj this
    subst heq
    rw [hwf.idx i m' hm']
    exact ⟨hm', hhash⟩

/-! ### `Init` -/

theorem getElem?_membersMap (mns : List CDeterministicMN) (k : Nat)
    (m : Std.ExtTreeMap Uint256 Nat compare) (h : Uint256) (i : Nat)
    (hi : ((mns.zipIdx k).foldl (fun m p => m.insertIfNew p.1.proTxHash p.2) m)[h]? = some i) :
    m[h]? = some i ∨ ∃ dmn, (dmn, i) ∈ mns.zipIdx k ∧ dmn.proTxHash = h := by
  induction mns generalizing k m with
  | nil => exact .inl hi
  | cons dmn rest ih =>
    rcases ih (k + 1) _ hi with hi | ⟨dmn', hmem, hhash⟩
    · rw [Std.ExtTreeMap.getElem?_insertIfNew] at hi
      split at hi
      · next hnew =>
          rw [some.injEq] at hi
          subst hi
          refine .inr ⟨dmn, ?_, Std.LawfulEqCmp.compare_eq_iff_eq.mp hnew.1⟩
          exact mem_cons_self
      · exact .inl hi
    · refine .inr ⟨dmn', ?_, hhash⟩
      exact mem_cons_of_mem _ hmem

theorem wf_init (h : init params quorumHash mns myProTxHash = some s) : s.WF := by
  unfold init at h
  split at h
  · simp at h
  · rw [some.injEq] at h
    subst h
    refine ⟨?_, ?_, ?_, ?_, ?_⟩
    · intro i m hm
      simp only [getElem?_map, getElem?_zipIdx, Option.map_map, Option.map_eq_some_iff] at hm
      obtain ⟨dmn, -, rfl⟩ := hm
      simp [CDKGMember.new]
    · intro m hm
      obtain ⟨⟨dmn, i⟩, -, rfl⟩ := mem_map.mp hm
      rfl
    · intro hash i hi
      rcases getElem?_membersMap mns 0 ∅ hash i hi with hi | ⟨dmn, hmem, hhash⟩
      · simp at hi
      · rw [mem_zipIdx_iff_getElem?] at hmem
        refine ⟨CDKGMember.new dmn i, ?_, hhash⟩
        simp only at hmem
        simp [hmem]
    · simp
    · simp

/-! ### Writes -/

/-- The members of `s'` are those of `s`, up to what messages change about them. -/
def SameMembers (s s' : CDKGSession) : Prop :=
  s'.members.map (fun m => (m.dmn, m.idx, m.id)) = s.members.map (fun m => (m.dmn, m.idx, m.id))

theorem SameMembers.length_eq (h : SameMembers s s') : s'.members.length = s.members.length := by
  have := congrArg length h
  simpa using this

theorem SameMembers.getElem? (h : SameMembers s s') {i : Nat} {m' : CDKGMember}
    (hm : s'.members[i]? = some m') :
    ∃ m, s.members[i]? = some m ∧ m'.dmn = m.dmn ∧ m'.idx = m.idx ∧ m'.id = m.id := by
  have hi := congrArg (fun l => l[i]?) h
  simp only [getElem?_map, hm, map_some] at hi
  obtain ⟨m, hm', heq⟩ := map_eq_some_iff.mp hi.symm
  simp only [Prod.mk.injEq] at heq
  exact ⟨m, hm', heq.1.symm, heq.2.1.symm, heq.2.2.symm⟩

theorem SameMembers.symm (h : SameMembers s s') : SameMembers s' s := Eq.symm h

/-- What no call changes: the quorum, who the members are, where the map finds them and how long the
vectors are. -/
def shape (s : CDKGSession) : DKGParams × Uint256 × List (CDeterministicMN × Nat × CBLSId) ×
    Std.ExtTreeMap Uint256 Nat compare × Nat × Nat :=
  (s.params, s.quorumHash, s.members.map fun m => (m.dmn, m.idx, m.id), s.membersMap,
    s.receivedVvecs.length, s.receivedSkContributions.length)

theorem SameMembers.of_shape (h : s'.shape = s.shape) : SameMembers s s' := by
  simp only [shape, Prod.mk.injEq] at h
  exact h.2.2.1

theorem WF.of_shape (hwf : s.WF) (hshape : s'.shape = s.shape) : s'.WF := by
  have h : SameMembers s s' := .of_shape hshape
  simp only [shape, Prod.mk.injEq] at hshape
  obtain ⟨-, -, -, hmap, hvvecs, hsks⟩ := hshape
  refine ⟨?_, ?_, ?_, ?_, ?_⟩
  · intro i m' hm'
    obtain ⟨m, hm, -, hidx, -⟩ := h.getElem? hm'
    rw [hidx]
    exact hwf.idx i m hm
  · intro m' hm'
    obtain ⟨i, hi⟩ := mem_iff_getElem?.mp hm'
    obtain ⟨m, hm, hdmn, -, hid⟩ := h.getElem? hi
    rw [hid, hdmn]
    exact hwf.id m (mem_of_getElem? hm)
  · intro hash i hi
    rw [hmap] at hi
    obtain ⟨m, hm, hhash⟩ := hwf.map hash i hi
    obtain ⟨m', hm', hdmn, -, -⟩ := h.symm.getElem? hm
    exact ⟨m', hm', by rw [← hdmn, hhash]⟩
  · rw [hvvecs, hwf.vvecs, h.length_eq]
  · rw [hsks, hwf.sks, h.length_eq]

@[simp] theorem map_modify_identity (ms : List CDKGMember) (i : Nat) {f : CDKGMember → CDKGMember}
    (hf : ∀ m, (f m).dmn = m.dmn ∧ (f m).idx = m.idx ∧ (f m).id = m.id) :
    (ms.modify i f).map (fun m => (m.dmn, m.idx, m.id)) = ms.map fun m => (m.dmn, m.idx, m.id) := by
  refine ext_getElem? fun j => ?_
  simp only [getElem?_map, getElem?_modify]
  cases ms[j]? with
  | none => rfl
  | some m =>
    obtain ⟨hdmn, hidx, hid⟩ := hf m
    by_cases hij : i = j <;> simp [hij, hdmn, hidx, hid]

theorem shape_foldl {β : Type} {f : CDKGSession → β → CDKGSession}
    (hf : ∀ s x, (f s x).shape = s.shape) (xs : List β) (s : CDKGSession) :
    (xs.foldl f s).shape = s.shape :=
  foldlRecOn (motive := fun t => t.shape = s.shape) xs f rfl fun t ht x _ => (hf t x).trans ht

/-! ### Calls -/

theorem shape_applyVerdict (s : CDKGSession) (verdict : Nat × Bool) :
    (s.applyVerdict verdict).shape = s.shape := by
  unfold applyVerdict
  split <;> simp [shape, modifyMember]

theorem shape_verifyPendingContributions (hok : s.verifyPendingContributions e = .ok s') :
    s'.shape = s.shape := by
  unfold verifyPendingContributions at hok
  split at hok
  · rw [← pure_eq_ok.mp hok]
  · simp only [bind_eq_ok] at hok
    obtain ⟨idxs, -, vvecs, -, sks, -, result, -, hok⟩ := hok
    split at hok
    · rw [← pure_eq_ok.mp hok]
      rfl
    · rw [← pure_eq_ok.mp hok, shape_foldl shape_applyVerdict]
      rfl

theorem shape_receiveContribution {qc : CDKGContribution}
    (hok : s.receiveContribution e hash qc = .ok s') : s'.shape = s.shape := by
  unfold receiveContribution at hok
  rw [bind_eq_ok] at hok
  obtain ⟨member, -, hok⟩ := hok
  dsimp only at hok
  split at hok
  · rw [← pure_eq_ok.mp hok]
  split at hok
  · simp [← pure_eq_ok.mp hok, shape, markBadMember, modifyMember]
  split at hok
  · simp [← pure_eq_ok.mp hok, shape, modifyMember]
  split at hok
  · simp [← pure_eq_ok.mp hok, shape, modifyMember]
  split at hok
  · rw [shape_verifyPendingContributions hok]
    simp [shape, modifyMember]
  · simp [← pure_eq_ok.mp hok, shape, modifyMember]

theorem shape_verifyAndComplain (hok : s.verifyAndComplain e = .ok s') : s'.shape = s.shape := by
  unfold verifyAndComplain at hok
  split at hok
  · rw [ok.inj hok]
  · simp only [bind_eq_ok, pure_eq_ok] at hok
    obtain ⟨s₁, hverify, rfl⟩ := hok
    rw [← shape_verifyPendingContributions hverify]
    simp only [shape, List.map_map]
    congr 3
    refine List.map_congr_left fun m _ => ?_
    by_cases hsilent : m.contributions = ∅ <;> simp [hsilent]

theorem shape_receiveComplaint {qc : CDKGComplaint} (hok : s.receiveComplaint hash qc = .ok s') :
    s'.shape = s.shape := by
  unfold receiveComplaint at hok
  rw [bind_eq_ok] at hok
  obtain ⟨member, -, hok⟩ := hok
  split at hok
  · rw [← pure_eq_ok.mp hok]
  split at hok
  · simp [← pure_eq_ok.mp hok, shape, markBadMember, modifyMember]
  · simp only [bind_eq_ok, pure_eq_ok] at hok
    obtain ⟨members, hmembers, rfl⟩ := hok
    have hsame : members.map (fun m => (m.dmn, m.idx, m.id)) = _ :=
      mapM_map_eq (k := (fun m : CDKGMember => (m.dmn, m.idx, m.id)) ∘ Prod.fst) hmembers
        fun p _ m hm => by
          simp only [bind_eq_ok, pure_eq_ok] at hm
          obtain ⟨bad, -, complain, -, rfl⟩ := hm
          cases bad <;> cases complain <;> rfl
    rw [← List.map_map, zipIdx_map_fst] at hsame
    simp [shape, modifyMember, hsame]

theorem shape_applyShare (idx : Nat) (s : CDKGSession) (share : CDKGMember × Option Nat × Bool) :
    (s.applyShare idx share).shape = s.shape := by
  unfold applyShare
  split
  · simp [shape, markBadMember, modifyMember]
  · split <;> simp [shape, modifyMember]

theorem shape_receiveShares {member : CDKGMember} {qj : CDKGJustification}
    (hok : s.receiveShares e member qj = .ok s') : s'.shape = s.shape := by
  unfold receiveShares at hok
  rw [bind_eq_ok] at hok
  obtain ⟨members2, -, hok⟩ := hok
  split at hok
  · simp [← pure_eq_ok.mp hok, shape, markBadMember, modifyMember]
  · simp only [bind_eq_ok, pure_eq_ok] at hok
    obtain ⟨vvec, -, shares, -, rfl⟩ := hok
    exact shape_foldl (shape_applyShare member.idx) _ _

theorem shape_receiveJustification {qj : CDKGJustification}
    (hok : s.receiveJustification e hash qj = .ok s') : s'.shape = s.shape := by
  unfold receiveJustification at hok
  rw [bind_eq_ok] at hok
  obtain ⟨member, -, hok⟩ := hok
  split at hok
  · rw [← pure_eq_ok.mp hok]
  split at hok
  · simp [← pure_eq_ok.mp hok, shape, markBadMember, modifyMember]
  split at hok
  · simp [← pure_eq_ok.mp hok, shape, modifyMember]
  · rw [shape_receiveShares hok]
    simp [shape, modifyMember]

/-- What the handler can make a session do. -/
inductive Call (e : DKGEnv) (s : CDKGSession) : Except Halt CDKGSession → Prop
  | contribution (hash : Uint256) (qc : CDKGContribution) : Call e s (s.receiveContribution e hash qc)
  | verifyAndComplain : Call e s (s.verifyAndComplain e)
  | complaint (hash : Uint256) (qc : CDKGComplaint) : Call e s (s.receiveComplaint hash qc)
  | justification (hash : Uint256) (qj : CDKGJustification) :
      Call e s (s.receiveJustification e hash qj)

theorem Call.shape_eq {r : Except Halt CDKGSession} (h : Call e s r) (hok : r = .ok s') :
    s'.shape = s.shape := by
  cases h with
  | contribution => exact shape_receiveContribution hok
  | verifyAndComplain => exact shape_verifyAndComplain hok
  | complaint => exact shape_receiveComplaint hok
  | justification => exact shape_receiveJustification hok

/-- **Every session is well-formed**, whatever it was given after `Init`. -/
theorem wf_of_calls {s₀ : CDKGSession} (hinit : init params quorumHash mns myProTxHash = some s₀)
    (hcalls : Relation.ReflTransGen (fun s s' => Call e s (.ok s')) s₀ s) : s.WF := by
  induction hcalls with
  | refl => exact wf_init hinit
  | tail _ hcall ih => exact ih.of_shape (hcall.shape_eq rfl)

end CDKGSession

end Absolute
