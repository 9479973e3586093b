/-
When a justification is received without touching anything it must not.

`PreVerifyMessage` lets the index one past the last member through, and a session that only
observes never finds out that a member sent no contribution.  The two together decide whether
`ReceiveMessage` returns.
-/
import AbsoluteCore.Proofs.Llmq.DKGSession
import AbsoluteCore.Proofs.Llmq.MessageSigs

namespace Absolute

open Fallible CDKGSession List Option

variable {s : CDKGSession} {e : DKGEnv} {hash : Uint256} {qj : CDKGJustification}
  {member : CDKGMember}

/-- The session in which the shares are looked at. -/
def countJustification (s : CDKGSession) (hash : Uint256) (qj : CDKGJustification)
    (idx : Nat) : CDKGSession :=
  { s with justifications := s.justifications.insertIfNew hash qj }.modifyMember idx fun m =>
    { m with justifications := insert hash m.justifications }

theorem receiveJustification_eq (hm : s.getMember qj.proTxHash = some member)
    (hfew : ¬2 ≤ member.justifications.card) :
    s.receiveJustification e hash qj =
      if 1 < (insert hash member.justifications).card then
        .ok ((countJustification s hash qj member.idx).markBadMember member.idx)
      else if member.bad then .ok (countJustification s hash qj member.idx)
      else receiveShares e (countJustification s hash qj member.idx) member qj := by
  unfold receiveJustification
  simp only [hm, pointee, ok_bind, if_neg hfew]
  rfl

theorem exists_members2_iff : (∃ ms, (qj.contributions.mapM fun p => at? s.members p.1) = .ok ms) ↔
    ∀ p ∈ qj.contributions, p.1 < s.members.length := by
  rw [exists_mapM_eq_ok]
  refine forall₂_congr fun p _ => ?_
  simp only [at?_eq_ok]
  rw [← isSome_iff_exists]
  simp

theorem any_not_complained {ms : List CDKGMember}
    (hms : (qj.contributions.mapM fun p => at? s.members p.1) = .ok ms) :
    ms.any (fun m => m.dmn.proTxHash ∉ member.complaintsFromOthers) = true ↔
      ∃ p ∈ qj.contributions, ∃ member2, s.members[p.1]? = some member2 ∧
        member2.dmn.proTxHash ∉ member.complaintsFromOthers := by
  simp only [List.any_eq_true, decide_eq_true_eq]
  constructor
  · rintro ⟨m, hm, hnot⟩
    obtain ⟨p, hp, hat⟩ := (mapM_mem hms).2 m hm
    exact ⟨p, hp, m, at?_eq_ok.mp hat, hnot⟩
  · rintro ⟨p, hp, member2, hat, hnot⟩
    obtain ⟨m, hm, hat'⟩ := (mapM_mem hms).1 p hp
    rw [at?_eq_ok, hat, some.injEq] at hat'
    subst hat'
    exact ⟨member2, hm, hnot⟩

/-- The worker takes any vector that is there, and stops at a null one. -/
theorem exists_asyncVerify_iff {bls : BlsOps Nat Nat} {id : Uint256}
    {vvec : Option (BLSVerificationVector Nat)} {sk : Option Nat} :
    (∃ b, asyncVerifyContributionShare bls (.fromHash id) vvec sk = .ok b) ↔ vvec ≠ none := by
  unfold asyncVerifyContributionShare CBLSId.fromHash
  cases vvec with
  | none => simp [pointee]
  | some v =>
    simp only [isNone_some, Bool.false_eq_true, if_false, pointee, ok_bind, ne_eq,
      reduceCtorEq, not_false_eq_true, iff_true]
    split
    · exact ⟨_, rfl⟩
    · exact ⟨_, rfl⟩

/-- **The shares can be checked** when their indexes and the vector are there. -/
theorem receiveShares_returns_iff (hwf : s.WF) (hne : qj.contributions ≠ [])
    (hidx : member.idx < s.members.length) :
    (∃ s', receiveShares e s member qj = .ok s') ↔
      (∀ p ∈ qj.contributions, p.1 < s.members.length) ∧
      ((∃ vvec, s.receivedVvecs[member.idx]? = some (some vvec)) ∨
        ∃ p ∈ qj.contributions, ∃ member2, s.members[p.1]? = some member2 ∧
          member2.dmn.proTxHash ∉ member.complaintsFromOthers) := by
  by_cases hrange : ∀ p ∈ qj.contributions, p.1 < s.members.length
  · obtain ⟨ms, hms⟩ := exists_members2_iff.mpr hrange
    rw [and_iff_right hrange]
    unfold receiveShares
    rw [hms, ok_bind]
    by_cases hany : ms.any (fun m => m.dmn.proTxHash ∉ member.complaintsFromOthers) = true
    · rw [if_pos hany]
      exact iff_of_true ⟨_, rfl⟩ (.inr ((any_not_complained hms).mp hany))
    · rw [if_neg hany]
      -- everybody complained, so the vector is asked for
      rw [or_iff_left (mt (any_not_complained hms).mpr hany)]
      obtain ⟨vvec, hvvec⟩ : ∃ vvec, s.receivedVvecs[member.idx]? = some vvec := by
        refine ⟨_, getElem?_eq_getElem ?_⟩
        rw [hwf.vvecs]
        exact hidx
      rw [at?_eq_ok.mpr hvvec, ok_bind, hvvec]
      have hshares : (∃ shares, ((ms.zip qj.contributions).mapM fun x => do
          let result ← asyncVerifyContributionShare e.bls x.1.id vvec x.2.2
          return (x.1, x.2.2, result)) = .ok shares) ↔ vvec ≠ none := by
        have hlen := (mapM_eq_ok.mp hms).length_eq
        obtain ⟨x, hx⟩ : ∃ x, x ∈ ms.zip qj.contributions := by
          refine exists_mem_of_length_pos ?_
          rw [length_zip, ← hlen, Nat.min_self]
          exact length_pos_iff.mpr hne
        rw [exists_mapM_eq_ok]
        refine (forall₂_congr fun x hx => ?_).trans ⟨fun h => h x hx, fun h _ _ => h⟩
        -- one share
        obtain ⟨q, -, hq⟩ := (mapM_mem hms).2 x.1 (of_mem_zip hx).1
        have hverify : (∃ b, asyncVerifyContributionShare e.bls (.fromHash x.1.dmn.proTxHash) vvec
          x.2.2 = .ok b) ↔ vvec ≠ none := exists_asyncVerify_iff
        rw [hwf.id x.1 (mem_of_getElem? (at?_eq_ok.mp hq)), ← hverify]
        cases asyncVerifyContributionShare e.bls (.fromHash x.1.dmn.proTxHash) vvec x.2.2 with
        | error fail => exact iff_of_false (fun ⟨_, h⟩ => by cases h) fun ⟨_, h⟩ => by cases h
        | ok b => exact iff_of_true ⟨_, rfl⟩ ⟨b, rfl⟩
      constructor
      · rintro ⟨s', hs'⟩
        rw [bind_eq_ok] at hs'
        obtain ⟨shares, hok, -⟩ := hs'
        obtain ⟨v, hv⟩ := ne_none_iff_exists'.mp (hshares.mp ⟨shares, hok⟩)
        exact ⟨v, by rw [hv]⟩
      · rintro ⟨v, hv⟩
        rw [some.injEq] at hv
        obtain ⟨shares, hok⟩ := hshares.mpr (by simp [hv])
        exact ⟨_, by rw [hok]; rfl⟩
  · refine iff_of_false ?_ (fun h => hrange h.1)
    rintro ⟨s', hs'⟩
    unfold receiveShares at hs'
    rw [bind_eq_ok] at hs'
    obtain ⟨ms, hms, -⟩ := hs'
    exact hrange (exists_members2_iff.mp ⟨ms, hms⟩)

/--
**When `ReceiveMessage` returns** from a justification that `PreVerifyMessage` let through.
-/
theorem receiveJustification_returns_iff (e : DKGEnv) (s : CDKGSession) (hwf : s.WF)
    (hash : Uint256) (qj : CDKGJustification) (hpre : (s.preVerifyJustification qj).1 = true) :
    (∃ s', s.receiveJustification e hash qj = .ok s') ↔ JustificationSafe s hash qj := by
  obtain ⟨-, member, hm, hcheck⟩ := preVerifyMessage_passes hpre
  have hne : qj.contributions ≠ [] := by
    intro hnil
    simp [hnil] at hcheck
  have hfew : ¬2 ≤ member.justifications.card := by
    intro hmany
    simp only [if_pos hmany] at hcheck
    split at hcheck
    · simp at hcheck
    · split at hcheck <;> simp at hcheck
  rw [receiveJustification_eq hm hfew]
  unfold JustificationSafe
  simp only [hm, some.injEq, forall_eq']
  by_cases hmany : 1 < (insert hash member.justifications).card
  · rw [if_pos hmany]
    exact iff_of_true ⟨_, rfl⟩ (.inl hmany)
  by_cases hbad : member.bad = true
  · rw [if_neg hmany, if_pos hbad]
    exact iff_of_true ⟨_, rfl⟩ (.inr (.inl hbad))
  rw [if_neg hmany, if_neg hbad, or_iff_right hmany, or_iff_right hbad]
  -- counting the justification changes no member's identity and no vector
  have hshape : (countJustification s hash qj member.idx).shape = s.shape := by
    simp [countJustification, shape, modifyMember]
  have hsame : SameMembers s (countJustification s hash qj member.idx) :=
    .of_shape hshape
  have hlen := hsame.length_eq
  have hidx : member.idx < (countJustification s hash qj member.idx).members.length := by
    rw [hlen]
    exact (List.getElem?_eq_some_iff.mp (hwf.getMember hm).1).1
  rw [receiveShares_returns_iff (hwf.of_shape hshape) hne hidx, hlen]
  have hnamed : ∀ p : Nat × Option Nat,
      (∃ member2, (countJustification s hash qj member.idx).members[p.1]? = some member2 ∧
        member2.dmn.proTxHash ∉ member.complaintsFromOthers) ↔
      ∃ member2, s.members[p.1]? = some member2 ∧
        member2.dmn.proTxHash ∉ member.complaintsFromOthers := by
    intro p
    constructor
    · rintro ⟨m', hm', hnot⟩
      obtain ⟨m, hm, hdmn, -⟩ := hsame.getElem? hm'
      exact ⟨m, hm, hdmn ▸ hnot⟩
    · rintro ⟨m, hm, hnot⟩
      obtain ⟨m', hm', hdmn, -⟩ := hsame.symm.getElem? hm
      exact ⟨m', hm', hdmn ▸ hnot⟩
  simp only [hnamed]
  rfl

/-! ### Two justifications that are not safe -/

/-- The library on numbers: a public key is its secret, a share the first key. -/
def sampleBls : BlsOps Nat Nat where
  addPublicKeys := (· + ·)
  addSecretKeys := (· + ·)
  getPublicKey := id
  publicKeyShare keys _ := keys.head?
  getHash := id

noncomputable def sampleDKGEnv : DKGEnv where
  env := sampleEnv []
  bls := sampleBls
  decrypt _ _ := none
  verifyContributionShares _ vvecs _ := .ok (vvecs.map fun _ => true)

/-- Member 1 justifies itself for the member with this index. -/
def sampleJustification (idx : Nat) : CDKGJustification where
  llmqType := 1
  quorumHash := 7
  proTxHash := 1
  contributions := [(idx, some 5)]
  sig := ⟨some 1⟩

/-- Member 2 complains about member 1. -/
def complaintAboutFirst : CDKGComplaint where
  llmqType := 1
  quorumHash := 7
  proTxHash := 2
  badMembers := [false, false]
  complainForMembers := [true, false]
  sig := ⟨some 2⟩

/-- The observer has received the complaint, and no contribution. -/
def complainedSession : CDKGSession :=
  (observerSession.receiveComplaint 30 complaintAboutFirst).toOption.getD observerSession

/-- A justification without a vector, for a member who did not complain, is no danger. -/
theorem receiveJustification_returns_iff_refused :
    ∃ s', complainedSession.receiveJustification sampleDKGEnv 31 (sampleJustification 0) = .ok s' := by
  have hcall : Call sampleDKGEnv observerSession (.ok complainedSession) :=
    .complaint 30 complaintAboutFirst
  refine (receiveJustification_returns_iff sampleDKGEnv complainedSession
    (wf_of_calls (some_get _).symm (.single hcall)) 31 (sampleJustification 0) rfl).mpr ?_
  intro member hm
  obtain rfl := some.inj hm
  exact .inr (.inr ⟨by decide, .inr ⟨(0, some 5), mem_cons_self, _, rfl, by decide⟩⟩)

/--
An index one past the last member, and a justification of a member whose vector the observer
never received: both pass `PreVerifyMessage`, and neither is received.
-/
theorem receiveJustification_returns_iff_unsafe :
    (observerSession.preVerifyJustification (sampleJustification 2)).1 = true ∧
    observerSession.receiveJustification sampleDKGEnv 31 (sampleJustification 2) =
      .error .outOfRange ∧
    (complainedSession.preVerifyJustification (sampleJustification 1)).1 = true ∧
    complainedSession.receiveJustification sampleDKGEnv 31 (sampleJustification 1) =
      .error .nullPointer :=
  ⟨rfl, rfl, rfl, rfl⟩

end Absolute
