/-
When `VerifyPendingContributions` returns.

The session waits for the callback of its worker.  It passes on the shares of the pending
members that are not bad and that it does not complain about, which can be none of them.
-/
import AbsoluteCore.Proofs.Bls.Answers
import AbsoluteCore.Proofs.Llmq.Justification

namespace Absolute

open Fallible CDKGSession Except

variable {e : DKGEnv} {s : CDKGSession}

theorem exists_workerFunction {ops : BlsOps Nat Nat} {forId : CBLSId}
    {vvecs : List (Option (BLSVerificationVector Nat))} {skShares : List (Option Nat)}
    {answer : Except Halt (List Bool)}
    (h : WorkerAnswer ops ⟨forId, vvecs, skShares, true, true⟩ answer) :
    ∃ verify, WorkerFunction ops verify ∧ verify forId vvecs skShares = answer := by
  choose other hother using fun forId vvecs skShares =>
    exists_workerAnswer ops ⟨forId, vvecs, skShares, true, true⟩
  refine ⟨fun forId' vvecs' skShares' =>
    if forId' = forId ∧ vvecs' = vvecs ∧ skShares' = skShares then answer
    else other forId' vvecs' skShares', ?_, if_pos ⟨rfl, rfl, rfl⟩⟩
  intro forId' vvecs' skShares'
  show WorkerAnswer ops _ (if _ then _ else _)
  split
  · rename_i heq
    obtain ⟨rfl, rfl, rfl⟩ := heq
    exact h
  · exact hother forId' vvecs' skShares'

theorem verifyPendingContributions_returns (hpending : s.pendingContributionVerifications ≠ []) :
    (∃ s', s.verifyPendingContributions e = .ok s') ↔
      ∃ inp, s.pendingInputs = .ok inp ∧
        ∃ verdicts, e.verifyContributionShares inp.forId inp.vvecs inp.skShares = .ok verdicts := by
  unfold verifyPendingContributions pendingInputs
  rw [if_neg hpending]
  simp only [bind_eq_ok, pure_eq_ok]
  constructor
  · rintro ⟨s', indexes, hindexes, vvecs, hvvecs, sks, hsks, verdicts, hverdicts, -⟩
    exact ⟨_, ⟨indexes, hindexes, vvecs, hvvecs, sks, hsks, rfl⟩, verdicts, hverdicts⟩
  · rintro ⟨inp, ⟨indexes, hindexes, vvecs, hvvecs, sks, hsks, rfl⟩, verdicts, hverdicts⟩
    by_cases hlength : verdicts.length ≠ indexes.length
    · exact ⟨_, indexes, hindexes, vvecs, hvvecs, sks, hsks, verdicts, hverdicts, if_pos hlength⟩
    · exact ⟨_, indexes, hindexes, vvecs, hvvecs, sks, hsks, verdicts, hverdicts, if_neg hlength⟩

theorem pendingInputs_flags {inp : ShareInputs Nat Nat} (h : s.pendingInputs = .ok inp) :
    inp = ⟨inp.forId, inp.vvecs, inp.skShares, true, true⟩ := by
  simp only [pendingInputs, bind_eq_ok, pure_eq_ok] at h
  obtain ⟨_, -, _, -, _, -, rfl⟩ := h
  rfl

theorem verifyPendingReturns_iff_answerable :
    VerifyPendingReturns e s ↔ s.pendingContributionVerifications = [] ∨
      ∃ inp, s.pendingInputs = .ok inp ∧ Answerable e.bls inp := by
  by_cases hpending : s.pendingContributionVerifications = []
  · refine iff_of_true ?_ (.inl hpending)
    intro verify _
    exact ⟨s, by rw [verifyPendingContributions, if_pos hpending]; rfl⟩
  · rw [or_iff_right hpending]
    constructor
    · intro h
      choose verify hverify using fun forId vvecs skShares =>
        exists_workerAnswer e.bls ⟨forId, vvecs, skShares, true, true⟩
      obtain ⟨inp, hinp, -⟩ := (verifyPendingContributions_returns hpending).mp (h verify hverify)
      refine ⟨inp, hinp, answerable_iff_verdicts.mpr ?_⟩
      by_contra hnone
      push Not at hnone
      -- a worker that fails on this call
      obtain ⟨fault, hfault⟩ := exists_error_of_no_verdicts hnone
      rw [pendingInputs_flags hinp] at hfault
      obtain ⟨verify', hverify', heq⟩ := exists_workerFunction hfault
      obtain ⟨inp', hinp', verdicts, hverdicts⟩ :=
        (verifyPendingContributions_returns hpending).mp (h verify' hverify')
      rw [hinp, ok.injEq] at hinp'
      subst hinp'
      exact absurd (heq.symm.trans hverdicts) (by simp)
    · rintro ⟨inp, hinp, hanswerable⟩ verify hverify
      obtain ⟨verdicts, hverdicts⟩ := answerable_iff_verdicts.mp hanswerable
      have hanswer := hverify inp.forId inp.vvecs inp.skShares
      rw [← pendingInputs_flags hinp, workerAnswer_iff hverdicts] at hanswer
      exact (verifyPendingContributions_returns hpending).mpr ⟨inp, hinp, verdicts, hanswer⟩

/--
**The callback is called once, with a verdict for each input, for exactly the answerable inputs.**

So `VerifyPendingContributions` returns when it has nothing to verify from the beginning, or when
what is left of the pending members is answerable.
-/
theorem callsBackOnce_iff {P S : Type} [DecidableEq P] (ops : BlsOps P S) (inp : ShareInputs P S)
    (e : DKGEnv) (s : CDKGSession) :
    (CallsBackOnce ops inp ↔ Answerable ops inp) ∧
    (VerifyPendingReturns e s ↔
      s.pendingContributionVerifications = [] ∨
        ∃ inp, s.pendingInputs = .ok inp ∧ Answerable e.bls inp) :=
  ⟨callsBackOnce_iff_answerable, verifyPendingReturns_iff_answerable⟩

def noShares : ShareInputs Nat Nat :=
  { forId := some 1, vvecs := [], skShares := [], parallel := true, aggregated := true }

/-- A contribution of member 2. -/
def sampleContribution (key : Nat) : CDKGContribution where
  llmqType := 1
  quorumHash := 7
  proTxHash := 2
  vvec := [some key, some (key + 1)]
  blobs := [[0], [0]]
  sig := ⟨some 2⟩

def memberSession : CDKGSession :=
  (CDKGSession.init ⟨2, 1, 2⟩ 7 [registeredMN 1 0, registeredMN 2 1] 1).get rfl

noncomputable def decryptingEnv : DKGEnv := { sampleDKGEnv with decrypt := fun _ _ => some (some 5) }

/-- Member 2 has sent two contributions, so it is bad while its first one is pending. -/
noncomputable def twiceContributedSession : CDKGSession :=
  (memberSession.receiveContribution decryptingEnv 40 (sampleContribution 5) >>= fun s =>
    s.receiveContribution decryptingEnv 41 (sampleContribution 8)).toOption.getD memberSession

/--
No vector is left to verify: the callback is never called, and the session that has marked its
only pending member bad waits for ever.
-/
theorem callsBackOnce_noShares :
    ¬CallsBackOnce sampleBls noShares ∧
      twiceContributedSession.pendingContributionVerifications = [1] ∧
      ¬VerifyPendingReturns decryptingEnv twiceContributedSession := by
  have hno : ∀ forId : CBLSId, forId = some 1 →
      ¬Answerable sampleBls ⟨forId, [], [], true, true⟩ := by
    rintro forId rfl (hrefused | ⟨hne, -⟩)
    · exact absurd hrefused (by decide)
    · exact hne rfl
  refine ⟨?_, rfl, ?_⟩
  · rw [callsBackOnce_iff_answerable]
    exact hno _ rfl
  · rw [verifyPendingReturns_iff_answerable]
    rintro (hnil | ⟨inp, hinp, hanswerable⟩)
    · exact absurd hnil (by decide)
    · have hinputs : twiceContributedSession.pendingInputs = .ok ⟨some 1, [], [], true, true⟩ := rfl
      rw [hinputs, ok.injEq] at hinp
      subst hinp
      exact hno _ rfl hanswerable

end Absolute
