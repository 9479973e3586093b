/-
All schedules of `AsyncVerifyContributionShares`.

A call that is not refused starts in the invariant of the verifier and stays in it.  So the
callback can only get the verdicts that the computation without threads gives, and where that
computation has no answer, every schedule ends in a fault or without a call.
-/
import AbsoluteCore.Proofs.Bls.ContributionVerifier

namespace Absolute

open Fallible Pool Lts List Option Except ShareInputs

variable {P S : Type} {inp : ShareInputs P S}

/-! ### The start -/

theorem jobsOf_asyncAggregate (b k : Nat) :
    jobsOf b ↑((List.range k).map fun b => Task.job b .asyncAggregate) =
      if b < k then {.asyncAggregate} else 0 := by
  induction k with
  | zero => rfl
  | succ k ih =>
    rw [range_succ, map_append, ← Multiset.coe_add, jobsOf_add, ih]
    show _ + jobsOf b (Task.job k .asyncAggregate ::ₘ 0) = _
    by_cases hk : k = b
    · subst hk
      rw [jobsOf_cons_self, if_neg (Nat.lt_irrefl k), if_pos (Nat.lt_succ_self k), zero_add]
      rfl
    · rw [jobsOf_cons_ne hk]
      show _ + 0 = _
      rw [add_zero]
      congr 1
      rw [eq_iff_iff]
      omega

/-- The tasks of the calling thread. -/
def startTasks (inp : ShareInputs P S) : List Task :=
  if inp.aggregated then (List.range inp.batchCount).map fun b => .job b .asyncAggregate
  else [.job 0 .verifyOneByOne]

theorem mem_startTasks {task : Task} (h : task ∈ startTasks inp) :
    ∃ b job, task = .job b job ∧ b < inp.batchCount := by
  unfold startTasks at h
  split at h
  · obtain ⟨b, hb, rfl⟩ := mem_map.mp h
    exact ⟨b, _, rfl, mem_range.mp hb⟩
  · rename_i haggregated
    obtain rfl := mem_singleton.mp h
    exact ⟨0, _, rfl, by simp [batchCount, haggregated]⟩

/-- The batch before anything is done for it. -/
def startBatch (inp : ShareInputs P S) (b : Nat) : BatchState P S :=
  { verifyResults := List.replicate (inp.count b) false
    result := List.replicate inp.vecSize none }

variable {ops : BlsOps P S} {v : ContributionVerifier P S}

theorem start_of_not_refused (hrefused : ¬inp.Refused ops) :
    asyncVerifyContributionShares ops inp =
      { batchStates := (List.range inp.batchCount).map (startBatch inp)
        threads := [startTasks inp] } :=
  if_neg hrefused

theorem start_of_refused (hrefused : inp.Refused ops) :
    asyncVerifyContributionShares ops inp =
      { batchStates := [], calls := [inp.vvecs.map fun _ => false], deleted := true, threads := [[]] } :=
  if_pos hrefused

theorem idle_iff : v.Idle ↔ pending v.threads = 0 := by
  rw [pending, Multiset.coe_eq_zero, flatten_eq_nil_iff]
  rfl

variable [DecidableEq P] {b : Nat}

theorem stage_start (ops : BlsOps P S) (hb : b < inp.batchCount) :
    Stage ops inp b (startBatch inp b) (jobsOf b ↑(startTasks inp)) (inp.count b) := by
  unfold startTasks
  by_cases haggregated : inp.aggregated = true
  · rw [if_pos haggregated, jobsOf_asyncAggregate, if_pos hb]
    exact .waiting haggregated (by simp [startBatch]) rfl rfl
  · have hzero : b = 0 := by
      rw [batchCount, if_neg haggregated] at hb
      omega
    subst hzero
    rw [if_neg haggregated]
    exact .reverting (if_neg haggregated)

theorem verifierInv_start (hrefused : ¬inp.Refused ops) (hn : inp.vvecs ≠ []) :
    VerifierInv ops inp (asyncVerifyContributionShares ops inp) inp.count := by
  have htotal : totalOwed inp inp.count = inp.vvecs.length := sum_count_batchCount inp
  have hpos := length_pos_iff.mpr hn
  rw [start_of_not_refused hrefused]
  have hpending : pending [startTasks inp] = ↑(startTasks inp) := by
    rw [pending_cons, pending_nil, add_zero]
  refine ⟨by simp, ?_, ?_, ?_, ?_, ?_⟩
  · intro b job hmem
    rw [hpending] at hmem
    obtain ⟨b', job', heq, hb'⟩ := mem_startTasks (Multiset.mem_coe.mp hmem)
    injection heq with hbb
    exact hbb ▸ hb'
  · intro b st hst
    rw [getElem?_map, map_eq_some_iff] at hst
    obtain ⟨b', hb', rfl⟩ := hst
    obtain ⟨hb, rfl⟩ := List.getElem?_eq_some_iff.mp hb'
    rw [List.length_range] at hb
    rw [List.getElem_range]
    rw [hpending]
    exact stage_start ops hb
  · show 0 + _ = _
    omega
  · intro _
    refine ⟨rfl, ?_⟩
    rw [hpending, if_neg (by omega), Multiset.coe_count, count_eq_zero]
    intro hmem
    obtain ⟨b, job, heq, -⟩ := mem_startTasks hmem
    exact absurd heq (by simp)
  · intro hdeleted
    exact absurd hdeleted (by simp)

theorem Reaches.verifierInv (hrefused : ¬inp.Refused ops) (hn : inp.vvecs ≠ [])
    (hv : Reaches ops inp v) : ∃ owed, VerifierInv ops inp v owed := by
  obtain ⟨tr, hrun⟩ := hv
  have hstep : ∀ (v : ContributionVerifier P S) (k : Nat) (v' : ContributionVerifier P S),
      (∃ owed, VerifierInv ops inp v owed) → VerifierStep ops inp v k v' →
        ∃ owed, VerifierInv ops inp v' owed := by
    rintro v k v' ⟨owed, hinv⟩ hstep
    exact hinv.step hn hstep
  exact (hrun.invariant _ hstep ⟨_, verifierInv_start hrefused hn⟩).1

/-! ### The end -/

theorem contributionVerdicts_eq_ok (hrefused : ¬inp.Refused ops) {verdicts : List Bool} :
    contributionVerdicts ops inp = .ok verdicts ↔ inp.vvecs ≠ [] ∧
      ∃ batches, (List.range inp.batchCount).mapM (batchVerdicts ops inp) = .ok batches ∧
        batches.flatten = verdicts := by
  rw [contributionVerdicts, if_neg hrefused]
  split
  · rename_i hnil
    simp [hnil]
  · rename_i hne
    simp only [bind_eq_ok, pure_eq_ok, ne_eq, hne, not_false_eq_true, true_and]

namespace VerifierInv

variable {owed : Nat → Nat}

section

variable (h : VerifierInv ops inp v owed)

include h

/-- Once nothing is owed, the batches hold the verdicts. -/
theorem contributionVerdicts_eq (hrefused : ¬inp.Refused ops) (hn : inp.vvecs ≠ [])
    (htotal : totalOwed inp owed = 0) : contributionVerdicts ops inp = .ok (finishResult v) := by
  rw [contributionVerdicts_eq_ok hrefused]
  refine ⟨hn, v.batchStates.map (·.verifyResults), ?_, rfl⟩
  rw [mapM_eq_ok, forall₂_iff_get]
  refine ⟨by rw [length_range, length_map, h.length], ?_⟩
  intro b hb hb'
  rw [length_range] at hb
  rw [length_map] at hb'
  have howed : owed b = 0 := Finset.sum_eq_zero_iff.mp htotal b (Finset.mem_range.mpr hb)
  have hstage := h.stage b _ (getElem?_eq_getElem hb')
  simpa using (hstage.of_owed_zero (count_pos hn hb) howed).2

/-- A callback was called with the verdicts. -/
theorem calls_eq (hrefused : ¬inp.Refused ops) (hn : inp.vvecs ≠ []) (hcalls : v.calls ≠ []) :
    ∃ verdicts, contributionVerdicts ops inp = .ok verdicts ∧ v.calls = [verdicts] := by
  cases hdeleted : v.deleted with
  | false => exact absurd (h.running hdeleted).1 hcalls
  | true =>
    obtain ⟨hcalls, htotal, -⟩ := h.finished hdeleted
    exact ⟨_, h.contributionVerdicts_eq hrefused hn htotal, hcalls⟩

/-- No task faults where every batch has verdicts. -/
theorem exists_runTask (hn : inp.vvecs ≠ [])
    (hok : ∀ b < inp.batchCount, ∃ verdicts, batchVerdicts ops inp b = .ok verdicts) {task : Task}
    (htask : task ∈ pending v.threads) : ∃ r, runTask ops inp v task = .ok r := by
  have hdeleted : v.deleted = false := by
    cases hdel : v.deleted with
    | false => rfl
    | true =>
      obtain ⟨-, htotal, hfinish⟩ := h.finished hdel
      cases task with
      | finish => exact absurd htask (Multiset.count_eq_zero.mp hfinish)
      | job b job =>
        have hpos := h.owed_pos hn htask
        omega
  cases task with
  | finish => exact ⟨_, by simp only [runTask, hdeleted]; rfl⟩
  | job b job =>
    by_cases hpush : ∃ j, job = .push j
    · obtain ⟨j, rfl⟩ := hpush
      simp only [runTask, hdeleted, Bool.false_eq_true, if_false]
      split
      · exact ⟨_, rfl⟩
      · exact ⟨_, rfl⟩
    · have hjob : ∀ j, job ≠ .push j := fun j hj => hpush ⟨j, hj⟩
      have hb := h.job_lt b job htask
      obtain ⟨verdicts, hverdicts⟩ := hok b hb
      have hst : v.batchStates[b]? = some (v.batchStates.get ⟨b, h.length.symm ▸ hb⟩) :=
        getElem?_eq_getElem (h.length.symm ▸ hb)
      have hstage := h.stage b _ hst
      obtain ⟨others, hothers⟩ := Multiset.exists_cons_of_mem htask
      rw [hothers, jobsOf_cons_self, Job.unpushed_eq hjob] at hstage
      obtain ⟨⟨st', jobs, verified⟩, hrun, -⟩ :=
        hstage.step.exists_ok fun _ hfault => hfault _ hverdicts
      rw [runTask.eq_3 ops inp v b job hjob, hdeleted, at?_eq_ok.mpr hst, ok_bind, hrun]
      cases verified with
      | none => exact ⟨_, rfl⟩
      | some n => exact ⟨_, rfl⟩

/-- The threads of a call that has an answer do not stop before they have given it. -/
theorem calls_of_idle
    (hok : ∀ b < inp.batchCount, ∃ verdicts, batchVerdicts ops inp b = .ok verdicts)
    (hidle : v.Idle) : v.calls ≠ [] := by
  have hpending := idle_iff.mp hidle
  have htotal : totalOwed inp owed = 0 := by
    refine Finset.sum_eq_zero fun b hb => ?_
    obtain ⟨verdicts, hverdicts⟩ := hok b (Finset.mem_range.mp hb)
    have hst : v.batchStates[b]? = some _ :=
      getElem?_eq_getElem (h.length.symm ▸ Finset.mem_range.mp hb)
    exact (h.stage b _ hst).of_jobs_zero hverdicts (by rw [hpending]; rfl)
  cases hdeleted : v.deleted with
  | false =>
    have hfinish := (h.running hdeleted).2
    rw [if_pos htotal, hpending, Multiset.count_zero] at hfinish
    exact absurd hfinish (by decide)
  | true =>
    rw [(h.finished hdeleted).1]
    exact cons_ne_nil _ _

end

end VerifierInv

variable {verdicts : List Bool}

/-! ### Verdicts and inputs -/

theorem length_batchVerdicts (h : batchVerdicts ops inp b = .ok verdicts) :
    verdicts.length = inp.count b := by
  have hindividual : ∀ {verdicts}, individualVerdicts ops inp b = .ok verdicts →
      verdicts.length = inp.count b := by
    intro verdicts h
    rw [← (mapM_eq_ok.mp h).length_eq, length_range]
  rw [batchVerdicts] at h
  split at h
  · split at h
    · exact absurd h (by simp)
    · simp only [bind_eq_ok] at h
      obtain ⟨vvec, -, sk, -, h⟩ := h
      split at h
      · exact absurd h (by simp)
      · split at h
        · rw [← pure_eq_ok.mp h, length_replicate]
        · split at h
          · rw [← pure_eq_ok.mp h, length_replicate]
          · exact hindividual h
  · exact hindividual h

theorem length_contributionVerdicts (h : contributionVerdicts ops inp = .ok verdicts) :
    verdicts.length = inp.vvecs.length := by
  by_cases hrefused : inp.Refused ops
  · rw [contributionVerdicts, if_pos hrefused, ok.injEq] at h
    rw [← h, length_map]
  · obtain ⟨-, batches, hbatches, rfl⟩ := (contributionVerdicts_eq_ok hrefused).mp h
    rw [length_flatten, mapM_map_eq hbatches fun b _ _ => length_batchVerdicts]
    exact sum_count_batchCount inp

/-! ### Every schedule -/

theorem Reaches.eq_start (hrefused : inp.Refused ops) (hv : Reaches ops inp v) :
    v = asyncVerifyContributionShares ops inp := by
  obtain ⟨tr, hrun⟩ := hv
  cases hrun with
  | nil => rfl
  | @cons _ v' _ k _ hstep =>
    obtain ⟨task, rest, -, -, -, hthread, -⟩ := stepThread_eq_ok hstep
    rw [start_of_refused hrefused] at hthread
    exact absurd (mem_of_getElem? hthread) (by simp)

/-- Where a call has an answer, no schedule faults and each gives this answer, once. -/
theorem callsBack_of_verdicts (h : contributionVerdicts ops inp = .ok verdicts)
    (hv : Reaches ops inp v) :
    (∀ k e, stepThread ops inp v k ≠ some (.error e)) ∧ (v.calls = [] ∨ v.calls = [verdicts]) ∧
      (v.Idle → v.calls = [verdicts]) := by
  by_cases hrefused : inp.Refused ops
  · rw [contributionVerdicts, if_pos hrefused, ok.injEq] at h
    rw [hv.eq_start hrefused, start_of_refused hrefused, h]
    refine ⟨?_, .inr rfl, fun _ => rfl⟩
    intro k e hfault
    unfold stepThread at hfault
    split at hfault
    · rename_i hthread
      exact absurd (mem_of_getElem? hthread) (by simp)
    · exact absurd hfault (by simp)
  · obtain ⟨hn, batches, hbatches, -⟩ := (contributionVerdicts_eq_ok hrefused).mp h
    have hok : ∀ b < inp.batchCount, ∃ verdicts, batchVerdicts ops inp b = .ok verdicts :=
      fun b hb => exists_mapM_eq_ok.mp ⟨batches, hbatches⟩ b (mem_range.mpr hb)
    obtain ⟨owed, hinv⟩ := hv.verifierInv hrefused hn
    have hcalls : v.calls ≠ [] → v.calls = [verdicts] := by
      intro hne
      obtain ⟨verdicts', hverdicts', hcalls⟩ := hinv.calls_eq hrefused hn hne
      rw [h, ok.injEq] at hverdicts'
      rw [hcalls, hverdicts']
    refine ⟨?_, or_iff_not_imp_left.mpr hcalls, fun hidle => hcalls (hinv.calls_of_idle hok hidle)⟩
    intro k e hfault
    unfold stepThread at hfault
    split at hfault
    · rename_i task rest hthread
      obtain ⟨⟨v₁, next, spawned⟩, hrun⟩ := hinv.exists_runTask hn hok (mem_pending hthread)
      rw [hrun, ok_bind, some.injEq] at hfault
      exact absurd hfault (by simp [pure, Except.pure])
    · exact absurd hfault (by simp)

theorem weight_bounds (ops : BlsOps P S) (inp : ShareInputs P S) :
    ∃ n, ∀ tr v,
      Run (VerifierStep ops inp) (asyncVerifyContributionShares ops inp) tr v → tr.length ≤ n := by
  refine ⟨(asyncVerifyContributionShares ops inp).weight inp, ?_⟩
  intro tr v hrun
  have hle := hrun.length_le (ContributionVerifier.weight inp) fun v k v' => VerifierStep.weight_lt
  omega

theorem callsBackOnce_of_verdicts (h : contributionVerdicts ops inp = .ok verdicts) :
    CallsBackOnce ops inp := by
  refine ⟨weight_bounds ops inp, ?_, ?_⟩
  · intro v k e hv
    exact (callsBack_of_verdicts h hv).1 k e
  · intro v hv hidle
    exact ⟨verdicts, (callsBack_of_verdicts h hv).2.2 hidle, length_contributionVerdicts h⟩

/-- Every schedule ends. -/
theorem exists_stuck (ops : BlsOps P S) (inp : ShareInputs P S) :
    ∃ v, Reaches ops inp v ∧ (v.Idle ∨ ∃ k e, stepThread ops inp v k = some (.error e)) := by
  obtain ⟨tr, v, hrun, hend⟩ := Run.exists_terminal (ContributionVerifier.weight inp)
    (fun v k v' => VerifierStep.weight_lt) (asyncVerifyContributionShares ops inp)
  refine ⟨v, ⟨tr, hrun⟩, ?_⟩
  by_cases hidle : v.Idle
  · exact .inl hidle
  · obtain ⟨k, task, rest, hthread⟩ := exists_ready (mt idle_iff.mpr hidle)
    right
    have hstep : ∃ r, stepThread ops inp v k = some r := by
      unfold stepThread
      rw [hthread]
      exact ⟨_, rfl⟩
    obtain ⟨r, hr⟩ := hstep
    cases r with
    | error e => exact ⟨k, e, hr⟩
    | ok v' => exact absurd hr (hend k v')

/-- A call with nothing to verify has no job that could bring the last verdict. -/
theorem blocks_of_nil (hrefused : ¬inp.Refused ops) (hn : inp.vvecs = []) :
    WorkerAnswer ops inp (.error .blocked) := by
  have hstart := start_of_not_refused hrefused
  by_cases haggregated : inp.aggregated = true
  · refine .blocks ⟨[], .nil _⟩ ?_ ?_
    · rw [hstart]
      intro thread hthread
      rw [mem_singleton.mp hthread, startTasks, if_pos haggregated, batchCount,
        if_pos haggregated, hn]
      simp
    · rw [hstart]
  · have hstep : VerifierStep ops inp (asyncVerifyContributionShares ops inp) 0
        { batchStates := [{ startBatch inp 0 with verifyResults := [] }], threads := [[]] } := by
      have hcount : inp.count 0 = 0 := by simp [ShareInputs.count, hn]
      have hbatches : inp.batchCount = 1 := if_neg haggregated
      rw [hstart, VerifierStep, hbatches, startTasks, if_neg haggregated]
      simp [stepThread, runTask, at?, runJob, hcount, range_succ]
    refine .blocks ⟨_, .single hstep⟩ ?_ rfl
    intro thread hthread
    exact mem_singleton.mp hthread

/-- A call that has no answer waits for ever or faults. -/
theorem exists_error_of_no_verdicts (h : ∀ verdicts, contributionVerdicts ops inp ≠ .ok verdicts) :
    ∃ e, WorkerAnswer ops inp (.error e) := by
  have hrefused : ¬inp.Refused ops := by
    intro hrefused
    exact h _ (if_pos hrefused)
  by_cases hn : inp.vvecs = []
  · exact ⟨_, blocks_of_nil hrefused hn⟩
  · obtain ⟨v, hv, hidle | ⟨k, e, hfault⟩⟩ := exists_stuck ops inp
    · obtain ⟨owed, hinv⟩ := hv.verifierInv hrefused hn
      refine ⟨_, .blocks hv hidle ?_⟩
      by_contra hcalls
      obtain ⟨verdicts, hverdicts, -⟩ := hinv.calls_eq hrefused hn hcalls
      exact h verdicts hverdicts
    · exact ⟨e, .faults hv hfault⟩

theorem workerAnswer_iff (h : contributionVerdicts ops inp = .ok verdicts)
    {answer : Except Halt (List Bool)} : WorkerAnswer ops inp answer ↔ answer = .ok verdicts := by
  constructor
  · intro hanswer
    cases hanswer with
    | returns hv hcalls =>
      rcases (callsBack_of_verdicts h hv).2.1 with hnone | hone
      · exact absurd (hcalls.symm.trans hnone) (cons_ne_nil _ _)
      · rw [hcalls] at hone
        rw [(List.cons.inj hone).1]
    | faults hv hfault => exact absurd hfault ((callsBack_of_verdicts h hv).1 _ _)
    | blocks hv hidle hcalls =>
      exact absurd (((callsBack_of_verdicts h hv).2.2 hidle).symm.trans hcalls) (cons_ne_nil _ _)
  · rintro rfl
    obtain ⟨v, hv, hidle | ⟨k, e, hfault⟩⟩ := exists_stuck ops inp
    · exact .returns hv ((callsBack_of_verdicts h hv).2.2 hidle)
    · exact absurd hfault ((callsBack_of_verdicts h hv).1 k e)

theorem CallsBackOnce.not_error (h : CallsBackOnce ops inp) (e : Halt) :
    ¬WorkerAnswer ops inp (.error e) := by
  intro hanswer
  cases hanswer with
  | faults hv hfault => exact h.safe _ _ _ hv hfault
  | blocks hv hidle hcalls =>
    obtain ⟨verdicts, hone, -⟩ := h.once _ hv hidle
    exact absurd (hone.symm.trans hcalls) (cons_ne_nil _ _)

theorem callsBackOnce_iff_verdicts :
    CallsBackOnce ops inp ↔ ∃ verdicts, contributionVerdicts ops inp = .ok verdicts := by
  constructor
  · intro h
    by_contra hnone
    push Not at hnone
    obtain ⟨e, hanswer⟩ := exists_error_of_no_verdicts hnone
    exact h.not_error e hanswer
  · rintro ⟨verdicts, hverdicts⟩
    exact callsBackOnce_of_verdicts hverdicts

theorem exists_workerAnswer (ops : BlsOps P S) (inp : ShareInputs P S) :
    ∃ answer, WorkerAnswer ops inp answer := by
  by_cases h : ∃ verdicts, contributionVerdicts ops inp = .ok verdicts
  · obtain ⟨verdicts, hverdicts⟩ := h
    exact ⟨_, (workerAnswer_iff hverdicts).mpr rfl⟩
  · push Not at h
    obtain ⟨e, hanswer⟩ := exists_error_of_no_verdicts h
    exact ⟨_, hanswer⟩

end Absolute
