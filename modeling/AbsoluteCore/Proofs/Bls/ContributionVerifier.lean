/-
Every schedule of the `ContributionVerifier` gives the same answer.

The verdicts that the batches owe and those that were counted add up to the number of inputs.
So `Finish` is started once, by the job that brings the last verdict, and at that time no job
is left that could use the verifier after it is deleted.
-/
import AbsoluteCore.Proofs.Bls.BatchStages

namespace Absolute

open Fallible Pool Lts List Function Option Except Prod ShareInputs Job

variable {P S : Type} {ops : BlsOps P S} {inp : ShareInputs P S}
variable {b b' n k : Nat} {job : Job} {next : List Task} {spawned : List (List Task)} {task : Task}
  {tasks : Multiset Task} {jobs : List Job} {verified : Option Nat}

/-! ### Batches -/

theorem sum_count (inp : ShareInputs P S) (k : Nat) :
    ∑ b ∈ Finset.range k, inp.count b = min inp.vvecs.length (k * inp.batchSize) := by
  induction k with
  | zero => simp
  | succ k ih =>
    rw [Finset.sum_range_succ, ih, ShareInputs.count, ShareInputs.start, Nat.succ_mul]
    omega

theorem length_le_batches (inp : ShareInputs P S) :
    inp.vvecs.length ≤ inp.batchCount * inp.batchSize := by
  unfold batchCount batchSize
  split
  · omega
  · omega

theorem sum_count_batchCount (inp : ShareInputs P S) :
    ∑ b ∈ Finset.range inp.batchCount, inp.count b = inp.vvecs.length := by
  rw [sum_count, min_eq_left (length_le_batches inp)]

theorem start_lt (hn : inp.vvecs ≠ []) (hb : b < inp.batchCount) :
    inp.start b < inp.vvecs.length := by
  have hpos := length_pos_iff.mpr hn
  unfold batchCount at hb
  unfold start batchSize
  split at hb
  · rename_i haggregated
    rw [if_pos haggregated]
    omega
  · obtain rfl : b = 0 := by omega
    rw [Nat.zero_mul]
    exact hpos

theorem batchSize_pos (hn : inp.vvecs ≠ []) : 0 < inp.batchSize := by
  unfold batchSize
  split
  · omega
  · exact length_pos_iff.mpr hn

theorem count_pos (hn : inp.vvecs ≠ []) (hb : b < inp.batchCount) : 0 < inp.count b := by
  have hsize := batchSize_pos hn
  have hstart := start_lt hn hb
  unfold ShareInputs.count
  omega

/-! ### The jobs of a batch -/

/-- The job that a task does for the batch. -/
def Task.jobOf (b : Nat) : Task → Option Job
  | .job b' j => if b' = b then some j.unpushed else none
  | .finish => none

def jobsOf (b : Nat) (tasks : Multiset Task) : Multiset Job := tasks.filterMap (Task.jobOf b)

theorem jobsOf_add (b) (tasks tasks' : Multiset Task) :
    jobsOf b (tasks + tasks') = jobsOf b tasks + jobsOf b tasks' := Multiset.filterMap_add _ _ _

theorem jobsOf_cons_self (b job tasks) :
    jobsOf b (.job b job ::ₘ tasks) = job.unpushed ::ₘ jobsOf b tasks :=
  Multiset.filterMap_cons_some _ _ _ (if_pos rfl)

theorem jobsOf_cons_ne (h : b' ≠ b) (job tasks) :
    jobsOf b (.job b' job ::ₘ tasks) = jobsOf b tasks :=
  Multiset.filterMap_cons_none _ _ (if_neg h)

theorem jobsOf_cons_finish (b tasks) :
    jobsOf b (.finish ::ₘ tasks) = jobsOf b tasks := Multiset.filterMap_cons_none _ _ rfl

theorem jobsOf_map_self (b jobs) : jobsOf b ↑(jobs.map (Task.job b)) = unpushedJobs jobs := by
  induction jobs with
  | nil => rfl
  | cons job rest ih =>
    rw [map_cons, ← Multiset.cons_coe, jobsOf_cons_self, ih]
    rfl

theorem jobsOf_map_ne (h : b' ≠ b) (jobs : List Job) : jobsOf b ↑(jobs.map (Task.job b')) = 0 := by
  induction jobs with
  | nil => rfl
  | cons job rest ih => rw [map_cons, ← Multiset.cons_coe, jobsOf_cons_ne h, ih]

/-- `HandleVerifyDone`, where the job calls it. -/
def verifyDone (inp : ShareInputs P S) (verifyDoneCount : Nat) (verified : Option Nat) : List Task :=
  if verified ≠ none ∧ verifyDoneCount + verified.getD 0 = inp.vvecs.length then [.finish] else []

theorem jobsOf_verifyDone (b n verified) : jobsOf b ↑(verifyDone inp n verified) = 0 := by
  unfold verifyDone
  split
  · exact jobsOf_cons_finish b 0
  · rfl

theorem count_verifyDone (n verified) : (verifyDone inp n verified).count .finish =
      if verified ≠ none ∧ n + verified.getD 0 = inp.vvecs.length then 1 else 0 := by
  unfold verifyDone
  split
  · rfl
  · rfl

theorem mem_verifyDone {verified : Option Nat}
    (h : task ∈ verifyDone inp n verified) : task = .finish := by
  unfold verifyDone at h
  split at h
  · exact mem_singleton.mp h
  · exact absurd h not_mem_nil

theorem count_finish_map (b : Nat) (jobs : List Job) : (jobs.map (Task.job b)).count .finish = 0 := by
  rw [count_eq_zero]
  intro h
  obtain ⟨job, -, hjob⟩ := mem_map.mp h
  exact absurd hjob (by simp)

/-- The verdicts that all batches owe. -/
def totalOwed (inp : ShareInputs P S) (owed : Nat → Nat) : Nat :=
  ∑ b ∈ Finset.range inp.batchCount, owed b

theorem totalOwed_update (owed : Nat → Nat) {owed' : Nat} (hb : b < inp.batchCount)
    (h : owed b = owed' + n) : totalOwed inp owed = totalOwed inp (update owed b owed') + n := by
  have hmem := Finset.mem_range.mpr hb
  unfold totalOwed
  rw [Finset.sum_update_of_mem hmem, ← Finset.add_sum_erase _ _ hmem, h, Finset.sdiff_singleton_eq_erase]
  omega

/-! ### Weights -/

/-- How many steps a job can lead to. -/
def Job.weight (inp : ShareInputs P S) (b : Nat) : Job → Nat
  | .push job => job.weight inp b + 1
  | .verifyOne _ true => 2
  | .verifyOne _ false => 3
  | .verifyOneByOne => 4 * inp.count b + 1
  | .markBatch _ true => 2
  | .markBatch _ false => 3
  | .verifyAggregated => 4 * inp.count b + 4
  | .aggDone => 4 * inp.count b + 6
  | .skShare true => 4 * inp.count b + 7
  | .skShare false => 4 * inp.count b + 8
  | .vvecDone true => 4 * inp.count b + 7
  | .vvecDone false => 4 * inp.count b + 8
  | .vvecElement _ true => 4 * inp.count b + 9
  | .vvecElement _ false => 4 * inp.count b + 10
  | .asyncAggregate => inp.vecSize * (4 * inp.count b + 11) + (4 * inp.count b + 10)

def Task.weight (inp : ShareInputs P S) : Task → Nat
  | .job b j => j.weight inp b
  | .finish => 1

def ContributionVerifier.weight (inp : ShareInputs P S) (v : ContributionVerifier P S) : Nat :=
  ((pending v.threads).map (Task.weight inp)).sum

theorem verifyDone_weight (inp : ShareInputs P S) (verifyDoneCount : Nat) (verified : Option Nat) :
    ((verifyDone inp verifyDoneCount verified).map (Task.weight inp)).sum ≤
      if verified = none then 0 else 1 := by
  cases verified with
  | none => simp [verifyDone]
  | some n =>
    unfold verifyDone
    split <;> simp [Task.weight]

variable [DecidableEq P] {v v' : ContributionVerifier P S}

/-! ### What a task does -/

/-- A pushed job goes on in a thread of its own or in the place of the push. -/
theorem runTask_push (h : runTask ops inp v (.job b (.push job)) = .ok (v', next, spawned)) :
    v.deleted = false ∧ v' = v ∧ (↑next + pending spawned : Multiset Task) = {.job b job} := by
  simp only [runTask] at h
  split at h
  · exact absurd h (by simp)
  · rename_i hdeleted
    split at h
    · obtain ⟨rfl, rfl, rfl⟩ := h
      exact ⟨Bool.eq_false_of_not_eq_true hdeleted, rfl, rfl⟩
    · obtain ⟨rfl, rfl, rfl⟩ := h
      exact ⟨Bool.eq_false_of_not_eq_true hdeleted, rfl, rfl⟩

/-- Any other job changes the state of its batch and counts the verdicts it brings. -/
theorem runTask_job (hjob : ∀ j, job ≠ .push j)
    (h : runTask ops inp v (.job b job) = .ok (v', next, spawned)) :
    v.deleted = false ∧ spawned = [] ∧ ∃ st st' jobs verified, v.batchStates[b]? = some st ∧
      runJob ops inp b st job = .ok (st', jobs, verified) ∧
      v' = { v with batchStates := v.batchStates.set b st'
                    verifyDoneCount := v.verifyDoneCount + verified.getD 0 } ∧
      next = jobs.map (.job b) ++ verifyDone inp v.verifyDoneCount verified := by
  rw [runTask.eq_3 ops inp v b job hjob] at h
  split at h
  · exact absurd h (by simp)
  · rename_i hdeleted
    simp only [bind_eq_ok] at h
    obtain ⟨st, hst, ⟨st', jobs, verified⟩, hrun, h⟩ := h
    refine ⟨Bool.eq_false_of_not_eq_true hdeleted, ?_⟩
    cases verified with
    | none =>
      obtain ⟨rfl, rfl, rfl⟩ := h
      exact ⟨rfl, st, st', jobs, none, at?_eq_ok.mp hst, hrun, rfl, by simp [verifyDone]⟩
    | some n =>
      obtain ⟨rfl, rfl, rfl⟩ := h
      exact ⟨rfl, st, st', jobs, some n, at?_eq_ok.mp hst, hrun, rfl, by simp [verifyDone]⟩

theorem runTask_finish (h : runTask ops inp v .finish = .ok (v', next, spawned)) :
    v.deleted = false ∧ next = [] ∧ spawned = [] ∧
      v' = { v with calls := v.calls ++ [finishResult v], deleted := true } := by
  simp only [runTask] at h
  split at h
  · exact absurd h (by simp)
  · rename_i hdeleted
    obtain ⟨rfl, rfl, rfl⟩ := h
    exact ⟨Bool.eq_false_of_not_eq_true hdeleted, rfl, rfl, rfl⟩

theorem stepThread_eq_ok (h : stepThread ops inp v k = some (.ok v')) :
    ∃ task rest v₁ next spawned, v.threads[k]? = some (task :: rest) ∧
      runTask ops inp v task = .ok (v₁, next, spawned) ∧
      v' = { v₁ with threads := v.threads.set k (next ++ rest) ++ spawned } := by
  unfold stepThread at h
  split at h
  · rename_i task rest hthread
    simp only [some.injEq, bind_eq_ok] at h
    obtain ⟨⟨v₁, next, spawned⟩, hrun, h⟩ := h
    simp only [pure_eq_ok] at h
    exact ⟨task, rest, v₁, next, spawned, hthread, hrun, h.symm⟩
  · exact absurd h (by simp)

/-! ### The threads come to an end -/

theorem runJob_weight (b) (st : BatchState P S) (job) :
    Ends (fun r => (r.2.1.map (Job.weight inp b)).sum + (if r.2.2 = none then 0 else 1)
      < job.weight inp b) (fun _ => True) (runJob ops inp b st job) := by
  cases job with
  | push job => simp [runJob, Ends, weight]
  | asyncAggregate =>
    rw [runJob]
    split_ifs
    · trivial
    · simp [Ends, weight, comp_def]
  | vvecElement idx written =>
    cases written with
    | false =>
      rw [runJob]
      cases aggregateColumn ops inp b idx with
      | error e => trivial
      | ok key => simp [Ends, weight, pure, Except.pure]
    | true =>
      rw [runJob]
      split_ifs <;> simp [Ends, weight]
  | vvecDone written =>
    cases written with
    | false => simp [runJob, Ends, weight]
    | true =>
      rw [runJob, countAggDone]
      split_ifs <;> simp [Ends, weight]
  | skShare written =>
    cases written with
    | false =>
      rw [runJob]
      cases aggregateShares ops inp b with
      | error e => trivial
      | ok key => simp [Ends, weight, pure, Except.pure]
    | true =>
      rw [runJob, countAggDone]
      split_ifs <;> simp [Ends, weight]
  | aggDone =>
    rw [runJob]
    split_ifs <;> simp [Ends, weight]
  | markBatch verdict written => cases written <;> simp [runJob, Ends, weight]
  | verifyAggregated =>
    rw [runJob]
    cases pointee st.vvec with
    | error e => trivial
    | ok vvec =>
      rw [ok_bind]
      split_ifs <;> simp [Ends, weight, pure, Except.pure]
  | verifyOneByOne =>
    simp [runJob, Ends, weight, comp_def]
    omega
  | verifyOne i written =>
    cases written with
    | false =>
      rw [runJob]
      cases verifyEntry ops inp (inp.start b + i) with
      | error e => trivial
      | ok result => simp [Ends, weight, pure, Except.pure]
    | true => simp [runJob, Ends, weight]

theorem runTask_weight (h : runTask ops inp v task = .ok (v', next, spawned)) :
    ((↑next + pending spawned).map (Task.weight inp)).sum < task.weight inp := by
  cases task with
  | finish =>
    obtain ⟨-, rfl, rfl, -⟩ := runTask_finish h
    simp [Task.weight]
  | job b job =>
    by_cases hpush : ∃ j, job = .push j
    · obtain ⟨j, rfl⟩ := hpush
      obtain ⟨-, -, hnext⟩ := runTask_push h
      rw [hnext, Multiset.map_singleton, Multiset.sum_singleton]
      simp [Task.weight, weight]
    · have hjob : ∀ j, job ≠ .push j := fun j hj => hpush ⟨j, hj⟩
      obtain ⟨-, rfl, st, st', jobs, verified, -, hrun, -, rfl⟩ := runTask_job hjob h
      have hjobs := (runJob_weight b st job).of_ok hrun
      dsimp only at hjobs
      have hdone := verifyDone_weight inp v.verifyDoneCount verified
      simp only [pending_nil, add_zero, Multiset.map_coe, Multiset.sum_coe, List.map_append,
        List.sum_append, List.map_map]
      have hmap : (Task.weight inp ∘ Task.job b) = weight inp b := rfl
      rw [hmap]
      show _ < job.weight inp b
      omega

theorem VerifierStep.weight_lt (h : VerifierStep ops inp v k v') :
    v'.weight inp < v.weight inp := by
  obtain ⟨task, rest, v₁, next, spawned, hthread, hrun, rfl⟩ := stepThread_eq_ok h
  obtain ⟨others, hbefore, hafter⟩ := pending_step hthread next spawned
  have hlt := runTask_weight hrun
  show ((pending (v.threads.set k (next ++ rest) ++ spawned)).map (Task.weight inp)).sum < _
  rw [ContributionVerifier.weight, hbefore, hafter, Multiset.map_add, Multiset.sum_add,
    Multiset.map_cons, Multiset.sum_cons]
  omega

/-! ### The invariant -/

/-- Every batch is in a stage, nothing is counted twice, and `Finish` comes at the end. -/
structure VerifierInv (ops : BlsOps P S) (inp : ShareInputs P S) (v : ContributionVerifier P S)
    (owed : Nat → Nat) : Prop where
  length : v.batchStates.length = inp.batchCount
  job_lt : ∀ b job, Task.job b job ∈ pending v.threads → b < inp.batchCount
  stage : ∀ b st, v.batchStates[b]? = some st →
    Stage ops inp b st (jobsOf b (pending v.threads)) (owed b)
  count : v.verifyDoneCount + totalOwed inp owed = inp.vvecs.length
  running : v.deleted = false → v.calls = [] ∧
    (pending v.threads).count .finish = if totalOwed inp owed = 0 then 1 else 0
  finished : v.deleted = true → v.calls = [finishResult v] ∧ totalOwed inp owed = 0 ∧
    (pending v.threads).count .finish = 0

namespace VerifierInv

variable {owed : Nat → Nat}
variable {b : Nat} {job : Job} {others : Multiset Task} {threads : List (List Task)}

section

variable (h : VerifierInv ops inp v owed)

include h

/-- A batch owes verdicts as long as a job is pending for it. -/
theorem owed_pos (hn : inp.vvecs ≠ []) (hjob : .job b job ∈ pending v.threads) :
    0 < totalOwed inp owed := by
  have hb := h.job_lt b job hjob
  obtain ⟨st, hst⟩ : ∃ st, v.batchStates[b]? = some st :=
    ⟨_, getElem?_eq_getElem (h.length.symm ▸ hb)⟩
  have hne : owed b ≠ 0 := by
    intro hzero
    obtain ⟨hjobs, -⟩ := (h.stage b st hst).of_owed_zero (count_pos hn hb) hzero
    obtain ⟨rest, hrest⟩ := Multiset.exists_cons_of_mem hjob
    rw [hrest, jobsOf_cons_self] at hjobs
    exact absurd hjobs Multiset.cons_ne_zero
  have hle : owed b ≤ totalOwed inp owed :=
    Finset.single_le_sum (fun _ _ => Nat.zero_le _) (Finset.mem_range.mpr hb)
  omega

theorem job_step (hn : inp.vvecs ≠ []) (hjob : ∀ j, job ≠ .push j)
    (hpending : pending v.threads = .job b job ::ₘ others) {v₁ : ContributionVerifier P S}
    {next : List Task} {spawned : List (List Task)}
    (hrun : runTask ops inp v (.job b job) = .ok (v₁, next, spawned))
    (hthreads : pending threads = ↑next + pending spawned + others) :
    ∃ owed', VerifierInv ops inp { v₁ with threads := threads } owed' := by
  have hmem : .job b job ∈ pending v.threads := hpending ▸ Multiset.mem_cons_self _ _
  have hb := h.job_lt b job hmem
  have hpos := h.owed_pos hn hmem
  obtain ⟨hdeleted, rfl, st, st', jobs, verified, hst, hjobrun, rfl, rfl⟩ := runTask_job hjob hrun
  have hstage := h.stage b st hst
  rw [hpending, jobsOf_cons_self, unpushed_eq hjob] at hstage
  obtain ⟨owed', hstage', howed⟩ := hstage.step.of_ok hjobrun
  dsimp only at hstage' howed
  have htotal := totalOwed_update owed hb howed
  have hcount := h.count
  obtain ⟨hcalls, hfinish⟩ := h.running hdeleted
  rw [if_neg (by omega), hpending, Multiset.count_cons_of_ne (by simp)] at hfinish
  rw [pending_nil, add_zero, ← Multiset.coe_add] at hthreads
  refine ⟨update owed b owed', ⟨?_, ?_, ?_, ?_, ?_, ?_⟩⟩
  · rw [length_set, h.length]
  · intro b' job' hmem'
    rw [hthreads] at hmem'
    rcases Multiset.mem_add.mp hmem' with hmem' | hmem'
    · rcases Multiset.mem_add.mp hmem' with hnext | hdone
      · obtain ⟨j, -, hj⟩ := mem_map.mp (Multiset.mem_coe.mp hnext)
        injection hj with hbb
        exact hbb ▸ hb
      · exact absurd (mem_verifyDone (Multiset.mem_coe.mp hdone)) (by simp)
    · exact h.job_lt b' job' (hpending ▸ Multiset.mem_cons_of_mem hmem')
  · intro b' st'' hst''
    rw [hthreads, jobsOf_add, jobsOf_add, jobsOf_verifyDone, add_zero]
    by_cases hbb : b' = b
    · subst hbb
      rw [getElem?_set_self (h.length.symm ▸ hb), some.injEq] at hst''
      subst hst''
      rw [jobsOf_map_self, update_self]
      exact hstage'
    · rw [getElem?_set_ne (Ne.symm hbb)] at hst''
      have hother := h.stage b' st'' hst''
      rw [hpending, jobsOf_cons_ne (Ne.symm hbb)] at hother
      rw [jobsOf_map_ne (Ne.symm hbb), zero_add, update_of_ne hbb]
      exact hother
  · show v.verifyDoneCount + verified.getD 0 + _ = _
    omega
  · intro _
    refine ⟨hcalls, ?_⟩
    rw [hthreads, Multiset.count_add, Multiset.count_add, hfinish, Multiset.coe_count,
      Multiset.coe_count, count_finish_map, count_verifyDone, zero_add, add_zero]
    congr 1
    rw [eq_iff_iff]
    cases verified with
    | none => simp at htotal ⊢; omega
    | some n => simp at htotal ⊢; omega
  · intro hdel
    exact absurd (hdeleted.symm.trans hdel) (by simp)

theorem push_step (hpending : pending v.threads = .job b (.push job) ::ₘ others)
    (hthreads : pending threads = .job b job ::ₘ others) :
    VerifierInv ops inp { v with threads := threads } owed := by
  have hjobs : ∀ b', jobsOf b' (pending threads) = jobsOf b' (pending v.threads) := by
    intro b'
    rw [hthreads, hpending]
    by_cases hbb : b = b'
    · subst hbb
      rw [jobsOf_cons_self, jobsOf_cons_self]
      rfl
    · rw [jobsOf_cons_ne hbb, jobsOf_cons_ne hbb]
  have hfinish : (pending threads).count .finish = (pending v.threads).count .finish := by
    rw [hthreads, hpending, Multiset.count_cons_of_ne (by simp), Multiset.count_cons_of_ne (by simp)]
  refine ⟨h.length, ?_, ?_, h.count, ?_, ?_⟩
  · intro b' job' hmem
    rw [hthreads] at hmem
    rcases Multiset.mem_cons.mp hmem with heq | hmem
    · injection heq with hbb
      exact h.job_lt b' (.push job) (hpending ▸ hbb ▸ Multiset.mem_cons_self _ _)
    · exact h.job_lt b' job' (hpending ▸ Multiset.mem_cons_of_mem hmem)
  · intro b' st hst
    rw [hjobs b']
    exact h.stage b' st hst
  · intro hdeleted
    rw [hfinish]
    exact h.running hdeleted
  · intro hdeleted
    rw [hfinish]
    exact h.finished hdeleted

theorem finish_step (hpending : pending v.threads = .finish ::ₘ others)
    (hdeleted : v.deleted = false) (hthreads : pending threads = others) :
    VerifierInv ops inp { v with calls := v.calls ++ [finishResult v], deleted := true,
                                 threads := threads } owed := by
  obtain ⟨hcalls, hfinish⟩ := h.running hdeleted
  have htotal : totalOwed inp owed = 0 := by
    by_contra hne
    rw [if_neg hne, hpending, Multiset.count_cons_self] at hfinish
    omega
  rw [if_pos htotal, hpending, Multiset.count_cons_self] at hfinish
  refine ⟨h.length, ?_, ?_, h.count, ?_, ?_⟩
  · intro b job hmem
    rw [hthreads] at hmem
    exact h.job_lt b job (hpending ▸ Multiset.mem_cons_of_mem hmem)
  · intro b st hst
    have hstage := h.stage b st hst
    rw [hpending, jobsOf_cons_finish] at hstage
    rw [hthreads]
    exact hstage
  · intro hdel
    exact absurd hdel (by simp)
  · intro _
    refine ⟨?_, htotal, ?_⟩
    · rw [hcalls]
      rfl
    · rw [hthreads]
      omega

/-- **Every step of every thread keeps the invariant.** -/
theorem step (hn : inp.vvecs ≠ []) {k : Nat} (hstep : VerifierStep ops inp v k v') :
    ∃ owed', VerifierInv ops inp v' owed' := by
  obtain ⟨task, rest, v₁, next, spawned, hthread, hrun, rfl⟩ := stepThread_eq_ok hstep
  obtain ⟨others, hbefore, hafter⟩ := pending_step hthread next spawned
  cases task with
  | finish =>
    obtain ⟨hdeleted, rfl, rfl, rfl⟩ := runTask_finish hrun
    refine ⟨owed, h.finish_step hbefore hdeleted ?_⟩
    simpa using hafter
  | job b job =>
    by_cases hpush : ∃ j, job = .push j
    · obtain ⟨j, rfl⟩ := hpush
      obtain ⟨-, rfl, hnext⟩ := runTask_push hrun
      rw [hnext, Multiset.singleton_add] at hafter
      exact ⟨owed, h.push_step hbefore hafter⟩
    · exact h.job_step hn (fun j hj => hpush ⟨j, hj⟩) hbefore hrun hafter

end

end VerifierInv

end Absolute
