/-
The stages of a batch of the `ContributionVerifier`.

A batch is known by its state, by the jobs that are pending for it in any thread and by the
number of verdicts it still owes.  `Stage` lists the combinations that can come up.  One job
leads from stage to stage, and a batch that owes nothing holds the verdicts that the
computation without threads gives.
-/
import AbsoluteCore.Lib.Pool
import AbsoluteCore.Spec.ShareVerdicts

namespace Absolute

open Fallible Pool List Except Job

/-- The job a pushed job is about. -/
def Job.unpushed : Job → Job
  | .push job => job.unpushed
  | job => job

theorem Job.unpushed_eq {job : Job} (h : ∀ j, job ≠ .push j) : job.unpushed = job := by
  cases job with
  | push j => exact absurd rfl (h j)
  | _ => rfl

/-- What a thread goes on with. -/
def unpushedJobs (next : List Job) : Multiset Job := ↑(next.map Job.unpushed)

@[simp] theorem unpushedJobs_nil : unpushedJobs [] = 0 := rfl

/-- The job for a place of the vectors, and whether it has written. -/
def Job.ofElement (place : Nat × Bool) : Job := .vvecElement place.1 place.2

/-- The job for an entry of the batch, and whether it has written. -/
def Job.ofEntry (place : Nat × Bool) : Job := .verifyOne place.1 place.2

theorem Job.ofElement_injective : Function.Injective ofElement := by
  intro place place' h
  injection h with hidx hwritten
  exact Prod.ext hidx hwritten

theorem Job.ofEntry_injective : Function.Injective ofEntry := by
  intro place place' h
  injection h with hi hwritten
  exact Prod.ext hi hwritten

variable {P S : Type} {ops : BlsOps P S} {inp : ShareInputs P S} {b : Nat}

section

variable (ops inp b)

/-! ### Aggregation -/

/-- The aggregation of the vectors, by the jobs it has left and whether it was counted. -/
inductive VvecPart (st : BatchState P S) : Multiset Job → Bool → Prop
  | elements (jobs : Multiset (Nat × Bool)) (hcount : st.doneCount + jobs.card = inp.vecSize)
      (hleft : jobs = 0 → inp.vecSize = 0)
      (htable : Filled (aggregateColumn ops inp b) inp.vecSize jobs st.result) :
      VvecPart st (jobs.map Job.ofElement) false
  | collected (written : Bool) (hpos : 0 < inp.vecSize)
      (hresult : (List.range inp.vecSize).mapM (aggregateColumn ops inp b) = .ok st.result)
      (hwritten : written = true → st.vvec = some st.result) :
      VvecPart st {.vvecDone written} false
  | counted (hpos : 0 < inp.vecSize)
      (hresult : (List.range inp.vecSize).mapM (aggregateColumn ops inp b) = .ok st.result)
      (hwritten : st.vvec = some st.result) : VvecPart st 0 true

/-- The aggregation of the shares. -/
inductive SharePart (st : BatchState P S) : Multiset Job → Bool → Prop
  | running (written : Bool)
      (hwritten : written = true → aggregateShares ops inp b = .ok st.skShare) :
      SharePart st {.skShare written} false
  | counted (hwritten : aggregateShares ops inp b = .ok st.skShare) : SharePart st 0 true

structure Aggregates (st : BatchState P S) : Prop where
  aggregated : inp.aggregated = true
  shares : inp.start b + inp.count b ≤ inp.skShares.length
  pos : 0 < inp.vecSize
  result : (List.range inp.vecSize).mapM (aggregateColumn ops inp b) = .ok st.result
  vvec : st.vvec = some st.result
  skShare : aggregateShares ops inp b = .ok st.skShare

/-! ### Stages -/

variable [DecidableEq P] in
/-- A batch in some state, with the jobs pending for it and the verdicts it owes. -/
inductive Stage : BatchState P S → Multiset Job → Nat → Prop
  | waiting {st : BatchState P S} (haggregated : inp.aggregated = true)
      (hresult : st.result.length = inp.vecSize) (hdone : st.doneCount = 0) (hagg : st.aggDone = 0) :
      Stage st {.asyncAggregate} (inp.count b)
  | aggregating {st : BatchState P S} {vvecJobs shareJobs : Multiset Job} {v s : Bool}
      (haggregated : inp.aggregated = true)
      (hshares : inp.start b + inp.count b ≤ inp.skShares.length)
      (hvvec : VvecPart ops inp b st vvecJobs v) (hshare : SharePart ops inp b st shareJobs s)
      (hagg : st.aggDone = v.toNat + s.toNat) (hleft : (v && s) = false) :
      Stage st (vvecJobs + shareJobs) (inp.count b)
  | deciding {st : BatchState P S} (h : Aggregates ops inp b st) :
      Stage st {.aggDone} (inp.count b)
  | verifying {st : BatchState P S} (h : Aggregates ops inp b st) (hvalid : st.skShare.isNone = false) :
      Stage st {.verifyAggregated} (inp.count b)
  | marking {st : BatchState P S} (verdict written : Bool)
      (hverdicts : batchVerdicts ops inp b = .ok (List.replicate (inp.count b) verdict))
      (hwritten : written = true → st.verifyResults = List.replicate (inp.count b) verdict) :
      Stage st {.markBatch verdict written} (inp.count b)
  | reverting {st : BatchState P S} (h : batchVerdicts ops inp b = individualVerdicts ops inp b) :
      Stage st {.verifyOneByOne} (inp.count b)
  | checking {st : BatchState P S} (jobs : Multiset (Nat × Bool))
      (h : batchVerdicts ops inp b = individualVerdicts ops inp b)
      (htable : Filled (fun i => verifyEntry ops inp (inp.start b + i)) (inp.count b) jobs
        st.verifyResults) :
      Stage st (jobs.map Job.ofEntry) jobs.card
  | done {st : BatchState P S} (hverdicts : batchVerdicts ops inp b = .ok st.verifyResults) :
      Stage st 0 0

end

variable {jobs others : Multiset Job} {st' st : BatchState P S}

/-! ### One job of the aggregation -/

theorem exists_of_map_eq_cons {mk : Nat × Bool → Job} (hmk : Function.Injective mk)
    {jobs : Multiset (Nat × Bool)} {job : Nat × Bool}
    (h : jobs.map mk = mk job ::ₘ others) : ∃ rest, jobs = job ::ₘ rest ∧ others = rest.map mk := by
  obtain ⟨job', hmem, hjob, hothers⟩ := (Multiset.map_eq_cons mk jobs others (mk job)).mpr h
  obtain rfl := hmk hjob
  exact ⟨jobs.erase job', (Multiset.cons_erase hmem).symm, hothers.symm⟩

theorem VvecPart.frame {v : Bool} (h : VvecPart ops inp b st jobs v)
    (hvvec : st'.vvec = st.vvec) (hresult : st'.result = st.result)
    (hdone : st'.doneCount = st.doneCount) : VvecPart ops inp b st' jobs v := by
  cases h with
  | elements jobs hcount hleft htable =>
    exact .elements jobs (hdone ▸ hcount) hleft (hresult ▸ htable)
  | collected written hpos hres hwritten =>
    exact .collected written hpos (hresult ▸ hres) (by rw [hvvec, hresult]; exact hwritten)
  | counted hpos hres hwritten =>
    exact .counted hpos (hresult ▸ hres) (by rw [hvvec, hresult]; exact hwritten)

theorem SharePart.frame {s : Bool} (h : SharePart ops inp b st jobs s)
    (hshare : st'.skShare = st.skShare) : SharePart ops inp b st' jobs s := by
  cases h with
  | running written hwritten => exact .running written (by rw [hshare]; exact hwritten)
  | counted hwritten => exact .counted (by rw [hshare]; exact hwritten)

theorem VvecPart.eq_zero (h : VvecPart ops inp b st jobs true) : jobs = 0 := by
  cases h with
  | counted => rfl

theorem SharePart.eq_zero (h : SharePart ops inp b st jobs true) : jobs = 0 := by
  cases h with
  | counted => rfl

theorem aggregates_of_parts {vvecJobs shareJobs : Multiset Job}
    (haggregated : inp.aggregated = true)
    (hshares : inp.start b + inp.count b ≤ inp.skShares.length)
    (hvvec : VvecPart ops inp b st vvecJobs true) (hshare : SharePart ops inp b st shareJobs true) :
    Aggregates ops inp b st := by
  cases hvvec with
  | counted hpos hresult hvec =>
    cases hshare with
    | counted hsk => exact ⟨haggregated, hshares, hpos, hresult, hvec, hsk⟩

theorem Aggregates.getD_vvec (h : Aggregates ops inp b st) : st.vvec.getD [] = st.result := by
  rw [h.vvec]
  rfl

theorem Aggregates.result_ne_nil (h : Aggregates ops inp b st) : st.result ≠ [] := by
  intro hnil
  have hlen := (mapM_eq_ok.mp h.result).length_eq
  have hpos := h.pos
  rw [hnil, length_range, length_nil] at hlen
  omega

variable [DecidableEq P]

/-- What a job of one of the two aggregations does: it goes on, or it is counted. -/
def PartStep (part : BatchState P S → Multiset Job → Bool → Prop) (st st' : BatchState P S)
    (next : List Job) (others : Multiset Job) : Prop :=
  (part st' (unpushedJobs next + others) false ∧ st'.aggDone = st.aggDone) ∨
    (part st' 0 true ∧ others = 0 ∧ st'.aggDone = st.aggDone + 1 ∧
      next = if st.aggDone + 1 = 2 then [.aggDone] else [])

theorem vvecElement_step {idx : Nat} {written : Bool} {rest : Multiset (Nat × Bool)}
    (hcount : st.doneCount + ((idx, written) ::ₘ rest).card = inp.vecSize)
    (htable : Filled (aggregateColumn ops inp b) inp.vecSize ((idx, written) ::ₘ rest) st.result) :
    Ends (fun r => r.2.2 = none ∧ r.1.skShare = st.skShare ∧ r.1.aggDone = st.aggDone ∧
        VvecPart ops inp b r.1 (unpushedJobs r.2.1 + rest.map ofElement) false)
      (fun _ => ∀ vvec, (range inp.vecSize).mapM (aggregateColumn ops inp b) ≠ .ok vvec)
      (runJob ops inp b st (.vvecElement idx written)) := by
  cases written with
  | false =>
    rw [runJob]
    cases hkey : aggregateColumn ops inp b idx with
    | error e =>
      exact mapM_ne_ok (mem_range.mpr (htable.lt _ (Multiset.mem_cons_self _ _))) hkey
    | ok key =>
      have hpart : VvecPart ops inp b { st with result := st.result.set idx key }
          (((idx, true) ::ₘ rest).map ofElement) false :=
        .elements _ (by simpa using hcount) (by simp) (htable.write hkey)
      rw [Multiset.map_cons] at hpart
      exact ⟨rfl, rfl, rfl, hpart⟩
  | true =>
    refine ⟨rfl, rfl, rfl, ?_⟩
    rw [Multiset.card_cons] at hcount
    by_cases hlast : st.doneCount + 1 = inp.vecSize
    · have hrest : rest = 0 := by
        rw [← Multiset.card_eq_zero]
        omega
      subst hrest
      rw [if_pos hlast]
      exact .collected false (by omega) htable.count.mapM_eq (by simp)
    · have hrest : rest = 0 → inp.vecSize = 0 := by
        rintro rfl
        exact absurd hcount (by simpa using hlast)
      have hpart : VvecPart ops inp b { st with doneCount := st.doneCount + 1 }
          (rest.map ofElement) false :=
        .elements rest (by rw [← hcount]; ring) hrest htable.count
      rw [if_neg hlast]
      simpa using hpart

theorem VvecPart.step {job : Job} {v : Bool} (h : VvecPart ops inp b st (job ::ₘ others) v) :
    Ends (fun r => v = false ∧ r.2.2 = none ∧ r.1.skShare = st.skShare ∧
        PartStep (VvecPart ops inp b) st r.1 r.2.1 others)
      (fun _ => ∀ vvec, (range inp.vecSize).mapM (aggregateColumn ops inp b) ≠ .ok vvec)
      (runJob ops inp b st job) := by
  generalize hjobs : job ::ₘ others = jobs at h
  cases h with
  | elements jobs hcount hleft htable =>
    have hmem : job ∈ jobs.map ofElement :=
      hjobs ▸ Multiset.mem_cons_self job others
    obtain ⟨place, -, rfl⟩ := Multiset.mem_map.mp hmem
    obtain ⟨rest, rfl, rfl⟩ := exists_of_map_eq_cons ofElement_injective hjobs.symm
    refine (vvecElement_step hcount htable).imp ?_ fun _ hfault => hfault
    rintro r ⟨hverified, hshare, hagg, hpart⟩
    exact ⟨rfl, hverified, hshare, Or.inl ⟨hpart, hagg⟩⟩
  | collected written hpos hresult hwritten =>
    obtain ⟨rfl, rfl⟩ := (Multiset.singleton_eq_cons_iff _).mp hjobs.symm
    cases written with
    | false => exact ⟨rfl, rfl, rfl, Or.inl ⟨.collected true hpos hresult fun _ => rfl, rfl⟩⟩
    | true =>
      exact ⟨rfl, rfl, rfl, Or.inr ⟨.counted hpos hresult (hwritten rfl), rfl, rfl, rfl⟩⟩
  | counted hpos hresult hwritten => exact absurd hjobs Multiset.cons_ne_zero

theorem SharePart.step {job : Job} {s : Bool}
    (h : SharePart ops inp b st (job ::ₘ others) s) : Ends (fun r => s = false ∧ r.2.2 = none ∧
        (r.1.vvec = st.vvec ∧ r.1.result = st.result ∧ r.1.doneCount = st.doneCount) ∧
        PartStep (SharePart ops inp b) st r.1 r.2.1 others)
      (fun _ => ∀ sk, aggregateShares ops inp b ≠ .ok sk) (runJob ops inp b st job) := by
  generalize hjobs : job ::ₘ others = jobs at h
  cases h with
  | running written hwritten =>
    obtain ⟨rfl, rfl⟩ := (Multiset.singleton_eq_cons_iff _).mp hjobs.symm
    cases written with
    | false =>
      rw [runJob]
      cases hkey : aggregateShares ops inp b with
      | error e => exact fun sk hsk => by cases hsk
      | ok key =>
        exact ⟨rfl, rfl, ⟨rfl, rfl, rfl⟩, Or.inl ⟨.running true fun _ => hkey, rfl⟩⟩
    | true =>
      exact ⟨rfl, rfl, ⟨rfl, rfl, rfl⟩, Or.inr ⟨.counted (hwritten rfl), rfl, rfl, rfl⟩⟩
  | counted hwritten => exact absurd hjobs Multiset.cons_ne_zero

/-! ### One job of a batch -/

section

variable {st st' : BatchState P S} {job : Job} {others : Multiset Job} {owed : Nat}
variable {verdicts : List Bool} {jobs : Multiset Job}

/-- The batch has gone on: its new stage owes what the job did not report. -/
def StageStep (ops : BlsOps P S) (inp : ShareInputs P S) (b owed : Nat) (others : Multiset Job)
    (r : BatchState P S × List Job × Option Nat) : Prop :=
  ∃ owed', Stage ops inp b r.1 (unpushedJobs r.2.1 + others) owed' ∧ owed = owed' + r.2.2.getD 0

/-- The computation without threads faults in this batch. -/
def Faults (ops : BlsOps P S) (inp : ShareInputs P S) (b : Nat) : Prop :=
  ∀ verdicts, batchVerdicts ops inp b ≠ .ok verdicts

theorem batchVerdicts_eq_ok (haggregated : inp.aggregated = true)
    (h : batchVerdicts ops inp b = .ok verdicts) :
    inp.start b + inp.count b ≤ inp.skShares.length ∧
      (∃ vvec, (range inp.vecSize).mapM (aggregateColumn ops inp b) = .ok vvec) ∧
      (∃ sk, aggregateShares ops inp b = .ok sk) ∧ 0 < inp.vecSize := by
  rw [batchVerdicts, if_pos haggregated] at h
  split at h
  · exact absurd h (by simp)
  · rename_i hshares
    simp only [bind_eq_ok] at h
    obtain ⟨vvec, hvvec, sk, hsk, h⟩ := h
    refine ⟨not_lt.mp hshares, ⟨vvec, hvvec⟩, ⟨sk, hsk⟩, ?_⟩
    split at h
    · exact absurd h (by simp)
    · rename_i hne
      have hlen := (mapM_eq_ok.mp hvvec).length_eq
      rw [length_range] at hlen
      exact hlen ▸ length_pos_iff.mpr hne

/-- A job of the aggregation leaves the batch in the aggregation, or decides it. -/
theorem aggregating_step {vvecJobs shareJobs : Multiset Job} {v s : Bool}
    (haggregated : inp.aggregated = true)
    (hshares : inp.start b + inp.count b ≤ inp.skShares.length)
    (hvvec : VvecPart ops inp b st vvecJobs v) (hshare : SharePart ops inp b st shareJobs s)
    (hagg : st.aggDone = v.toNat + s.toNat) (hjobs : vvecJobs + shareJobs = job ::ₘ others) :
    Ends (StageStep ops inp b (inp.count b) others) (fun _ => Faults ops inp b)
      (runJob ops inp b st job) := by
  rcases add_eq_cons hjobs with ⟨vvecJobs', rfl, rfl⟩ | ⟨shareJobs', rfl, rfl⟩
  · refine hvvec.step.imp ?_ fun _ hfault verdicts hok => ?_
    swap
    · obtain ⟨-, ⟨vvec, hcolumns⟩, -⟩ := batchVerdicts_eq_ok haggregated hok
      exact hfault vvec hcolumns
    rintro ⟨st', next, verified⟩ ⟨rfl, rfl, hsk, hstep⟩
    have hshare' : SharePart ops inp b st' shareJobs s := hshare.frame hsk
    refine ⟨inp.count b, ?_, rfl⟩
    rcases hstep with ⟨hpart, hcount⟩ | ⟨hpart, rfl, hcount, rfl⟩
    · rw [← add_assoc]
      exact .aggregating haggregated hshares hpart hshare' (by rw [hcount, hagg]) rfl
    · cases s with
      | false =>
        rw [if_neg (by rw [hagg]; decide), unpushedJobs_nil, zero_add]
        exact .aggregating haggregated hshares hpart hshare' (by rw [hcount, hagg]; rfl) rfl
      | true =>
        obtain rfl := hshare.eq_zero
        rw [if_pos (by rw [hagg]; rfl)]
        exact .deciding (aggregates_of_parts haggregated hshares hpart hshare')
  · refine hshare.step.imp ?_ fun _ hfault verdicts hok => ?_
    swap
    · obtain ⟨-, -, ⟨sk, hsk⟩, -⟩ := batchVerdicts_eq_ok haggregated hok
      exact hfault sk hsk
    rintro ⟨st', next, verified⟩ ⟨rfl, rfl, ⟨hvec, hresult, hdone⟩, hstep⟩
    have hvvec' : VvecPart ops inp b st' vvecJobs v := hvvec.frame hvec hresult hdone
    refine ⟨inp.count b, ?_, rfl⟩
    rcases hstep with ⟨hpart, hcount⟩ | ⟨hpart, rfl, hcount, rfl⟩
    · rw [add_left_comm]
      exact .aggregating haggregated hshares hvvec' hpart (by rw [hcount, hagg]) (by simp)
    · cases v with
      | false =>
        rw [if_neg (by rw [hagg]; decide), unpushedJobs_nil, zero_add]
        exact .aggregating haggregated hshares hvvec' hpart (by rw [hcount, hagg]; rfl) rfl
      | true =>
        obtain rfl := hvvec.eq_zero
        rw [if_pos (by rw [hagg]; rfl)]
        exact .deciding (aggregates_of_parts haggregated hshares hvvec' hpart)

/-- The verdicts of a batch whose sums are known. -/
theorem Aggregates.batchVerdicts_eq (h : Aggregates ops inp b st) :
    batchVerdicts ops inp b =
      if st.skShare.isNone then .ok (replicate (inp.count b) false)
      else if verifyContributionShare ops inp.forId st.result st.skShare then
        .ok (replicate (inp.count b) true)
      else individualVerdicts ops inp b := by
  rw [batchVerdicts, if_pos h.aggregated, if_neg (not_lt.mpr h.shares), h.result, ok_bind,
    h.skShare, ok_bind, if_neg h.result_ne_nil]
  rfl

theorem verifyOne_step {i : Nat} {written : Bool} {rest : Multiset (Nat × Bool)}
    (h : batchVerdicts ops inp b = individualVerdicts ops inp b)
    (htable : Filled (fun i => verifyEntry ops inp (inp.start b + i)) (inp.count b)
      ((i, written) ::ₘ rest) st.verifyResults) :
    Ends (StageStep ops inp b ((i, written) ::ₘ rest).card (rest.map ofEntry))
      (fun _ => Faults ops inp b) (runJob ops inp b st (.verifyOne i written)) := by
  cases written with
  | false =>
    rw [runJob]
    cases hresult : verifyEntry ops inp (inp.start b + i) with
    | error e =>
      rintro verdicts hok
      rw [h] at hok
      exact mapM_ne_ok (mem_range.mpr (htable.lt _ (Multiset.mem_cons_self _ _))) hresult _ hok
    | ok result =>
      have hstage : Stage ops inp b { st with verifyResults := st.verifyResults.set i result }
          (((i, true) ::ₘ rest).map ofEntry) ((i, true) ::ₘ rest).card :=
        .checking _ h (htable.write hresult)
      rw [Multiset.map_cons] at hstage
      exact ⟨_, hstage, by simp⟩
  | true =>
    refine ⟨rest.card, ?_, Multiset.card_cons _ _⟩
    rw [unpushedJobs_nil, zero_add]
    exact .checking rest h htable.count

/--
**One job leads from a stage of its batch to a stage of its batch.**  It faults only where the
computation without threads does.
-/
theorem Stage.step (h : Stage ops inp b st (job ::ₘ others) owed) :
    Ends (StageStep ops inp b owed others) (fun _ => Faults ops inp b)
      (runJob ops inp b st job) := by
  generalize hjobs : job ::ₘ others = jobs at h
  cases h with
  | waiting haggregated hresult hdone hagg =>
    obtain ⟨rfl, rfl⟩ := (Multiset.singleton_eq_cons_iff _).mp hjobs.symm
    rw [runJob]
    split_ifs with hshares
    · intro verdicts hok
      exact absurd (batchVerdicts_eq_ok haggregated hok).1 (not_le.mpr hshares)
    · refine ⟨inp.count b, ?_, rfl⟩
      have hvvec : VvecPart ops inp b st
          ((↑((List.range inp.vecSize).map fun idx => (idx, false)) : Multiset (Nat × Bool)).map
            ofElement) false :=
        .elements _ (by simp [hdone]) (by simp) (Filled.start _ hresult)
      have hstage := Stage.aggregating haggregated (not_lt.mp hshares) hvvec
        (.running false (by simp)) hagg rfl
      rw [add_zero, unpushedJobs, map_append, ← Multiset.coe_add, map_map]
      rw [Multiset.map_coe, map_map] at hstage
      exact hstage
  | aggregating haggregated hshares hvvec hshare hagg hleft =>
    exact aggregating_step haggregated hshares hvvec hshare hagg hjobs.symm
  | deciding hsums =>
    obtain ⟨rfl, rfl⟩ := (Multiset.singleton_eq_cons_iff _).mp hjobs.symm
    have hverdicts := hsums.batchVerdicts_eq
    simp only [runJob, hsums.getD_vvec, hsums.result_ne_nil, false_or]
    split_ifs with hinvalid
    · rw [if_pos hinvalid] at hverdicts
      exact ⟨inp.count b, .marking false false hverdicts (by simp), rfl⟩
    · exact ⟨inp.count b, .verifying hsums (Bool.eq_false_of_not_eq_true hinvalid), rfl⟩
  | verifying hsums hvalid =>
    obtain ⟨rfl, rfl⟩ := (Multiset.singleton_eq_cons_iff _).mp hjobs.symm
    have hverdicts := hsums.batchVerdicts_eq
    rw [if_neg (by simp [hvalid])] at hverdicts
    simp only [runJob, hsums.vvec, pointee, ok_bind]
    split_ifs with hfits
    · rw [if_pos hfits] at hverdicts
      exact ⟨inp.count b, .marking true false hverdicts (by simp), rfl⟩
    · rw [if_neg hfits] at hverdicts
      exact ⟨inp.count b, .reverting hverdicts, rfl⟩
  | marking verdict written hverdicts hwritten =>
    obtain ⟨rfl, rfl⟩ := (Multiset.singleton_eq_cons_iff _).mp hjobs.symm
    cases written with
    | false => exact ⟨inp.count b, .marking verdict true hverdicts fun _ => rfl, rfl⟩
    | true => exact ⟨0, .done (hwritten rfl ▸ hverdicts), (Nat.zero_add _).symm⟩
  | reverting hindividual =>
    obtain ⟨rfl, rfl⟩ := (Multiset.singleton_eq_cons_iff _).mp hjobs.symm
    have hstage : Stage ops inp b
        { st with verifyResults := List.replicate (inp.count b) false }
        ((↑((List.range (inp.count b)).map fun i => (i, false)) : Multiset (Nat × Bool)).map
          ofEntry) _ :=
      .checking _ hindividual (Filled.start _ (by simp))
    rw [Multiset.map_coe, map_map, Multiset.coe_card, length_map, length_range]
      at hstage
    refine ⟨inp.count b, ?_, rfl⟩
    rw [add_zero, unpushedJobs, map_map]
    exact hstage
  | checking jobs hindividual htable =>
    have hmem : job ∈ jobs.map ofEntry :=
      hjobs ▸ Multiset.mem_cons_self job others
    obtain ⟨entry, -, rfl⟩ := Multiset.mem_map.mp hmem
    obtain ⟨rest, rfl, rfl⟩ := exists_of_map_eq_cons ofEntry_injective hjobs.symm
    exact verifyOne_step hindividual htable
  | done hverdicts => exact absurd hjobs Multiset.cons_ne_zero

/-! ### The end of a batch -/

/-- A batch that owes nothing has nothing to do and holds its verdicts. -/
theorem Stage.of_owed_zero (hcount : 0 < inp.count b)
    (h : Stage ops inp b st jobs owed) (howed : owed = 0) :
    jobs = 0 ∧ batchVerdicts ops inp b = .ok st.verifyResults := by
  cases h with
  | checking places hindividual htable =>
    obtain rfl := Multiset.card_eq_zero.mp howed
    exact ⟨rfl, hindividual.trans htable.mapM_eq⟩
  | done hverdicts => exact ⟨rfl, hverdicts⟩
  | _ => omega

/-- A batch that has verdicts does not stop before it has given them. -/
theorem Stage.of_jobs_zero (hok : batchVerdicts ops inp b = .ok verdicts)
    (h : Stage ops inp b st jobs owed) (hjobs : jobs = 0) : owed = 0 := by
  cases h with
  | aggregating haggregated hshares hvvec hshare hagg hleft =>
    obtain ⟨hvvecJobs, hshareJobs⟩ := add_eq_zero.mp hjobs
    cases hshare with
    | running => exact absurd hshareJobs (Multiset.singleton_ne_zero _)
    | counted =>
      cases hvvec with
      | elements places hcount hnone =>
        obtain ⟨-, -, -, hpos⟩ := batchVerdicts_eq_ok haggregated hok
        have hzero := hnone (Multiset.map_eq_zero.mp hvvecJobs)
        omega
      | collected => exact absurd hvvecJobs (Multiset.singleton_ne_zero _)
      | counted => exact absurd hleft (by decide)
  | checking places =>
    rw [Multiset.map_eq_zero.mp hjobs, Multiset.card_zero]
  | done => rfl
  | _ => exact absurd hjobs (Multiset.singleton_ne_zero _)

end

end Absolute
