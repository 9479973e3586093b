/-
What a run of the batch verifier flags.

The messages that have been pushed since the last verification are all the verifier knows; the flags
only grow.  So a run is a sequence of batches, and what is flagged in the end is what each of its
batches flags.
-/
import AbsoluteCore.Spec.BatchVerifier

namespace Absolute

open Finset Buckets List Prod BatchChecks

variable {ι κ S P : Type} {batch : List (ι × BatchMessage κ S P)}
  {verifyInsecure : BatchMessage κ S P → Bool}

theorem BatchChecks.ideal_passes_iff {msgs : List (BatchMessage κ S P)} :
    (ideal verifyInsecure).Passes msgs ↔ ∀ m ∈ msgs, verifyInsecure m = true := by
  simp only [Passes, ideal, byMessageHash, all_eq_true]
  constructor
  · intro h m hm
    have hmem := mem_map_of_mem (f := fun msg => (msg.msgHash, msg)) hm
    exact h _ (mk_mem_collect hmem) m (mem_under.mpr hmem)
  · intro h p hp m hm
    rw [(mem_collect.mp hp).1, mem_under] at hm
    obtain ⟨a, ha, heq⟩ := mem_map.mp hm
    exact (Prod.mk.inj heq).2 ▸ h a ha

theorem BatchChecks.ideal_single : (ideal verifyInsecure).Single := by
  intro m
  rw [ideal_passes_iff]
  simp [Right, ideal]

namespace CBLSBatchVerifier

variable {onlySource : Bool} {p : ι × List (BatchMessage κ S P)} {checks : BatchChecks κ S P}

/-- `v'` has the flags of `v` and these. -/
structure Flagged (v : CBLSBatchVerifier ι κ S P) (sources : ι → Prop) (messages : κ → Prop)
    (v' : CBLSBatchVerifier ι κ S P) : Prop where
  fallback : v'.perMessageFallback = v.perMessageFallback
  size : v'.subBatchSize = v.subBatchSize
  sources : ∀ s, s ∈ v'.badSources ↔ s ∈ v.badSources ∨ sources s
  messages : ∀ k, k ∈ v'.badMessages ↔ k ∈ v.badMessages ∨ messages k

variable {v v' v'' : CBLSBatchVerifier ι κ S P} {sources sources' : ι → Prop}
  {messages messages' : κ → Prop}

theorem Flagged.none (v : CBLSBatchVerifier ι κ S P) :
    v.Flagged (fun _ => False) (fun _ => False) v :=
  ⟨rfl, rfl, by simp, by simp⟩

theorem Flagged.trans (h : v.Flagged sources messages v') (h' : v'.Flagged sources' messages' v'') :
    v.Flagged (fun s => sources s ∨ sources' s) (fun k => messages k ∨ messages' k) v'' where
  fallback := h'.fallback.trans h.fallback
  size := h'.size.trans h.size
  sources s := by rw [h'.sources, h.sources, or_assoc]
  messages k := by rw [h'.messages, h.messages, or_assoc]

theorem Flagged.congr (h : v.Flagged sources messages v') (hs : ∀ s, sources s ↔ sources' s)
    (hm : ∀ k, messages k ↔ messages' k) : v.Flagged sources' messages' v' where
  fallback := h.fallback
  size := h.size
  sources s := by rw [h.sources, hs]
  messages k := by rw [h.messages, hm]

/-- The source is found to be bad. -/
def BadSource (checks : BatchChecks κ S P) (onlySource : Bool)
    (p : ι × List (BatchMessage κ S P)) : Prop :=
  onlySource = true ∨ ¬ checks.Passes p.2

theorem batchValid_iff :
    (!onlySource && checks.verifyBatch (byMessageHash p.2)) = true ↔
      ¬ BadSource checks onlySource p := by
  unfold BadSource BatchChecks.Passes
  cases onlySource <;> simp

end CBLSBatchVerifier

variable [LinearOrder κ]

theorem CBLSBatchVerifier.mem_verifyMessages (checks : BatchChecks κ S P)
    (msgs : List (BatchMessage κ S P)) (bad : Finset κ) (k : κ) :
    k ∈ verifyMessages checks msgs bad ↔
      k ∈ bad ∨ ∃ m ∈ msgs, m.msgId = k ∧ ¬ checks.Right m := by
  induction msgs generalizing bad with
  | nil => simp [verifyMessages]
  | cons msg rest ih =>
    have hstep : verifyMessages checks (msg :: rest) bad = verifyMessages checks rest
        (if msg.msgId ∈ bad then bad
          else if !checks.verifyInsecure msg then insert msg.msgId bad else bad) := rfl
    rw [hstep, ih]
    unfold BatchChecks.Right
    grind

namespace Batch

variable (batch)

/-- In a batch an id stands for one message. -/
def Coherent : Prop :=
  ∀ x ∈ batch, ∀ y ∈ batch, x.2.msgId = y.2.msgId → x.2 = y.2

theorem emplace_msgId (msg : BatchMessage κ S P) : (emplace batch msg).msgId = msg.msgId := by
  unfold emplace
  cases hfind : (batch.map snd).find? fun known => known.msgId = msg.msgId with
  | none => rfl
  | some known => simpa using find?_some hfind

variable {batch}

theorem Coherent.emplace_eq (h : Coherent batch) {y : ι × BatchMessage κ S P} (hy : y ∈ batch)
    {msg : BatchMessage κ S P} (hid : y.2.msgId = msg.msgId) : emplace batch msg = y.2 := by
  unfold emplace
  cases hfind : (batch.map snd).find? fun known => known.msgId = msg.msgId with
  | none =>
    have hnone := find?_eq_none.mp hfind y.2 (mem_map_of_mem hy)
    simp [hid] at hnone
  | some known =>
    obtain ⟨x, hx, rfl⟩ := mem_map.mp (mem_of_find?_eq_some hfind)
    have hknown : x.2.msgId = msg.msgId := by simpa using find?_some hfind
    exact h x hx y hy (hknown.trans hid.symm)

theorem Coherent.push (h : Coherent batch) (x : ι × BatchMessage κ S P) :
    Coherent (push batch x) := by
  have hnew : ∀ y ∈ batch, y.2.msgId = (emplace batch x.2).msgId → y.2 = emplace batch x.2 := by
    intro y hy hid
    rw [emplace_msgId] at hid
    exact (h.emplace_eq hy hid).symm
  intro y hy z hz hid
  rcases mem_append.mp hy with hy | hy <;> rcases mem_append.mp hz with hz | hz
  · exact h y hy z hz hid
  · obtain rfl := List.mem_singleton.mp hz
    exact hnew y hy hid
  · obtain rfl := List.mem_singleton.mp hy
    exact (hnew z hz hid.symm).symm
  · rw [List.mem_singleton.mp hy, List.mem_singleton.mp hz]

variable (pushes : List (ι × BatchMessage κ S P))

theorem find_foldl_push (k : κ) :
    (((pushes.foldl push []).map snd).find? fun known => known.msgId = k) =
      (pushes.map snd).find? fun known => known.msgId = k := by
  induction pushes using reverseRecOn with
  | nil => rfl
  | append_singleton pushes x ih =>
    rw [foldl_append, foldl_cons, foldl_nil, push, map_append,
      find?_append, ih, map_append, find?_append]
    cases hfind : (pushes.map Prod.snd).find? fun known => known.msgId = k with
    | some known => rfl
    | none =>
      by_cases hk : x.2.msgId = k
      · subst hk
        have hself : emplace (pushes.foldl push []) x.2 = x.2 := by
          rw [emplace, ih, hfind]
          rfl
        rw [List.map_singleton, hself]
        rfl
      · have hk' : (emplace (pushes.foldl push []) x.2).msgId ≠ k := by rwa [emplace_msgId]
        simp [hk, hk']

variable [DecidableEq S] [DecidableEq P]

@[simp] theorem mem_messages {m : BatchMessage κ S P} :
    m ∈ messages batch ↔ ∃ s, (s, m) ∈ batch := by
  simp [messages]

theorem coherent_split {n : Nat} (h : Coherent batch) {pushes : List (ι × BatchMessage κ S P)} :
    ∀ b ∈ split n batch pushes, Coherent b := by
  induction pushes generalizing batch with
  | nil =>
    intro b hb
    rwa [List.mem_singleton.mp hb]
  | cons x pushes ih =>
    intro b hb
    rw [split] at hb
    split_ifs at hb
    · rcases mem_cons.mp hb with rfl | hb
      · exact h.push x
      · exact ih (fun _ hx => absurd hx not_mem_nil) b hb
    · exact ih (h.push x) b hb

/-- Without a limit everything is one batch, where the first message pushed under an id stands for
all. -/
theorem split_zero : split 0 [] pushes = [pushes.map fun x => (x.1, emplace pushes x.2)] := by
  have hsplit : ∀ batch : List (ι × BatchMessage κ S P),
      split 0 batch pushes = [pushes.foldl push batch] := by
    induction pushes with
    | nil => exact fun _ => rfl
    | cons x pushes ih =>
      intro batch
      rw [split, if_neg (by simp), ih]
      rfl
  rw [hsplit]
  congr 1
  clear hsplit
  induction pushes using reverseRecOn with
  | nil => rfl
  | append_singleton pushes x ih =>
    have hnew : emplace (pushes ++ [x]) x.2 = emplace (pushes.foldl push []) x.2 := by
      simp only [emplace, find_foldl_push, map_append, find?_append]
      cases (pushes.map Prod.snd).find? fun known => known.msgId = x.2.msgId <;> simp
    have hold : ∀ y ∈ pushes, emplace (pushes ++ [x]) y.2 = emplace pushes y.2 := by
      intro y hy
      have hsome : ((pushes.map Prod.snd).find? fun known => known.msgId = y.2.msgId).isSome := by
        simpa using ⟨y.1, y.2, hy, rfl⟩
      obtain ⟨known, hknown⟩ := Option.isSome_iff_exists.mp hsome
      simp only [emplace, map_append, find?_append, hknown]
      rfl
    rw [foldl_append, map_append, map_congr_left fun y hy => by rw [hold y hy],
      List.map_singleton, hnew, ← ih]
    rfl

end Batch

variable [LinearOrder ι]

namespace CBLSBatchVerifier

open Batch (FailedSource FailedMessage)

variable {onlySource : Bool} {p : ι × List (BatchMessage κ S P)} {checks : BatchChecks κ S P}
  {v : CBLSBatchVerifier ι κ S P}

theorem flagged_verifySource
    (hsingle : ∀ m, p.2 = [m] → BadSource checks onlySource p → ¬ checks.Right m) :
    v.Flagged (fun s => BadSource checks onlySource p ∧ p.1 = s)
      (fun k => BadSource checks onlySource p ∧ v.perMessageFallback = true ∧
        ∃ m ∈ p.2, m.msgId = k ∧ ¬ checks.Right m)
      (verifySource checks onlySource v p) := by
  unfold verifySource
  by_cases hbad : BadSource checks onlySource p
  · rw [if_neg (mt batchValid_iff.mp (not_not.mpr hbad))]
    refine ⟨rfl, rfl, fun s => ?_, fun k => ?_⟩
    · simp [hbad, or_comm, eq_comm]
    · by_cases hfallback : v.perMessageFallback = true
      · simp only [hfallback, if_true, hbad, true_and]
        split
        · next msg hp =>
            have hwrong := hsingle msg hp hbad
            simp only [hp, List.mem_singleton, exists_eq_left, hwrong, not_false_eq_true, and_true,
              mem_insert]
            rw [eq_comm, or_comm]
        · exact mem_verifyMessages checks _ _ _
      · simp [hfallback]
  · rw [if_pos (batchValid_iff.mpr hbad)]
    exact (Flagged.none v).congr (by simp [hbad]) (by simp [hbad])

theorem flagged_foldl_verifySource {ps : List (ι × List (BatchMessage κ S P))}
    (hsingle : ∀ p ∈ ps, ∀ m, p.2 = [m] → BadSource checks onlySource p → ¬ checks.Right m) :
    v.Flagged (fun s => ∃ p ∈ ps, BadSource checks onlySource p ∧ p.1 = s)
      (fun k => ∃ p ∈ ps, BadSource checks onlySource p ∧ v.perMessageFallback = true ∧
        ∃ m ∈ p.2, m.msgId = k ∧ ¬ checks.Right m)
      (ps.foldl (verifySource checks onlySource) v) := by
  induction ps generalizing v with
  | nil => exact (Flagged.none v).congr (by simp) (by simp)
  | cons p rest ih =>
    have hp := flagged_verifySource (v := v) (hsingle p mem_cons_self)
    have hrest := ih (v := verifySource checks onlySource v p)
      fun q hq => hsingle q (mem_cons_of_mem _ hq)
    rw [hp.fallback] at hrest
    exact (hp.trans hrest).congr (by simp) (by simp)

variable [DecidableEq S] [DecidableEq P]

theorem badSource_iff (hfailed : ¬ checks.Passes (Batch.messages batch)) (hp : p ∈ collect batch) :
    BadSource checks (decide ((collect batch).length = 1)) p ↔
      FailedSource checks.Passes batch p.1 := by
  obtain ⟨hunder, m, hm⟩ := mem_collect.mp hp
  unfold BadSource
  rw [decide_eq_true_iff, length_collect_eq_one hm, hunder]
  exact ⟨fun h => ⟨hfailed, ⟨_, hm, rfl⟩, h⟩, fun h => h.fails⟩

theorem wrong_of_single (hsingle : checks.Single) {s : ι} {m : BatchMessage κ S P}
    (hs : FailedSource checks.Passes batch s) (hm : under batch s = [m]) : ¬ checks.Right m := by
  rw [← hsingle m]
  rcases hs.fails with hall | hfails
  · have hbatch : batch.map Prod.snd = [m] := by
      rw [← hm, under, List.filter_eq_self.mpr (by simpa using hall)]
    have hmessages : Batch.messages batch = [m] := by simp [Batch.messages, hbatch]
    exact hmessages ▸ hs.failed
  · exact hm ▸ hfails

theorem flagged_verify (hsingle : checks.Single) (v : CBLSBatchVerifier ι κ S P) :
    v.Flagged (FailedSource checks.Passes v.pushed)
      (fun k => v.perMessageFallback = true ∧ FailedMessage checks.Passes checks.Right v.pushed k)
      (v.verify checks) := by
  unfold verify
  by_cases hpasses : checks.Passes (Batch.messages v.pushed)
  · rw [if_pos (show checks.verifyBatch _ = true from hpasses)]
    refine (Flagged.none v).congr (fun s => ?_) (fun k => ?_)
    · exact ⟨False.elim, fun h => h.failed hpasses⟩
    · exact ⟨False.elim, fun ⟨_, _, _, _, _, h⟩ => h.failed hpasses⟩
  rw [if_neg (show ¬ checks.verifyBatch _ = true from hpasses)]
  refine (flagged_foldl_verifySource ?_).congr (fun s => ?_) (fun k => ?_)
  · intro p hp m hm hbad
    exact wrong_of_single hsingle ((badSource_iff hpasses hp).mp hbad)
      ((mem_collect.mp hp).1 ▸ hm)
  · constructor
    · rintro ⟨p, hp, hbad, rfl⟩
      exact (badSource_iff hpasses hp).mp hbad
    · intro h
      obtain ⟨⟨_, m⟩, hm, rfl⟩ := h.sent
      have hp := mk_mem_collect hm
      exact ⟨_, hp, (badSource_iff hpasses hp).mpr h, rfl⟩
  · constructor
    · rintro ⟨p, hp, hbad, hfallback, m, hm, hk, hwrong⟩
      rw [(mem_collect.mp hp).1] at hm
      exact ⟨hfallback, (p.1, m), mem_under.mp hm, hk, hwrong, (badSource_iff hpasses hp).mp hbad⟩
    · rintro ⟨hfallback, ⟨s, m⟩, hm, hk, hwrong, h⟩
      have hp := mk_mem_collect hm
      exact ⟨_, hp, (badSource_iff hpasses hp).mpr h, hfallback, m, mem_under.mpr hm, hk, hwrong⟩

/-- **The flags of a run** are those of its batches. -/
theorem flagged_pushAll (hsingle : checks.Single) (pushes : List (ι × BatchMessage κ S P))
    (v : CBLSBatchVerifier ι κ S P) :
    v.Flagged
      (fun s => ∃ b ∈ Batch.split v.subBatchSize v.pushed pushes, FailedSource checks.Passes b s)
      (fun k => v.perMessageFallback = true ∧ ∃ b ∈ Batch.split v.subBatchSize v.pushed pushes,
        FailedMessage checks.Passes checks.Right b k)
      ((v.pushAll checks pushes).verify checks) := by
  induction pushes generalizing v with
  | nil => exact (flagged_verify hsingle v).congr (by simp [Batch.split]) (by simp [Batch.split])
  | cons x pushes ih =>
    have hpushed := flagged_verify hsingle { v with pushed := Batch.push v.pushed x }
    show v.Flagged _ _ (((v.pushMessage checks x.1 x.2).pushAll checks pushes).verify checks)
    unfold pushMessage
    rw [Batch.split]
    by_cases hfull : v.subBatchSize ≠ 0 ∧
        (Batch.messages (Batch.push v.pushed x)).length ≥ v.subBatchSize
    · rw [if_pos hfull, if_pos hfull]
      -- `ClearMessages` keeps the flags
      have hcleared : v.Flagged _ _
          (({ v with pushed := Batch.push v.pushed x }.verify checks).clearMessages) :=
        ⟨hpushed.fallback, hpushed.size, hpushed.sources, hpushed.messages⟩
      have hrest := ih (({ v with pushed := Batch.push v.pushed x }.verify checks).clearMessages)
      rw [hcleared.fallback, hcleared.size] at hrest
      refine (hcleared.trans hrest).congr (fun s => ?_) (fun k => ?_)
      · simp [clearMessages]
      · simp [clearMessages, and_or_left]
    · rw [if_neg hfull, if_neg hfull]
      have hrest := ih { v with pushed := Batch.push v.pushed x }
      exact ⟨hrest.fallback, hrest.size, hrest.sources, hrest.messages⟩

end CBLSBatchVerifier

/-! ### Idealised checks -/

variable [DecidableEq S] [DecidableEq P]

/-- An idealised check finds the sources of wrong messages. -/
theorem Batch.failedSource_ideal_iff {s : ι} :
    FailedSource (ideal verifyInsecure).Passes batch s ↔
      ∃ x ∈ batch, x.1 = s ∧ verifyInsecure x.2 = false := by
  constructor
  · intro h
    rcases h.fails with hall | hfails
    · obtain ⟨m, hm, hwrong⟩ := by simpa [ideal_passes_iff] using h.failed
      obtain ⟨t, ht⟩ := hm
      exact ⟨(t, m), ht, hall _ ht, hwrong⟩
    · obtain ⟨m, hm, hwrong⟩ := by simpa [ideal_passes_iff] using hfails
      exact ⟨(s, m), mem_under.mp hm, rfl, hwrong⟩
  · rintro ⟨⟨t, m⟩, hx, rfl, hwrong⟩
    refine ⟨fun h => ?_, ⟨_, hx, rfl⟩, .inr fun h => ?_⟩
    · simp [ideal_passes_iff.mp h m (mem_messages.mpr ⟨_, hx⟩)] at hwrong
    · simp [ideal_passes_iff.mp h m (mem_under.mpr hx)] at hwrong

end Absolute
