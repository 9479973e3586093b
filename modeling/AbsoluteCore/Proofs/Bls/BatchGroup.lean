/-
Batches of signatures that are a group.

All that is compared in the end is the difference between the sum of the signatures and the sum of
the expected ones.  Each hash adds the errors of its messages to it, so a check passes when the errors
that went into it cancel.
-/
import Mathlib.Algebra.BigOperators.Fin
import AbsoluteCore.Proofs.Bls.BatchVerifier

namespace Absolute

open List Function Option Prod Aggregate Buckets Batch

variable {ι κ G P : Type} {msgs : List (BatchMessage κ G P)}

open BatchMessage (error ErrorsCancel)

abbrev HashGroup (κ G P : Type) := Uint256 × List (BatchMessage κ G P)

def idsOf [LinearOrder κ] (msgs : List (BatchMessage κ G P)) : Finset κ :=
  (msgs.map (·.msgId)).toFinset

namespace BlsSigOps

variable {gs : List (HashGroup κ G P)} {p : HashGroup κ G P}

/-- The messages stand under their hashes, and an id for one message. -/
structure Grouped (gs : List (HashGroup κ G P)) : Prop where
  nodup : (gs.map Prod.fst).Nodup
  hash : ∀ p ∈ gs, ∀ m ∈ p.2, m.msgHash = p.1
  coherent : ∀ p ∈ gs, ∀ q ∈ gs, ∀ a ∈ p.2, ∀ b ∈ q.2, a.msgId = b.msgId → a = b

theorem Grouped.tail (h : Grouped (p :: gs)) : Grouped gs where
  nodup := (nodup_cons.mp h.nodup).2
  hash q hq := h.hash q (mem_cons_of_mem _ hq)
  coherent q hq r hr := h.coherent q (mem_cons_of_mem _ hq) r (mem_cons_of_mem _ hr)

theorem Grouped.popBack (h : Grouped gs) : Grouped (popBack gs) := by
  have hsub : ∀ p ∈ BlsSigOps.popBack gs, ∃ q ∈ gs, p.1 = q.1 ∧ ∀ m ∈ p.2, m ∈ q.2 := by
    intro p hp
    obtain ⟨q, hq, rfl⟩ := mem_map.mp (mem_filter.mp hp).1
    exact ⟨q, hq, rfl, fun m hm => mem_of_mem_dropLast hm⟩
  refine ⟨?_, ?_, ?_⟩
  · have hkeys : ((gs.map fun p => (p.1, p.2.dropLast)).map Prod.fst) = gs.map Prod.fst := by
      simp [comp_def]
    exact (hkeys ▸ h.nodup).sublist (filter_sublist.map Prod.fst)
  · intro p hp m hm
    obtain ⟨q, hq, hkey, hmem⟩ := hsub p hp
    rw [hkey]
    exact h.hash q hq m (hmem m hm)
  · intro p hp q hq a ha b hb
    obtain ⟨p', hp', -, hmemp⟩ := hsub p hp
    obtain ⟨q', hq', -, hmemq⟩ := hsub q hq
    exact h.coherent p' hp' q' hq' a (hmemp a ha) b (hmemq b hb)

theorem grouped_byMessageHash
    (hcoh : ∀ a ∈ msgs, ∀ b ∈ msgs, a.msgId = b.msgId → a = b) : Grouped (byMessageHash msgs) := by
  have hmem : ∀ p ∈ byMessageHash msgs, ∀ m ∈ p.2, m ∈ msgs ∧ m.msgHash = p.1 := by
    intro p hp m hm
    rw [(mem_collect.mp hp).1, mem_under] at hm
    obtain ⟨a, ha, heq⟩ := mem_map.mp hm
    obtain ⟨hhash, rfl⟩ := Prod.mk.inj heq
    exact ⟨ha, hhash⟩
  exact ⟨nodup_keys _, fun p hp m hm => (hmem p hp m hm).2,
    fun p hp q hq a ha b hb => hcoh a (hmem p hp a ha).1 b (hmem q hq b hb).1⟩

theorem Grouped.disjoint [LinearOrder κ] (h : Grouped (p :: gs)) {q : HashGroup κ G P}
    (hq : q ∈ gs) :
    Disjoint (idsOf p.2) (idsOf q.2) := by
  rw [Finset.disjoint_left]
  intro k hp hk
  simp only [idsOf, List.mem_toFinset, List.mem_map] at hp hk
  obtain ⟨a, ha, rfl⟩ := hp
  obtain ⟨b, hb, hid⟩ := hk
  have hpmem : p ∈ p :: gs := mem_cons_self
  have hqmem : q ∈ p :: gs := mem_cons_of_mem _ hq
  obtain rfl := h.coherent q hqmem p hpmem b hb a ha hid
  have hkeys : q.1 = p.1 := (h.hash q hqmem b hb).symm.trans (h.hash p hpmem b ha)
  exact (nodup_cons.mp h.nodup).1 (hkeys ▸ mem_map_of_mem hq)

end BlsSigOps

variable [AddCommGroup G] [AddCommMonoid P] {sign : Uint256 → P →+ G}

@[simp] theorem aggregate_add {α : Type} [AddMonoid α] (a : Option α) (b : α) :
    aggregate (fun x y => x + y) a b = a.getD 0 + b := by
  cases a <;> simp [aggregate]

namespace Aggregate

/-- What the check compares with 0. -/
def total (sign : Uint256 → P →+ G) (agg : Aggregate κ G P) : G :=
  agg.aggSig.getD 0 - ((agg.pubKeys.zip agg.msgHashes).map fun p => sign p.2 p.1).sum

structure Paired (agg : Aggregate κ G P) : Prop where
  length : agg.pubKeys.length = agg.msgHashes.length
  empty : agg.aggSig = none → agg.pubKeys = []

variable {agg : Aggregate κ G P}

theorem Paired.append (sign) {agg' : Aggregate κ G P} (h : agg.Paired)
    {h' : Uint256} {k : P} (hkeys : agg'.pubKeys = agg.pubKeys ++ [k])
    (hhashes : agg'.msgHashes = agg.msgHashes ++ [h']) (hsig : agg'.aggSig ≠ none) :
    agg'.Paired ∧ agg'.total sign =
      agg.total sign + (agg'.aggSig.getD 0 - agg.aggSig.getD 0 - sign h' k) := by
  refine ⟨⟨by simp [hkeys, hhashes, h.length], fun hnone => absurd hnone hsig⟩, ?_⟩
  unfold total
  rw [hkeys, hhashes, zip_append h.length, map_append, sum_append]
  simp only [zip_cons_cons, zip_nil_right, map_cons, map_nil, sum_cons, sum_nil, add_zero]
  abel

variable [DecidableEq G]

theorem Paired.verify_iff (h : agg.Paired) :
    (BlsSigOps.ofGroup sign).verifyAggregate agg = true ↔ agg.total sign = 0 := by
  unfold BlsSigOps.verifyAggregate total
  cases hsig : agg.aggSig with
  | none => simp [h.empty hsig]
  | some sig => simp [BlsSigOps.ofGroup, sub_eq_zero]

end Aggregate

namespace BlsSigOps

/-- What round `n` of the secure mode adds up. -/
def roundSum (sign : Uint256 → P →+ G) (gs : List (HashGroup κ G P)) (n : Nat) : G :=
  (gs.map fun p => (p.2.reverse[n]?).elim 0 (error sign)).sum

theorem roundSum_popBack (gs : List (HashGroup κ G P)) (n : Nat) :
    roundSum sign (popBack gs) n = roundSum sign gs (n + 1) := by
  induction gs with
  | nil => rfl
  | cons p rest ih =>
    have hnext : p.2.dropLast.reverse[n]? = p.2.reverse[n + 1]? := by
      rw [← tail_reverse, getElem?_tail]
    have hsplit : roundSum sign (p :: rest) (n + 1)
        = (p.2.reverse[n + 1]?).elim 0 (error sign) + roundSum sign rest (n + 1) := rfl
    rw [hsplit, ← hnext, ← ih]
    unfold popBack
    by_cases hlast : p.2.dropLast = []
    · simp [hlast]
    · simp [hlast, roundSum]

end BlsSigOps

variable [LinearOrder κ]

namespace BlsSigOps

variable {agg : Aggregate κ G P} {gs : List (HashGroup κ G P)} {p : HashGroup κ G P}
  {f : HashGroup κ G P → G} {step : Aggregate κ G P → HashGroup κ G P → Aggregate κ G P}

/-- What a step over the hashes does when it adds `f p` for the hash `p`. -/
structure Adds (sign : Uint256 → P →+ G) (f : HashGroup κ G P → G) (agg : Aggregate κ G P)
    (p : HashGroup κ G P) (agg' : Aggregate κ G P) : Prop where
  paired : agg'.Paired
  total : agg'.total sign = agg.total sign + f p
  dups : agg'.dups ⊆ agg.dups ∪ idsOf p.2

/-- A loop over the hashes adds up what its step adds. -/
theorem Grouped.foldl_adds (h : Grouped gs)
    (hstep : ∀ agg : Aggregate κ G P, agg.Paired → ∀ p ∈ gs, Disjoint agg.dups (idsOf p.2) →
      Adds sign f agg p (step agg p))
    (hagg : agg.Paired) (hnew : ∀ p ∈ gs, Disjoint agg.dups (idsOf p.2)) :
    (gs.foldl step agg).Paired ∧
      (gs.foldl step agg).total sign = agg.total sign + (gs.map f).sum := by
  induction gs generalizing agg with
  | nil => exact ⟨hagg, by simp⟩
  | cons p rest ih =>
    have hp := hstep agg hagg p mem_cons_self (hnew p mem_cons_self)
    have hrest := ih h.tail (fun agg hagg q hq => hstep agg hagg q (mem_cons_of_mem _ hq))
      hp.paired (fun q hq => ?_)
    · refine ⟨hrest.1, hrest.2.trans ?_⟩
      rw [hp.total, map_cons, sum_cons, add_assoc]
    · refine Finset.disjoint_of_subset_left hp.dups ?_
      rw [Finset.disjoint_union_left]
      exact ⟨hnew q (mem_cons_of_mem _ hq), h.disjoint hq⟩

variable [DecidableEq G]

theorem Grouped.verify_foldl (h : Grouped gs)
    (hstep : ∀ agg : Aggregate κ G P, agg.Paired → ∀ p ∈ gs, Disjoint agg.dups (idsOf p.2) →
      Adds sign f agg p (step agg p)) :
    (ofGroup sign).verifyAggregate (gs.foldl step {}) = true ↔ (gs.map f).sum = 0 := by
  have hempty : ({} : Aggregate κ G P).Paired := ⟨rfl, fun _ => rfl⟩
  obtain ⟨hpaired, htotal⟩ := h.foldl_adds hstep hempty (fun p _ => Finset.disjoint_empty_left _)
  rw [hpaired.verify_iff, htotal]
  simp [total]

theorem adds_addLast (hagg : agg.Paired) (hhash : ∀ m ∈ p.2, m.msgHash = p.1)
    (hnew : Disjoint agg.dups (idsOf p.2)) :
    Adds sign (fun p => (p.2.reverse[0]?).elim 0 (error sign)) agg p
      (addLast (ofGroup sign) agg p) := by
  have hlast : p.2.reverse[0]? = p.2.getLast? := by
    rw [getLast?_eq_head?_reverse, head?_eq_getElem?]
  unfold addLast
  cases h : p.2.getLast? with
  | none => exact ⟨hagg, by simp [hlast, h], by simp⟩
  | some m =>
    have hm : m ∈ p.2 := mem_of_getLast? h
    have hid : m.msgId ∈ idsOf p.2 := by simpa [idsOf] using ⟨m, hm, rfl⟩
    simp only [if_neg (Finset.disjoint_right.mp hnew hid)]
    obtain ⟨hpaired, htotal⟩ : Aggregate.Paired ⟨some (agg.aggSig.getD 0 + m.sig),
        agg.msgHashes ++ [p.1], agg.pubKeys ++ [m.pubKey], insert m.msgId agg.dups⟩ ∧ _ :=
      hagg.append sign rfl rfl (some_ne_none _)
    simp only [ofGroup, aggregate_add]
    refine ⟨hpaired, htotal.trans ?_, ?_⟩
    · rw [hlast, h, ← hhash m hm]
      simp [error]
    · exact Finset.insert_subset (Finset.mem_union_right _ hid) Finset.subset_union_left

theorem Grouped.verifySteps_iff {fuel : Nat} (h : Grouped gs)
    (hfuel : ∀ p ∈ gs, p.2.length ≤ fuel) :
    verifySteps (ofGroup sign) fuel gs = true ↔ ∀ n, roundSum sign gs n = 0 := by
  induction fuel generalizing gs with
  | zero =>
    have hzero : ∀ n, roundSum sign gs n = 0 := by
      intro n
      refine sum_eq_zero fun x hx => ?_
      obtain ⟨p, hp, rfl⟩ := mem_map.mp hx
      simp [length_eq_zero_iff.mp (Nat.le_zero.mp (hfuel p hp))]
    exact ⟨fun _ => hzero, fun _ => rfl⟩
  | succ fuel ih =>
    rw [verifySteps]
    by_cases hempty : gs.isEmpty = true
    · rw [if_pos hempty, isEmpty_iff.mp hempty]
      exact ⟨fun _ _ => rfl, fun _ => rfl⟩
    rw [if_neg hempty]
    have hround : (ofGroup sign).verifyAggregate (gs.foldl (addLast (ofGroup sign)) {}) = true ↔
        roundSum sign gs 0 = 0 :=
      h.verify_foldl fun agg hagg p hp => adds_addLast hagg (h.hash p hp)
    have hrest := ih h.popBack (fun p hp => by
      obtain ⟨q, hq, rfl⟩ := mem_map.mp (mem_filter.mp hp).1
      have := hfuel q hq
      simp only [length_dropLast]
      omega)
    simp only [roundSum_popBack] at hrest
    by_cases hzero : roundSum sign gs 0 = 0
    · rw [if_pos (hround.mpr hzero), hrest]
      refine ⟨fun hall n => ?_, fun hall n => hall (n + 1)⟩
      cases n with
      | zero => exact hzero
      | succ n => exact hall n
    · rw [if_neg (mt hround.mp hzero)]
      exact ⟨fun hfalse => absurd hfalse Bool.false_ne_true, fun hall => absurd (hall 0) hzero⟩

variable [DecidableEq P]

/-- **One hash of the insecure mode** adds up its messages, each once. -/
theorem foldl_addMessage (sign) {msgs : List (BatchMessage κ G P)}
    (hcoh : ∀ a ∈ msgs, ∀ b ∈ msgs, a.msgId = b.msgId → a = b) (aggSig : Option G)
    {dups : Finset κ} (hnew : Disjoint dups (idsOf msgs)) :
    let r := msgs.foldl (addMessage (ofGroup sign)) (aggSig, dups, none)
    r.1.getD 0 = aggSig.getD 0 + ∑ m ∈ msgs.toFinset, m.sig ∧
      r.2.1 = dups ∪ idsOf msgs ∧ r.2.2.getD 0 = ∑ m ∈ msgs.toFinset, m.pubKey ∧
      (msgs ≠ [] → r.1 ≠ none ∧ r.2.2 ≠ none) := by
  induction msgs using reverseRecOn with
  | nil => simp [idsOf]
  | append_singleton msgs m ih =>
    have hsub : ∀ a ∈ msgs, a ∈ msgs ++ [m] := fun a ha => mem_append_left _ ha
    have hids : idsOf (msgs ++ [m]) = insert m.msgId (idsOf msgs) := by
      ext k
      simp [idsOf, eq_comm]
    rw [hids, Finset.disjoint_insert_right] at hnew
    obtain ⟨hm, hdisj⟩ := hnew
    obtain ⟨hsig, hdups, hkey, hsome⟩ := ih (fun a ha b hb => hcoh a (hsub a ha) b (hsub b hb)) hdisj
    rw [foldl_append]
    generalize msgs.foldl (addMessage (ofGroup sign)) (aggSig, dups, none) = r at *
    -- a message that is there already has its id there, and no other message has it
    have hseen : m.msgId ∈ r.2.1 ↔ m ∈ msgs := by
      rw [hdups, Finset.mem_union]
      constructor
      · rintro (h | h)
        · exact absurd h hm
        · simp only [idsOf, List.mem_toFinset, List.mem_map] at h
          obtain ⟨a, ha, hid⟩ := h
          exact hcoh a (hsub a ha) m (by simp) hid ▸ ha
      · intro h
        exact .inr (by simpa [idsOf] using ⟨m, h, rfl⟩)
    have hset : (msgs ++ [m]).toFinset = insert m msgs.toFinset := by
      ext a
      simp
    simp only [foldl_cons, foldl_nil, addMessage, hids, hset]
    by_cases h : m ∈ msgs
    · rw [if_pos (hseen.mpr h), Finset.insert_eq_of_mem (mem_toFinset.mpr h)]
      refine ⟨hsig, ?_, hkey, fun _ => hsome (ne_nil_of_mem h)⟩
      rw [Finset.insert_eq_of_mem (by simpa [idsOf] using ⟨m, h, rfl⟩), hdups]
    · rw [if_neg (mt hseen.mp h), Finset.sum_insert (by simpa using h),
        Finset.sum_insert (by simpa using h)]
      refine ⟨?_, ?_, ?_, by simp⟩
      · simp only [ofGroup, aggregate_add, getD_some, hsig]
        abel
      · rw [hdups, Finset.union_insert]
      · simp only [ofGroup, aggregate_add, getD_some, hkey]
        exact add_comm _ _

theorem adds_addHash (hagg : agg.Paired) (hhash : ∀ m ∈ p.2, m.msgHash = p.1)
    (hcoh : ∀ a ∈ p.2, ∀ b ∈ p.2, a.msgId = b.msgId → a = b)
    (hnew : Disjoint agg.dups (idsOf p.2)) :
    Adds sign (fun p => ∑ m ∈ p.2.toFinset, error sign m) agg p (addHash (ofGroup sign) agg p) := by
  obtain ⟨hsig, hdups, hkey, hsome⟩ := foldl_addMessage sign hcoh agg.aggSig hnew
  unfold addHash
  by_cases hempty : p.2 = []
  · rw [hempty]
    exact ⟨⟨hagg.length, hagg.empty⟩, by simp [total, hempty], by simp⟩
  obtain ⟨hsigSome, hkeySome⟩ := hsome hempty
  generalize p.2.foldl (addMessage (ofGroup sign)) (agg.aggSig, agg.dups, none) = r at *
  obtain ⟨aggSig, dups, key⟩ := r
  obtain ⟨aggPubKey, rfl⟩ := ne_none_iff_exists'.mp hkeySome
  obtain ⟨hpaired, htotal⟩ : Aggregate.Paired
      ⟨aggSig, agg.msgHashes ++ [p.1], agg.pubKeys ++ [aggPubKey], dups⟩ ∧ _ :=
    hagg.append sign rfl rfl hsigSome
  refine ⟨hpaired, htotal.trans ?_, hdups.subset⟩
  have hexpected : ∑ m ∈ p.2.toFinset, sign m.msgHash m.pubKey = sign p.1 aggPubKey := by
    rw [show aggPubKey = _ from hkey, map_sum]
    exact Finset.sum_congr rfl fun m hm => by rw [hhash m (mem_toFinset.mp hm)]
  show _ + (aggSig.getD 0 - _ - _) = _ + ∑ m ∈ p.2.toFinset, (m.sig - sign m.msgHash m.pubKey)
  rw [Finset.sum_sub_distrib, hexpected, show aggSig.getD 0 = _ from hsig]
  abel

end BlsSigOps

/-! ### Checks and errors -/

variable [DecidableEq G] [DecidableEq P] (secureVerification : Bool)

open BlsSigOps (Grouped ofGroup grouped_byMessageHash)

omit [AddCommMonoid P] in
theorem sum_byMessageHash (msgs) (f : BatchMessage κ G P → G) :
    ((byMessageHash msgs).map fun p => ∑ m ∈ p.2.toFinset, f m).sum = ∑ m ∈ msgs.toFinset, f m := by
  have hkeys : ((msgs.map fun m => (m.msgHash, m)).map Prod.fst).dedup.toFinset
      = msgs.toFinset.image (·.msgHash) := by
    ext h
    simp
  have hunder : ∀ h, (under (msgs.map fun m => (m.msgHash, m)) h).toFinset
      = msgs.toFinset.filter (·.msgHash = h) := by
    intro h
    ext m
    simp [mem_under, and_comm]
  rw [byMessageHash, collect, List.map_map,
    ((perm_insertionSort _ _).map _).sum_eq, ← sum_toFinset _ (nodup_dedup _), hkeys]
  simp only [comp_apply, hunder]
  exact Finset.sum_fiberwise_of_maps_to (fun m hm => Finset.mem_image_of_mem _ hm) f

/-- **A check passes when the errors cancel.** -/
theorem passes_iff_errorsCancel (hcoh : ∀ a ∈ msgs, ∀ b ∈ msgs, a.msgId = b.msgId → a = b) :
    ((ofGroup sign).checks secureVerification).Passes msgs ↔
      ErrorsCancel sign secureVerification msgs := by
  have hgroups := grouped_byMessageHash hcoh
  cases secureVerification with
  | true =>
    have hfuel : ∀ p ∈ byMessageHash msgs,
        p.2.length ≤ ((byMessageHash msgs).flatMap Prod.snd).length := by
      intro p hp
      exact (sublist_flatten_of_mem (mem_map_of_mem hp)).length_le
    exact hgroups.verifySteps_iff hfuel
  | false =>
    show (ofGroup sign).verifyAggregate _ = true ↔ ∑ m ∈ msgs.toFinset, error sign m = 0
    rw [← sum_byMessageHash]
    exact hgroups.verify_foldl fun agg hagg p hp =>
      BlsSigOps.adds_addHash hagg (hgroups.hash p hp) (hgroups.coherent p hp p hp)

theorem single_checks : ((ofGroup sign).checks secureVerification : BatchChecks κ G P).Single := by
  intro m
  have hcoh : ∀ a ∈ [m], ∀ b ∈ [m], a.msgId = b.msgId → a = b := by
    intro a ha b hb _
    rw [mem_singleton.mp ha, mem_singleton.mp hb]
  have hright : ((ofGroup sign).checks secureVerification).Right m ↔ error sign m = 0 := by
    simp [BatchChecks.Right, BlsSigOps.checks, ofGroup, error, sub_eq_zero]
  rw [passes_iff_errorsCancel secureVerification hcoh, hright]
  cases secureVerification with
  | true =>
    constructor
    · intro h
      simpa [byMessageHash, collect, under] using h 0
    · intro h n
      cases n <;> simp [byMessageHash, collect, under, h]
  | false => simp [ErrorsCancel]

variable [LinearOrder ι]

/-- The batches of a run fail where errors do not cancel. -/
theorem caught_iff {secureVerification perMessageFallback : Bool}
    {batch : List (ι × BatchMessage κ G P)} (h : Batch.Coherent batch)
    {x : ι × BatchMessage κ G P} :
    Batch.Caught ((ofGroup sign).checks secureVerification).Passes
        ((ofGroup sign).checks secureVerification).Right perMessageFallback batch x ↔
      Batch.Caught (ErrorsCancel sign secureVerification) (BatchMessage.Right sign)
        perMessageFallback batch x := by
  have hsource : ∀ s, Batch.FailedSource ((ofGroup sign).checks secureVerification).Passes batch s ↔
      Batch.FailedSource (ErrorsCancel sign secureVerification) batch s := by
    have hpasses : ∀ msgs : List (BatchMessage κ G P), (∀ m ∈ msgs, ∃ s, (s, m) ∈ batch) →
        (((ofGroup sign).checks secureVerification).Passes msgs ↔
          ErrorsCancel sign secureVerification msgs) := by
      intro msgs hmsgs
      refine passes_iff_errorsCancel secureVerification fun a ha b hb hid => ?_
      obtain ⟨s, hs⟩ := hmsgs a ha
      obtain ⟨t, ht⟩ := hmsgs b hb
      exact h (s, a) hs (t, b) ht hid
    intro s
    have hall := hpasses (messages batch) fun m hm => mem_messages.mp hm
    have hunder := hpasses (under batch s) fun m hm => ⟨s, mem_under.mp hm⟩
    exact ⟨fun hf => ⟨mt hall.mpr hf.failed, hf.sent, hf.fails.imp_right (mt hunder.mpr)⟩,
      fun hf => ⟨mt hall.mp hf.failed, hf.sent, hf.fails.imp_right (mt hunder.mp)⟩⟩
  have hright : ∀ m : BatchMessage κ G P,
      ((ofGroup sign).checks secureVerification).Right m ↔ m.Right sign := by
    intro m
    simp [BatchChecks.Right, BlsSigOps.checks, ofGroup, BatchMessage.Right]
  simp only [Batch.Caught, Batch.FailedMessage, hsource, hright]

namespace CBLSBatchVerifier

/-- **What passes unflagged is right** exactly when every wrong message is in a batch where the errors
do not cancel, nor do those of its source. -/
theorem unflagged_right_iff (sign : Uint256 → P →+ G) (secureVerification perMessageFallback : Bool)
    (subBatchSize : Nat) (pushes : List (ι × BatchMessage κ G P)) :
    let checks := (ofGroup sign).checks secureVerification
    let v := (CBLSBatchVerifier.pushAll checks
      { perMessageFallback := perMessageFallback, subBatchSize := subBatchSize } pushes).verify checks
    (∀ x ∈ pushes, x.1 ∉ v.badSources → x.2.msgId ∉ v.badMessages → x.2.Right sign) ↔
      ∀ x ∈ pushes, ¬ x.2.Right sign → ∃ batch ∈ split subBatchSize [] pushes,
        Batch.Caught (ErrorsCancel sign secureVerification) (BatchMessage.Right sign)
          perMessageFallback batch x := by
  intro checks v
  have hflagged : Flagged _ _ _ v := flagged_pushAll (single_checks secureVerification) pushes
    { perMessageFallback := perMessageFallback, subBatchSize := subBatchSize }
  have hcaught : ∀ x : ι × BatchMessage κ G P, (x.1 ∈ v.badSources ∨ x.2.msgId ∈ v.badMessages) ↔
        ∃ batch ∈ split subBatchSize [] pushes,
          Batch.Caught (ErrorsCancel sign secureVerification) (BatchMessage.Right sign)
            perMessageFallback batch x := by
    intro x
    rw [hflagged.sources, hflagged.messages]
    have hcoh : ∀ b ∈ split subBatchSize [] pushes, Batch.Coherent b :=
      coherent_split (fun _ h => absurd h not_mem_nil)
    constructor
    · rintro ((h | ⟨b, hb, h⟩) | h | ⟨hfallback, b, hb, h⟩)
      · cases h
      · exact ⟨b, hb, (caught_iff (hcoh b hb)).mp (.inl h)⟩
      · cases h
      · exact ⟨b, hb, (caught_iff (hcoh b hb)).mp (.inr ⟨hfallback, h⟩)⟩
    · rintro ⟨b, hb, h⟩
      rcases (caught_iff (hcoh b hb)).mpr h with h | ⟨hfallback, h⟩
      · exact .inl (.inr ⟨b, hb, h⟩)
      · exact .inr (.inr ⟨hfallback, b, hb, h⟩)
  constructor
  · intro h x hx hwrong
    rw [← hcaught]
    by_contra hnot
    rw [not_or] at hnot
    exact hwrong (h x hx hnot.1 hnot.2)
  · intro h x hx hsource hmessage
    by_contra hwrong
    exact ((hcaught x).mpr (h x hx hwrong)).elim hsource hmessage

/-- Keys and signatures are integers, and a key signs a hash with their product. -/
def productSign (msgHash : Uint256) : ℤ →+ ℤ := AddMonoidHom.mulLeft (msgHash : ℤ)

/-- Two messages of source 7 with the key 5 on the hashes 1 and 2; the first signature is one too
great, the second one too small. -/
def cancelling : List (Nat × BatchMessage Nat ℤ ℤ) :=
  [(7, ⟨1, 1, 6, 5⟩), (7, ⟨2, 2, 9, 5⟩)]

/-- Errors of opposite sign pass in either mode. -/
theorem unflagged_wrong :
    (∀ secureVerification perMessageFallback : Bool,
      let checks := (ofGroup productSign).checks secureVerification
      let v := (CBLSBatchVerifier.pushAll checks { perMessageFallback := perMessageFallback }
        cancelling).verify checks
      v.badSources = ∅ ∧ v.badMessages = ∅) ∧
    ∀ x ∈ cancelling, ¬ x.2.Right productSign := by
  decide

end CBLSBatchVerifier

end Absolute
