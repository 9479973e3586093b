/-
When every stored share is right.

The batch verifier knows a share by its key, and a node whose share cannot be decoded is not one of its
bad sources.  So the shares that are taken are those of the nodes whose pushed shares stand for right
ones, checked or not, and of each key the first.
-/
import AbsoluteCore.Proofs.Bls.BatchVerifier
import AbsoluteCore.Spec.SigShares

namespace Absolute

open List Option CBLSBatchVerifier Batch

namespace CSigSharesManager

variable {S P : Type} {env : SigSharesEnv S P}
  {recovers : List (CSigShare S) → CSigShare S → Bool} {recoveredIds : Finset (Nat × Uint256)}
  {byNodes : List (Int × List (CSigShare S))}
variable {L : List (CSigShare S)} {m : CSigSharesManager S × List (CSigShare S)} {s : CSigShare S}

theorem letIn_mono (h : s ∈ m.2) : s ∈ (L.foldl (processSigShare env recovers) m).2 := by
  refine foldlRecOn (motive := fun m : CSigSharesManager S × List (CSigShare S) => s ∈ m.2) L _ h
    fun m h t _ => ?_
  unfold processSigShare
  split_ifs
  · exact h
  · exact h
  · exact mem_append_left _ h

/-- What is let in is the first share of its key. -/
theorem first_of_letIn (hsign : SignHashOfRequest env)
    (h : s ∈ (L.foldl (processSigShare env recovers) m).2) (hnew : s ∉ m.2) :
    (s.llmqType, s.id) ∉ m.1.recoveredIds ∧
      (¬ ∃ known ∈ m.1.sigShares, known.getKey env = s.getKey env) ∧
      L.find? (·.getKey env = s.getKey env) = some s := by
  induction L generalizing m with
  | nil => exact absurd h hnew
  | cons t rest ih =>
    have hrequest : t.getKey env = s.getKey env → (t.llmqType, t.id) = (s.llmqType, s.id) := by
      intro hkey
      have hhash : t.getSignHash env = s.getSignHash env := congrArg (fun k => (ofLex k).1) hkey
      exact Prod.ext (hsign t s hhash).1 (hsign t s hhash).2
    rw [foldl_cons] at h
    unfold processSigShare at h
    split_ifs at h with hrec hknown
    · obtain ⟨hid, hfree, hfind⟩ := ih h hnew
      have hne : t.getKey env ≠ s.getKey env := fun hkey => hid (hrequest hkey ▸ hrec)
      exact ⟨hid, hfree, by rw [find?_cons_of_neg (by simpa using hne), hfind]⟩
    · obtain ⟨hid, hfree, hfind⟩ := ih h hnew
      have hne : t.getKey env ≠ s.getKey env := fun hkey => hfree (hkey ▸ hknown)
      exact ⟨hid, hfree, by rw [find?_cons_of_neg (by simpa using hne), hfind]⟩
    · by_cases hst : s = t
      · subst hst
        exact ⟨hrec, hknown, find?_cons_of_pos (by simp)⟩
      · obtain ⟨hid, hfree, hfind⟩ := ih h (by simp [hnew, hst])
        have hne : t.getKey env ≠ s.getKey env := fun hkey => hfree ⟨t, by simp, hkey⟩
        refine ⟨fun hrec' => hid ?_, fun ⟨known, hmem, hkey⟩ => hfree ⟨known, by simp [hmem], hkey⟩,
          by rw [find?_cons_of_neg (by simpa using hne), hfind]⟩
        dsimp only
        split_ifs
        · exact Finset.mem_insert_of_mem hrec'
        · exact hrec'

/-- With nothing recovered on the way the first share of a free key is let in. -/
theorem letIn_of_first (hid : (s.llmqType, s.id) ∉ m.1.recoveredIds)
    (hfree : ¬ ∃ known ∈ m.1.sigShares, known.getKey env = s.getKey env)
    (hfind : L.find? (·.getKey env = s.getKey env) = some s) :
    s ∈ (L.foldl (processSigShare env fun _ _ => false) m).2 := by
  induction L generalizing m with
  | nil => cases hfind
  | cons t rest ih =>
    rw [foldl_cons]
    by_cases hkey : t.getKey env = s.getKey env
    · rw [find?_cons_of_pos (by simpa using hkey), some.injEq] at hfind
      subst hfind
      refine letIn_mono ?_
      rw [processSigShare, if_neg hid, if_neg hfree]
      exact mem_append_right _ mem_cons_self
    · rw [find?_cons_of_neg (by simpa using hkey)] at hfind
      refine ih ?_ ?_ hfind
      · simp only [processSigShare, Bool.false_eq_true, if_false]
        split_ifs <;> exact hid
      · simp only [processSigShare, Bool.false_eq_true, if_false]
        split_ifs
        · exact hfree
        · exact hfree
        · rintro ⟨known, hmem, heq⟩
          rcases mem_append.mp hmem with hmem | hmem
          · exact hfree ⟨known, hmem, heq⟩
          · exact hkey (mem_singleton.mp hmem ▸ heq)

variable [DecidableEq S] [DecidableEq P]

theorem mem_badSources_iff {node : Int} :
    let checks := BatchChecks.ideal fun msg => env.verifyInsecure msg.sig msg.pubKey msg.msgHash
    node ∈ ((pushAll checks { perMessageFallback := true }
      (pushes env recoveredIds byNodes)).verify checks).badSources ↔
      ¬ CleanNode env recoveredIds byNodes node := by
  intro checks
  have hsingle : checks.Single := BatchChecks.ideal_single
  have hflagged := (flagged_pushAll hsingle (pushes env recoveredIds byNodes)
    { perMessageFallback := true }).sources node
  rw [split_zero] at hflagged
  simp only [mem_singleton, exists_eq_left, Finset.notMem_empty, false_or, checks,
    failedSource_ideal_iff] at hflagged
  rw [hflagged]
  unfold CleanNode
  generalize pushes env recoveredIds byNodes = xs
  have hfind : ∀ x ∈ xs, (xs.map Prod.snd).find? (·.msgId = x.2.msgId)
      = some (Batch.emplace xs x.2) := by
    intro x hx
    have hsome : ((xs.map Prod.snd).find? (·.msgId = x.2.msgId)).isSome := by
      simpa using ⟨x.1, x.2, hx, rfl⟩
    obtain ⟨known, hknown⟩ := isSome_iff_exists.mp hsome
    rw [Batch.emplace, hknown]
    rfl
  constructor
  · rintro ⟨_, hx, rfl, hwrong⟩ hclean
    obtain ⟨x, hxs, rfl⟩ := mem_map.mp hx
    obtain ⟨msg, hmsg, hright⟩ := hclean x hxs rfl
    rw [hfind x hxs, some.injEq] at hmsg
    simp [hmsg, hright] at hwrong
  · intro hclean
    by_contra hnone
    refine hclean fun x hx hnode => ⟨_, hfind x hx, ?_⟩
    by_contra hwrong
    exact hnone ⟨_, mem_map_of_mem hx, hnode, by simpa using hwrong⟩

theorem processPendingSigShares_eq (m : CSigSharesManager S) :
    processPendingSigShares env recovers m byNodes =
      (cleanShares env m.recoveredIds byNodes).foldl (processSigShare env recovers) (m, []) := by
  classical
  unfold processPendingSigShares cleanShares
  rw [foldl_flatMap, foldl_filter]
  dsimp only
  congr 1
  funext m' p
  by_cases hclean : CleanNode env m.recoveredIds byNodes p.1
  · rw [if_neg (not_not.mpr hclean ∘ mem_badSources_iff.mp), if_pos (decide_eq_true hclean)]
  · rw [if_pos (mem_badSources_iff.mpr hclean), if_neg (by simpa using hclean)]

/-- **Every share that is let in is right**, whatever is stored and is recovered on the way, exactly
when the first share of each key is right among those of clean nodes. -/
theorem letIn_right_iff (env : SigSharesEnv S P) (hsign : SignHashOfRequest env)
    (recoveredIds : Finset (Nat × Uint256)) (byNodes : List (Int × List (CSigShare S))) :
    (∀ recovers sigShares, ∀ s ∈ (processPendingSigShares env recovers ⟨sigShares, recoveredIds⟩
      byNodes).2, RightShare env s) ↔ FirstSharesRight env recoveredIds byNodes := by
  constructor
  · intro h s hfind hid
    refine h (fun _ _ => false) [] s ?_
    rw [processPendingSigShares_eq]
    exact letIn_of_first hid (by simp) hfind
  · intro h recovers sigShares s hs
    rw [processPendingSigShares_eq] at hs
    obtain ⟨hid, -, hfind⟩ := first_of_letIn hsign hs not_mem_nil
    exact h s hfind hid

/-- A signature is right when it is the key, and the sign hash is the id. -/
def plainShares : SigSharesEnv Nat Nat where
  buildSignHash := fun llmqType _ id _ => Nat.pair llmqType id
  getPubKeyShare := fun _ _ member => member
  verifyInsecure := fun sig key _ => sig == key

/-- Node 1 and node 3 send right shares, one of them for the same key, and node 2 a wrong one. -/
def threeNodes : List (Int × List (CSigShare Nat)) :=
  [(1, [⟨1, 0, 2, 3, 4, some 2⟩, ⟨1, 0, 5, 3, 4, some 5⟩]), (2, [⟨1, 0, 7, 3, 4, some 8⟩]),
    (3, [⟨1, 0, 2, 3, 4, some 2⟩, ⟨1, 0, 6, 9, 4, some 6⟩])]

theorem letIn_right_iff_plain :
    SignHashOfRequest plainShares ∧
      (processPendingSigShares plainShares (fun _ _ => false) ⟨[], ∅⟩ threeNodes).2
        = [⟨1, 0, 2, 3, 4, some 2⟩, ⟨1, 0, 5, 3, 4, some 5⟩, ⟨1, 0, 6, 9, 4, some 6⟩] ∧
      ((∀ recovers sigShares, ∀ s ∈ (processPendingSigShares plainShares recovers ⟨sigShares, ∅⟩
        threeNodes).2, RightShare plainShares s) ↔ FirstSharesRight plainShares ∅ threeNodes) := by
  have hsign : SignHashOfRequest plainShares := fun s t h => Nat.pair_eq_pair.mp h
  exact ⟨hsign, by decide, letIn_right_iff plainShares hsign ∅ threeNodes⟩

/-- A share that cannot be decoded stops the checks of its node and is taken, with the wrong share
after it.  And of two nodes that send different bytes for one share only the first is checked: when it
is banned for another share, the unchecked bytes of the second are taken. -/
theorem letIn_wrong :
    (processPendingSigShares plainShares (fun _ _ => false) ⟨[], ∅⟩
        [(1, [⟨1, 0, 2, 3, 4, none⟩, ⟨1, 0, 5, 3, 4, some 6⟩])]).2
      = [⟨1, 0, 2, 3, 4, none⟩, ⟨1, 0, 5, 3, 4, some 6⟩] ∧
    (processPendingSigShares plainShares (fun _ _ => false) ⟨[], ∅⟩
        [(1, [⟨1, 0, 2, 3, 4, some 2⟩, ⟨1, 0, 5, 3, 4, some 6⟩]), (2, [⟨1, 0, 2, 3, 4, some 9⟩])]).2
      = [⟨1, 0, 2, 3, 4, some 9⟩] ∧
    ¬ RightShare plainShares ⟨1, 0, 5, 3, 4, some 6⟩ ∧
    ¬ RightShare plainShares ⟨1, 0, 2, 3, 4, some 9⟩ := by
  refine ⟨by decide, by decide, ?_, ?_⟩
  · simp [RightShare, plainShares]
  · simp [RightShare, plainShares]

end CSigSharesManager

end Absolute
