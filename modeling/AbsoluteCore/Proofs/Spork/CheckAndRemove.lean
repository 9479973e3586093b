/-
The start-up check of sporks.

The loop over the signers does not move past an entry under a key that is not configured, so with a
file that was written under other keys the node hangs.  Where it ends, it has erased the message of
every entry that its key has not signed, also where another configured key has.
-/
import AbsoluteCore.Lib.Fallible
import AbsoluteCore.Spec.Sporks

namespace Absolute

open List Option Except

variable {env : SporkEnv} {keys : List CKeyID}

def isUnsigned (env : SporkEnv) (p : CKeyID × CSporkMessage) : Bool :=
  !p.2.checkSignature env p.1 false && !p.2.checkSignature env p.1 true

theorem isUnsigned_iff {p : CKeyID × CSporkMessage} :
    isUnsigned env p = true ↔ ¬ p.2.Verifies env p.1 := by
  rw [isUnsigned, CSporkMessage.Verifies, not_or, Bool.and_eq_true, Bool.not_eq_true',
    Bool.not_eq_true', Bool.not_eq_true, Bool.not_eq_true]

namespace CSporkManager

variable {keyID : CKeyID} {nSporkID : Int} {spork : CSporkMessage}
  {signers : List (CKeyID × CSporkMessage)} {active : List (Int × List (CKeyID × CSporkMessage))}
  {fuel : Nat} {byHash : List (Uint256 × CSporkMessage)}

theorem signerFound_iff :
    signerFound env keys spork = true ↔ ∃ keyID ∈ keys, spork.Verifies env keyID := by
  rw [signerFound, List.any_eq_true]
  simp only [Bool.or_eq_true, CSporkMessage.Verifies]

/-! ### The loop over the signers -/

/-- With an entry under another key the loop does not end. -/
theorem checkSigners_stuck (h : ∃ p ∈ signers, p.1 ∉ keys) (fuel byHash) :
    checkSigners env keys fuel signers byHash = none := by
  induction fuel generalizing signers byHash with
  | zero => rfl
  | succ fuel ih =>
    cases signers with
    | nil =>
      obtain ⟨p, hp, -⟩ := h
      cases hp
    | cons q rest =>
      rw [checkSigners]
      by_cases hq : q.1 ∉ keys
      · rw [if_pos hq]
        exact ih h _
      · rw [if_neg hq]
        -- The entry is further on.
        have hrest : ∃ p ∈ rest, p.1 ∉ keys := by
          obtain ⟨p, hp, hkey⟩ := h
          rcases mem_cons.mp hp with rfl | hp
          · exact absurd hkey hq
          · exact ⟨p, hp, hkey⟩
        split_ifs
        · exact ih hrest _
        · rw [ih hrest byHash]
          rfl

/-- The hashes of the entries that are not signed by their keys. -/
def unsignedHashes (env : SporkEnv) (signers : List (CKeyID × CSporkMessage)) : List Uint256 :=
  (signers.filter (isUnsigned env)).map fun p => p.2.getHash env

/-- The entries that are signed by their keys. -/
def signed (env : SporkEnv) (signers : List (CKeyID × CSporkMessage)) :
    List (CKeyID × CSporkMessage) :=
  signers.filter fun p => !isUnsigned env p

/-- The messages whose hashes are not among these. -/
def without (hashes : List Uint256) (byHash : List (Uint256 × CSporkMessage)) :
    List (Uint256 × CSporkMessage) :=
  byHash.filter fun p => p.1 ∉ hashes

theorem without_nil (byHash) : without [] byHash = byHash := by
  simp [without]

theorem without_append (hashes hashes' : List Uint256) (byHash) :
    without hashes' (without hashes byHash) = without (hashes ++ hashes') byHash := by
  rw [without, without, List.filter_filter, without]
  refine filter_congr ?_
  intro p _
  rw [← Bool.decide_and]
  simp only [mem_append, not_or, and_comm]

theorem without_cons (hash : Uint256) (hashes : List Uint256) (byHash) :
    without hashes (eraseEntry hash byHash) = without (hash :: hashes) byHash := by
  have herase : eraseEntry hash byHash = without [hash] byHash := by
    simp [eraseEntry, without]
  rw [herase, without_append, singleton_append]

theorem checkSigners_eq (h : ∀ p ∈ signers, p.1 ∈ keys) (fuel byHash) :
    checkSigners env keys fuel signers byHash =
      if signers.length < fuel then
        some (signed env signers, without (unsignedHashes env signers) byHash)
      else none := by
  induction fuel generalizing signers byHash with
  | zero => rw [checkSigners, if_neg (Nat.not_lt_zero _)]
  | succ fuel ih =>
    cases signers with
    | nil =>
      rw [checkSigners, length_nil, if_pos (Nat.succ_pos fuel), signed, unsignedHashes,
        filter_nil, filter_nil, map_nil, without_nil]
    | cons q rest =>
      have hq : ¬ q.1 ∉ keys := not_not.mpr (h q mem_cons_self)
      have hrest := ih (fun p hp => h p (mem_cons_of_mem _ hp))
      rw [checkSigners, if_neg hq, ← isUnsigned, length_cons]
      simp only [Nat.succ_lt_succ_iff]
      cases hsigned : isUnsigned env q with
      | true =>
        have hfilter : unsignedHashes env (q :: rest) =
            q.2.getHash env :: unsignedHashes env rest := by
          rw [unsignedHashes, filter_cons_of_pos hsigned, map_cons, unsignedHashes]
        rw [if_pos rfl, hrest, without_cons, hfilter, signed, signed,
          filter_cons_of_neg (by simp [hsigned])]
      | false =>
        have hfilter : unsignedHashes env (q :: rest) = unsignedHashes env rest := by
          rw [unsignedHashes, filter_cons_of_neg (by simp [hsigned]), unsignedHashes]
        rw [if_neg Bool.false_ne_true, hrest, hfilter, signed, signed,
          filter_cons_of_pos (by simp [hsigned])]
        split_ifs
        · rfl
        · rfl

/-! ### The loop over the sporks -/

theorem checkActive_stuck (h : ∃ a ∈ active, ∃ p ∈ a.2, p.1 ∉ keys) (fuel byHash) :
    checkActive env keys fuel active byHash = none := by
  induction active generalizing byHash with
  | nil =>
    obtain ⟨a, ha, -⟩ := h
    cases ha
  | cons a rest ih =>
    rw [checkActive]
    by_cases hstuck : ∃ p ∈ a.2, p.1 ∉ keys
    · rw [checkSigners_stuck hstuck]
      rfl
    · have hrest : ∃ a ∈ rest, ∃ p ∈ a.2, p.1 ∉ keys := by
        obtain ⟨b, hb, hp⟩ := h
        rcases mem_cons.mp hb with rfl | hb
        · exact absurd hp hstuck
        · exact ⟨b, hb, hp⟩
      cases checkSigners env keys fuel a.2 byHash with
      | none => rfl
      | some r =>
        show ((checkActive env keys fuel rest r.2).bind _) = none
        rw [ih hrest]
        rfl

/-- The sporks with the signers that are left, as far as there are any. -/
def signedActive (env : SporkEnv) (active : List (Int × List (CKeyID × CSporkMessage))) :
    List (Int × List (CKeyID × CSporkMessage)) :=
  (active.map fun a => (a.1, signed env a.2)).filter fun a => !a.2.isEmpty

theorem signedActive_cons (a : Int × List (CKeyID × CSporkMessage))
    (rest : List (Int × List (CKeyID × CSporkMessage))) :
    signedActive env (a :: rest) =
      if (signed env a.2).isEmpty then signedActive env rest
      else (a.1, signed env a.2) :: signedActive env rest := by
  unfold signedActive
  rw [map_cons]
  split_ifs with hempty
  · rw [filter_cons_of_neg (by simpa using hempty)]
  · rw [filter_cons_of_pos (by simpa using hempty)]

theorem checkActive_eq (h : ∀ a ∈ active, ∀ p ∈ a.2, p.1 ∈ keys) (fuel byHash) :
    checkActive env keys fuel active byHash =
      if ∀ a ∈ active, a.2.length < fuel then
        some (signedActive env active,
          without (active.flatMap fun a => unsignedHashes env a.2) byHash)
      else none := by
  induction active generalizing byHash with
  | nil =>
    rw [if_pos (by simp), flatMap_nil, without_nil]
    rfl
  | cons a rest ih =>
    rw [checkActive, checkSigners_eq (h a mem_cons_self)]
    simp only [forall_mem_cons]
    by_cases ha : a.2.length < fuel
    · rw [if_pos ha]
      show ((checkActive env keys fuel rest _).bind _) = _
      rw [ih (fun b hb => h b (mem_cons_of_mem _ hb)), without_append, signedActive_cons,
        flatMap_cons]
      simp only [ha, true_and]
      split_ifs <;> rfl
    · rw [if_neg ha, if_neg (fun hall => ha hall.1)]
      rfl

/-! ### The check as a whole -/

variable {m m' : CSporkManager}

theorem exists_signedActive :
    (∃ signers, (nSporkID, signers) ∈ signedActive env m.mapSporksActive ∧
        (keyID, spork) ∈ signers) ↔
      m.HasActive nSporkID keyID spork ∧ spork.Verifies env keyID := by
  constructor
  · intro ⟨signers, hmem, hspork⟩
    obtain ⟨hmem, -⟩ := mem_filter.mp hmem
    obtain ⟨a, ha, heq⟩ := mem_map.mp hmem
    obtain ⟨rfl, rfl⟩ := Prod.mk.inj heq
    obtain ⟨hspork, hsigned⟩ := mem_filter.mp hspork
    refine ⟨⟨a.2, ha, hspork⟩, ?_⟩
    by_contra hne
    have hunsigned : isUnsigned env (keyID, spork) = true := isUnsigned_iff.mpr hne
    rw [hunsigned] at hsigned
    cases hsigned
  · intro ⟨⟨signers, hmem, hspork⟩, hverifies⟩
    have hkept : (keyID, spork) ∈ signed env signers := by
      refine mem_filter.mpr ⟨hspork, ?_⟩
      rw [Bool.not_eq_true', Bool.eq_false_iff]
      exact fun hunsigned => isUnsigned_iff.mp hunsigned hverifies
    refine ⟨signed env signers, mem_filter.mpr ⟨?_, ?_⟩, hkept⟩
    · exact mem_map.mpr ⟨(nSporkID, signers), hmem, rfl⟩
    cases hsigned : signed env signers with
    | nil =>
      rw [hsigned] at hkept
      cases hkept
    | cons p rest => rfl

theorem mem_erasedHashes {hash : Uint256} :
    hash ∈ m.mapSporksActive.flatMap (fun a => unsignedHashes env a.2) ↔
      ∃ nSporkID keyID spork, m.HasActive nSporkID keyID spork ∧ ¬ spork.Verifies env keyID ∧
        spork.getHash env = hash := by
  rw [mem_flatMap]
  constructor
  · intro ⟨a, ha, hhash⟩
    obtain ⟨p, hp, rfl⟩ := mem_map.mp hhash
    obtain ⟨hp, hunsigned⟩ := mem_filter.mp hp
    exact ⟨a.1, p.1, p.2, ⟨a.2, ha, hp⟩, isUnsigned_iff.mp hunsigned, rfl⟩
  · intro ⟨nSporkID, keyID, spork, ⟨signers, hmem, hspork⟩, hunsigned, hhash⟩
    refine ⟨(nSporkID, signers), hmem, mem_map.mpr ⟨(keyID, spork), ?_, hhash⟩⟩
    exact mem_filter.mpr ⟨hspork, isUnsigned_iff.mpr hunsigned⟩

/-- The manager after the check, where the check ends. -/
def checked (env : SporkEnv) (m : CSporkManager) : CSporkManager :=
  { m with
    mapSporksActive := signedActive env m.mapSporksActive
    mapSporksByHash :=
      (without (m.mapSporksActive.flatMap fun a => unsignedHashes env a.2)
        m.mapSporksByHash).filter fun p => signerFound env m.setSporkPubKeyIDs p.2 }

theorem checkAndRemove_of_keys (hkeys : m.setSporkPubKeyIDs ≠ []) (fuel) :
    m.checkAndRemove env fuel = .ok
      ((checkActive env m.setSporkPubKeyIDs fuel m.mapSporksActive m.mapSporksByHash).map fun r =>
        { m with
          mapSporksActive := r.1
          mapSporksByHash := r.2.filter fun p => signerFound env m.setSporkPubKeyIDs p.2 }) := by
  have hassert : assertThat ((!m.setSporkPubKeyIDs.isEmpty) = true) = .ok () := by
    refine if_pos ?_
    simpa using hkeys
  unfold checkAndRemove
  rw [hassert, Fallible.ok_bind]
  cases checkActive env m.setSporkPubKeyIDs fuel m.mapSporksActive m.mapSporksByHash with
  | none => rfl
  | some r => rfl

/-- An entry under a key that is not configured keeps the check from ending. -/
theorem checkAndRemove_stuck (hkeys : m.setSporkPubKeyIDs ≠ [])
    (hactive : m.HasActive nSporkID keyID spork) (hkey : keyID ∉ m.setSporkPubKeyIDs) (fuel) :
    m.checkAndRemove env fuel = .ok none := by
  obtain ⟨signers, hmem, hspork⟩ := hactive
  rw [checkAndRemove_of_keys hkeys,
    checkActive_stuck ⟨(nSporkID, signers), hmem, (keyID, spork), hspork, hkey⟩]
  rfl

theorem checkAndRemove_eq (hkeys : m.setSporkPubKeyIDs ≠ [])
    (hconfigured : ∀ nSporkID keyID spork, m.HasActive nSporkID keyID spork →
      keyID ∈ m.setSporkPubKeyIDs) (fuel) : m.checkAndRemove env fuel = .ok
      (if ∀ a ∈ m.mapSporksActive, a.2.length < fuel then some (m.checked env) else none) := by
  rw [checkAndRemove_of_keys hkeys,
    checkActive_eq fun a ha p hp => hconfigured a.1 p.1 p.2 ⟨a.2, ha, hp⟩]
  split_ifs
  · rfl
  · rfl

/-- What is left is right when no message of a configured key has a hash that is erased. -/
theorem cleaned_checked_iff
    (hconfigured : ∀ nSporkID keyID spork, m.HasActive nSporkID keyID spork →
      keyID ∈ m.setSporkPubKeyIDs) : Cleaned env m (m.checked env) ↔ Loadable env m := by
  have hbyHash : ∀ p, p ∈ (m.checked env).mapSporksByHash ↔
      p ∈ m.mapSporksByHash ∧
        p.1 ∉ m.mapSporksActive.flatMap (fun a => unsignedHashes env a.2) ∧
        ∃ keyID ∈ m.setSporkPubKeyIDs, p.2.Verifies env keyID := by
    intro p
    rw [checked, mem_filter, without, mem_filter, signerFound_iff, decide_eq_true_eq, and_assoc]
  constructor
  · intro h
    refine ⟨hconfigured, ?_⟩
    intro nSporkID keyID spork hactive hunsigned p hp hhash signer hsigner hverifies
    have hkept := (hbyHash p).mp ((h.byHash p).mpr ⟨hp, signer, hsigner, hverifies⟩)
    exact hkept.2.1 (mem_erasedHashes.mpr
      ⟨nSporkID, keyID, spork, hactive, hunsigned, hhash.symm⟩)
  · intro h
    refine ⟨?_, ?_, ?_⟩
    · intro nSporkID keyID spork
      rw [HasActive, checked, exists_signedActive]
      exact ⟨fun ⟨hactive, hverifies⟩ =>
          ⟨hactive, hconfigured nSporkID keyID spork hactive, hverifies⟩,
        fun ⟨hactive, _, hverifies⟩ => ⟨hactive, hverifies⟩⟩
    · intro a ha
      have hnonempty := (mem_filter.mp ha).2
      intro hnil
      rw [hnil] at hnonempty
      cases hnonempty
    · intro p
      rw [hbyHash]
      refine ⟨fun hp => ⟨hp.1, hp.2.2⟩, ?_⟩
      intro ⟨hp, signer, hsigner, hverifies⟩
      refine ⟨hp, ?_, signer, hsigner, hverifies⟩
      intro herased
      obtain ⟨nSporkID, keyID, spork, hactive, hunsigned, hhash⟩ := mem_erasedHashes.mp herased
      exact h.unsigned nSporkID keyID spork hactive hunsigned p hp hhash.symm signer hsigner hverifies

/-- **The start-up check.**  It ends with what should be left exactly where every active entry is
under a configured key, and an entry that its key has not signed does not have the hash of a message
that a configured key has signed. -/
theorem checkAndRemove_cleaned_iff (hkeys : m.setSporkPubKeyIDs ≠ []) :
    (∃ fuel m', m.checkAndRemove env fuel = .ok (some m') ∧ Cleaned env m m') ↔
      Loadable env m := by
  constructor
  · intro ⟨fuel, m', hcheck, hcleaned⟩
    have hconfigured : ∀ nSporkID keyID spork, m.HasActive nSporkID keyID spork →
        keyID ∈ m.setSporkPubKeyIDs := by
      intro nSporkID keyID spork hactive
      by_contra hkey
      rw [checkAndRemove_stuck hkeys hactive hkey] at hcheck
      cases hcheck
    rw [checkAndRemove_eq hkeys hconfigured] at hcheck
    have hcheck := ok.inj hcheck
    split_ifs at hcheck
    obtain rfl := some.inj hcheck
    exact (cleaned_checked_iff hconfigured).mp hcleaned
  · intro h
    refine ⟨(m.mapSporksActive.map fun a => a.2.length).sum + 1, m.checked env, ?_,
      (cleaned_checked_iff h.configured).mpr h⟩
    rw [checkAndRemove_eq hkeys h.configured, if_pos]
    intro a ha
    exact Nat.lt_succ_of_le (le_sum_of_mem (mem_map_of_mem ha))

/-- A signature is the number of its key. -/
def sampleSporkEnv : SporkEnv where
  serializeHash := fun spork => spork.nTimeSigned.toNat
  signatureHash := fun _ _ _ => 0
  messageHash := fun _ => 1
  recoverCompact := fun hash vchSig => if hash = 0 then vchSig.head?.map UInt8.toNat else none

/-- A message with the signature of this key. -/
def sampleSpork (key : UInt8) : CSporkMessage := ⟨10001, 5, 100, [key]⟩

/-- The message of one key, under another one, with these keys configured. -/
def sampleSporks (setSporkPubKeyIDs : List CKeyID) (keyID : CKeyID) (key : UInt8) :
    CSporkManager where
  mapSporksByHash := [(100, sampleSpork key)]
  mapSporksActive := [(10001, [(keyID, sampleSpork key)])]
  setSporkPubKeyIDs := setSporkPubKeyIDs

theorem eq_of_hasActive_sampleSporks {keyID' : CKeyID} {key : UInt8}
    (h : (sampleSporks keys keyID key).HasActive nSporkID keyID' spork) :
    keyID' = keyID ∧ spork = sampleSpork key := by
  obtain ⟨signers, hmem, hspork⟩ := h
  obtain ⟨-, rfl⟩ := Prod.mk.inj (mem_singleton.mp hmem)
  exact Prod.mk.inj (mem_singleton.mp hspork)

theorem checkAndRemove_cleaned_own :
    ∃ fuel m', (sampleSporks [1] 1 1).checkAndRemove sampleSporkEnv fuel = .ok (some m') ∧
      Cleaned sampleSporkEnv (sampleSporks [1] 1 1) m' := by
  refine (checkAndRemove_cleaned_iff (cons_ne_nil 1 [])).mpr ⟨?_, ?_⟩
  · intro nSporkID keyID spork h
    obtain ⟨rfl, -⟩ := eq_of_hasActive_sampleSporks h
    decide
  · intro nSporkID keyID spork h hunsigned
    obtain ⟨rfl, rfl⟩ := eq_of_hasActive_sampleSporks h
    exact absurd (.inr rfl) hunsigned

/-- With a file that was written under another key the check never ends; and a message that is filed
under another configured key than its own is erased, though its signature is good. -/
theorem checkAndRemove_not_cleaned :
    (∀ fuel, (sampleSporks [1] 2 2).checkAndRemove sampleSporkEnv fuel = .ok none) ∧
      ∃ m', (sampleSporks [1, 2] 2 1).checkAndRemove sampleSporkEnv 2 = .ok (some m') ∧
        (100, sampleSpork 1) ∈ (sampleSporks [1, 2] 2 1).mapSporksByHash ∧
        (sampleSpork 1).Verifies sampleSporkEnv 1 ∧ m'.mapSporksByHash = [] := by
  refine ⟨?_, _, rfl, mem_cons_self, .inr rfl, rfl⟩
  intro fuel
  exact checkAndRemove_stuck (cons_ne_nil 1 [])
    ⟨[(2, sampleSpork 2)], mem_cons_self, mem_cons_self⟩ (by decide) fuel

end CSporkManager

end Absolute
