/-
The value of a spork is unambiguous.

Each signer has one slot for a spork, which holds its latest message.  More than half of the keys must
agree on a value, so at most one value has enough signers, and the loop that counts finds it wherever it
stands among the signers.
-/
import AbsoluteCore.Spec.Sporks

namespace Absolute

open List Option Prod

namespace CSporkManager

open scoped List

variable {env : SporkEnv} {m : CSporkManager} {received : List (CKeyID × CSporkMessage)}
  {nSporkID nMin v w : Int} {keyID : CKeyID} {spork : CSporkMessage} {values : List Int}

/-! ### Maps -/

section Entries

variable {K V : Type} [DecidableEq K] {k : K} {x : V} {l : List (K × V)}

theorem lookup_cons_ite (p : K × V) (j : K) :
    (p :: l).lookup j = if j = p.1 then some p.2 else l.lookup j := by
  rw [lookup_cons]
  by_cases hj : j = p.1
  · simp [hj]
  · simp [hj, beq_eq_false_iff_ne.mpr hj]

theorem lookup_setEntry (j : K) :
    (setEntry k x l).lookup j = if j = k then some x else l.lookup j := by
  induction l with
  | nil => exact lookup_cons_ite (k, x) j
  | cons p rest ih =>
    unfold setEntry
    by_cases hp : p.1 = k
    · rw [if_pos hp, lookup_cons_ite, lookup_cons_ite, hp]
      split <;> rfl
    · rw [if_neg hp, lookup_cons_ite, lookup_cons_ite, ih]
      by_cases hj : j = p.1
      · rw [if_pos hj, if_pos hj, if_neg (hj ▸ hp)]
      · rw [if_neg hj, if_neg hj]

theorem map_fst_setEntry :
    (setEntry k x l).map fst = if k ∈ l.map fst then l.map fst
      else l.map fst ++ [k] := by
  induction l with
  | nil => rfl
  | cons p rest ih =>
    unfold setEntry
    by_cases hp : p.1 = k
    · simp [hp]
    · simp only [if_neg hp, map_cons, ih, mem_cons, Ne.symm hp, false_or]
      split <;> rfl

theorem mem_iff_lookup (hnodup : (l.map fst).Nodup) {p : K × V} :
    p ∈ l ↔ l.lookup p.1 = some p.2 := by
  induction l with
  | nil => simp
  | cons q rest ih =>
    rw [map_cons, nodup_cons] at hnodup
    rw [mem_cons, lookup_cons_ite]
    by_cases hq : p.1 = q.1
    · have hrest : p ∉ rest := fun hp => hnodup.1 (hq ▸ mem_map_of_mem hp)
      simp [hq, hrest, Prod.ext_iff, eq_comm]
    · rw [if_neg hq, ih hnodup.2, or_iff_right fun h => hq (congrArg Prod.fst h)]

end Entries

/-! ### Slots -/

/-- `mapSporksActive[nSporkID][keyID]`, if it is there. -/
def slot (m : CSporkManager) (nSporkID : Int) (keyID : CKeyID) : Option CSporkMessage :=
  (m.mapSporksActive.lookup nSporkID).bind fun s => s.lookup keyID

theorem processSpork_eq (t : Int) : m.processSpork env t spork =
    match m.checkedSigner env t spork with
    | none => .misbehaving 100
    | some keyID =>
      match m.slot spork.nSporkID keyID with
      | some known =>
        if known.nTimeSigned ≥ spork.nTimeSigned then .seen else .stored (m.store env spork keyID)
      | none => .stored (m.store env spork keyID) := by
  unfold processSpork checkedSigner
  split <;> rfl

/-- Every slot has the latest message of its signer, and only configured keys have slots. -/
structure Tracks (m : CSporkManager) (received : List (CKeyID × CSporkMessage)) : Prop where
  slot : ∀ nSporkID keyID, m.slot nSporkID keyID = latest received nSporkID keyID
  nodup : ∀ nSporkID signers, m.mapSporksActive.lookup nSporkID = some signers →
    (signers.map Prod.fst).Nodup ∧ ∀ p ∈ signers, p.1 ∈ m.setSporkPubKeyIDs

theorem latest_append (hsigner : CKeyID) (nSporkID keyID) :
    latest (received ++ [(hsigner, spork)]) nSporkID keyID =
      if hsigner = keyID ∧ spork.nSporkID = nSporkID then
        (match latest received nSporkID keyID with
          | none => some spork
          | some known => if known.nTimeSigned < spork.nTimeSigned then some spork else some known)
      else latest received nSporkID keyID := by
  unfold latest
  rw [filter_append, map_append]
  by_cases h : hsigner = keyID ∧ spork.nSporkID = nSporkID
  · rw [if_pos h, filter_cons_of_pos (by simpa using h), filter_nil, map_singleton, argmax_concat]
    cases argmax (fun spork : CSporkMessage => spork.nTimeSigned) _ <;> rfl
  · rw [if_neg h, filter_cons_of_neg (by simpa using h)]
    simp

theorem slot_store (j : Int) (i : CKeyID) :
    (m.store env spork keyID).slot j i =
      if keyID = i ∧ spork.nSporkID = j then some spork else m.slot j i := by
  unfold slot store
  rw [lookup_setEntry]
  by_cases hj : j = spork.nSporkID
  · subst hj
    rw [if_pos rfl, bind_some, lookup_setEntry]
    by_cases hi : i = keyID
    · simp [hi]
    · rw [if_neg hi, if_neg fun h => hi h.1.symm]
      cases m.mapSporksActive.lookup spork.nSporkID <;> rfl
  · rw [if_neg hj, if_neg fun h => hj h.2.symm]

theorem Tracks.store (h : Tracks m received) (hkey : keyID ∈ m.setSporkPubKeyIDs) :
    ∀ j signers, (m.store env spork keyID).mapSporksActive.lookup j = some signers →
      (signers.map fst).Nodup ∧ ∀ p ∈ signers, p.1 ∈ m.setSporkPubKeyIDs := by
  intro j signers hsigners
  rw [CSporkManager.store, lookup_setEntry] at hsigners
  by_cases hj : j = spork.nSporkID
  swap
  · rw [if_neg hj] at hsigners
    exact h.nodup j signers hsigners
  rw [if_pos hj, some.injEq] at hsigners
  subst hsigners
  have hold : ∀ old, old = (m.mapSporksActive.lookup spork.nSporkID).getD [] →
      (old.map fst).Nodup ∧ ∀ k ∈ old.map fst, k ∈ m.setSporkPubKeyIDs := by
    rintro old rfl
    cases hlookup : m.mapSporksActive.lookup spork.nSporkID with
    | none => simp
    | some old =>
      obtain ⟨hnodup, hmem⟩ := h.nodup _ old hlookup
      exact ⟨hnodup, by simpa using fun k x hx => hmem (k, x) hx⟩
  obtain ⟨hnodup, hmem⟩ := hold _ rfl
  suffices hkeys : ((setEntry keyID spork _).map fst).Nodup ∧
      ∀ k ∈ (setEntry keyID spork _).map fst, k ∈ m.setSporkPubKeyIDs from
    ⟨hkeys.1, fun p hp => hkeys.2 p.1 (mem_map_of_mem hp)⟩
  rw [map_fst_setEntry]
  split
  · exact ⟨hnodup, hmem⟩
  · next hnot =>
      refine ⟨?_, fun k hk => ?_⟩
      · rw [← concat_eq_append]
        exact hnodup.concat hnot
      · rcases mem_append.mp hk with hk | hk
        · exact hmem k hk
        · exact mem_singleton.mp hk ▸ hkey

theorem mem_of_checkedSigner {t : Int} (h : m.checkedSigner env t spork = some keyID) :
    keyID ∈ m.setSporkPubKeyIDs := by
  unfold checkedSigner signerKeyID at h
  split at h
  · cases h
  · rcases or_eq_some_iff.mp h with h | ⟨-, h⟩
    · simpa using (filter_eq_some_iff.mp h).2
    · simpa using (filter_eq_some_iff.mp h).2

theorem Tracks.receive {r : CSporkManager × List (CKeyID × CSporkMessage)} (h : Tracks r.1 r.2)
    (a : Int × CSporkMessage) : Tracks (receive env r a).1 (receive env r a).2 ∧
      (receive env r a).1.setSporkPubKeyIDs = r.1.setSporkPubKeyIDs ∧
      (receive env r a).1.nMinSporkKeys = r.1.nMinSporkKeys := by
  unfold CSporkManager.receive
  rw [processSpork_eq]
  cases hsigner : r.1.checkedSigner env a.1 a.2 with
  | none => simpa using h
  | some keyID =>
    have hkey := mem_of_checkedSigner hsigner
    have hslot := h.slot a.2.nSporkID keyID
    -- What the slot becomes, in both cases.
    have hstored : ∀ hlatest : (∀ known, latest r.2 a.2.nSporkID keyID = some known →
        known.nTimeSigned < a.2.nTimeSigned),
        Tracks (r.1.store env a.2 keyID) (r.2 ++ [(keyID, a.2)]) := by
      intro hlatest
      refine ⟨fun j i => ?_, h.store hkey⟩
      rw [slot_store, latest_append, h.slot]
      split
      · next heq =>
          obtain ⟨rfl, rfl⟩ := heq
          cases hknown : latest r.2 a.2.nSporkID keyID with
          | none => rfl
          | some known => exact (if_pos (hlatest known hknown)).symm
      · rfl
    dsimp only
    cases hknown : r.1.slot a.2.nSporkID keyID with
    | none =>
      rw [hslot] at hknown
      exact ⟨hstored (by simp [hknown]), rfl, rfl⟩
    | some known =>
      rw [hslot] at hknown
      dsimp only
      by_cases hseen : known.nTimeSigned ≥ a.2.nTimeSigned
      · rw [if_pos hseen]
        refine ⟨⟨fun j i => ?_, h.nodup⟩, rfl, rfl⟩
        rw [map_some, toList_some, latest_append, h.slot]
        split
        · next heq =>
            obtain ⟨rfl, rfl⟩ := heq
            rw [hknown]
            exact (if_neg (by omega)).symm
        · rfl
      · rw [if_neg hseen]
        refine ⟨hstored fun other hother => ?_, rfl, rfl⟩
        rw [hknown, some.injEq] at hother
        exact hother ▸ not_le.mp hseen

/-! ### Counting -/

theorem firstValue_eq_some_iff {counted : List Int}
    (hfew : ∀ w, ((counted.count w : Nat) : Int) < nMin)
    (hone : ∀ v w, nMin ≤ ((counted ++ values).count v : Nat) →
      nMin ≤ ((counted ++ values).count w : Nat) → v = w) :
    firstValue nMin counted values = some v ↔ nMin ≤ ((counted ++ values).count v : Nat) := by
  induction values generalizing counted with
  | nil => simpa [firstValue] using hfew v
  | cons x rest ih =>
    have hperm : ∀ w, ((x :: counted) ++ rest).count w = (counted ++ x :: rest).count w :=
      fun w => (perm_middle.symm.count_eq w)
    unfold firstValue
    split
    · next hx =>
        have hmin : nMin ≤ ((counted ++ x :: rest).count x : Nat) := by
          rw [count_append, count_cons_self]
          omega
        rw [some.injEq]
        exact ⟨fun h => h ▸ hmin, fun h => hone x v hmin h⟩
    · next hx =>
        rw [ih, hperm]
        · intro w
          have hw := hfew w
          by_cases hxw : x = w
          · subst hxw
            simpa using hx
          · simpa [hxw] using hw
        · simpa only [hperm] using hone

/-- More than half of at most so many values agree on one value only. -/
theorem eq_of_majority {n : Nat} (hlength : values.length ≤ n)
    (hmin : (n : Int).tdiv 2 < nMin) (hv : nMin ≤ (values.count v : Nat))
    (hw : nMin ≤ (values.count w : Nat)) : v = w := by
  by_contra hne
  have hle : ∀ l : List Int, l.count v + l.count w ≤ l.length := by
    intro l
    induction l with
    | nil => simp
    | cons x rest ih => grind
  have := hle values
  rw [Int.tdiv_eq_ediv_of_nonneg (by omega)] at hmin
  omega

theorem Tracks.signersOf (h : Tracks m received) (nSporkID) :
    ((m.signersOf nSporkID).map fst).Nodup ∧
      (∀ p ∈ m.signersOf nSporkID, p.1 ∈ m.setSporkPubKeyIDs) ∧
      ∀ keyID, (m.signersOf nSporkID).lookup keyID = latest received nSporkID keyID := by
  have hslot := h.slot nSporkID
  unfold CSporkManager.signersOf
  simp only [CSporkManager.slot] at hslot
  cases hsigners : m.mapSporksActive.lookup nSporkID with
  | none => simpa [hsigners] using hslot
  | some signers =>
    obtain ⟨hnodup, hmem⟩ := h.nodup nSporkID signers hsigners
    exact ⟨hnodup, hmem, fun keyID => by simpa [hsigners] using hslot keyID⟩

/-- The signers that count for a value are the configured ones that have it in their latest message. -/
theorem Tracks.count_eq_support (h : Tracks m received) (hset : m.setSporkPubKeyIDs.Nodup) :
    ((m.signersOf nSporkID).map fun p => p.2.nValue).count v = support (m, received) nSporkID v := by
  obtain ⟨hnodup, hmem, hlookup⟩ := h.signersOf nSporkID
  have hkeys : ((m.signersOf nSporkID).filter fun p => p.2.nValue = v).map Prod.fst ~
      m.setSporkPubKeyIDs.filter fun keyID =>
        (latest received nSporkID keyID).any fun spork => spork.nValue = v := by
    rw [perm_ext_iff_of_nodup (hnodup.sublist (filter_sublist.map _)) (hset.filter _)]
    intro keyID
    simp only [List.mem_map, List.mem_filter, decide_eq_true_eq, Prod.exists, exists_and_right,
      exists_eq_right, mem_iff_lookup hnodup, hlookup, Option.any_eq_true]
    constructor
    · rintro ⟨spork, hspork, hv⟩
      exact ⟨hmem (keyID, spork) ((mem_iff_lookup hnodup).mpr ((hlookup keyID).trans hspork)), spork,
        hspork, hv⟩
    · rintro ⟨-, spork, hspork, hv⟩
      exact ⟨spork, hspork, hv⟩
  have hlength := hkeys.length_eq
  rw [length_map, ← countP_eq_length_filter, ← countP_eq_length_filter] at hlength
  rw [support, ← hlength, count, countP_map]
  rfl

theorem nodup_configured (keys : List CKeyID) :
    (configured keys).setSporkPubKeyIDs.Nodup ∧ (configured keys).mapSporksActive = [] := by
  unfold configured
  induction keys using reverseRecOn with
  | nil => exact ⟨nodup_nil, rfl⟩
  | append_singleton keys keyid ih =>
    rw [foldl_append]
    exact ⟨ih.1.insert, ih.2⟩

/--
**Values are unambiguous.**  After any messages a value is active exactly if enough configured signers
have it in their latest message, in whatever order the map has the signers.
-/
theorem sporkValueIsActive_iff (env : SporkEnv) (keys : List CKeyID) (nMin : Int)
    (haccepted : ((configured keys).setMinSporkKeys nMin).1 = true)
    (messages : List (Int × CSporkMessage)) (nSporkID v : Int) :
    let r := messages.foldl (receive env) (((configured keys).setMinSporkKeys nMin).2, [])
    (r.1.sporkValueIsActive nSporkID = some v ↔ nMin ≤ (support r nSporkID v : Nat)) ∧
      ∀ signers, signers ~ r.1.signersOf nSporkID →
        firstValue nMin [] (signers.map fun p => p.2.nValue) = r.1.sporkValueIsActive nSporkID := by
  obtain ⟨hset, hactive⟩ := nodup_configured keys
  unfold setMinSporkKeys at haccepted ⊢
  dsimp only at haccepted ⊢
  split at haccepted
  · cases haccepted
  next hrange =>
  rw [if_neg hrange]
  rw [not_or, not_le, not_lt] at hrange
  have hrun : ∀ messages : List (Int × CSporkMessage),
      let r := messages.foldl (receive env) ({ configured keys with nMinSporkKeys := nMin }, [])
      Tracks r.1 r.2 ∧ r.1.setSporkPubKeyIDs = (configured keys).setSporkPubKeyIDs ∧
        r.1.nMinSporkKeys = nMin := by
    intro messages
    induction messages using reverseRecOn with
    | nil =>
      refine ⟨⟨fun j i => ?_, fun j signers h => ?_⟩, rfl, rfl⟩
      · simp [slot, hactive, latest]
      · simp [hactive] at h
    | append_singleton messages a ih =>
      rw [foldl_append]
      obtain ⟨htracks, hkeys, hmin⟩ := ih
      obtain ⟨htracks', hkeys', hmin'⟩ := htracks.receive a
      exact ⟨htracks', hkeys'.trans hkeys, hmin'.trans hmin⟩
  obtain ⟨htracks, hkeys, hmin⟩ := hrun messages
  generalize messages.foldl (receive env) ({ configured keys with nMinSporkKeys := nMin }, []) = r
    at htracks hkeys hmin ⊢
  have hlength : (r.1.signersOf nSporkID).length ≤ (configured keys).setSporkPubKeyIDs.length := by
    obtain ⟨hnodup, hmem, -⟩ := htracks.signersOf nSporkID
    have hsub : (r.1.signersOf nSporkID).map fst ⊆ (configured keys).setSporkPubKeyIDs := by
      intro k hk
      obtain ⟨p, hp, rfl⟩ := mem_map.mp hk
      exact hkeys ▸ hmem p hp
    simpa using (subperm_of_subset hnodup hsub).length_le
  have hmin0 : 0 < nMin := (Int.tdiv_nonneg (by omega) (by omega)).trans_lt hrange.1
  have hcount : ∀ signers, signers ~ r.1.signersOf nSporkID → ∀ v,
      firstValue nMin [] (signers.map fun p => p.2.nValue) = some v ↔
        nMin ≤ (support r nSporkID v : Nat) := by
    intro signers hperm v
    have hmap := hperm.map fun p : CKeyID × CSporkMessage => p.2.nValue
    rw [firstValue_eq_some_iff (by simpa using hmin0), nil_append, hmap.count_eq,
      htracks.count_eq_support (hkeys ▸ hset)]
    intro v w hv hw
    refine eq_of_majority ?_ hrange.1 hv hw
    simpa using hperm.length_eq.trans_le hlength
  have hvalue : r.1.sporkValueIsActive nSporkID =
      firstValue nMin [] ((r.1.signersOf nSporkID).map fun p => p.2.nValue) := by
    unfold sporkValueIsActive signersOf
    rw [hmin]
    cases r.1.mapSporksActive.lookup nSporkID <;> rfl
  rw [hvalue]
  refine ⟨hcount _ (List.Perm.refl _) v, fun signers hperm => ?_⟩
  exact Option.ext fun w => (hcount signers hperm w).trans (hcount _ (List.Perm.refl _) w).symm

/-- Three keys, of which two are needed: key 1 follows key 2 to the value 6, and key 3 has another. -/
theorem sporkValueIsActive_iff_two :
    let env : SporkEnv := ⟨fun s => s.nTimeSigned.toNat, fun _ _ _ => 0, fun _ => 0,
      fun _ vchSig => vchSig.head?.map UInt8.toNat⟩
    let r := [(0, ⟨10001, 5, 1, [1]⟩), (0, ⟨10001, 6, 2, [2]⟩), (0, ⟨10001, 5, 3, [3]⟩),
      (0, ⟨10001, 6, 4, [1]⟩)].foldl (receive env)
      (((configured [1, 2, 3]).setMinSporkKeys 2).2, [])
    2 ≤ ((support r 10001 6 : Nat) : Int) := by
  refine (sporkValueIsActive_iff _ [1, 2, 3] 2 (by decide) _ 10001 6).1.mp ?_
  decide +kernel

end CSporkManager

end Absolute
