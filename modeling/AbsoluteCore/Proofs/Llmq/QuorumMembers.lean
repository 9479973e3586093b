/-
Which masternodes are the members of a quorum, and how they are connected.

The scores of two masternodes are never equal together with their collaterals, so there is one
way to sort them.  The loop over the gaps of the ring ends because no gap that it tries is as
large as the ring; with one or two members it comes back to where it started, and stays there.
-/
import AbsoluteCore.Proofs.Evo.NewList
import AbsoluteCore.Spec.QuorumMembers

namespace Absolute

open CDeterministicMNList List Function OwnerIndex Nat CDeterministicMN UniqueProperty

/-! ### Members -/

variable {env : Env} {l : CDeterministicMNList} {sha256 : Uint256 → Uint256 → Uint256}
  {modifier : Uint256} {sorted : List CDeterministicMN} {a b d : CDeterministicMN}

/-- The masternodes with a score, in the order in which `CalculateScores` meets them. -/
def scored (l : CDeterministicMNList) : List CDeterministicMN :=
  (l.forEachMN true).filter fun dmn => dmn.pdmnState.confirmedHash != 0

theorem not_scoreLt_iff : (!scoreLt (sha256 a.pdmnState.confirmedHashWithProRegTxHash modifier, a)
      (sha256 b.pdmnState.confirmedHashWithProRegTxHash modifier, b)) = true ↔
    b.rank sha256 modifier ≤ a.rank sha256 modifier := by
  rw [Bool.not_eq_true', ← Bool.not_eq_true, ← not_lt]
  unfold scoreLt rank COutPoint.lt
  rw [Prod.Lex.toLex_lt_toLex, Prod.Lex.toLex_lt_toLex]
  dsimp only
  split
  · next heq => simp [heq]
  · next hne => simp [hne]

/-- The masternodes can be sorted without their scores. -/
theorem calculateQuorum_eq (l : CDeterministicMNList) (sha256 : Uint256 → Uint256 → Uint256)
    (n : Nat) (modifier : Uint256) : l.calculateQuorum sha256 n modifier =
      ((scored l).insertionSort fun a b => b.rank sha256 modifier ≤ a.rank sha256 modifier).take n := by
  unfold calculateQuorum calculateScores
  rw [← map_insertionSort (fun a b => b.rank sha256 modifier ≤ a.rank sha256 modifier)
    (fun a b => (!scoreLt a b) = true) _ _ fun a _ b _ => not_scoreLt_iff.symm, map_map]
  exact congrArg (take n) (map_id _)

namespace WellFormed

variable (hwf : WellFormed env l)

include hwf

theorem mem_scored : a ∈ scored l ↔ l.Eligible a := by
  rw [scored, mem_filter, hwf.indexed.mem_forEachMN]
  constructor
  · rintro ⟨⟨hmem, hvalid⟩, hconfirmed⟩
    exact ⟨hmem, isMNValid_iff.mp (hvalid rfl), by simpa using hconfirmed⟩
  · intro h
    exact ⟨⟨h.mem, fun _ => isMNValid_iff.mpr h.notBanned⟩, by simpa using h.confirmed⟩

theorem nodup_scored : ((scored l).map proTxHash).Nodup :=
  (hwf.indexed.nodup_forEachMN true).sublist (filter_sublist.map _)

/-- No two masternodes have one collateral. -/
theorem rank_inj (ha : l.Eligible a) (hb : l.Eligible b)
    (heq : a.rank sha256 modifier = b.rank sha256 modifier) : a = b := by
  have hcollateral : a.collateralOutpoint = b.collateralOutpoint := by
    simp only [rank, EmbeddingLike.apply_eq_iff_eq, Prod.mk.injEq] at heq
    cases hc : a.collateralOutpoint
    cases hc' : b.collateralOutpoint
    simp_all
  have hheld : ∀ {d}, l.Eligible d → env.serializeHash (.outpoint d.collateralOutpoint) ∈
      holdings env.serializeHash l.mnMap d.proTxHash := by
    intro d hd
    have hnull : (outpoint d.collateralOutpoint).isNull = false := by
      simpa [isNull] using (hwf.owned _ _ hd.mem).collateral
    rw [holdings_of_getElem? hd.mem]
    simp [properties, entry_of_not_isNull hnull]
  have hhash := hwf.indexed.unique.owner_unique (hheld ha) (hcollateral ▸ hheld hb)
  have hget := ha.mem
  rw [hhash, hb.mem] at hget
  exact (Option.some.inj hget).symm

/-- There is one way to sort the eligible masternodes. -/
theorem pairwise_sorted (hnodup : sorted.Nodup) (hmem : ∀ d ∈ sorted, l.Eligible d)
    (hsorted : sorted.Pairwise fun a b => b.rank sha256 modifier ≤ a.rank sha256 modifier) :
    sorted.Pairwise fun a b => b.rank sha256 modifier < a.rank sha256 modifier := by
  refine (hsorted.and hnodup).imp_of_mem ?_
  rintro a b ha hb ⟨hle, hne⟩
  exact lt_of_le_of_ne hle fun heq => hne (hwf.rank_inj (hmem a ha) (hmem b hb) heq.symm)

end WellFormed

/--
**The members of a quorum are the eligible masternodes with the highest scores**, and a larger
quorum begins with those of a smaller one.
-/
theorem calculateQuorum_selects (hwf : WellFormed env l) (sha256 : Uint256 → Uint256 → Uint256)
    (modifier : Uint256) {n m : Nat} (hle : n ≤ m) :
    Selects l (CDeterministicMN.rank sha256 modifier) n (l.calculateQuorum sha256 n modifier) ∧
      l.calculateQuorum sha256 n modifier <+: l.calculateQuorum sha256 m modifier := by
  rw [calculateQuorum_eq, calculateQuorum_eq]
  have hperm := perm_insertionSort
    (fun a b => CDeterministicMN.rank sha256 modifier b ≤ a.rank sha256 modifier) (scored l)
  have hrank : ∀ a b : CDeterministicMN, b.rank sha256 modifier ≤ a.rank sha256 modifier ↔
      OrderDual.toDual (a.rank sha256 modifier) ≤ OrderDual.toDual (b.rank sha256 modifier) :=
    fun _ _ => OrderDual.toDual_le_toDual.symm
  have hsorted := KeyedRows.pairwise_insertionSort_key hrank (scored l)
  generalize (scored l).insertionSort
    (fun a b => CDeterministicMN.rank sha256 modifier b ≤ a.rank sha256 modifier) = s at *
  have hnodup : (s.map proTxHash).Nodup := (hperm.map proTxHash).nodup_iff.mpr hwf.nodup_scored
  have hmem : ∀ d, d ∈ s ↔ l.Eligible d := fun d => hperm.mem_iff.trans hwf.mem_scored
  have hstrict := hwf.pairwise_sorted hnodup.of_map (fun d => (hmem d).mp) hsorted
  refine ⟨⟨?_, ?_, ?_, ?_, ?_⟩, take_prefix_take_left hle⟩
  · classical
    have heligible : {d | l.Eligible d} = ↑s.toFinset := by
      ext d
      simp [hmem]
    rw [length_take, heligible, Set.ncard_coe_finset, toFinset_card_of_nodup hnodup.of_map]
  · rw [map_take]
    exact hnodup.sublist (take_sublist _ _)
  · exact fun d hd => (hmem d).mp (mem_of_mem_take hd)
  · intro d hd hout d' hin
    rw [← take_append_drop n s, pairwise_append] at hstrict
    have hsome := (hmem d).mpr hd
    rw [← take_append_drop n s, mem_append] at hsome
    exact hstrict.2.2 d' hin d (hsome.resolve_left hout)
  · intro sorted hnodup' hmem' hsorted'
    have hstrict' := hwf.pairwise_sorted hnodup' (fun d => (hmem' d).mp) hsorted'
    have hsame : sorted ~ s := (perm_ext_iff_of_nodup hnodup' hnodup.of_map).mpr fun d =>
      (hmem' d).trans (hmem d).symm
    rw [hsame.eq_of_pairwise (fun a b _ _ hab hba => absurd hab hba.asymm) hstrict' hstrict]

/-- The state of a confirmed masternode of `twoMNs`. -/
def confirmedState (d : CDeterministicMN) : CDeterministicMNState :=
  { d.pdmnState with confirmedHash := 7, confirmedHashWithProRegTxHash := d.proTxHash }

def confirm (l : CDeterministicMNList) (d : CDeterministicMN) : CDeterministicMNList :=
  (l.updateMN pairingHash d.proTxHash (confirmedState d)).toOption.getD {}

theorem wellFormed_confirm (hwf : WellFormed (sampleEnv []) l)
    (hget : l.mnMap[d.proTxHash]? = some d) : WellFormed (sampleEnv []) (confirm l d) := by
  obtain ⟨l', hok, hwf', -⟩ := hwf.updateMN_same (s := confirmedState d) hget rfl rfl rfl
  have hok : l.updateMN pairingHash d.proTxHash (confirmedState d) = .ok l' := hok
  rw [confirm, hok]
  exact hwf'

def confirmedMNs : CDeterministicMNList :=
  confirm (confirm twoMNs (registeredMN 1 0)) (registeredMN 2 1)

theorem calculateQuorum_selects_confirmed :
    (confirmedMNs.calculateQuorum (· + ·) 2 5).map CDeterministicMN.proTxHash = [2, 1] ∧
      Selects confirmedMNs (CDeterministicMN.rank (· + ·) 5) 1
        (confirmedMNs.calculateQuorum (· + ·) 1 5) ∧
      confirmedMNs.calculateQuorum (· + ·) 1 5 <+: confirmedMNs.calculateQuorum (· + ·) 2 5 := by
  have hwf : WellFormed (sampleEnv []) confirmedMNs :=
    wellFormed_confirm (wellFormed_confirm (twoMNs_wellFormed []) (by decide +kernel))
      (by decide +kernel)
  exact ⟨by decide +kernel, calculateQuorum_selects hwf (· + ·) 5 (by decide)⟩

/-! ### Connections -/

variable {mns : List CDeterministicMN} {i n : Nat}

/-- A member that would be connected to itself is tried again forever. -/
theorem connectionsLoop_stuck {gap k : Nat} (hself : (i + gap) % mns.length = i) (hk : k ≤ 1) :
    ∀ fuel gapMax result, connectionsLoop mns i fuel gap gapMax k result = none := by
  intro fuel
  induction fuel with
  | zero => exact fun _ _ => rfl
  | succ fuel ih =>
    intro gapMax result
    rw [connectionsLoop]
    simp only [hk, or_true, hself, if_true]
    exact ih _ _

theorem connectionsLoop_eq_none (hi : i < mns.length) (hle : mns.length ≤ 2) (fuel gapMax : Nat)
    (result : Finset Uint256) : connectionsLoop mns i fuel 1 gapMax 0 result = none := by
  by_cases hself : (i + 1) % mns.length = i
  · exact connectionsLoop_stuck hself (by omega) _ _ _
  cases fuel with
  | zero => rfl
  | succ fuel =>
    rw [connectionsLoop]
    simp only [zero_le, or_true, hself, if_true, if_false]
    refine connectionsLoop_stuck ?_ (by omega) _ _ _
    obtain hn | hn : mns.length = 1 ∨ mns.length = 2 := by omega
    all_goals rw [hn]; omega

theorem add_mod_ne {i g : Nat} (hi : i < n) (hg : 0 < g) (hgn : g < n) : (i + g) % n ≠ i := by
  by_cases hlt : i + g < n
  · rw [mod_eq_of_lt hlt]
    omega
  · rw [mod_eq_sub_mod (by omega), mod_eq_of_lt (by omega)]
    omega

/-- As long as the loop runs, its gap is less than the ring. -/
theorem two_pow_lt {j : Nat} (hn : 3 ≤ n) (hj : j < max 2 (Nat.log 2 (n - 1))) :
    (j ≤ 1 ∨ 2 ^ (j + 1) ≤ n - 1) ∧ 2 ^ j < n := by
  by_cases hj1 : j ≤ 1
  · exact ⟨.inl hj1, (Nat.pow_le_pow_right two_pos hj1).trans_lt (by omega)⟩
  · have hle : 2 ^ (j + 1) ≤ n - 1 := pow_le_of_le_log (by omega) (by omega)
    have hlt := Nat.pow_lt_pow_right one_lt_two (Nat.lt_succ_self j)
    exact ⟨.inr hle, by omega⟩

/-- The rest of the loop, from its pass `j` on. -/
theorem connectionsLoop_eq (hn : 3 ≤ mns.length) (hi : i < mns.length) :
    ∀ m j result, j + m = max 2 (Nat.log 2 (mns.length - 1)) → ∃ result',
      connectionsLoop mns i (m + 1) (2 ^ j) ((mns.length - 1) / 2 ^ j) j result = some result' ∧
      ∀ h, h ∈ result' ↔ h ∈ result ∨ ∃ k, j ≤ k ∧ k < j + m ∧ AtGap mns i k h := by
  intro m
  induction m with
  | zero =>
    intro j result hj
    have hend : (mns.length - 1) / 2 ^ j / 2 = 0 := by
      rw [Nat.div_div_eq_div_mul, ← pow_succ, Nat.div_eq_zero_iff]
      exact .inr ((Nat.lt_pow_succ_log_self one_lt_two _).trans_le
        (Nat.pow_le_pow_right two_pos (by omega)))
    refine ⟨result, ?_, fun h => ⟨.inl, ?_⟩⟩
    · rw [connectionsLoop, if_neg (by omega)]
    · rintro (hold | ⟨k, hjk, hkj, -⟩)
      · exact hold
      · omega
  | succ m ih =>
    intro j result hj
    obtain ⟨hcases, hpow⟩ := two_pow_lt hn (show j < _ by omega)
    have hgap : (mns.length - 1) / 2 ^ (j + 1) ≠ 0 ∨ j ≤ 1 := by
      refine hcases.symm.imp_left fun hle => ?_
      exact (Nat.div_pos hle (Nat.two_pow_pos _)).ne'
    have hne := add_mod_ne hi (Nat.two_pow_pos j) hpow
    obtain ⟨result', hloop, hmem⟩ := ih (j + 1)
      (result ∪ (mns[(i + 2 ^ j) % mns.length]?.map proTxHash).toFinset) (by omega)
    refine ⟨result', ?_, fun h => ?_⟩
    · rw [connectionsLoop, Nat.div_div_eq_div_mul, ← pow_succ, if_pos hgap, if_neg hne]
      exact hloop
    · have hself : h ∈ (mns[(i + 2 ^ j) % mns.length]?.map proTxHash).toFinset ↔
          AtGap mns i j h := by
        simp [AtGap]
      rw [hmem, Finset.mem_union, hself, or_assoc]
      refine or_congr_right ⟨?_, ?_⟩
      · rintro (hj' | ⟨k, hjk, hkj, hat⟩)
        · exact ⟨j, le_rfl, by omega, hj'⟩
        · exact ⟨k, by omega, by omega, hat⟩
      · rintro ⟨k, hjk, hkj, hat⟩
        obtain rfl | hlt := hjk.eq_or_lt
        · exact .inl hat
        · exact .inr ⟨k, hlt, by omega, hat⟩

section

variable (hnodup : (mns.map CDeterministicMN.proTxHash).Nodup)

include hnodup

theorem eq_of_proTxHash_eq {j : Nat} {d' : CDeterministicMN} (hd : mns[i]? = some d)
    (hd' : mns[j]? = some d') (heq : d.proTxHash = d'.proTxHash) : i = j := by
  refine (getElem?_inj ?_ hnodup).mp ?_
  · simpa using (List.getElem?_eq_some_iff.mp hd).1
  · simp [hd, hd', heq]

theorem findIdx_of_nodup (hd : mns[i]? = some d) :
    mns.findIdx? (·.proTxHash == d.proTxHash) = some i := by
  obtain ⟨hi, hget⟩ := List.getElem?_eq_some_iff.mp hd
  refine findIdx?_eq_some_iff_getElem.mpr ⟨hi, by simp [hget], fun j hj => ?_⟩
  rw [beq_iff_eq]
  exact fun heq => hj.ne (eq_of_proTxHash_eq hnodup (getElem?_eq_getElem (hj.trans hi)) hd heq)

theorem connects_of_le (hn : 3 ≤ mns.length) (hd : mns[i]? = some d) :
    ∃ result, Connects mns d.proTxHash result ∧ ∀ h, h ∈ result ↔
      ∃ k, k < max 2 (Nat.log 2 (mns.length - 1)) ∧ AtGap mns i k h := by
  obtain ⟨hi, -⟩ := List.getElem?_eq_some_iff.mp hd
  obtain ⟨result, hloop, hmem⟩ := connectionsLoop_eq hn hi _ 0 ∅ (zero_add _)
  refine ⟨result, ⟨max 2 (log 2 (mns.length - 1)) + 1, ?_⟩, fun h => ?_⟩
  · rw [getQuorumConnections, findIdx_of_nodup hnodup hd]
    simpa using hloop
  · simp [hmem]

/-- Every member is reached by going round the ring. -/
theorem reaches (hn : 3 ≤ mns.length) (hd : mns[i]? = some d) :
    ∀ s c, mns[(i + s) % mns.length]? = some c → Relation.ReflTransGen
      (fun a b => ∃ result, Connects mns a.proTxHash result ∧ b.proTxHash ∈ result) d c := by
  obtain ⟨hi, -⟩ := List.getElem?_eq_some_iff.mp hd
  intro s
  induction s with
  | zero =>
    intro c hc
    rw [add_zero, mod_eq_of_lt hi, hd] at hc
    rw [Option.some.inj hc]
  | succ s ih =>
    intro c hc
    have hlast := getElem?_eq_getElem (mod_lt (i + s) (hi.trans_le' (zero_le _)))
    obtain ⟨result, hret, hmem⟩ := connects_of_le hnodup hn hlast
    refine (ih _ hlast).tail ⟨result, hret, (hmem _).mpr ⟨0, by omega, c, ?_, rfl⟩⟩
    rw [pow_zero, mod_add_mod]
    exact hc

end

/-- **The members of a quorum are connected as a ring** if and only if there are at least three. -/
theorem ringConnected_iff (hnodup : (mns.map CDeterministicMN.proTxHash).Nodup) (hne : mns ≠ []) :
    RingConnected mns ↔ 3 ≤ mns.length := by
  constructor
  · intro hconn
    by_contra hlt
    have hpos := length_pos_iff.mpr hne
    have hd := getElem?_eq_getElem hpos
    obtain ⟨result, ⟨fuel, hfuel⟩, -⟩ := hconn.connects 0 _ hd
    rw [getQuorumConnections, findIdx_of_nodup hnodup hd] at hfuel
    cases (connectionsLoop_eq_none hpos (by omega) _ _ _).symm.trans hfuel
  · intro hn
    refine ⟨fun i d hd => ?_, fun _ a ha b hb => ?_⟩
    · obtain ⟨hi, -⟩ := List.getElem?_eq_some_iff.mp hd
      have hother : ∀ {k}, k < max 2 (log 2 (mns.length - 1)) → (i + 2 ^ k) % mns.length ≠ i :=
        fun hk => add_mod_ne hi (Nat.two_pow_pos _) (two_pow_lt hn hk).2
      obtain ⟨result, hret, hmem⟩ := connects_of_le hnodup hn hd
      refine ⟨result, hret, fun hself => ?_, fun h => ?_⟩
      · obtain ⟨k, hk, d', hd', heq⟩ := (hmem _).mp hself
        exact hother hk (eq_of_proTxHash_eq hnodup hd' hd heq)
      · rw [hmem]
        constructor
        · rintro ⟨k, hk, hat⟩
          exact ⟨k, by omega, hother hk, hat⟩
        · rintro ⟨k, hk, -, hat⟩
          exact ⟨k, by omega, hat⟩
    · obtain ⟨i, hi⟩ := mem_iff_getElem?.mp ha
      obtain ⟨j, hj⟩ := mem_iff_getElem?.mp hb
      obtain ⟨hilt, -⟩ := List.getElem?_eq_some_iff.mp hi
      obtain ⟨hjlt, -⟩ := List.getElem?_eq_some_iff.mp hj
      refine reaches hnodup hn hi (mns.length - i + j) b ?_
      rw [← Nat.add_assoc, Nat.add_sub_cancel' hilt.le, Nat.add_mod_left, Nat.mod_eq_of_lt hjlt]
      exact hj

theorem ringConnected_iff_three :
    RingConnected [registeredMN 1 0, registeredMN 2 1, registeredMN 3 2] :=
  (ringConnected_iff (by decide) (by simp)).mpr (by decide)

/-- With two members the loop comes back to the first one, and does not end. -/
theorem connections_two :
    (∀ fuel, getQuorumConnections fuel [registeredMN 1 0, registeredMN 2 1] 1 = none) ∧
      ¬ RingConnected [registeredMN 1 0, registeredMN 2 1] := by
  have hnone : ∀ fuel,
      getQuorumConnections fuel [registeredMN 1 0, registeredMN 2 1] 1 = none := by
    intro fuel
    exact connectionsLoop_eq_none (by decide) (by decide) fuel 1 ∅
  refine ⟨hnone, fun hconn => ?_⟩
  obtain ⟨result, ⟨fuel, hfuel⟩, -⟩ := hconn.connects 0 (registeredMN 1 0) rfl
  exact absurd ((hnone fuel).symm.trans hfuel) (by simp)

end Absolute
