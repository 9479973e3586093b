/-
The next target stays near the last ones, and what becomes of it where nothing wraps around.

The average is kept between two bounds by every round of the loop.  A computation in checked
arithmetic ends with a wrap-around, or as it does in every arithmetic that is exact on 256 bits.
-/
import AbsoluteCore.Consensus.Pow
import AbsoluteCore.Lib.Fallible
import AbsoluteCore.Proofs.Consensus.ArithUint256

namespace Absolute

open ArithUint256 Fallible Except

/-- Exact below `2 ^ 256`. -/
structure Arith.Sound (arith : Arith) : Prop where
  reduce {x : Nat} (hx : x < 2 ^ 256) : arith.reduce x = .ok x
  div {x y : Nat} (hx : x < 2 ^ 256) (hpos : 0 < y) (hy : y < 2 ^ 256) : arith.div x y = .ok (x / y)

theorem sound_uint256 : Arith.uint256.Sound where
  reduce hx := congrArg ok (Nat.mod_eq_of_lt hx)
  div := div_eq

theorem sound_checked : Arith.checked.Sound where
  reduce hx := if_pos hx
  div := div_eq

theorem sound_unbounded : Arith.unbounded.Sound := ⟨fun _ => rfl, fun _ _ _ => rfl⟩

/-! ### Checked arithmetic -/

section

variable {α β : Type} {x y : Except Fail α} {f g : α → Except Fail β}

/-- The first computation wraps around, or both end alike. -/
def Unwrapped (x y : Except Fail α) : Prop := x = .error Arith.wrapAround ∨ x = y

theorem Unwrapped.bind (h : Unwrapped x y) (hf : ∀ a, x = .ok a → Unwrapped (f a) (g a)) :
    Unwrapped (x >>= f) (y >>= g) := by
  rcases h with h | rfl
  · exact .inl (by rw [h]; rfl)
  · cases x with
    | error e => exact .inr rfl
    | ok a => exact hf a rfl

theorem Unwrapped.eq_ok {a : α} (h : Unwrapped x y) (hx : x = .ok a) : y = .ok a := by
  rcases h with h | h
  · cases hx.symm.trans h
  · exact h ▸ hx

end

variable {arith : Arith} {params : PowParams} {lo hi : Nat} {chain : List PowBlock}

theorem lt_of_reduce {x y : Nat} (h : Arith.checked.reduce x = .ok y) : y < 2 ^ 256 := by
  unfold Arith.checked at h
  dsimp only at h
  split_ifs at h with hlt
  exact ok.inj h ▸ hlt

section

variable (h : arith.Sound)

include h

theorem unwrapped_reduce (x : Nat) : Unwrapped (Arith.checked.reduce x) (arith.reduce x) := by
  by_cases hx : x < 2 ^ 256
  · exact .inr ((sound_checked.reduce hx).trans (h.reduce hx).symm)
  · exact .inl (if_neg hx)

theorem unwrapped_div {x y : Nat} (hx : x < 2 ^ 256) (hpos : 0 < y) (hy : y < 2 ^ 256) :
    Unwrapped (Arith.checked.div x y) (arith.div x y) :=
  .inr ((sound_checked.div hx hpos hy).trans (h.div hx hpos hy).symm)

theorem unwrapped_nextAvg {n : Nat} (hn : n ≤ 24) (avg t : Nat) :
    Unwrapped (nextAvg .checked n avg t) (nextAvg arith n avg t) := by
  unfold nextAvg
  split_ifs
  · exact .inr rfl
  · refine (unwrapped_reduce h _).bind fun product _ => (unwrapped_reduce h _).bind fun sum hsum => ?_
    exact unwrapped_div h (lt_of_reduce hsum) n.succ_pos (by omega)

theorem unwrapped_pastTargetAvg (chain : List PowBlock) (left n avg : Nat) (hcount : n + left ≤ 24) :
    Unwrapped (pastTargetAvg .checked left n avg chain) (pastTargetAvg arith left n avg chain) := by
  induction chain generalizing left n avg with
  | nil =>
    unfold pastTargetAvg
    exact .inr rfl
  | cons pindex pprev ih =>
    unfold pastTargetAvg
    refine (unwrapped_nextAvg h (by omega) _ _).bind fun new _ => ?_
    cases left with
    | zero => exact .inr rfl
    | succ left => exact ih left (n + 1) new (by omega)

theorem unwrapped_retarget (bnNew : Nat) (k : Int) {target : Int} (hpos : 0 < target)
    (htarget : target ≤ 2 ^ 20) :
    Unwrapped (retarget .checked params bnNew k target) (retarget arith params bnNew k target) := by
  refine (unwrapped_reduce h _).bind fun product hproduct => ?_
  exact (unwrapped_div h (lt_of_reduce hproduct) (by omega) (by omega)).bind fun _ _ => .inr rfl

theorem unwrapped_darkGravityTarget (hpos : 0 < params.nPowTargetSpacing)
    (hle : params.nPowTargetSpacing ≤ 2 ^ 10) (pblockTime : Int) (chain : List PowBlock) :
    Unwrapped (darkGravityTarget .checked params pblockTime chain)
      (darkGravityTarget arith params pblockTime chain) := by
  cases chain with
  | nil => exact .inr rfl
  | cons pindexLast pprev =>
    rw [darkGravityTarget, darkGravityTarget]
    split_ifs
    · exact .inr rfl
    · exact .inr rfl
    · exact (unwrapped_reduce h _).bind fun _ _ => .inr rfl
    · refine (unwrapped_pastTargetAvg h _ 23 1 0 le_rfl).bind fun r _ => ?_
      exact unwrapped_retarget h _ _ (by omega) (by omega)

theorem unwrapped_getNextWorkRequired (hspacing : params.nPowTargetSpacing = 150)
    (htimespan : params.nPowTargetTimespan = 86400) (pblockTime : Int) (chain : List PowBlock) :
    Unwrapped (getNextWorkRequired .checked params pblockTime chain)
      (getNextWorkRequired arith params pblockTime chain) := by
  cases chain with
  | nil => exact .inr rfl
  | cons pindexLast pprev =>
    rw [getNextWorkRequired, getNextWorkRequired]
    split_ifs
    · exact .inr rfl
    · refine (unwrapped_darkGravityTarget h ?_ ?_ pblockTime _).bind fun _ _ => .inr rfl
      all_goals omega
    rw [getNextWorkRequiredBTC, getNextWorkRequiredBTC]
    refine Unwrapped.bind (.inr rfl) fun _ _ => ?_
    dsimp only
    split_ifs
    · exact .inr rfl
    · exact .inr rfl
    · exact .inr rfl
    · refine Unwrapped.bind (.inr rfl) fun _ _ => ?_
      split
      · exact .inr rfl
      · unfold calculateNextWorkRequired
        split_ifs
        · exact .inr rfl
        · exact (unwrapped_retarget h _ _ (by omega) (by omega)).bind fun _ _ => .inr rfl

end

/-! ### Bounds -/

/-- **A round keeps the average between the bounds**, and does not wrap around. -/
theorem exists_nextAvg (hfit : hi < 2 ^ 236) {n avg t : Nat} (hcount : n ≤ 24)
    (havg : n ≠ 1 → lo ≤ avg ∧ avg ≤ hi) (htlo : lo ≤ t) (hthi : t ≤ hi) :
    ∃ avg', nextAvg .checked n avg t = .ok avg' ∧ lo ≤ avg' ∧ avg' ≤ hi := by
  by_cases hone : n = 1
  · exact ⟨t, if_pos hone, htlo, hthi⟩
  obtain ⟨hlo, hhi⟩ := havg hone
  have hle : lo * n ≤ avg * n := Nat.mul_le_mul_right n hlo
  have hge : avg * n ≤ hi * n := Nat.mul_le_mul_right n hhi
  have hprod : hi * n ≤ 2 ^ 236 * 24 := Nat.mul_le_mul hfit.le hcount
  refine ⟨(avg * n + t) / (n + 1), ?_, ?_, ?_⟩
  · rw [nextAvg, if_neg hone]
    have hlt : avg * n + t < 2 ^ 256 := by omega
    exact bind_eq_ok.mpr ⟨_, sound_checked.reduce (by omega), bind_eq_ok.mpr ⟨_,
      sound_checked.reduce hlt, sound_checked.div hlt n.succ_pos (by omega)⟩⟩
  · rw [Nat.le_div_iff_mul_le n.succ_pos, Nat.mul_add_one]
    omega
  · refine Nat.div_le_of_le_mul ?_
    rw [Nat.add_one_mul, Nat.mul_comm n hi]
    omega

theorem exists_pastTargetAvg (hfit : hi < 2 ^ 236) {left : Nat} (hlen : left < chain.length)
    (n avg : Nat) (hcount : n + left ≤ 24) (havg : n ≠ 1 → lo ≤ avg ∧ avg ≤ hi)
    (hchain : ∀ b ∈ chain.take (left + 1), lo ≤ (setCompact b.nBits).value ∧
      (setCompact b.nBits).value ≤ hi) :
    ∃ avg' pindex, pastTargetAvg .checked left n avg chain = .ok (avg', pindex) ∧
      lo ≤ avg' ∧ avg' ≤ hi := by
  induction chain generalizing left n avg with
  | nil => cases hlen
  | cons pindex pprev ih =>
    obtain ⟨htlo, hthi⟩ := hchain pindex (by simp)
    obtain ⟨new, hround, hnew⟩ := exists_nextAvg hfit (by omega) havg htlo hthi
    cases left with
    | zero =>
      refine ⟨new, pindex, ?_, hnew⟩
      rw [pastTargetAvg, hround]
      rfl
    | succ left =>
      obtain ⟨avg', pindex', hrest, havg'⟩ := ih (Nat.lt_of_succ_lt_succ hlen) (n + 1) new
        (by omega) (fun _ => hnew) (fun b hb => hchain b (List.mem_cons_of_mem _ hb))
      refine ⟨avg', pindex', ?_, havg'⟩
      rw [pastTargetAvg, hround]
      exact hrest

theorem retarget_eq {bnNew : Nat} (hnew : bnNew < 2 ^ 236) {k target : Int}
    (hk : 0 ≤ k) (hk' : k ≤ 2 ^ 20) (hpos : 0 < target) (htarget : target ≤ 2 ^ 20) :
    retarget .checked params bnNew k target =
      .ok (min (bnNew * k.toNat / target.toNat) params.powLimit) := by
  have hnarrow : k % 2 ^ 32 = k := by omega
  have hprod : bnNew * k.toNat ≤ (2 ^ 236 - 1) * 2 ^ 20 := Nat.mul_le_mul (by omega) (by omega)
  rw [retarget, hnarrow]
  exact bind_eq_ok.mpr ⟨_, sound_checked.reduce (by omega), bind_eq_ok.mpr ⟨_,
    sound_checked.div (by omega) (by omega) (by omega), rfl⟩⟩

/-- **On the main network nothing wraps**, the average lies between the targets it is made of, and the
next target is at most three times and at least a third of them. -/
theorem darkGravityWave_main (chain : List PowBlock) (pblockTime : Int)
    (hlen : 25 ≤ chain.length) (hhi : hi ≤ mainPowParams.powLimit)
    (hchain : ∀ b ∈ chain.take 24, ∃ t, HasTarget b.nBits t ∧ lo ≤ t ∧ t ≤ hi) :
    ∃ avg pindex v nCompact,
      pastTargetAvg .uint256 23 1 0 chain = .ok (avg, pindex) ∧ lo ≤ avg ∧ avg ≤ hi ∧
      darkGravityTarget .uint256 mainPowParams pblockTime chain = .ok v ∧ lo / 3 ≤ v ∧
      getCompact v false = .ok nCompact ∧
      darkGravityWave .uint256 mainPowParams pblockTime chain = .ok nCompact ∧
      darkGravityWave .checked mainPowParams pblockTime chain = .ok nCompact ∧
      ∃ t, setCompact nCompact = ⟨t, false, false⟩ ∧ t ≤ mainPowParams.powLimit ∧ t ≤ 3 * hi := by
  have hfit : mainPowParams.powLimit < 2 ^ 236 := by decide
  have htargets : ∀ b ∈ chain.take 24, lo ≤ (setCompact b.nBits).value ∧
      (setCompact b.nBits).value ≤ hi := by
    intro b hb
    obtain ⟨t, ht, hbounds⟩ := hchain b hb
    rw [ht.1]
    exact hbounds
  obtain ⟨avg, pindex, hloop, hlo, hhi'⟩ := exists_pastTargetAvg (hhi.trans_lt hfit)
    (Nat.lt_of_succ_lt hlen) 1 0 le_rfl (fun h => absurd rfl h) htargets
  obtain ⟨pindexLast, pprev, rfl⟩ := List.exists_cons_of_length_pos (Nat.zero_lt_of_lt hlen)
  -- the time between the blocks, as it is clamped
  obtain ⟨k, hk, hk₀, hk₁⟩ : ∃ k, min (max (pindexLast.nTime - pindex.nTime) 720) 6480 = k ∧
      720 ≤ k ∧ k ≤ 6480 := ⟨_, rfl, by omega, by omega⟩
  have hprod : avg * k.toNat ≤ avg * 6480 := Nat.mul_le_mul_left avg (by omega)
  have hprod' : avg * 720 ≤ avg * k.toNat := Nat.mul_le_mul_left avg (by omega)
  have htarget : darkGravityTarget .checked mainPowParams pblockTime (pindexLast :: pprev) =
      .ok (min (avg * k.toNat / 2160) mainPowParams.powLimit) := by
    rw [darkGravityTarget, if_neg (by simpa using hlen), if_neg (by simp [mainPowParams]),
      if_neg (by simp [mainPowParams])]
    refine bind_eq_ok.mpr ⟨_, hloop, ?_⟩
    show retarget _ _ _ (min (max (pindexLast.nTime - pindex.nTime) 720) 6480) 2160 = _
    rw [hk]
    exact retarget_eq (by omega) (by omega) (by omega) (by decide) (by decide)
  have hsame := (unwrapped_darkGravityTarget sound_uint256 (by decide) (by decide) _ _).eq_ok htarget
  have hsmall : min (avg * k.toNat / 2160) mainPowParams.powLimit < 2 ^ 256 := by omega
  obtain ⟨n, nCompact, -, hget, hset, -⟩ := setCompact_getCompact hsmall
  have hle := Nat.div_mul_le_self (min (avg * k.toNat / 2160) mainPowParams.powLimit) (256 ^ n)
  refine ⟨avg, pindex, _, nCompact, (unwrapped_pastTargetAvg sound_uint256 _ 23 1 0 le_rfl).eq_ok hloop,
    hlo, hhi', hsame, ?_, hget, ?_, ?_, _, hset, ?_, ?_⟩
  · omega
  · rw [darkGravityWave, hsame]
    exact hget
  · rw [darkGravityWave, htarget]
    exact hget
  · omega
  · omega

/-- Twelve blocks at the limit and as many at a quarter of it, within a quarter of the usual time. -/
def mixedChain : List PowBlock :=
  List.replicate 12 ⟨0x1e0fffff, 540⟩ ++ List.replicate 13 ⟨0x1e03ffff, 0⟩

theorem darkGravityWave_main_mixed : ∃ avg pindex v nCompact,
    pastTargetAvg .uint256 23 1 0 mixedChain = .ok (avg, pindex) ∧
      0x03ffff * 2 ^ 216 ≤ avg ∧ avg ≤ mainPowParams.powLimit ∧
      darkGravityTarget .uint256 mainPowParams 600 mixedChain = .ok v ∧
      0x03ffff * 2 ^ 216 / 3 ≤ v ∧ getCompact v false = .ok nCompact ∧
      darkGravityWave .uint256 mainPowParams 600 mixedChain = .ok nCompact := by
  have hlimit : HasTarget 0x1e0fffff mainPowParams.powLimit := ⟨by decide +kernel, by decide⟩
  have hquarter : HasTarget 0x1e03ffff (0x03ffff * 2 ^ 216) := ⟨by decide +kernel, by decide⟩
  have hchain : ∀ b ∈ mixedChain.take 24, ∃ t, HasTarget b.nBits t ∧ 0x03ffff * 2 ^ 216 ≤ t ∧
      t ≤ mainPowParams.powLimit := by
    intro b hb
    rcases List.mem_append.mp (List.mem_of_mem_take hb) with hb | hb
    · exact ⟨_, by rw [List.eq_of_mem_replicate hb]; exact hlimit, by decide, le_rfl⟩
    · exact ⟨_, by rw [List.eq_of_mem_replicate hb]; exact hquarter, le_rfl, by decide⟩
  obtain ⟨avg, pindex, v, nCompact, hloop, hlo, hhi, htarget, hv, hget, hwave, -⟩ :=
    darkGravityWave_main mixedChain 600 (by decide) le_rfl hchain
  exact ⟨avg, pindex, v, nCompact, hloop, hlo, hhi, htarget, hv, hget, hwave⟩

/-! ### The test networks -/

end Absolute
