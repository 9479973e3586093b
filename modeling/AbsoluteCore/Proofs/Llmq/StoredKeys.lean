/-
The keys of the block processor.

A key is read back as it was written, so two keys are the same only where their parts are.  The
entries by mined height of one type stand together, the newest first: the height is subtracted from
the largest number and its highest byte comes first.
-/
import AbsoluteCore.Lib.ByteOrder
import AbsoluteCore.Spec.QuorumChain

namespace Absolute

open List Option Codec Prod Nat

namespace BlockProcessorKeys

variable {height llmqType n llmqType' : Nat} {text bs rest : List UInt8}

/-! ### Strings -/

theorem string_put (h : text.length < 253) : string.put text = UInt8.ofNat text.length :: text := by
  show putCompactSize text.length ++ text.flatMap (fun b => [b]) = _
  rw [putCompactSize, if_pos h, flatMap_singleton', putLE, putLE, mod_eq_of_lt (by omega)]
  rfl

theorem string_valid (h : text.length < 253) : string.Valid text := by
  have hsize : text.length ≤ maxSize ∧ text.length < 2 ^ 64 := by
    unfold maxSize
    omega
  exact ⟨hsize, fun _ _ => trivial⟩

theorem getMany_byte {as : List UInt8} (h : byte.getMany n bs = some (as, rest)) :
    bs = as ++ rest ∧ as.length = n := by
  induction n generalizing bs as with
  | zero =>
    obtain ⟨rfl, rfl⟩ := mk.inj (some.inj h)
    exact ⟨rfl, rfl⟩
  | succ n ih =>
    cases bs with
    | nil => cases h
    | cons b bs =>
      obtain ⟨⟨as', rest'⟩, hrest, h⟩ := bind_eq_some_iff.mp h
      obtain ⟨rfl, rfl⟩ := mk.inj (some.inj h)
      obtain ⟨rfl, hlength⟩ := ih hrest
      exact ⟨rfl, by rw [length_cons, hlength]⟩

theorem string_get (h : string.get bs = some (text, rest))
    (hshort : text.length < 253) : bs = string.put text ++ rest := by
  obtain ⟨⟨n, bs'⟩, hsize, hmany⟩ := bind_eq_some_iff.mp h
  obtain ⟨rfl, rfl⟩ := getMany_byte hmany
  rw [string_put hshort]
  cases bs with
  | nil => cases hsize
  | cons b bs =>
    obtain ⟨hsize, -⟩ := filter_eq_some_iff.mp hsize
    by_cases hb : b < 253
    · rw [if_pos hb] at hsize
      obtain ⟨hlength, rfl⟩ := mk.inj (some.inj hsize)
      rw [← hlength, UInt8.ofNat_toNat]
      rfl
    · exfalso
      split_ifs at hsize
      all_goals
        obtain ⟨-, hmin⟩ := filter_eq_some_iff.mp hsize
        simp only [decide_eq_true_eq] at hmin
        omega

/-! ### Heights -/

theorem htobe32_lt (n) : htobe32 n < 2 ^ 32 := by
  unfold htobe32
  omega

/-- The bytes of the number, the other way round. -/
theorem htobe32_bytes (n) : htobe32 n % 256 = n / 2 ^ 24 % 256 ∧
    htobe32 n / 2 ^ 8 % 256 = n / 2 ^ 16 % 256 ∧ htobe32 n / 2 ^ 16 % 256 = n / 2 ^ 8 % 256 ∧
    htobe32 n / 2 ^ 24 % 256 = n % 256 := by
  have hlt : ∀ m, m % 256 < 256 := fun m => mod_lt m (by decide)
  have ha := hlt n
  have hb := hlt (n / 2 ^ 8)
  have hc := hlt (n / 2 ^ 16)
  have hd := hlt (n / 2 ^ 24)
  unfold htobe32
  generalize n % 256 = a, n / 2 ^ 8 % 256 = b, n / 2 ^ 16 % 256 = c, n / 2 ^ 24 % 256 = d at *
  omega

theorem htobe32_htobe32 (h : n < 2 ^ 32) : htobe32 (htobe32 n) = n := by
  obtain ⟨h₀, h₁, h₂, h₃⟩ := htobe32_bytes n
  rw [htobe32, h₀, h₁, h₂, h₃]
  omega

theorem putLE_htobe32 (n) : putLE 4 (htobe32 n) = putBE 4 n := by
  obtain ⟨h₀, h₁, h₂, h₃⟩ := htobe32_bytes n
  have hb₀ : n / 256 ^ 3 % 256 = n / 2 ^ 24 % 256 := rfl
  have hb₁ : n % 256 ^ 3 / 256 ^ 2 % 256 = n / 2 ^ 16 % 256 := by omega
  have hb₂ : n % 256 ^ 3 % 256 ^ 2 / 256 ^ 1 % 256 = n / 2 ^ 8 % 256 := by omega
  have hb₃ : n % 256 ^ 3 % 256 ^ 2 % 256 ^ 1 / 256 ^ 0 % 256 = n % 256 := by omega
  simp only [putLE, putBE, Nat.div_div_eq_div_mul, hb₀, hb₁, hb₂, hb₃, ← h₀, ← h₁, ← h₂, ← h₃]
  rfl

/-- The height as the key has it. -/
def inversed (height : Nat) : Nat := uint32Max - height

theorem inversed_lt (height) : inversed height < 2 ^ 32 := by
  unfold inversed uint32Max
  omega

theorem buildInversedHeightKey_eq (llmqType) (h : height < 2 ^ 31) :
    buildInversedHeightKey llmqType height =
      (dbMinedCommitmentByInversedHeight, llmqType, htobe32 (inversed height)) := by
  have heq : ((uint32Max - (height : Int)) % 2 ^ 32).toNat = inversed height := by
    unfold inversed uint32Max
    omega
  rw [buildInversedHeightKey, heq]

/-- The beginning of all keys by mined height of one type. -/
def heightPrefix (llmqType : Nat) : CDataStream :=
  string.put dbMinedCommitmentByInversedHeight ++ [UInt8.ofNat llmqType]

def minedHeightKey (llmqType height : Nat) : CDataStream :=
  heightKey.put (buildInversedHeightKey llmqType height)

section

variable (htype : llmqType < 256) (h : height < 2 ^ 31)

include htype h

theorem minedHeightKey_eq :
    minedHeightKey llmqType height = heightPrefix llmqType ++ putBE 4 (inversed height) := by
  rw [minedHeightKey, buildInversedHeightKey_eq llmqType h]
  show string.put dbMinedCommitmentByInversedHeight ++
    (putLE 1 llmqType ++ putLE 4 (htobe32 (inversed height))) = _
  rw [putLE_htobe32, heightPrefix, append_assoc, putLE, putLE, mod_eq_of_lt htype]

/-- Newer entries come first. -/
theorem compare_minedHeightKey {height' : Nat} (h' : height' < 2 ^ 31) :
    compare (minedHeightKey llmqType height) (minedHeightKey llmqType height') =
      compare height' height := by
  rw [minedHeightKey_eq htype h, minedHeightKey_eq htype h', ByteOrder.compare_append_left,
    ByteOrder.compare_putBE (inversed_lt height) (inversed_lt height')]
  unfold inversed uint32Max
  exact ByteOrder.compare_congr (by omega) (by omega)

theorem heightPrefix_isPrefix : heightPrefix llmqType <+: minedHeightKey llmqType height := by
  rw [minedHeightKey_eq htype h]
  exact prefix_append _ _

theorem get_minedHeightKey :
    heightKey.get (minedHeightKey llmqType height) =
      some ((dbMinedCommitmentByInversedHeight, llmqType, htobe32 (inversed height)), []) := by
  have hvalid : heightKey.Valid
      (dbMinedCommitmentByInversedHeight, llmqType, htobe32 (inversed height)) := by
    refine ⟨string_valid (by show 6 < 253; decide), ?_, ?_⟩
    · show llmqType < 256 ^ 1
      omega
    · exact htobe32_lt _
  have hget := heightKey.get_put _ [] hvalid
  rw [append_nil] at hget
  rw [minedHeightKey, buildInversedHeightKey_eq llmqType h, hget]

end

theorem minedHeightKey_inj {height' : Nat} (htype : llmqType < 256)
    (htype' : llmqType' < 256) (h : height < 2 ^ 31) (h' : height' < 2 ^ 31)
    (heq : minedHeightKey llmqType height = minedHeightKey llmqType' height') :
    llmqType = llmqType' ∧ height = height' := by
  have hget := get_minedHeightKey htype h
  rw [heq, get_minedHeightKey htype' h'] at hget
  obtain ⟨htypes, hheights⟩ : llmqType' = llmqType ∧
      htobe32 (inversed height') = htobe32 (inversed height) := by
    simpa using hget
  refine ⟨htypes.symm, ?_⟩
  have hinversed := congrArg htobe32 hheights
  rw [htobe32_htobe32 (inversed_lt _), htobe32_htobe32 (inversed_lt _)] at hinversed
  unfold inversed uint32Max at hinversed
  omega

/-- What reads as a key of the type begins like one. -/
theorem heightPrefix_of_get {ssKey rest : CDataStream} {curKey : HeightKey}
    (h : heightKey.get ssKey = some (curKey, rest))
    (hname : curKey.1 = dbMinedCommitmentByInversedHeight) : heightPrefix curKey.2.1 <+: ssKey := by
  obtain ⟨bs, hstring, hrest⟩ := exists_of_prod_get _ h
  obtain ⟨bs', htype, -⟩ := exists_of_prod_get _ hrest
  rw [hname] at hstring
  rw [string_get hstring (by decide), heightPrefix, prefix_append_right_inj]
  cases bs with
  | nil => cases htype
  | cons b bs =>
    have hbyte : b.toNat + 256 * 0 = curKey.2.1 := (mk.inj (some.inj htype)).1
    rw [← hbyte, mul_zero, add_zero, UInt8.ofNat_toNat]
    exact ⟨bs, rfl⟩

/-! ### Families -/

theorem minedCommitmentKey_eq (llmqType) (quorumHash : Uint256) :
    minedCommitmentKey llmqType quorumHash =
      string.put dbMinedCommitment ++ (putLE 1 llmqType ++ putLE 32 quorumHash) := rfl

theorem minedCommitmentKey_inj {quorumHash quorumHash' : Uint256}
    (htype : llmqType < 256) (htype' : llmqType' < 256) (hhash : quorumHash < 2 ^ 256)
    (hhash' : quorumHash' < 2 ^ 256)
    (heq : minedCommitmentKey llmqType quorumHash = minedCommitmentKey llmqType' quorumHash') :
    llmqType = llmqType' ∧ quorumHash = quorumHash' := by
  have hvalid : ∀ {t : Nat} {h : Uint256}, t < 256 → h < 2 ^ 256 →
      (string.prod ((uintLE 1).prod Format.uint256)).Valid (dbMinedCommitment, t, h) := by
    intro t h ht hh
    refine ⟨string_valid (by show 4 < 253; decide), ?_, ?_⟩
    · show t < 256 ^ 1
      omega
    · show h < 256 ^ 32
      omega
  simpa using put_inj _ (hvalid htype hhash) (hvalid htype' hhash') heq

theorem minedCommitmentKey_ne_minedHeightKey (llmqType llmqType' height) (quorumHash : Uint256) :
    minedCommitmentKey llmqType quorumHash ≠ minedHeightKey llmqType' height := by
  intro heq
  have hhead := congrArg List.head? heq
  have hhead : some (4 : UInt8) = some 6 := hhead
  cases hhead

theorem not_heightPrefix_minedCommitmentKey (llmqType) (quorumHash : Uint256) :
    ¬ string.put dbMinedCommitmentByInversedHeight <+: minedCommitmentKey llmqType quorumHash := by
  rintro ⟨rest, heq⟩
  have hhead := congrArg List.head? heq
  have hhead : some (6 : UInt8) = some 4 := hhead
  cases hhead

theorem namePrefix_minedHeightKey (llmqType height) :
    string.put dbMinedCommitmentByInversedHeight <+: minedHeightKey llmqType height :=
  prefix_append _ _

end BlockProcessorKeys

open BlockProcessorKeys

variable {ssKey : CDataStream}

theorem othersKey_bestBlockUpgradeKey : OthersKey bestBlockUpgradeKey := by
  decide

theorem OthersKey.ne_minedCommitmentKey (h : OthersKey ssKey) (llmqType : Nat)
    (quorumHash : Uint256) : minedCommitmentKey llmqType quorumHash ≠ ssKey := by
  intro heq
  refine h _ mem_cons_self ?_
  rw [← heq, minedCommitmentKey_eq]
  exact prefix_append _ _

theorem OthersKey.not_heightPrefix (h : OthersKey ssKey) :
    ¬ string.put dbMinedCommitmentByInversedHeight <+: ssKey :=
  h _ (mem_cons_of_mem _ mem_cons_self)

theorem OthersKey.ne_minedHeightKey (h : OthersKey ssKey) (llmqType height : Nat) :
    minedHeightKey llmqType height ≠ ssKey := by
  intro heq
  refine h.not_heightPrefix ?_
  rw [← heq]
  exact namePrefix_minedHeightKey llmqType height

end Absolute
