/-
`GetMinedCommitmentsUntilBlock` goes through the commitments of a type from the newest to the oldest.

The iterator starts at the entry for the height of the block.  The entries of the type from there on
are those of lower heights, the highest first, and they stand together, so the loop passes them and
leaves at the first key of another kind.
-/
import AbsoluteCore.Proofs.Llmq.BlockProcessor

namespace Absolute

open BlockProcessorKeys CQuorumBlockProcessor List Option Nat Std.OrientedCmp Overlay

variable {qe : QuorumEnv} {genesis : Uint256} {chain above below : List CBlock} {llmqType : Nat}
variable {height : Nat} {s : CQuorumBlockProcessor} {qc : CFinalCommitment}
  {tail : List CDataStream} {pindex : CBlockIndex}

/-! ### The commitments of a type, by height -/

/-- The heights at which a chain has mined commitments of the type, with the commitments, the newest
first. -/
def minedList (qe : QuorumEnv) (llmqType : Nat) : List CBlock → List (Nat × CFinalCommitment)
  | [] => []
  | b :: rest =>
    ((minedIn qe llmqType (rest.length + 1) b).map fun qc => (rest.length + 1, qc)).toList ++
      minedList qe llmqType rest

theorem quorumsMined_eq_map (chain) :
    quorumsMined qe llmqType chain = (minedList qe llmqType chain).map fun p => p.2.quorumHash := by
  induction chain with
  | nil => rfl
  | cons b rest ih =>
    rw [quorumsMined, minedList, map_append, ih]
    cases minedIn qe llmqType (rest.length + 1) b <;> rfl

theorem mem_minedList : (height, qc) ∈ minedList qe llmqType chain ↔
      ∃ b, blockAt height chain = some b ∧ minedIn qe llmqType height b = some qc := by
  induction chain with
  | nil => simp [minedList, blockAt]
  | cons b rest ih =>
    rw [minedList, mem_append, ih, mem_toList, map_eq_some_iff, blockAt]
    constructor
    · intro h
      rcases h with ⟨c, hmined, heq⟩ | ⟨c, hat, hmined⟩
      · obtain ⟨rfl, rfl⟩ := Prod.mk.inj heq
        exact ⟨b, if_pos rfl, hmined⟩
      · have hle := le_length_of_blockAt hat
        exact ⟨c, by rw [if_neg (by omega), hat], hmined⟩
    · rintro ⟨c, hat, hmined⟩
      split_ifs at hat with hheight
      · obtain rfl := some.inj hat
        subst hheight
        exact .inl ⟨qc, hmined, rfl⟩
      · exact .inr ⟨c, hat, hmined⟩

theorem height_le_of_mem_minedList {p : Nat × CFinalCommitment}
    (h : p ∈ minedList qe llmqType chain) : p.1 ≤ chain.length := by
  obtain ⟨b, hat, -⟩ := mem_minedList.mp h
  exact le_length_of_blockAt hat

theorem height_pos_of_blockAt {b : CBlock} (h : blockAt height chain = some b) : 0 < height := by
  obtain ⟨-, rest, -, hheight⟩ := exists_split_of_blockAt h
  omega

theorem pairwise_minedList (chain) :
    (minedList qe llmqType chain).Pairwise fun p q => q.1 < p.1 := by
  induction chain with
  | nil => exact .nil
  | cons b rest ih =>
    rw [minedList]
    cases minedIn qe llmqType (rest.length + 1) b with
    | none => exact ih
    | some qc =>
      refine pairwise_cons.mpr ⟨?_, ih⟩
      intro p hp
      exact lt_succ_of_le (height_le_of_mem_minedList hp)

theorem blockAt_append_of_le (h : height ≤ below.length) :
    blockAt height (above ++ below) = blockAt height below := by
  induction above with
  | nil => rfl
  | cons b above ih =>
    rw [cons_append, blockAt_cons_of_le, ih]
    rw [length_append]
    omega

/-! ### The keys the iterator visits -/

theorem eq_of_heightPrefix {llmqType' : Nat} (htype : llmqType < 256) (htype' : llmqType' < 256)
    (hheight : height < 2 ^ 31) (h : heightPrefix llmqType <+: minedHeightKey llmqType' height) :
    llmqType = llmqType' := by
  rw [minedHeightKey_eq htype' hheight] at h
  have hlength : (heightPrefix llmqType).length = (heightPrefix llmqType').length := by
    simp [heightPrefix]
  have heq : heightPrefix llmqType = heightPrefix llmqType' :=
    (prefix_of_prefix_length_le h (prefix_append _ _) hlength.le).eq_of_length hlength
  have hbyte := append_cancel_left heq
  have hbyte : UInt8.ofNat llmqType = UInt8.ofNat llmqType' := (List.cons.inj hbyte).1
  have hnat := congrArg UInt8.toNat hbyte
  rwa [← mod_eq_of_lt htype, ← mod_eq_of_lt htype', Codec.toNat_ofNat_mod,
    Codec.toNat_ofNat_mod, mod_eq_of_lt htype, mod_eq_of_lt htype'] at hnat

/-- The entries of the chain from a block down come first, and no entry of the type after them. -/
theorem visits_split {read : CDataStream → Option EvoValue} (hholds : Holds qe (above ++ below) read)
    (hlength : (above ++ below).length < 2 ^ 31)
    (hstored : ∀ p ∈ minedList qe llmqType below, (read (minedHeightKey llmqType p.1)).isSome)
    (htype : llmqType < 256) {keys : List CDataStream}
    (hvisits : CDBTransaction.Visits read (minedHeightKey llmqType below.length) keys) :
    ∃ tail, keys = (minedList qe llmqType below).map (fun p => minedHeightKey llmqType p.1) ++ tail ∧
      ∀ k ∈ tail, ¬ heightPrefix llmqType <+: k := by
  have hbelow : below.length < 2 ^ 31 := by
    rw [length_append] at hlength
    omega
  have hrange : ∀ p ∈ minedList qe llmqType below, p.1 < 2 ^ 31 := by
    intro p hp
    have hle := height_le_of_mem_minedList hp
    omega
  refine ⟨keys.filter fun k => ¬ heightPrefix llmqType <+: k, ?_, ?_⟩
  swap
  · intro k hk
    simpa using (mem_filter.mp hk).2
  refine hvisits.inOrder.eq_of_mem_iff (pairwise_append.mpr ⟨?_, ?_, ?_⟩) ?_
  · -- Higher blocks have smaller keys.
    refine pairwise_map.mpr ((pairwise_minedList below).imp_of_mem ?_)
    intro p q hp hq hlt
    rw [compare_minedHeightKey htype (hrange p hp) (hrange q hq)]
    exact Nat.compare_eq_lt.mpr hlt
  · exact hvisits.inOrder.filter _
  · intro f hf k hk
    obtain ⟨p, hp, rfl⟩ := mem_map.mp hf
    obtain ⟨hk, hnot⟩ := mem_filter.mp hk
    have hnot : ¬ heightPrefix llmqType <+: k := by simpa using hnot
    have hge : compare (minedHeightKey llmqType below.length) k ≠ .gt := by
      intro hgt
      have hless := ((hvisits.mem_iff k).mp hk).2
      rw [less, gt_iff_lt.mp hgt] at hless
      cases hless
    -- A key between two keys of the type would begin like them.
    cases hcmp : compare (minedHeightKey llmqType p.1) k with
    | lt => rfl
    | eq =>
      rw [← Std.LawfulEqCmp.eq_of_compare hcmp] at hnot
      exact absurd (heightPrefix_isPrefix htype (hrange p hp)) hnot
    | gt =>
      refine absurd (ByteOrder.isPrefix_of_between (heightPrefix_isPrefix htype hbelow)
        (heightPrefix_isPrefix htype (hrange p hp)) hge ?_) hnot
      rw [gt_iff_lt.mp hcmp]
      decide
  · intro k
    rw [mem_append, mem_filter]
    constructor
    · intro hk
      by_cases hprefix : heightPrefix llmqType <+: k
      · obtain ⟨hsome, hless⟩ := (hvisits.mem_iff k).mp hk
        have hname : string.put dbMinedCommitmentByInversedHeight <+: k :=
          (prefix_append _ _).trans hprefix
        obtain ⟨llmqType', height, htype', hheight, rfl⟩ := hholds.only k hname hsome
        obtain rfl := eq_of_heightPrefix htype htype' hheight hprefix
        rw [hholds.height llmqType height htype hheight, heightEntry] at hsome
        obtain ⟨v, hv⟩ := isSome_iff_exists.mp hsome
        obtain ⟨b, hat, hv⟩ := bind_eq_some_iff.mp hv
        obtain ⟨qc, hmined, -⟩ := bind_eq_some_iff.mp hv
        have hle : height ≤ below.length := by
          rw [less, compare_minedHeightKey htype hheight hbelow] at hless
          by_contra hlt
          rw [Nat.compare_eq_lt.mpr (by omega)] at hless
          cases hless
        rw [blockAt_append_of_le hle] at hat
        exact .inl (mem_map.mpr ⟨(height, qc), mem_minedList.mpr ⟨b, hat, hmined⟩, rfl⟩)
      · exact .inr ⟨hk, by simpa using hprefix⟩
    · intro h
      rcases h with h | h
      · obtain ⟨p, hp, rfl⟩ := mem_map.mp h
        refine (hvisits.mem_iff _).mpr ⟨hstored p hp, ?_⟩
        have hle := height_le_of_mem_minedList hp
        rw [less, compare_minedHeightKey htype (hrange p hp) hbelow]
        rcases lt_or_eq_of_le hle with hlt | heq
        · rw [Nat.compare_eq_gt.mpr hlt]
          rfl
        · rw [heq, Nat.compare_eq_eq.mpr rfl]
          rfl
      · exact h.1

/-! ### The loop -/

theorem lt_lastKey (hpos : 0 < height) (hlt : height < 2 ^ 31) :
    HeightKey.lt (dbMinedCommitmentByInversedHeight, llmqType, htobe32 (inversed height))
      (buildInversedHeightKey llmqType 0) = true := by
  have hlast : buildInversedHeightKey llmqType 0 =
      (dbMinedCommitmentByInversedHeight, llmqType, 2 ^ 32 - 1) := rfl
  have hne : htobe32 (inversed height) ≠ 2 ^ 32 - 1 := by
    intro heq
    have hback := congrArg htobe32 heq
    rw [htobe32_htobe32 (inversed_lt height)] at hback
    have hback : inversed height = 2 ^ 32 - 1 := hback
    unfold inversed uint32Max at hback
    omega
  have hlt := htobe32_lt (inversed height)
  rw [hlast, HeightKey.lt]
  simp only [decide_true, lt_irrefl, decide_false, Bool.false_or, Bool.true_and, Bool.or_eq_true,
    decide_eq_true_eq]
  omega

theorem minedCommitmentsLoop_tail
    (htail : ∀ k ∈ tail, ¬ heightPrefix llmqType <+: k) (count : Nat) :
    minedCommitmentsLoop llmqType pindex s count tail = .ok [] := by
  cases count with
  | zero => rfl
  | succ count =>
    cases tail with
    | nil => rfl
    | cons k tail =>
      rw [minedCommitmentsLoop]
      split
      · rfl
      · next curKey rest hget =>
          -- A key that reads as one of the type begins like one.
          have hother : curKey.1 ≠ dbMinedCommitmentByInversedHeight ∨
              curKey.2.1 ≠ llmqType := by
            by_contra hsame
            push Not at hsame
            have hbegins := heightPrefix_of_get hget hsame.1
            rw [hsame.2] at hbegins
            exact htail k mem_cons_self hbegins
          split_ifs
          · rfl
          · rfl

theorem minedCommitmentsLoop_eq (htype : llmqType < 256)
    {quorumIndex : CFinalCommitment → CBlockIndex} {entries : List (Nat × CFinalCommitment)}
    (hentries : ∀ p ∈ entries, 0 < p.1 ∧ p.1 < 2 ^ 31 ∧ (p.1 : Int) ≤ pindex.nHeight ∧
      ∃ quorumHeight, s.evoDb.read (minedHeightKey llmqType p.1) = some (.quorumHeight quorumHeight) ∧
        pindex.getAncestor quorumHeight = some (quorumIndex p.2))
    (htail : ∀ k ∈ tail, ¬ heightPrefix llmqType <+: k) (count : Nat) :
    minedCommitmentsLoop llmqType pindex s count
        (entries.map (fun p => minedHeightKey llmqType p.1) ++ tail) =
      .ok ((entries.take count).map fun p => quorumIndex p.2) := by
  induction entries generalizing count with
  | nil =>
    rw [map_nil, nil_append, take_nil, map_nil]
    exact minedCommitmentsLoop_tail htail count
  | cons p entries ih =>
    cases count with
    | zero => rfl
    | succ count =>
      obtain ⟨hpos, hlt, hle, quorumHeight, hread, hancestor⟩ := hentries p mem_cons_self
      have hheight : uint32Max - htobe32 (htobe32 (inversed p.1)) = p.1 := by
        rw [htobe32_htobe32 (inversed_lt p.1)]
        unfold inversed uint32Max
        omega
      rw [map_cons, cons_append, minedCommitmentsLoop]
      rw [get_minedHeightKey htype hlt]
      dsimp only
      rw [lt_lastKey hpos hlt, if_neg (by simp), if_neg (by simp), hheight, if_neg (by omega),
        hread]
      dsimp only
      rw [hancestor, ih fun q hq => hentries q (mem_cons_of_mem _ hq)]
      rfl

/-! ### The query -/

def quorumIndex (qe : QuorumEnv) (qc : CFinalCommitment) : CBlockIndex :=
  (qe.env.mapBlockIndex qc.quorumHash).getD (.genesis 0)

/-- A mined commitment has its quorum on the chain. -/
theorem quorumIndex_spec (hknown : (indexOf genesis chain).Known qe.env)
    (hrules : FollowsRules qe genesis chain) (hqc : (height, qc) ∈ minedList qe llmqType chain) :
    qe.env.mapBlockIndex qc.quorumHash = some (quorumIndex qe qc) ∧
      (quorumIndex qe qc).OnChain (indexOf genesis chain) ∧
      (quorumIndex qe qc).getBlockHash = qc.quorumHash := by
  obtain ⟨b, hat, hmined⟩ := mem_minedList.mp hqc
  obtain ⟨hactive, hcarried, -⟩ := mem_commitments_of_minedIn hmined
  obtain ⟨params, -, -, base, hbase, hhash⟩ :=
    hrules.exists_quorum hat hactive (mem_carried.mp hcarried).1
  have hon := CBlockIndex.onChain_of_getAncestor hbase
  rw [quorumIndex, hhash, (hknown.onChain hon).mapBlockIndex]
  exact ⟨rfl, hon, rfl⟩

/-- The commitments of the type that the chain up to a block has mined, the newest first. -/
theorem getMinedCommitmentsUntilBlock_eq {e : CEvoDB EvoValue}
    (hwithin : e.Within qe.getSerializeSize s.evoDb)
    (hknown : (indexOf genesis below).Known qe.env) (hrules : FollowsRules qe genesis below)
    (hlength : (above ++ below).length < 2 ^ 31)
    (hholds : Holds qe (above ++ below) s.evoDb.read) (htype : llmqType < 256) (maxCount : Nat) :
    s.getMinedCommitmentsUntilBlock llmqType (indexOf genesis below) maxCount =
      .ok (((minedList qe llmqType below).take maxCount).map fun p => quorumIndex qe p.2) := by
  have hnHeight := nHeight_indexOf genesis below
  have hbelow : below.length < 2 ^ 31 := by
    rw [length_append] at hlength
    omega
  have hread : ∀ p ∈ minedList qe llmqType below, s.evoDb.read (minedHeightKey llmqType p.1) =
      some (.quorumHeight (quorumIndex qe p.2).nHeight) := by
    intro p hp
    obtain ⟨hindex, -⟩ := quorumIndex_spec hknown hrules hp
    obtain ⟨b, hat, hmined⟩ := mem_minedList.mp hp
    have hle := height_le_of_mem_minedList hp
    rw [hholds.height llmqType p.1 htype (by omega), heightEntry, blockAt_append_of_le hle, hat]
    show ((minedIn qe llmqType p.1 b).bind fun qc => (qe.env.mapBlockIndex qc.quorumHash).bind
      fun quorumIndex => some (EvoValue.quorumHeight quorumIndex.nHeight)) = _
    rw [hmined, bind_some, hindex]
    rfl
  obtain ⟨tail, hkeys, htail⟩ := visits_split hholds hlength
    (fun p hp => by rw [hread p hp]; rfl) htype
    (hwithin.visits (minedHeightKey llmqType below.length))
  unfold getMinedCommitmentsUntilBlock
  rw [hnHeight]
  show minedCommitmentsLoop llmqType _ s maxCount
    (s.evoDb.iterate (minedHeightKey llmqType below.length)) = _
  rw [hkeys]
  refine minedCommitmentsLoop_eq htype ?_ htail maxCount
  intro p hp
  obtain ⟨-, hon, -⟩ := quorumIndex_spec hknown hrules hp
  obtain ⟨b, hat, -⟩ := mem_minedList.mp hp
  have hle := height_le_of_mem_minedList hp
  exact ⟨height_pos_of_blockAt hat, by omega, by omega, _, hread p hp, hon.getAncestor_nHeight⟩

end Absolute
