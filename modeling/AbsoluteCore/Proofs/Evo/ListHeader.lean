/-
The header of a list: its block hash and its height.

Every operation on the masternodes of a list leaves its header alone, whatever the state
of the list, so the list of a block has the height it was given before the first of them.
-/
import AbsoluteCore.Evo.DeterministicMNManager
import AbsoluteCore.Proofs.Evo.ListIndex

namespace Absolute

open CDeterministicMNList Fallible

/-- The two lists have the same block hash and height. -/
def SameHeader (l l' : CDeterministicMNList) : Prop :=
  l'.blockHash = l.blockHash ∧ l'.nHeight = l.nHeight

/-- If the computation returns a list, it has the header of `l`. -/
def KeepsHeader (l : CDeterministicMNList) (x : Except Fail CDeterministicMNList) : Prop :=
  ∀ l', x = .ok l' → SameHeader l l'

namespace KeepsHeader

variable {α : Type} {l l' : CDeterministicMNList} {x : Except Fail CDeterministicMNList}
  {f : CDeterministicMNList → Except Fail CDeterministicMNList}

theorem ok (h : SameHeader l l') : KeepsHeader l (.ok l') := by
  intro l1 heq
  rw [← Except.ok.inj heq]
  exact h

theorem refl (l) : KeepsHeader l (.ok l) := ok ⟨rfl, rfl⟩

theorem error (e : Fail) : KeepsHeader l (.error e) := by
  intro l' h
  simp at h

theorem bind (hx : KeepsHeader l x) (hf : ∀ l1, KeepsHeader l1 (f l1)) :
    KeepsHeader l (x >>= f) := by
  intro l' h
  obtain ⟨l1, h1, h2⟩ := bind_eq_ok.mp h
  obtain ⟨hhash, hheight⟩ := hx l1 h1
  obtain ⟨hhash', hheight'⟩ := hf l1 l' h2
  exact ⟨hhash'.trans hhash, hheight'.trans hheight⟩

/-- A first half that computes no list decides only whether there is a result. -/
theorem guard {y : Except Fail α} {g : α → Except Fail CDeterministicMNList}
    (hg : ∀ a, KeepsHeader l (g a)) : KeepsHeader l (y >>= g) := by
  intro l' h
  obtain ⟨a, -, h2⟩ := bind_eq_ok.mp h
  exact hg a l' h2

theorem ite {c : Prop} [Decidable c] {y : Except Fail CDeterministicMNList}
    (hx : KeepsHeader l x) (hy : KeepsHeader l y) : KeepsHeader l (if c then x else y) := by
  split
  · exact hx
  · exact hy

/-- Operations that start from a copy of the list with other maps. -/
theorem of_same (h : SameHeader l l') (hx : KeepsHeader l' x) : KeepsHeader l x := by
  intro l1 heq
  obtain ⟨hhash, hheight⟩ := hx l1 heq
  exact ⟨hhash.trans h.1, hheight.trans h.2⟩

theorem foldlM {g : CDeterministicMNList → α → Except Fail CDeterministicMNList}
    (hg : ∀ l a, KeepsHeader l (g l a)) (xs : List α) (l) : KeepsHeader l (xs.foldlM g l) := by
  induction xs generalizing l with
  | nil => exact refl l
  | cons a rest ih => exact (hg l a).bind ih

end KeepsHeader

section List

variable (serializeHash : UniqueProperty → Uint256) (l : CDeterministicMNList)
  (dmn : CDeterministicMN) {s : CDeterministicMNState}

theorem keepsHeader_addMN : KeepsHeader l (l.addMN serializeHash dmn) := by
  intro l' hok
  obtain ⟨m, rfl⟩ := addMN_reindexed hok
  exact ⟨rfl, rfl⟩

theorem keepsHeader_updateMNState (s) : KeepsHeader l (l.updateMNState serializeHash dmn s) := by
  intro l' hok
  obtain ⟨m, rfl⟩ := updateMNState_reindexed hok
  exact ⟨rfl, rfl⟩

theorem keepsHeader_updateMN (proTxHash : Uint256) (s) :
    KeepsHeader l (l.updateMN serializeHash proTxHash s) := by
  unfold updateMN
  split
  · exact .error _
  · exact keepsHeader_updateMNState serializeHash l _ s

theorem keepsHeader_removeMN (proTxHash : Uint256) :
    KeepsHeader l (l.removeMN serializeHash proTxHash) := by
  intro l' hok
  obtain ⟨dmn, hget⟩ := removeMN_present hok
  obtain ⟨m, rfl⟩ := removeMN_reindexed hget hok
  exact ⟨rfl, rfl⟩

theorem header_applyDiff {pindex : CBlockIndex} {diff : CDeterministicMNListDiff}
    {l' : CDeterministicMNList} (h : l.applyDiff serializeHash pindex diff = .ok l') :
    l'.blockHash = pindex.getBlockHash ∧ l'.nHeight = pindex.nHeight := by
  have hremoved : ∀ l id, KeepsHeader l (applyRemoved serializeHash l id) := by
    intro l id
    unfold applyRemoved
    split
    · exact .error _
    · exact keepsHeader_removeMN serializeHash l _
  have hadded : ∀ l dmn, KeepsHeader l (applyAdded serializeHash l dmn) := fun l dmn =>
    .guard fun _ => .bind (keepsHeader_addMN serializeHash l dmn) fun _ => .ok ⟨rfl, rfl⟩
  have hupdated : ∀ l p, KeepsHeader l (applyUpdated serializeHash l p) := by
    intro l p
    unfold applyUpdated updateMNDiff
    split
    · exact .error _
    · exact keepsHeader_updateMNState serializeHash l _ _
  have hloops := KeepsHeader.bind (.foldlM hremoved diff.removedMns.toList
      { l with blockHash := pindex.getBlockHash, nHeight := pindex.nHeight })
    fun l1 => .bind (.foldlM hadded diff.addedMNs l1)
      fun l2 => .foldlM hupdated diff.updatedMNs.toList l2
  exact hloops l' h

end List

section Block

variable (env : Env) (lists : CBlockIndex → CDeterministicMNList) (l : CDeterministicMNList)
  (pindexPrev : CBlockIndex) {tx : CTransaction}

theorem keepsHeader_poSePunish (proTxHash : Uint256) (penalty : Int) :
    KeepsHeader l (l.poSePunish env.serializeHash proTxHash penalty) := by
  refine .guard fun _ => ?_
  split
  · exact .error _
  · exact keepsHeader_updateMN env.serializeHash l _ _

theorem keepsHeader_poSeDecrease (proTxHash : Uint256) :
    KeepsHeader l (l.poSeDecrease env.serializeHash proTxHash) := by
  unfold poSeDecrease
  split
  · exact .error _
  · exact .guard fun _ => keepsHeader_updateMN env.serializeHash l _ _

theorem keepsHeader_processProRegTx (nHeight : Int) (tx) :
    KeepsHeader l (processProRegTx env pindexPrev nHeight l tx) := by
  refine .guard fun proTx => ?_
  have hcount : SameHeader l (l.setTotalRegisteredCount (l.nTotalRegisteredCount + 1)) := ⟨rfl, rfl⟩
  refine .guard fun _ => .of_same hcount (.bind ?_ fun l1 => ?_)
  · unfold removeReplaced
    split
    · exact keepsHeader_removeMN env.serializeHash _ _
    · exact .refl _
  · exact .guard fun _ => .guard fun _ => keepsHeader_addMN env.serializeHash l1 _

theorem keepsHeader_processCommitment (tx) :
    KeepsHeader l (processCommitment env lists pindexPrev l tx) := by
  have hmember : ∀ l p, KeepsHeader l (punishMember env l p) := fun l p =>
    .ite (.guard fun _ => keepsHeader_poSePunish env l _ _) (.refl l)
  refine .guard fun qc => .ite (.refl l) (.guard fun _ => .guard fun _ => .guard fun _ => ?_)
  exact .guard fun _ => .guard fun _ => .foldlM hmember _ l

theorem keepsHeader_processTx (tx) : KeepsHeader l (processTx env lists pindexPrev l tx) := by
  have hupdate := keepsHeader_updateMN env.serializeHash l
  refine .ite (.refl l) ?_
  split
  · exact keepsHeader_processProRegTx env l _ _ tx
  · exact .guard fun _ => .guard fun _ => .guard fun _ => hupdate _ _
  · exact .guard fun _ => .guard fun _ => hupdate _ _
  · exact .guard fun _ => .guard fun _ => hupdate _ _
  · exact keepsHeader_processCommitment env lists l _ tx
  · exact .refl l

theorem keepsHeader_confirmMN (dmn : CDeterministicMN) :
    KeepsHeader l (confirmMN env pindexPrev l dmn) :=
  .ite (keepsHeader_updateMN env.serializeHash l _ _) (.refl l)

theorem keepsHeader_spendCollateral (prevout : COutPoint) :
    KeepsHeader l (spendCollateral env l prevout) := by
  unfold spendCollateral
  split
  · exact .ite (keepsHeader_removeMN env.serializeHash l _) (.refl l)
  · exact .refl l

theorem keepsHeader_payMN (nHeight : Int) (payee : Option CDeterministicMN) :
    KeepsHeader l (payMN env nHeight payee l) := by
  unfold payMN
  split
  · exact .refl l
  · split
    · exact .refl l
    · exact keepsHeader_updateMN env.serializeHash l _ _

theorem keepsHeader_listAfter (pindexPrev : CBlockIndex) (txs : List CTransaction) :
    KeepsHeader { lists pindexPrev with blockHash := 0, nHeight := pindexPrev.nHeight + 1 }
      (listAfter env lists pindexPrev txs) :=
  .bind
    (.bind (.foldlM (keepsHeader_confirmMN env · pindexPrev ·) _ _)
      fun l => .foldlM (keepsHeader_poSeDecrease env) _ l)
    fun l => .foldlM (keepsHeader_processTx env lists · pindexPrev ·) txs l

/-- **The list built for a block has the height of the block**, whatever the lists before it. -/
theorem height_buildNewListFromBlock {block : CBlock} {pindexPrev : CBlockIndex}
    {l' : CDeterministicMNList} (h : buildNewListFromBlock env lists block pindexPrev = .ok l') :
    l'.nHeight = pindexPrev.nHeight + 1 := by
  have hbuild := (keepsHeader_listAfter env lists pindexPrev block.vtx.tail).bind fun l =>
    .bind (.foldlM (keepsHeader_spendCollateral env) (spentOutpoints block.vtx.tail) l)
      fun l => keepsHeader_payMN env l (pindexPrev.nHeight + 1) (lists pindexPrev).getMNPayee
  exact (hbuild l' h).2

end Block

end Absolute
