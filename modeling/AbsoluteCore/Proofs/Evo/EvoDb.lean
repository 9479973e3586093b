/-
The database under its two layers is one map.

A layer is an overlay, so reading through it, writing to it and committing it are those of the
overlay, and what is to be shown of `CDBTransaction` itself is that its two maps change like one and
that its counter is right.  The same lemma on `Commit` serves both layers: the one commits to a
layer, the other to a batch.
-/
import AbsoluteCore.Lib.Fallible
import AbsoluteCore.Spec.EvoDb

namespace Absolute

open Std List Function Except ExtTreeMap Fallible MapTotal Overlay CDBTransaction MapBatch Option
  EvoState

variable {V : Type} {getSerializeSize : V → Nat}

/-! ### One layer -/

namespace CDBTransaction

variable {t : CDBTransaction V} {k : CDataStream}

theorem write_writes (t : CDBTransaction V) (k : CDataStream) (v : V) :
    (t.write getSerializeSize k v).writes = t.writes.insert k ⟨getSerializeSize v, v⟩ := by
  unfold write
  dsimp only
  split <;> split_ifs <;> rfl

theorem write_deletes (t : CDBTransaction V) (k : CDataStream) (v : V) :
    (t.write getSerializeSize k v).deletes = t.deletes.erase k := by
  unfold write
  dsimp only
  by_cases hk : k ∈ t.deletes
  · rw [if_pos hk]
    split <;> rfl
  · rw [if_neg hk, erase_of_getElem? (getElem?_eq_none hk)]
    split <;> rfl

theorem erase_writes (t : CDBTransaction V) (k : CDataStream) :
    (t.erase k).writes = t.writes.erase k := by
  unfold erase
  cases hk : t.writes[k]? with
  | some holder =>
    dsimp only
    split_ifs <;> rfl
  | none =>
    rw [erase_of_getElem? hk]
    dsimp only
    split_ifs <;> rfl

theorem insert_of_mem {deletes : StreamMap Unit} (hk : k ∈ deletes) :
    deletes.insert k () = deletes := by
  refine ext_getElem? fun j => ?_
  rw [ExtTreeMap.getElem?_insert]
  split_ifs with hj
  · obtain rfl := LawfulEqCmp.eq_of_compare hj
    rw [getElem?_eq_some_getElem hk]
  · rfl

theorem erase_deletes (t : CDBTransaction V) (k : CDataStream) :
    (t.erase k).deletes = t.deletes.insert k () := by
  unfold erase
  by_cases hk : k ∈ t.deletes
  · rw [insert_of_mem hk]
    cases t.writes[k]? <;> dsimp only <;> rw [if_pos hk]
  · cases t.writes[k]? <;> dsimp only <;> rw [if_neg hk]

/-- The new values of a layer. -/
def pending (t : CDBTransaction V) (k : CDataStream) : Option V :=
  (t.writes[k]?).map ValueHolder.value

def deleted (t : CDBTransaction V) (k : CDataStream) : Bool := t.deletes.contains k

theorem deleted_iff : t.deleted k = true ↔ k ∈ t.deletes :=
  contains_iff_mem

theorem read_eq_view (parent : CDataStream → Option V) (t : CDBTransaction V) :
    t.read parent = view parent t.pending t.deleted := by
  funext k
  simp only [read, view, deleted_iff, pending]
  split_ifs
  · rfl
  · cases t.writes[k]? <;> rfl

theorem deleted_eq (t : CDBTransaction V) : t.deleted = fun k => (t.deletes[k]?).isSome :=
  funext fun _ => contains_eq_isSome_getElem?

theorem pending_write (t : CDBTransaction V) (k : CDataStream) (v : V) :
    (t.write getSerializeSize k v).pending = update t.pending k (some v) := by
  unfold pending
  rw [write_writes]
  exact comp_insert (Option.map ValueHolder.value) t.writes k _

theorem deleted_write (t : CDBTransaction V) (k : CDataStream) (v : V) :
    (t.write getSerializeSize k v).deleted = update t.deleted k false := by
  rw [deleted_eq, deleted_eq, write_deletes]
  exact comp_erase isSome t.deletes k

theorem pending_erase (t : CDBTransaction V) (k : CDataStream) :
    (t.erase k).pending = update t.pending k none := by
  unfold pending
  rw [erase_writes]
  exact comp_erase (Option.map ValueHolder.value) t.writes k

theorem deleted_erase (t : CDBTransaction V) (k : CDataStream) :
    (t.erase k).deleted = update t.deleted k true := by
  rw [deleted_eq, deleted_eq, erase_deletes]
  exact comp_insert isSome t.deletes k ()

/-! ### Reading -/

variable (parent : CDataStream → Option V)

theorem read_write (t : CDBTransaction V) (k : CDataStream) (v : V) :
    (t.write getSerializeSize k v).read parent = update (t.read parent) k (some v) := by
  rw [read_eq_view, read_eq_view, pending_write, deleted_write, view_write]

theorem read_erase (t : CDBTransaction V) (k : CDataStream) :
    (t.erase k).read parent = update (t.read parent) k none := by
  rw [read_eq_view, read_eq_view, pending_erase, deleted_erase, view_erase]

theorem read_clear (t : CDBTransaction V) : t.clear.read parent = parent := by
  have hpending : t.clear.pending = fun _ => none := rfl
  have hdeleted : t.clear.deleted = fun _ => false := rfl
  rw [read_eq_view, hpending, hdeleted, view_clean]

theorem existsKey_eq_isSome {parentHas : CDataStream → Bool}
    (hparent : ∀ k, parentHas k = (parent k).isSome) (t : CDBTransaction V) (k : CDataStream) :
    t.existsKey parentHas k = (t.read parent k).isSome := by
  unfold existsKey read
  by_cases hdeleted : k ∈ t.deletes
  · rw [if_pos hdeleted, if_pos hdeleted]
    rfl
  · rw [if_neg hdeleted, if_neg hdeleted]
    cases hk : t.writes[k]? with
    | some holder =>
      rw [if_pos (mem_iff_isSome_getElem?.mpr (by rw [hk]; rfl))]
      rfl
    | none =>
      have hnot : k ∉ t.writes := by
        rw [mem_iff_isSome_getElem?, hk]
        exact Bool.false_ne_true
      rw [if_neg hnot, hparent]

/-! ### The bookkeeping -/

theorem WellKept.clear (t : CDBTransaction V) : t.clear.WellKept getSerializeSize where
  disjoint _ _ := rfl
  size k holder h := by
    have h : (∅ : StreamMap (ValueHolder V))[k]? = some holder := h
    cases h
  memoryUsage := by
    simp [CDBTransaction.clear]

/-- A clean layer is as `Clear` leaves it. -/
theorem WellKept.eq_clear (h : t.WellKept getSerializeSize) (hclean : t.isClean = true) :
    t = t.clear := by
  obtain ⟨memoryUsage, writes, deletes⟩ := t
  rw [isClean, Bool.and_eq_true] at hclean
  obtain rfl : writes = ∅ := isEmpty_iff.mp hclean.1
  obtain rfl : deletes = ∅ := isEmpty_iff.mp hclean.2
  have hmemory := h.memoryUsage
  congr 1

theorem isClean_write (t : CDBTransaction V) (k : CDataStream) (v : V) :
    (t.write getSerializeSize k v).isClean = false := by
  rw [isClean, write_writes, ExtTreeMap.isEmpty_eq_false_iff.mpr ExtTreeMap.insert_ne_empty,
    Bool.false_and]

theorem isClean_erase (t : CDBTransaction V) (k : CDataStream) : (t.erase k).isClean = false := by
  rw [isClean, erase_deletes, ExtTreeMap.isEmpty_eq_false_iff.mpr ExtTreeMap.insert_ne_empty,
    Bool.and_false]

theorem WellKept.write (h : t.WellKept getSerializeSize) (k : CDataStream) (v : V) :
    (t.write getSerializeSize k v).WellKept getSerializeSize where
  disjoint j hj := by
    rw [write_deletes, mem_erase] at hj
    rw [write_writes, ExtTreeMap.getElem?_insert, if_neg hj.1]
    exact h.disjoint j hj.2
  size j holder hj := by
    rw [write_writes] at hj
    rcases insert_eq_some.mp hj with ⟨-, rfl⟩ | ⟨-, hj⟩
    · rfl
    · exact h.size j holder hj
  memoryUsage := by
    have hmemory := h.memoryUsage
    rw [write_writes, write_deletes, MapTotal.weight_insert]
    unfold CDBTransaction.write
    dsimp only
    by_cases hdeleted : k ∈ t.deletes
    · -- The key was deleted, so it has no value that is replaced.
      have hnone := h.disjoint k hdeleted
      have hweight := weight_of_getElem? (u := fun p => p.1.length)
        (getElem?_eq_some_getElem hdeleted)
      rw [if_pos hdeleted]
      rw [hnone, erase_of_getElem? hnone]
      dsimp only at hweight ⊢
      omega
    · rw [if_neg hdeleted, erase_of_getElem? (getElem?_eq_none hdeleted)]
      cases hk : t.writes[k]? with
      | some holder =>
        have hweight := weight_of_getElem?
          (u := fun p => p.1.length + p.2.memoryUsage) hk
        dsimp only at hweight ⊢
        omega
      | none =>
        rw [erase_of_getElem? hk]
        dsimp only
        omega

theorem WellKept.erase (h : t.WellKept getSerializeSize) (k : CDataStream) :
    (t.erase k).WellKept getSerializeSize where
  disjoint j hj := by
    rw [erase_writes, getElem?_erase]
    split_ifs with hcmp
    · rfl
    · rw [erase_deletes, mem_insert] at hj
      exact h.disjoint j (hj.resolve_left hcmp)
  size j holder hj := by
    rw [erase_writes] at hj
    exact h.size j holder (erase_eq_some.mp hj).2
  memoryUsage := by
    have hmemory := h.memoryUsage
    rw [erase_writes, erase_deletes]
    unfold CDBTransaction.erase
    by_cases hdeleted : k ∈ t.deletes
    · have hnone := h.disjoint k hdeleted
      rw [insert_of_mem hdeleted, erase_of_getElem? hnone, hnone]
      rw [if_pos hdeleted]
      exact hmemory
    · rw [weight_insert, erase_of_getElem? (getElem?_eq_none hdeleted)]
      cases hk : t.writes[k]? with
      | some holder =>
        have hweight := weight_of_getElem?
          (u := fun p => p.1.length + p.2.memoryUsage) hk
        dsimp only at hweight ⊢
        rw [if_neg hdeleted]
        dsimp only
        omega
      | none =>
        rw [erase_of_getElem? hk]
        rw [if_neg hdeleted]
        dsimp only
        omega

/-! ### `Commit` -/

section Commit

variable {Target : Type} {eraseIn : Target → CDataStream → Target}
  {writeIn : Target → CDataStream → V → Target}

/-- What the target keeps while keys are erased and written, it keeps. -/
theorem commit_inv {P : Target → Prop} {target : Target} (h : P target)
    (herase : ∀ target k, P target → P (eraseIn target k))
    (hwrite : ∀ target k v, P target → P (writeIn target k v)) (t : CDBTransaction V) :
    P (t.commit eraseIn writeIn target) := by
  have herased : P (t.deletes.keys.foldl eraseIn target) :=
    foldlRecOn _ _ h fun target h k _ => herase target k h
  exact foldlRecOn _ _ herased fun target h p _ => hwrite target p.1 p.2.value h

variable {contents : Target → CDataStream → Option V}

theorem contents_eraseAll
    (herase : ∀ target k, contents (eraseIn target k) = update (contents target) k none)
    (keys : List CDataStream) (target : Target) :
    contents (keys.foldl eraseIn target) = eraseAll (contents target) keys := by
  induction keys generalizing target with
  | nil => rfl
  | cons k keys ih =>
    rw [foldl_cons, ih, herase]
    rfl

theorem contents_writeAll
    (hwrite : ∀ target k v, contents (writeIn target k v) = update (contents target) k (some v))
    (entries : List (CDataStream × ValueHolder V)) (target : Target) :
    contents (entries.foldl (fun target p => writeIn target p.1 p.2.value) target) =
      writeAll (contents target) (entries.map fun p => (p.1, p.2.value)) := by
  induction entries generalizing target with
  | nil => rfl
  | cons p entries ih =>
    rw [foldl_cons, ih, hwrite]
    rfl

/-- After a commit the target holds what was read through the layer. -/
theorem contents_commit
    (herase : ∀ target k, contents (eraseIn target k) = update (contents target) k none)
    (hwrite : ∀ target k v, contents (writeIn target k v) = update (contents target) k (some v))
    (hdisjoint : ∀ k, k ∈ t.deletes → t.writes[k]? = none) (target : Target) :
    contents (t.commit eraseIn writeIn target) = t.read (contents target) := by
  have hwritten : ∀ k v,
      (k, v) ∈ t.writes.toList.map (fun p => (p.1, p.2.value)) ↔ t.pending k = some v := by
    intro k v
    rw [pending, map_eq_some_iff, List.mem_map]
    constructor
    · rintro ⟨⟨j, holder⟩, hmem, heq⟩
      obtain ⟨rfl, rfl⟩ := Prod.mk.inj heq
      exact ⟨holder, mem_toList_iff_getElem?_eq_some.mp hmem, rfl⟩
    · rintro ⟨holder, hk, rfl⟩
      exact ⟨(k, holder), mem_toList_iff_getElem?_eq_some.mpr hk, rfl⟩
  have hnodup : ((t.writes.toList.map fun p => (p.1, p.2.value)).map Prod.fst).Nodup := by
    rw [List.map_map]
    exact nodup_map_fst_toList t.writes
  rw [commit, contents_writeAll hwrite, contents_eraseAll herase, read_eq_view]
  refine writeAll_eraseAll hnodup ?_ hwritten ?_ (contents target)
  · intro k
    rw [ExtTreeMap.mem_keys, deleted_iff]
  · intro k hk
    rw [pending, hdisjoint k (deleted_iff.mp hk)]
    rfl

end Commit

end CDBTransaction

/-! ### Steps -/

theorem PendingMap.scope_cases (m : PendingMap V) (i : Nat) :
    m.scopes[i]? = none ∨ m.scopes[i]? = some ⟨true⟩ ∨ m.scopes[i]? = some ⟨false⟩ := by
  rcases m.scopes[i]? with _ | ⟨_ | _⟩ <;> simp

namespace EvoState.Represents

variable {s : EvoState V} {m : PendingMap V}

/-- `Exists` agrees with `Read`, through both layers. -/
theorem existsKey_of_read {e : CEvoDB V} {cur : CDataStream → Option V} (hcur : e.read = cur)
    (k : CDataStream) : e.existsKey k = (cur k).isSome := by
  rw [← hcur]
  apply existsKey_eq_isSome
  intro k
  apply existsKey_eq_isSome
  intro k
  exact contains_eq_isSome_getElem?

section

variable (h : s.Represents getSerializeSize m) (scopes : List CScopedDBTransaction)

include h

theorem write (k : CDataStream) (v : V) :
    Represents getSerializeSize
      { s with evoDb := s.evoDb.write getSerializeSize k v }
      { m with cur := update m.cur k (some v), changed := true } := by
  have hcur : (s.evoDb.write getSerializeSize k v).read = update m.cur k (some v) := by
    rw [← h.cur]
    exact read_write s.evoDb.rootRead s.evoDb.curDBTransaction k v
  exact { h with
    cur := hcur
    found := existsKey_of_read hcur
    changed := isClean_write ..
    curKept := h.curKept.write k v }

theorem erase (k : CDataStream) :
    Represents getSerializeSize { s with evoDb := s.evoDb.erase k }
      { m with cur := update m.cur k none, changed := true } := by
  have hcur : (s.evoDb.erase k).read = update m.cur k none := by
    rw [← h.cur]
    exact read_erase s.evoDb.rootRead s.evoDb.curDBTransaction k
  exact { h with
    cur := hcur
    found := existsKey_of_read hcur
    changed := isClean_erase ..
    curKept := h.curKept.erase k }

/-- The current layer goes into the root layer. -/
theorem commit : EvoState.Represents getSerializeSize
      { evoDb :=
          { s.evoDb with
            rootDBTransaction := s.evoDb.curDBTransaction.commit CDBTransaction.erase
              (CDBTransaction.write getSerializeSize) s.evoDb.rootDBTransaction
            curDBTransaction := s.evoDb.curDBTransaction.clear }
        scopes := scopes }
      { m with root := m.cur, changed := false, scopes := scopes } := by
  have hroot : (s.evoDb.curDBTransaction.commit CDBTransaction.erase
      (CDBTransaction.write getSerializeSize) s.evoDb.rootDBTransaction).read
        (fun k => s.evoDb.db[k]?) = m.cur := by
    rw [← h.cur]
    exact contents_commit (read_erase _)
      (read_write _) h.curKept.disjoint s.evoDb.rootDBTransaction
  have hkept := commit_inv h.rootKept (fun _ k ht => ht.erase k)
    (fun _ k v ht => ht.write k v) s.evoDb.curDBTransaction
  have hcur := (read_clear _ s.evoDb.curDBTransaction).trans hroot
  exact { h with
    cur := hcur
    found := existsKey_of_read hcur
    root := hroot
    changed := rfl
    scopes := rfl
    rootKept := hkept
    curKept := .clear s.evoDb.curDBTransaction }

theorem rollback : Represents getSerializeSize
      { evoDb := { s.evoDb with curDBTransaction := s.evoDb.curDBTransaction.clear }
        scopes := scopes }
      { m with cur := m.root, changed := false, scopes := scopes } := by
  have hcur : s.evoDb.curDBTransaction.clear.read s.evoDb.rootRead = m.root := by
    rw [← h.root]
    exact read_clear _ _
  exact { h with
    cur := hcur
    found := existsKey_of_read hcur
    changed := rfl
    scopes := rfl
    curKept := .clear s.evoDb.curDBTransaction }

theorem assertThat_isClean :
    assertThat (s.evoDb.curDBTransaction.isClean = true) = assertThat (m.changed = false) := by
  rw [h.changed]
  cases m.changed <;> rfl

theorem cur_eq_root (hchanged : m.changed = false) : m.cur = m.root := by
  have hclean : s.evoDb.curDBTransaction.isClean = true := by
    rw [h.changed, hchanged]
    rfl
  rw [← h.cur, ← h.root, CEvoDB.read, h.curKept.eq_clear hclean, read_clear]

/-- The root layer goes into the database, through a batch. -/
theorem commitRoot (hchanged : m.changed = false) :
    EvoState.Represents getSerializeSize
      { s with
        evoDb :=
          { s.evoDb with
            db := MapBatch.write s.evoDb.db
              (s.evoDb.rootDBTransaction.commit CDBBatch.erase CDBBatch.write s.evoDb.rootBatch)
            rootBatch := []
            rootDBTransaction := s.evoDb.rootDBTransaction.clear } }
      { m with db := m.cur } := by
  -- What the database will hold, where a batch is written to it.
  have hput : ∀ (batch : CDBBatch V) (k : CDataStream) (value : Option V),
      (fun j => (MapBatch.write s.evoDb.db (batch ++ [(k, value)]))[j]?) =
        update (fun j => (MapBatch.write s.evoDb.db batch)[j]?) k value := by
    intro batch k value
    funext j
    rw [MapBatch.write_append]
    show (MapBatch.put (MapBatch.write s.evoDb.db batch) (k, value))[j]? = _
    by_cases hj : j = k
    · subst hj
      rw [getElem?_put_self, update_self]
    · rw [MapBatch.getElem?_put_of_ne value (Ne.symm hj), update_of_ne hj]
  have hdb : (fun k => (MapBatch.write s.evoDb.db (s.evoDb.rootDBTransaction.commit CDBBatch.erase
      CDBBatch.write s.evoDb.rootBatch))[k]?) = m.root := by
    let contents : CDBBatch V → CDataStream → Option V :=
      fun batch k => (MapBatch.write s.evoDb.db batch)[k]?
    have hcommit : contents (s.evoDb.rootDBTransaction.commit CDBBatch.erase CDBBatch.write
        s.evoDb.rootBatch) = s.evoDb.rootDBTransaction.read (contents s.evoDb.rootBatch) :=
      contents_commit (fun batch k => hput batch k none)
        (fun batch k v => hput batch k (some v)) h.rootKept.disjoint s.evoDb.rootBatch
    rw [h.batch] at hcommit
    rw [h.batch, ← h.root]
    exact hcommit
  generalize s.evoDb.rootDBTransaction.commit CDBBatch.erase CDBBatch.write s.evoDb.rootBatch =
    batch at hdb ⊢
  have hroot := (read_clear (fun k => (MapBatch.write s.evoDb.db batch)[k]?)
    s.evoDb.rootDBTransaction).trans hdb
  have hcur : s.evoDb.curDBTransaction.read (s.evoDb.rootDBTransaction.clear.read
      fun k => (MapBatch.write s.evoDb.db batch)[k]?) = m.cur := by
    rw [hroot, ← h.root]
    exact h.cur
  exact { h with
    cur := hcur
    found := existsKey_of_read hcur
    root := hroot
    db := by
      rw [h.cur_eq_root hchanged]
      exact congrFun hdb
    batch := rfl
    rootKept := .clear s.evoDb.rootDBTransaction }

/-- One operation: both stop alike, or both answer the same. -/
theorem apply_cases (op : EvoOp V) :
    (∃ s' m' answer, s.apply getSerializeSize op = .ok (s', answer) ∧
      m.apply op = .ok (m', answer) ∧ s'.Represents getSerializeSize m') ∨
    ∃ fail, s.apply getSerializeSize op = .error fail ∧ m.apply op = .error fail := by
  cases op with
  | read k => exact .inl ⟨s, m, .value (m.cur k), by rw [apply, h.cur], rfl, h⟩
  | existsKey k => exact .inl ⟨s, m, .found (m.cur k).isSome, by rw [apply, h.found], rfl, h⟩
  | write k v => exact .inl ⟨_, _, .done, rfl, rfl, h.write k v⟩
  | erase k => exact .inl ⟨_, _, .done, rfl, rfl, h.erase k⟩
  | beginTransaction =>
    rw [apply, CEvoDB.beginTransaction, PendingMap.apply, h.assertThat_isClean]
    by_cases hchanged : m.changed = false
    · rw [assertThat, if_pos hchanged]
      exact .inl ⟨_, _, .done, rfl, rfl, { h with scopes := by rw [h.scopes] }⟩
    · rw [assertThat, if_neg hchanged]
      exact .inr ⟨.assert, rfl, rfl⟩
  | commit i =>
    rw [apply, PendingMap.apply, h.scopes]
    rcases m.scope_cases i with hscope | hscope | hscope <;> rw [hscope]
    · exact .inr ⟨.assert, rfl, rfl⟩
    · exact .inr ⟨.assert, rfl, rfl⟩
    · exact .inl ⟨_, _, .done, rfl, rfl, h.commit (m.scopes.set i ⟨true⟩)⟩
  | rollback i =>
    rw [apply, PendingMap.apply, h.scopes]
    rcases m.scope_cases i with hscope | hscope | hscope <;> rw [hscope]
    · exact .inr ⟨.assert, rfl, rfl⟩
    · exact .inr ⟨.assert, rfl, rfl⟩
    · exact .inl ⟨_, _, .done, rfl, rfl, h.rollback (m.scopes.set i ⟨true⟩)⟩
  | destroy i =>
    rw [apply, PendingMap.apply, h.scopes]
    rcases m.scope_cases i with hscope | hscope | hscope <;> rw [hscope]
    · exact .inr ⟨.assert, rfl, rfl⟩
    · exact .inl ⟨s, m, .done, rfl, rfl, h⟩
    · exact .inl ⟨_, _, .done, rfl, rfl, h.rollback (m.scopes.set i ⟨true⟩)⟩
  | commitRootTransaction =>
    rw [apply, CEvoDB.commitRootTransaction, PendingMap.apply, h.assertThat_isClean]
    by_cases hchanged : m.changed = false
    · rw [assertThat, if_pos hchanged]
      exact .inl ⟨_, _, .done, rfl, rfl, h.commitRoot hchanged⟩
    · rw [assertThat, if_neg hchanged]
      exact .inr ⟨.assert, rfl, rfl⟩

end

theorem ofDb (getSerializeSize : V → Nat) (db : StreamMap V) :
    (ofDb db).Represents getSerializeSize (PendingMap.ofDb db) := by
  have hroot : (EvoState.ofDb db).evoDb.rootRead = fun k => db[k]? :=
    read_clear _ {}
  have hcur : (EvoState.ofDb db).evoDb.read = fun k => db[k]? :=
    (read_clear _ {}).trans hroot
  exact {
    cur := hcur
    found := existsKey_of_read hcur
    root := hroot
    db := fun _ => rfl
    changed := rfl
    scopes := rfl
    batch := rfl
    rootKept := .clear {}
    curKept := .clear {} }

theorem run (h : s.Represents getSerializeSize m) (ops : List (EvoOp V)) :
    Matches getSerializeSize (s.run getSerializeSize ops) (m.run ops) := by
  induction ops generalizing s m with
  | nil => exact ⟨rfl, h⟩
  | cons op ops ih =>
    rw [run, PendingMap.run]
    rcases h.apply_cases op with ⟨s', m', answer, hs, hm, h'⟩ | ⟨fail, hs, hm⟩
    · rw [hs, hm]
      have hrest := ih h'
      dsimp only [ok_bind]
      cases hs' : s'.run getSerializeSize ops with
      | error fail =>
        cases hm' : m'.run ops with
        | error fail' => rw [hs', hm'] at hrest; exact hrest
        | ok r => rw [hs', hm'] at hrest; exact hrest.elim
      | ok r =>
        cases hm' : m'.run ops with
        | error fail' => rw [hs', hm'] at hrest; exact hrest.elim
        | ok r' =>
          rw [hs', hm'] at hrest
          exact ⟨congrArg (answer :: ·) hrest.1, hrest.2⟩
    · rw [hs, hm]
      rfl

end EvoState.Represents

/-! ### Runs -/

namespace EvoState

variable {ops : List (EvoOp V)} {s : EvoState V}

/-- Reads and changes touch the current layer only. -/
theorem run_plain (getSerializeSize : V → Nat) (s : EvoState V) (hplain : ∀ op ∈ ops, op.plain = true) :
    ∃ t answers, s.run getSerializeSize ops =
      .ok ({ s with evoDb := { s.evoDb with curDBTransaction := t } }, answers) := by
  induction ops generalizing s with
  | nil => exact ⟨s.evoDb.curDBTransaction, [], rfl⟩
  | cons op ops ih =>
    have hstep : ∃ t answer, s.apply getSerializeSize op =
        .ok ({ s with evoDb := { s.evoDb with curDBTransaction := t } }, answer) := by
      have hop := hplain op mem_cons_self
      cases op with
      | read k => exact ⟨s.evoDb.curDBTransaction, _, rfl⟩
      | existsKey k => exact ⟨s.evoDb.curDBTransaction, _, rfl⟩
      | write k v => exact ⟨_, _, rfl⟩
      | erase k => exact ⟨_, _, rfl⟩
      | _ => cases hop
    obtain ⟨t, answer, happly⟩ := hstep
    obtain ⟨t', answers, hrun⟩ := ih { s with evoDb := { s.evoDb with curDBTransaction := t } }
      fun op hop => hplain op (mem_cons_of_mem _ hop)
    refine ⟨t', answer :: answers, ?_⟩
    rw [run, happly, ok_bind]
    dsimp only
    rw [hrun]
    rfl

theorem run_append {s' : EvoState V} {answers : List (EvoAnswer V)}
    (h : s.run getSerializeSize ops = .ok (s', answers)) (more : List (EvoOp V)) :
    s.run getSerializeSize (ops ++ more) = do
      let (s'', answers') ← s'.run getSerializeSize more
      return (s'', answers ++ answers') := by
  induction ops generalizing s answers with
  | nil =>
    obtain ⟨rfl, rfl⟩ := Prod.mk.inj (ok.inj h)
    rw [nil_append]
    cases s.run getSerializeSize more <;> rfl
  | cons op ops ih =>
    rw [run, bind_eq_ok] at h
    obtain ⟨⟨s₁, answer⟩, hop, h⟩ := h
    obtain ⟨⟨s₂, rest⟩, hrest, h⟩ := bind_eq_ok.mp h
    obtain ⟨rfl, rfl⟩ := Prod.mk.inj (ok.inj h)
    rw [cons_append, run, hop, ok_bind]
    dsimp only
    rw [ih hrest]
    cases s₂.run getSerializeSize more <;> rfl

/-- A rolled-back scoped transaction leaves no trace. -/
theorem run_rolledBack (hkept : s.evoDb.curDBTransaction.WellKept getSerializeSize)
    (hclean : s.evoDb.curDBTransaction.isClean = true)
    (hplain : ∀ op ∈ ops, op.plain = true) : ∃ answers, s.run getSerializeSize
        (.beginTransaction :: (ops ++ [.rollback s.scopes.length])) =
      .ok ({ s with scopes := s.scopes ++ [⟨true⟩] }, answers) := by
  obtain ⟨t, answers, hrun⟩ :=
    run_plain getSerializeSize { s with scopes := s.scopes ++ [{}] } hplain
  have hcur : s.evoDb.curDBTransaction = t.clear := hkept.eq_clear hclean
  have hbegin : s.apply getSerializeSize .beginTransaction =
      .ok ({ s with scopes := s.scopes ++ [{}] }, .done) := by
    rw [apply, CEvoDB.beginTransaction, assertThat, if_pos hclean]
    rfl
  refine ⟨.done :: (answers ++ [.done]), ?_⟩
  rw [run, hbegin, ok_bind]
  dsimp only
  rw [run_append hrun, run, apply, getElem?_concat_length]
  show Except.ok (({ evoDb := { s.evoDb with curDBTransaction := t.clear }, scopes := _ } : EvoState V), _) = _
  rw [← hcur]
  simp

/-- **The layers cannot be told from one map.**  Every sequence of operations answers as the map
does and leaves the layers and the database as they represent it, with their bookkeeping right; and
changes that are rolled back leave the database and its layers as they were. -/
theorem run_transparent (getSerializeSize : V → Nat) (db : StreamMap V) (ops : List (EvoOp V)) :
    Matches getSerializeSize ((ofDb db).run getSerializeSize ops) ((PendingMap.ofDb db).run ops) ∧
    ∀ s answers, (ofDb db).run getSerializeSize ops = .ok (s, answers) →
      s.evoDb.curDBTransaction.isClean = true →
      ∀ changes : List (EvoOp V), (∀ op ∈ changes, op.plain = true) →
        ∃ answers', s.run getSerializeSize
            (.beginTransaction :: (changes ++ [.rollback s.scopes.length])) =
          .ok ({ s with scopes := s.scopes ++ [⟨true⟩] }, answers') := by
  have hmatches := (Represents.ofDb getSerializeSize db).run ops
  refine ⟨hmatches, ?_⟩
  intro s answers hrun hclean changes hplain
  rw [hrun] at hmatches
  cases hm : (PendingMap.ofDb db).run ops with
  | error fail => rw [hm] at hmatches; exact hmatches.elim
  | ok r =>
    rw [hm] at hmatches
    exact run_rolledBack hmatches.2.curKept hclean hplain

end EvoState

end Absolute
