/-
Transactions of the database, as its users see them.

Between transactions the current layer is clean.  A transaction changes the current layer only, so
giving it up restores the database, and neither committing it nor flushing the root layer changes
what is read.  An iterator visits the keys that can be read, in their order.
-/
import AbsoluteCore.Proofs.Evo.EvoDb

namespace Absolute

open Std List Function ExtTreeMap Overlay CDBTransaction

variable {V : Type} {getSerializeSize : V → Nat}

/-! ### Iterators -/

namespace CDBTransaction

variable {t : CDBTransaction V} {k ssKey : CDataStream}

/-- The keys are those of the map from a key on, in order. -/
structure Visits (read : CDataStream → Option V) (ssKey : CDataStream) (keys : List CDataStream) :
    Prop where
  inOrder : InOrder compare keys
  mem_iff : ∀ k, k ∈ keys ↔ (read k).isSome ∧ less compare k ssKey = false

theorem Visits.ofMap (m : StreamMap V) (ssKey) :
    Visits (fun k => m[k]?) ssKey (m.keys.filter fun k => !less compare k ssKey) where
  inOrder := ordered_keys.filter _
  mem_iff k := by
    rw [mem_filter, ExtTreeMap.mem_keys, ExtTreeMap.mem_iff_isSome_getElem?]
    simp

theorem Visits.iterate {parent : CDataStream → Option V} {parentIt : List CDataStream}
    (h : Visits parent ssKey parentIt) (hdisjoint : ∀ k, k ∈ t.deletes → t.writes[k]? = none) :
    Visits (t.read parent) ssKey (t.iterate ssKey parentIt) where
  inOrder := by
    refine inOrder_merge (ordered_keys.filter _) (h.inOrder.filter _) ?_
    intro k hk hparent
    have hwrites := ExtTreeMap.mem_keys.mp (mem_filter.mp hk).1
    have hkept := (mem_filter.mp hparent).2
    rw [contains_iff_mem.mpr hwrites] at hkept
    simp at hkept
  mem_iff k := by
    have hmem : k ∈ t.iterate ssKey parentIt ↔
        (k ∈ t.writes ∧ less compare k ssKey = false) ∨
        (((parent k).isSome ∧ less compare k ssKey = false) ∧
          k ∉ t.deletes ∧ k ∉ t.writes) := by
      rw [CDBTransaction.iterate, Overlay.mem_merge, mem_filter, mem_filter, h.mem_iff]
      simp [ExtTreeMap.mem_keys, ← ExtTreeMap.contains_iff_mem]
    rw [hmem, read]
    by_cases hwrites : k ∈ t.writes
    · have hkept : k ∉ t.deletes := by
        intro hdeleted
        rw [mem_iff_isSome_getElem?, hdisjoint k hdeleted] at hwrites
        cases hwrites
      rw [if_neg hkept, getElem?_eq_some_getElem hwrites]
      simp [hwrites]
    · have hnone : t.writes[k]? = none := getElem?_eq_none hwrites
      rw [hnone]
      by_cases hdeleted : k ∈ t.deletes
      · simp [hwrites, hdeleted]
      · simp [hwrites, hdeleted]

end CDBTransaction

/-! ### Between and within transactions -/

namespace CEvoDB

variable {e e' : CEvoDB V} {k : CDataStream}

/-- No transaction is going on. -/
structure Idle (getSerializeSize : V → Nat) (e : CEvoDB V) : Prop where
  clean : e.curDBTransaction.isClean = true
  batch : e.rootBatch = []
  rootKept : e.rootDBTransaction.WellKept getSerializeSize
  curKept : e.curDBTransaction.WellKept getSerializeSize

/-- The second database is within a transaction that began with the first. -/
structure Within (getSerializeSize : V → Nat) (e e' : CEvoDB V) : Prop where
  idle : Idle getSerializeSize e
  eq : e' = { e with curDBTransaction := e'.curDBTransaction }
  curKept : e'.curDBTransaction.WellKept getSerializeSize

theorem read_write (e : CEvoDB V) (k : CDataStream) (v : V) :
    (e.write getSerializeSize k v).read = update e.read k (some v) :=
  CDBTransaction.read_write e.rootRead e.curDBTransaction k v

theorem read_erase (e : CEvoDB V) (k : CDataStream) : (e.erase k).read = update e.read k none :=
  CDBTransaction.read_erase e.rootRead e.curDBTransaction k

theorem existsKey_eq (e : CEvoDB V) (k : CDataStream) : e.existsKey k = (e.read k).isSome :=
  EvoState.Represents.existsKey_of_read rfl k

theorem Idle.ofDb (getSerializeSize) (db : StreamMap V) : Idle getSerializeSize { db := db } where
  clean := rfl
  batch := rfl
  rootKept := .clear {}
  curKept := .clear {}

theorem read_ofDb (db : StreamMap V) : ({ db := db } : CEvoDB V).read = fun k => db[k]? :=
  (EvoState.Represents.ofDb (fun _ => 0) db).cur

theorem Idle.within (h : Idle getSerializeSize e) : Within getSerializeSize e e where
  idle := h
  eq := rfl
  curKept := h.curKept

theorem Idle.beginTransaction (h : Idle getSerializeSize e) : e.beginTransaction = .ok {} := by
  rw [CEvoDB.beginTransaction, assertThat, if_pos h.clean]
  rfl

namespace Within

section

variable (h : Within getSerializeSize e e')

include h

theorem write (k) (v : V) : Within getSerializeSize e (e'.write getSerializeSize k v) where
  idle := h.idle
  eq := by
    rw [h.eq]
    rfl
  curKept := h.curKept.write k v

theorem erase (k) : Within getSerializeSize e (e'.erase k) where
  idle := h.idle
  eq := by
    rw [h.eq]
    rfl
  curKept := h.curKept.erase k

/-- Giving the transaction up restores the database. -/
theorem rollback : e'.rollback {} = .ok (e, ⟨true⟩) := by
  have hclear : e'.curDBTransaction.clear = e.curDBTransaction :=
    (h.idle.curKept.eq_clear h.idle.clean).symm
  have heq : ({ e' with curDBTransaction := e'.curDBTransaction.clear } : CEvoDB V) = e := by
    rw [hclear, h.eq]
  show Except.ok (({ e' with curDBTransaction := e'.curDBTransaction.clear } : CEvoDB V), _) = _
  rw [heq]

/-- A database is what is read from it. -/
theorem represents :
    EvoState.Represents getSerializeSize ⟨e', []⟩
      { cur := e'.read, root := e'.rootRead, db := fun k => e'.db[k]?,
        changed := !e'.curDBTransaction.isClean } where
  cur := rfl
  found := existsKey_eq e'
  root := rfl
  db _ := rfl
  changed := by simp
  scopes := rfl
  batch := by
    rw [h.eq]
    exact h.idle.batch
  rootKept := by
    rw [h.eq]
    exact h.idle.rootKept
  curKept := h.curKept

theorem commit :
    ∃ e'', e'.commit getSerializeSize {} = .ok (e'', ⟨true⟩) ∧ Idle getSerializeSize e'' ∧
      e''.read = e'.read := by
  have hcommit := h.represents.commit []
  refine ⟨_, rfl, ⟨rfl, hcommit.batch, hcommit.rootKept, hcommit.curKept⟩, hcommit.cur⟩

theorem visits (ssKey : CDataStream) : Visits e'.read ssKey (e'.iterate ssKey) :=
  ((Visits.ofMap e'.db ssKey).iterate h.represents.rootKept.disjoint).iterate
    h.curKept.disjoint

end

end Within

theorem Idle.commitRootTransaction (h : Idle getSerializeSize e) :
    ∃ e', e.commitRootTransaction = .ok e' ∧ Idle getSerializeSize e' ∧ e'.read = e.read := by
  have hroot := h.within.represents.commitRoot (by
    rw [h.clean]
    rfl)
  rw [CEvoDB.commitRootTransaction, assertThat, if_pos h.clean]
  exact ⟨_, rfl, ⟨h.clean, hroot.batch, hroot.rootKept, hroot.curKept⟩, hroot.cur⟩

end CEvoDB

end Absolute
