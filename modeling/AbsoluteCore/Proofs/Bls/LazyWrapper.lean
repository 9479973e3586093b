/-
When laziness cannot be seen.

A wrapper whose bytes are what the library writes for their object keeps them for good: decoding adds the
object and changes nothing else.  `Reads` says so, and every operation keeps it.  Other bytes are forgotten
by the first `Get`, and a wrapper that has neither bytes nor an object cannot be written.
-/
import AbsoluteCore.Bls.LazyWrapper
import AbsoluteCore.Lib.Fallible

open List hiding Vector
open Fallible

namespace Absolute

variable {n : Nat} {Impl : Type} {lib : BLSCodec n Impl} {b c : Vector UInt8 n}
  {w r : CBLSLazyWrapper n Impl}

theorem BLSCodec.canonical_iff : lib.Canonical b ↔ lib.getBuf (lib.setBuf b) = .ok b := by
  unfold Canonical setBuf
  by_cases hb : b = .replicate n 0
  · simp [hb, getBuf]
  · rw [if_neg hb]
    cases hset : lib.internalSetBuf b with
    | none => simp [hb, getBuf, Ne.symm hb]
    | some impl => cases hget : lib.internalGetBuf impl <;> simp [hb, getBuf, hget]

namespace CBLSLazyWrapper

/-- The wrapper has the bytes `b`, and nothing that does not follow from them. -/
structure Reads (lib : BLSCodec n Impl) (b : Vector UInt8 n) (w : CBLSLazyWrapper n Impl) : Prop where
  valid : w.bufValid = true
  buf : w.buf = b
  obj : w.objInitialized = true → w.obj = lib.setBuf b
  hash : w.hash ≠ 0 → w.hash = lib.hash b

theorem reads_unserialize : Reads lib b (w.unserialize b) :=
  ⟨rfl, rfl, by simp [unserialize], by simp [unserialize]⟩

theorem Reads.serialize (h : Reads lib b w) : w.serialize lib = .ok (b, w) := by
  simp [CBLSLazyWrapper.serialize, fillBuf, h.valid, h.buf, pure, Except.pure, bind, Except.bind]

theorem Reads.getHash (h : Reads lib b w) :
    ∃ w', w.getHash lib = .ok (lib.hash b, w') ∧ Reads lib b w' := by
  have hhash : (if w.hash = 0 then lib.hash w.buf else w.hash) = lib.hash b := by
    split_ifs with hnull
    · rw [h.buf]
    · exact h.hash hnull
  refine ⟨{ w with hash := lib.hash b }, ?_, h.valid, h.buf, h.obj, fun _ => rfl⟩
  simp only [CBLSLazyWrapper.getHash, fillBuf, h.valid, if_true, bind, Except.bind, hhash]
  rfl

theorem Reads.get (hb : lib.Canonical b) (h : Reads lib b w) :
    ∃ w', w.get lib = .ok (lib.setBuf b, w') ∧ Reads lib b w' := by
  unfold CBLSLazyWrapper.get
  cases hobj : w.objInitialized with
  | true => exact ⟨w, by simp [h.obj hobj], h⟩
  | false =>
    refine ⟨{ w with obj := lib.setBuf b, objInitialized := true }, ?_, h.valid, h.buf,
      fun _ => rfl, h.hash⟩
    simp [h.valid, h.buf, BLSCodec.canonical_iff.mp hb, bind, Except.bind, pure, Except.pure]

theorem Reads.copy (h : Reads lib b w) : Reads lib b w.copy := by
  refine ⟨h.valid, ?_, ?_, h.hash⟩
  · rw [CBLSLazyWrapper.copy, if_pos h.valid, h.buf]
  · intro hobj
    change w.objInitialized = true at hobj
    rw [CBLSLazyWrapper.copy, if_pos hobj, h.obj hobj]

theorem Reads.eq [DecidableEq Impl] (hw : Reads lib b w) (hr : Reads lib c r) :
    w.eq lib r = .ok (decide (b = c), w, r) := by
  simp [CBLSLazyWrapper.eq, hw.valid, hr.valid, hw.buf, hr.buf]

/-- The malleability check leaves neither the bytes nor an object. -/
theorem get_forgets (hb : ¬ lib.Canonical b) {obj : Option Impl} {w' : CBLSLazyWrapper n Impl}
    (h : (w.unserialize b).get lib = .ok (obj, w')) :
    w'.bufValid = false ∧ w'.objInitialized = false := by
  rw [BLSCodec.canonical_iff] at hb
  simp only [get, unserialize, bind, Except.bind] at h
  cases hbuf : lib.getBuf (lib.setBuf b) with
  | error e => simp [hbuf] at h
  | ok buf2 =>
    have hne : buf2 ≠ b := fun he => hb (he ▸ hbuf)
    simp [hbuf, hne, pure, Except.pure] at h
    exact ⟨h.2 ▸ rfl, h.2 ▸ rfl⟩

end CBLSLazyWrapper

namespace LazyPool

variable {pool : LazyPool n Impl}

/-- Every wrapper still has the canonical bytes it was read from. -/
def Kept (lib : BLSCodec n Impl) (pool : LazyPool n Impl) : Prop :=
  ∀ p ∈ pool, lib.Canonical p.1 ∧ p.2.Reads lib p.1

theorem Kept.right [DecidableEq Impl] (h : Kept lib pool) : pool.Right lib lib.setBuf where
  serialize p hp := ⟨_, (h p hp).2.serialize⟩
  getHash p hp := by
    obtain ⟨w, hhash, -⟩ := (h p hp).2.getHash
    exact ⟨w, hhash⟩
  get p hp := by
    obtain ⟨w, hget, -⟩ := (h p hp).2.get (h p hp).1
    exact ⟨w, hget⟩
  eq p hp q hq := ⟨_, (h p hp).2.eq (h q hq).2⟩

theorem Kept.set (h : Kept lib pool) (hb : lib.Canonical b) (hw : w.Reads lib b) (i : Nat) :
    Kept lib (pool.set i (b, w)) := by
  intro p hp
  rcases mem_or_eq_of_mem_set hp with hmem | rfl
  · exact h p hmem
  · exact ⟨hb, hw⟩

theorem Kept.update (h : Kept lib pool) {α : Type} (i : Nat)
    {op : CBLSLazyWrapper n Impl → Except Fail (α × CBLSLazyWrapper n Impl)}
    (hop : ∀ b w, lib.Canonical b → w.Reads lib b → ∃ a w', op w = .ok (a, w') ∧ w'.Reads lib b) :
    ∃ pool', pool.update i op = .ok pool' ∧ Kept lib pool' := by
  unfold LazyPool.update
  cases hi : pool[i]? with
  | none => exact ⟨pool, rfl, h⟩
  | some p =>
    obtain ⟨hb, hreads⟩ := h p (mem_of_getElem? hi)
    obtain ⟨a, w', hok, hreads'⟩ := hop p.1 p.2 hb hreads
    exact ⟨pool.set i (p.1, w'), by simp [hok, Except.map], h.set hb hreads' i⟩

theorem Kept.apply [DecidableEq Impl] (h : Kept lib pool) (op : LazyOp) :
    ∃ pool', pool.apply lib op = .ok pool' ∧ Kept lib pool' := by
  cases op with
  | get i => exact h.update i fun b w hb hw => ⟨_, hw.get hb⟩
  | getHash i => exact h.update i fun b w hb hw => ⟨_, hw.getHash⟩
  | serialize i => exact h.update i fun b w hb hw => ⟨b, w, hw.serialize, hw⟩
  | eq i j =>
    simp only [LazyPool.apply]
    split
    · next p q hi hj =>
      obtain ⟨hp, hw⟩ := h p (mem_of_getElem? hi)
      obtain ⟨hq, hr⟩ := h q (mem_of_getElem? hj)
      exact ⟨_, by rw [hw.eq hr]; rfl, (h.set hp hw i).set hq hr j⟩
    · exact ⟨pool, rfl, h⟩
  | copy i =>
    refine ⟨_, rfl, fun p hp => ?_⟩
    rcases mem_append.mp hp with hp | hp
    · exact h p hp
    · obtain ⟨q, hq, rfl⟩ := mem_map.mp hp
      obtain ⟨hb, hreads⟩ := h q (mem_of_getElem? (by simpa using hq))
      exact ⟨hb, hreads.copy⟩

theorem unobservable_iff [DecidableEq Impl]
    (reads : List (Vector UInt8 n × CBLSLazyWrapper n Impl)) :
    Unobservable lib reads ↔ ∀ p ∈ reads, lib.Canonical p.1 := by
  constructor
  · -- one `Get` is enough to see that the bytes are not canonical
    rintro ⟨object, h⟩ p hp
    by_contra hb
    obtain ⟨i, hlt, rfl⟩ := mem_iff_getElem.mp hp
    obtain ⟨pool, hrun, hright⟩ := h [.get i]
    have hi : (unserialize reads)[i]? = some (reads[i].1, reads[i].2.unserialize reads[i].1) := by
      simp [unserialize, hlt]
    simp only [foldlM_cons, foldlM_nil, apply, update, hi] at hrun
    cases hget : (reads[i].2.unserialize reads[i].1).get lib with
    | error e => simp [hget, Except.map, bind, Except.bind] at hrun
    | ok r =>
      obtain ⟨hbuf, hobj⟩ := CBLSLazyWrapper.get_forgets hb hget
      simp only [hget, Except.map, bind, Except.bind, pure, Except.pure] at hrun
      cases hrun
      have hmem : (reads[i].1, r.2) ∈ (unserialize reads).set i (reads[i].1, r.2) :=
        mem_set (by simpa [unserialize] using hlt) _
      obtain ⟨w, hwrite⟩ := hright.serialize _ hmem
      simp [CBLSLazyWrapper.serialize, hbuf, hobj] at hwrite
  · intro hb
    refine ⟨lib.setBuf, fun ops => ?_⟩
    have hkept : Kept lib (unserialize reads) := by
      intro p hp
      obtain ⟨q, hq, rfl⟩ := mem_map.mp hp
      exact ⟨hb q hq, CBLSLazyWrapper.reads_unserialize⟩
    obtain ⟨pool, hrun, hend⟩ :=
      foldlM_ok (Kept lib) ops _ (fun op _ t ht => ht.apply op) hkept
    exact ⟨pool, hrun, hend.right⟩

/-- A library that reads no object from any byte. -/
private def noPoint : BLSCodec 1 Unit := ⟨fun _ => none, fun _ => none, fun _ => 0⟩

/-- The byte of no object is not written again once `Get` has looked at it. -/
theorem unobservable_forgotten :
    ¬ Unobservable noPoint [(#v[1], ⟨#v[0], true, none, false, 0⟩)] ∧
    ((CBLSLazyWrapper.unserialize ⟨#v[0], true, none, false, 0⟩ #v[1]).get noPoint).bind
      (·.2.serialize noPoint) = .error (.throws "obj and buf not initialized") := by
  refine ⟨?_, by rfl⟩
  rw [unobservable_iff]
  intro h
  rcases h _ (mem_singleton.mpr rfl) with hnull | ⟨impl, hset, -⟩
  · simp at hnull
  · cases hset

end LazyPool

end Absolute
