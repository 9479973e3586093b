/-
An index over a table: a map from the keys of the rows to the rows that have them.

A row has at most one key.  The index is exact if it has the keys of all rows, and each of them
names a row that has it.  Where two rows share a key, the index names one of them, and erasing the
key with the one takes it away from the other.
-/
import AbsoluteCore.Lib.MapTotal

namespace KeyIndex

open Std Function Option ExtTreeMap LawfulEqCmp MapTotal

variable {H E K : Type} {cmp : K → K → Ordering} [TransCmp cmp]

structure Exact (rows : H → Option E) (key : E → Option K) (m : ExtTreeMap K H cmp) : Prop where
  owner : ∀ k h, m[k]? = some h → ∃ e, rows h = some e ∧ key e = some k
  present : ∀ h e k, rows h = some e → key e = some k → k ∈ m

/-- Puts a row's key into the index, unless it is there. -/
def emplace (m : ExtTreeMap K H cmp) (k : Option K) (h : H) : ExtTreeMap K H cmp :=
  match k with
  | some k => m.insertIfNew k h
  | none => m

def drop (m : ExtTreeMap K H cmp) (k : Option K) : ExtTreeMap K H cmp :=
  match k with
  | some k => m.erase k
  | none => m

variable {rows : H → Option E} {key : E → Option K} {m : ExtTreeMap K H cmp} {h : H} {e : E} {k : K}
  {o : Option K}

theorem exact_empty (hrows : ∀ h, rows h = none) : Exact rows key (∅ : ExtTreeMap K H cmp) := by
  constructor
  · intro k h hget
    rw [getElem?_empty] at hget
    cases hget
  · intro h e k hrow
    rw [hrows] at hrow
    cases hrow

theorem Exact.not_mem (hx : Exact rows key m) (hnone : ∀ h e, rows h = some e → key e ≠ some k) :
    k ∉ m := by
  intro hmem
  obtain ⟨h, hget⟩ := mem_iff_exists.mp hmem
  obtain ⟨e, hrow, hkey⟩ := hx.owner k h hget
  exact hnone h e hrow hkey

theorem Exact.exists_row (hx : Exact rows key m) (hmem : k ∈ m) :
    ∃ h e, rows h = some e ∧ key e = some k := by
  obtain ⟨h, hget⟩ := mem_iff_exists.mp hmem
  obtain ⟨e, hrow, hkey⟩ := hx.owner k h hget
  exact ⟨h, e, hrow, hkey⟩

def Unshared (rows : H → Option E) (key : E → Option K) : Prop :=
  ∀ h h' e e' k, rows h = some e → rows h' = some e' → key e = some k → key e' = some k → h = h'

theorem unshared_of_none (hrows : ∀ h, rows h = none) : Unshared rows key := by
  intro h h' e e' k he
  rw [hrows] at he
  cases he

theorem update_eq_some [DecidableEq H] {h' : H} {row : Option E} :
    update rows h row h' = some e ↔ h' = h ∧ row = some e ∨ h' ≠ h ∧ rows h' = some e := by
  by_cases heq : h' = h
  · subst heq
    simp
  · simp [heq]

section

variable [DecidableEq H] (hrows : Unshared rows key)

include hrows

theorem Unshared.insert
    (hown : ∀ h' e' k, rows h' = some e' → key e = some k → key e' = some k → h' = h) :
    Unshared (update rows h (some e)) key := by
  intro i j a b k ha hb hka hkb
  rcases update_eq_some.mp ha with ⟨rfl, heq⟩ | ⟨-, hold⟩
  · obtain rfl := some.inj heq
    rcases update_eq_some.mp hb with ⟨rfl, -⟩ | ⟨-, hold⟩
    · rfl
    · exact (hown j b k hold hka hkb).symm
  · rcases update_eq_some.mp hb with ⟨rfl, heq⟩ | ⟨-, hold'⟩
    · obtain rfl := some.inj heq
      exact hown i a k hold hkb hka
    · exact hrows i j a b k hold hold' hka hkb

theorem Unshared.erase (h : H) : Unshared (update rows h none) key := by
  have hold : ∀ i a, update rows h none i = some a → rows i = some a := by
    intro i a ha
    rcases update_eq_some.mp ha with ⟨-, hnone⟩ | ⟨-, ha⟩
    · cases hnone
    · exact ha
  exact fun i j a b k ha hb => hrows i j a b k (hold i a ha) (hold j b hb)

end

variable [LawfulEqCmp cmp] [DecidableEq K]

theorem getElem?_emplace : (emplace m o h)[k]? = if o = some k ∧ k ∉ m then some h else m[k]? := by
  cases o with
  | none => simp [emplace]
  | some k' =>
    rw [emplace, getElem?_insertIfNew]
    by_cases heq : k' = k
    · subst heq
      simp
    · have hcmp : ¬ cmp k' k = .eq := fun hc => heq (eq_of_compare hc)
      rw [if_neg (fun hcon => hcmp hcon.1), if_neg fun hcon => heq (some.inj hcon.1)]

theorem getElem?_drop : (drop m o)[k]? = if o = some k then none else m[k]? := by
  cases o with
  | none => simp [drop]
  | some k' =>
    rw [drop, getElem?_erase]
    by_cases heq : k' = k
    · subst heq
      simp
    · have hcmp : ¬ cmp k' k = .eq := fun hc => heq (eq_of_compare hc)
      rw [if_neg hcmp, if_neg fun hcon => heq (some.inj hcon)]

theorem mem_emplace : k ∈ emplace m o h ↔ o = some k ∨ k ∈ m := by
  rw [mem_iff_isSome_getElem?, getElem?_emplace]
  by_cases hm : k ∈ m
  · simp [hm]
  · by_cases hk : o = some k
    · simp [hk, hm]
    · simp [hk, hm]

theorem mem_drop : k ∈ drop m o ↔ o ≠ some k ∧ k ∈ m := by
  rw [mem_iff_isSome_getElem?, getElem?_drop, mem_iff_isSome_getElem?]
  by_cases hk : o = some k
  · simp [hk]
  · simp [hk]

theorem drop_of_not_mem (habsent : ∀ k, o = some k → k ∉ m) : drop m o = m := by
  apply ext_getElem?
  intro k
  rw [getElem?_drop]
  split
  · next hk => exact (getElem?_eq_none (habsent k hk)).symm
  · rfl

namespace Exact

variable [DecidableEq H]

/-- A row goes into the index with its key, if it is not there in another form. -/
theorem insert (hx : Exact rows key m) (hsame : ∀ e', rows h = some e' → e' = e) :
    Exact (update rows h (some e)) key (emplace m (key e) h) := by
  constructor
  · intro k h' hget
    rw [getElem?_emplace] at hget
    split at hget
    · next hk =>
        obtain rfl := some.inj hget
        exact ⟨e, update_self .., hk.1⟩
    · obtain ⟨e', hrow, hkey⟩ := hx.owner k h' hget
      refine ⟨e', update_eq_some.mpr ?_, hkey⟩
      by_cases heq : h' = h
      · exact .inl ⟨heq, congrArg some (hsame e' (heq ▸ hrow)).symm⟩
      · exact .inr ⟨heq, hrow⟩
  · intro h' e' k hrow hkey
    rw [mem_emplace]
    rcases update_eq_some.mp hrow with ⟨-, heq⟩ | ⟨-, hrow⟩
    · exact .inl (some.inj heq ▸ hkey)
    · exact .inr (hx.present h' e' k hrow hkey)

/-- Erasing a row with its key keeps the index exact if no other row has the key. -/
theorem erase_iff (hx : Exact rows key m) (hrow : rows h = some e) :
    Exact (update rows h none) key (drop m (key e)) ↔
      ∀ h' e' k, h' ≠ h → rows h' = some e' → key e = some k → key e' ≠ some k := by
  constructor
  · intro hafter h' e' k hne hrow' hkey hkey'
    have hmem := hafter.present h' e' k (by rw [update_of_ne hne, hrow']) hkey'
    exact (mem_drop.mp hmem).1 hkey
  · intro halone
    constructor
    · intro k h' hget
      rw [getElem?_drop] at hget
      split at hget
      · cases hget
      · next hk =>
          obtain ⟨e', hrow', hkey'⟩ := hx.owner k h' hget
          have hne : h' ≠ h := by
            intro heq
            rw [heq, hrow] at hrow'
            obtain rfl := some.inj hrow'
            exact hk hkey'
          exact ⟨e', by rw [update_of_ne hne, hrow'], hkey'⟩
    · intro h' e' k hrow' hkey'
      rcases update_eq_some.mp hrow' with ⟨-, hnone⟩ | ⟨hne, hrow'⟩
      · cases hnone
      · rw [mem_drop]
        refine ⟨?_, hx.present h' e' k hrow' hkey'⟩
        intro hkey
        exact halone h' e' k hne hrow' hkey hkey'

end Exact

end KeyIndex
