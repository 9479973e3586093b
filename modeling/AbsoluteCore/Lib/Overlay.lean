/-
Pending changes over a map.

An overlay has keys with a new value and keys that are deleted.  Reading through it gives one map,
which changes like a map when a key is written or erased, and committing the overlay to the map
below makes that the same.

The keys of the map that is read come out of a merge: the overlay's own keys, and those of the map
below that it does not hide, each in order.
-/
import Mathlib

namespace Overlay

open Std Function LawfulEqCmp List

variable {K V : Type}

/-- The map that is read through an overlay. -/
def view (below writes : K → Option V) (deletes : K → Bool) : K → Option V := fun k =>
  if deletes k = true then none else (writes k).or (below k)

theorem view_clean (below : K → Option V) : view below (fun _ => none) (fun _ => false) = below := by
  funext k
  simp [view]

/-! ### One change -/

section Update

variable [DecidableEq K] {below writes m : K → Option V} {deletes : K → Bool}
  {written : List (K × V)} {k : K} {v : V} {f : Option V} {erased : List K}

theorem view_write (k v) : view below (update writes k (some v)) (update deletes k false) =
      update (view below writes deletes) k (some v) := by
  funext j
  by_cases hj : j = k
  · subst hj
    simp [view]
  · simp [view, update_of_ne hj]

theorem view_erase (k) : view below (update writes k none) (update deletes k true) =
      update (view below writes deletes) k none := by
  funext j
  by_cases hj : j = k
  · subst hj
    simp [view]
  · simp [view, update_of_ne hj]

/-! ### Commits -/

def eraseAll (m : K → Option V) : List K → K → Option V
  | [] => m
  | k :: erased => eraseAll (update m k none) erased

def writeAll (m : K → Option V) : List (K × V) → K → Option V
  | [] => m
  | p :: written => writeAll (update m p.1 (some p.2)) written

theorem eraseAll_append (m : K → Option V) (first second : List K) :
    eraseAll m (first ++ second) = eraseAll (eraseAll m first) second := by
  induction first generalizing m with
  | nil => rfl
  | cons k first ih => exact ih _

theorem eraseAll_apply (m : K → Option V) (erased : List K) (k : K) :
    eraseAll m erased k = if k ∈ erased then none else m k := by
  induction erased generalizing m with
  | nil => simp [eraseAll]
  | cons j erased ih =>
    rw [eraseAll, ih]
    by_cases hk : k = j
    · subst hk
      simp
    · simp [hk]

theorem writeAll_of_not_mem (h : k ∉ written.map Prod.fst) : writeAll m written k = m k := by
  induction written generalizing m with
  | nil => rfl
  | cons p written ih =>
    rw [map_cons, mem_cons, not_or] at h
    rw [writeAll, ih h.2, update_of_ne h.1]

/-- Where all entries for a key agree, the key has the value they give. -/
theorem writeAll_of_forall
    (hmem : k ∈ written.map Prod.fst) (hval : ∀ p ∈ written, p.1 = k → p.2 = v) :
    writeAll m written k = some v := by
  induction written generalizing m with
  | nil => cases hmem
  | cons p written ih =>
    have hrest := fun q hq => hval q (mem_cons_of_mem p hq)
    rw [writeAll]
    by_cases hlater : k ∈ written.map Prod.fst
    · exact ih hlater hrest
    · obtain rfl : k = p.1 := (mem_cons.mp hmem).resolve_right hlater
      rw [writeAll_of_not_mem hlater, update_self, hval p mem_cons_self rfl]

theorem writeAll_of_mem (hnodup : (written.map Prod.fst).Nodup) (h : (k, v) ∈ written) :
    writeAll m written k = some v := by
  refine writeAll_of_forall (mem_map_of_mem h) ?_
  intro p hp hkey
  have heq := inj_on_of_nodup_map hnodup hp h hkey
  rw [heq]

/-- Where the entries for a key are those of `f`, they take precedence. -/
theorem writeAll_eq_or
    (h : ∀ v, (k, v) ∈ written ↔ f = some v) : writeAll m written k = f.or (m k) := by
  cases f with
  | none =>
    refine writeAll_of_not_mem fun hk => ?_
    obtain ⟨⟨k, v⟩, hmem, rfl⟩ := mem_map.mp hk
    cases (h v).mp hmem
  | some v =>
    refine writeAll_of_forall (mem_map_of_mem ((h v).mpr rfl)) ?_
    rintro ⟨k, w⟩ hmem rfl
    exact (Option.some.inj ((h w).mp hmem)).symm

/-- Erasing such entries gives back what they took precedence over, where that was nothing. -/
theorem eraseAll_eq_of_or {g : Option V}
    (hmem : k ∈ erased ↔ f.isSome) (hm : m k = f.or g) (hg : f.isSome → g = none) :
    eraseAll m erased k = g := by
  rw [eraseAll_apply]
  split_ifs with hk
  · exact (hg (hmem.mp hk)).symm
  · cases f with
    | none => exact hm
    | some v => exact absurd (hmem.mpr rfl) hk

/-- Committing an overlay gives the map that was read through it. -/
theorem writeAll_eraseAll
    (hnodup : (written.map Prod.fst).Nodup) (herased : ∀ k, k ∈ erased ↔ deletes k = true)
    (hwritten : ∀ k v, (k, v) ∈ written ↔ writes k = some v)
    (hdisjoint : ∀ k, deletes k = true → writes k = none) (m : K → Option V) :
    writeAll (eraseAll m erased) written = view m writes deletes := by
  funext k
  unfold view
  cases hk : writes k with
  | some v =>
    have hkept : deletes k ≠ true := by
      intro hdeleted
      rw [hdisjoint k hdeleted] at hk
      cases hk
    rw [writeAll_of_mem hnodup ((hwritten k v).mpr hk), if_neg hkept]
    rfl
  | none =>
    have hnot : k ∉ written.map Prod.fst := by
      intro hmem
      obtain ⟨⟨j, v⟩, hp, rfl⟩ := mem_map.mp hmem
      rw [(hwritten j v).mp hp] at hk
      cases hk
    rw [writeAll_of_not_mem hnot, eraseAll_apply]
    simp only [herased k, Option.none_or]

end Update

/-! ### The keys in order -/

section Merge

variable {cmp : K → K → Ordering}

/-- `cmp a b` says that the first comes before the second. -/
def less (cmp : K → K → Ordering) (a b : K) : Bool := cmp a b == .lt

/-- Goes through the second list up to the place of `x`; `rest` merges what comes after `x`. -/
def mergeAt (lt : K → K → Bool) (x : K) (rest : List K → List K) : List K → List K
  | [] => x :: rest []
  | y :: ys => if lt x y then x :: rest (y :: ys) else y :: mergeAt lt x rest ys

/-- Two lists in order as one, by steps of whichever has the smaller head. -/
def merge (lt : K → K → Bool) : List K → List K → List K
  | [] => fun ys => ys
  | x :: xs => mergeAt lt x (merge lt xs)

theorem mem_merge {lt : K → K → Bool} {k : K} :
    ∀ {xs ys : List K}, k ∈ merge lt xs ys ↔ k ∈ xs ∨ k ∈ ys := by
  intro xs
  induction xs with
  | nil => simp [merge]
  | cons x xs ihx =>
    intro ys
    induction ys with
    | nil => simp [merge, mergeAt, ihx]
    | cons y ys ihy =>
      show k ∈ mergeAt lt x (merge lt xs) (y :: ys) ↔ _
      rw [mergeAt]
      split
      · simp [ihx, or_assoc]
      · have hrest : k ∈ mergeAt lt x (merge lt xs) ys ↔ k ∈ x :: xs ∨ k ∈ ys := ihy
        rw [mem_cons, hrest, mem_cons, mem_cons]
        tauto

def InOrder (cmp : K → K → Ordering) (keys : List K) : Prop :=
  keys.Pairwise fun a b => cmp a b = .lt

variable [TransCmp cmp] [LawfulEqCmp cmp]

theorem inOrder_merge : ∀ {xs ys : List K}, InOrder cmp xs → InOrder cmp ys →
    (∀ x ∈ xs, x ∉ ys) → InOrder cmp (merge (less cmp) xs ys) := by
  intro xs
  induction xs with
  | nil => intro ys _ hys _; exact hys
  | cons x xs ihx =>
    intro ys hxs
    obtain ⟨hx, hxs⟩ := pairwise_cons.mp hxs
    induction ys with
    | nil =>
      intro _ _
      refine pairwise_cons.mpr ⟨?_, ihx hxs List.Pairwise.nil (by simp)⟩
      intro k hk
      rcases mem_merge.mp hk with hk | hk
      · exact hx k hk
      · cases hk
    | cons y ys ihy =>
      intro hys hdisjoint
      obtain ⟨hy, hyss⟩ := pairwise_cons.mp hys
      show InOrder cmp (mergeAt (less cmp) x (merge (less cmp) xs) (y :: ys))
      rw [mergeAt]
      split
      · next hlt =>
          have hlt : cmp x y = .lt := by simpa [less] using hlt
          refine pairwise_cons.mpr ⟨?_, ?_⟩
          · intro k hk
            rcases mem_merge.mp hk with hk | hk
            · exact hx k hk
            · rcases mem_cons.mp hk with rfl | hk
              · exact hlt
              · exact TransCmp.lt_trans hlt (hy k hk)
          · apply ihx hxs hys
            intro k hk
            exact hdisjoint k (mem_cons_of_mem _ hk)
      · next hlt =>
          have hgt : cmp y x = .lt := by
            rw [← OrientedCmp.gt_iff_lt]
            cases hcmp : cmp x y with
            | lt => simp [less, hcmp] at hlt
            | eq =>
              obtain rfl := eq_of_compare hcmp
              exact absurd mem_cons_self (hdisjoint x mem_cons_self)
            | gt => rfl
          refine pairwise_cons.mpr ⟨?_, ?_⟩
          · intro k hk
            have hk : k ∈ merge (less cmp) (x :: xs) ys := hk
            rcases mem_merge.mp hk with hk | hk
            · rcases mem_cons.mp hk with rfl | hk
              · exact hgt
              · exact TransCmp.lt_trans hgt (hx k hk)
            · exact hy k hk
          · apply ihy hyss
            intro k hk hmem
            exact hdisjoint k hk (mem_cons_of_mem _ hmem)

/-- Two lists in order with the same members are the same. -/
theorem InOrder.eq_of_mem_iff {xs ys : List K} (hxs : InOrder cmp xs) (hys : InOrder cmp ys)
    (h : ∀ k, k ∈ xs ↔ k ∈ ys) : xs = ys := by
  have hirrefl : ∀ k, ¬ cmp k k = .lt := by
    intro k hk
    have hself : cmp k k = .eq := ReflCmp.compare_self
    rw [hself] at hk
    cases hk
  have hnodup : ∀ {l : List K}, InOrder cmp l → l.Nodup := by
    intro l hl
    refine hl.imp ?_
    intro a b hab heq
    subst heq
    exact hirrefl a hab
  refine List.Perm.eq_of_pairwise ?_ hxs hys
    ((perm_ext_iff_of_nodup (hnodup hxs) (hnodup hys)).mpr h)
  intro a b _ _ hab hba
  rw [← OrientedCmp.gt_iff_lt, hab] at hba
  cases hba

end Merge

end Overlay
