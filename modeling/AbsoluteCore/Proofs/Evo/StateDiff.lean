/-
The difference of two states says exactly where they differ.

Applied to the first state it gives the second one, it is empty only for equal states, and
it is read back from its bytes as it was written.
-/
import AbsoluteCore.Evo.Serialize

namespace Absolute

open StateField List

namespace StateField

theorem bit_and_bit (f g : StateField) : g.bit &&& f.bit ≠ 0 ↔ f = g := by
  cases f <;> cases g <;> decide

theorem bit_lt (f : StateField) : f.bit < 2 ^ 14 := by
  cases f <;> decide

def differing (a b : CDeterministicMNState) : List StateField :=
  all.filter fun f => f.get a ≠ f.get b

theorem mem_differing {a b : CDeterministicMNState} {f : StateField} :
    f ∈ differing a b ↔ f.get a ≠ f.get b := by
  simp [differing, mem_all]

end StateField

namespace CDeterministicMNStateDiff

theorem has_or (fields : Nat) (s t : CDeterministicMNState) (f g : StateField) :
    has { fields := fields ||| g.bit, state := s } f = true ↔
      f = g ∨ has { fields := fields, state := t } f = true := by
  have hsplit : (fields ||| g.bit) &&& f.bit = fields &&& f.bit ||| g.bit &&& f.bit :=
    Nat.and_or_distrib_right _ _ _
  rw [← bit_and_bit f g]
  simp only [has, hsplit, bne_iff_ne, ne_eq, Nat.or_eq_zero_iff]
  tauto

/-! ### Building a difference -/

theorem has_foldl_diffLine (a b : CDeterministicMNState) (fs : List StateField)
    (d : CDeterministicMNStateDiff) (g : StateField) :
    (fs.foldl (diffLine a b) d).has g = true ↔
      d.has g = true ∨ (g ∈ fs ∧ g.get a ≠ g.get b) := by
  induction fs generalizing d with
  | nil => simp
  | cons f fs ih =>
    rw [foldl_cons, ih]
    unfold diffLine
    by_cases hf : f.get a ≠ f.get b
    · rw [if_pos hf, has_or d.fields _ d.state]
      by_cases hg : g = f
      · subst hg
        simp [hf]
      · simp [hg]
    · rw [if_neg hf]
      by_cases hg : g = f
      · subst hg
        simp [hf]
      · simp [hg]

theorem state_foldl_diffLine (a b : CDeterministicMNState) (fs : List StateField)
    (d : CDeterministicMNStateDiff) :
    (fs.foldl (diffLine a b) d).state =
      copy (fs.filter fun f => f.get a ≠ f.get b) b d.state := by
  induction fs generalizing d with
  | nil => rfl
  | cons f fs ih =>
    rw [foldl_cons, ih]
    unfold diffLine
    by_cases hf : f.get a ≠ f.get b
    · simp [hf, copy]
    · simp [hf]

theorem fields_foldl_diffLine (a b : CDeterministicMNState) (fs : List StateField)
    (d : CDeterministicMNStateDiff) (hd : d.fields < 2 ^ 14) :
    (fs.foldl (diffLine a b) d).fields < 2 ^ 14 := by
  refine foldlRecOn (motive := fun d : CDeterministicMNStateDiff => d.fields < 2 ^ 14) fs _ hd
    fun d hd f _ => ?_
  unfold diffLine
  split
  · exact Nat.or_lt_two_pow hd f.bit_lt
  · exact hd

variable (a b : CDeterministicMNState)

theorem has_between (f : StateField) : (between a b).has f = true ↔ f.get a ≠ f.get b := by
  unfold between
  rw [has_foldl_diffLine]
  simp [has, mem_all]

theorem named_between : (between a b).named = differing a b := by
  unfold named differing
  congr 1
  funext f
  have h := has_between a b f
  by_cases hf : f.get a = f.get b <;> simp_all

theorem state_between : (between a b).state = copy (differing a b) b {} :=
  state_foldl_diffLine a b all {}

theorem fields_between_lt : (between a b).fields < 2 ^ 14 :=
  fields_foldl_diffLine a b all {} (by decide)

/-- The diff of two states has no fields exactly when they are one state. -/
theorem fields_between_eq_zero : (between a b).fields = 0 ↔ a = b := by
  constructor
  · intro hzero
    apply ext
    intro f
    by_contra hne
    have hhas := (has_between a b f).mpr hne
    simp [has, hzero] at hhas
  · intro hab
    subst hab
    unfold between
    have hline : ∀ fs : List StateField, fs.foldl (diffLine a a) {} = {} := by
      intro fs
      induction fs with
      | nil => rfl
      | cons f fs ih => simpa [diffLine] using ih
    rw [hline]

/-! ### Applying it -/

theorem applyToState_eq_copy (d : CDeterministicMNStateDiff) (target : CDeterministicMNState) :
    d.applyToState target = copy d.named d.state target := by
  unfold applyToState copy named applyLine
  rw [foldl_filter]

/-- The diff of two states takes the first to the second. -/
theorem applyToState_between : (between a b).applyToState a = b := by
  apply ext
  intro f
  rw [applyToState_eq_copy, get_copy, named_between, state_between, get_copy]
  by_cases hf : f ∈ differing a b
  · rw [if_pos hf, if_pos hf]
  · rw [if_neg hf]
    rw [mem_differing] at hf
    exact not_not.mp hf

/-- The diff of two states can be written and read back when the second state can. -/
theorem between_valid (hb : CDeterministicMNState.format.Valid b) :
    CDeterministicMNStateDiff.format.Valid (between a b) := by
  have hcopied : ∀ f ∈ differing a b, f.get (between a b).state = f.get b := by
    intro f hf
    rw [state_between, get_copy, if_pos hf]
  refine ⟨?_, ?_, ?_⟩
  · exact lt_trans (fields_between_lt a b) (by decide)
  · intro f hf
    rw [named_between] at hf
    rw [hcopied f hf]
    exact hb f
  · apply ext
    intro f
    rw [get_copy, named_between]
    split
    · rfl
    · next hf => rw [state_between, get_copy, if_neg hf]

end CDeterministicMNStateDiff

end Absolute
