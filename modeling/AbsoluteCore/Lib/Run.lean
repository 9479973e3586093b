/-
Runs of a labelled transition system.

A run is kept with the trace of its steps, each as the state before it, its label
and the state after it, so that a property of single steps can be read off every
place of the run at once.
-/
import AbsoluteCore.Lib.Fallible

namespace Lts

open List Option Fallible

variable {ε α β σ : Type}

/-- `Run step s tr t`: the steps of `tr` lead from `s` to `t`. -/
inductive Run (step : σ → α → σ → Prop) : σ → List (σ × α × σ) → σ → Prop
  | nil (s : σ) : Run step s [] s
  | cons {s s' t : σ} {a : α} {tr : List (σ × α × σ)} (h : step s a s')
      (rest : Run step s' tr t) : Run step s ((s, a, s') :: tr) t

namespace Run

variable {step : σ → α → σ → Prop} {s t u : σ} {tr tr' : List (σ × α × σ)} {f : σ → β → Except ε σ}

theorem append (h : Run step s tr t) (h' : Run step t tr' u) : Run step s (tr ++ tr') u := by
  induction h with
  | nil s => exact h'
  | cons hstep _ ih => exact .cons hstep (ih h')

theorem single {a : α} (h : step s a t) : Run step s [(s, a, t)] t :=
  .cons h (.nil t)

theorem exists_of_append {s u : σ} (h : Run step s (tr ++ tr') u) :
    ∃ t, Run step s tr t ∧ Run step t tr' u := by
  induction tr generalizing s with
  | nil => exact ⟨s, .nil s, h⟩
  | cons x rest ih =>
    cases h with
    | cons hstep hrest =>
      obtain ⟨t, hrun, hrun'⟩ := ih hrest
      exact ⟨t, .cons hstep hrun, hrun'⟩

/-- A property of all steps of a run can be made part of its steps. -/
theorem and_mem {P : σ × α × σ → Prop} (h : Run step s tr t) (hP : ∀ x ∈ tr, P x) :
    Run (fun s a s' => step s a s' ∧ P (s, a, s')) s tr t := by
  induction h with
  | nil s => exact .nil s
  | cons hst _ ih =>
    exact .cons ⟨hst, hP _ (by simp)⟩ (ih fun x hx => hP x (mem_cons_of_mem _ hx))

/-- Steps of one system that are steps of another one, under other labels. -/
theorem relabel {step' : σ → β → σ → Prop} (g : α → β)
    (hstep : ∀ s a s', step s a s' → step' s (g a) s') (h : Run step s tr t) :
    Run step' s (tr.map fun x => (x.1, g x.2.1, x.2.2)) t := by
  induction h with
  | nil s => exact .nil s
  | cons hst _ ih => exact .cons (hstep _ _ _ hst) ih

/-- The image of a run, under a map of states that takes its steps to steps. -/
theorem map {τ : Type} {step' : τ → β → τ → Prop} (f : σ → τ) (g : σ × α × σ → β)
    (h : Run step s tr t) (hstep : ∀ x ∈ tr, step' (f x.1) (g x) (f x.2.2)) :
    Run step' (f s) (tr.map fun x => (f x.1, g x, f x.2.2)) (f t) := by
  induction h with
  | nil s => exact .nil (f s)
  | cons hst _ ih =>
    exact .cons (hstep _ mem_cons_self)
      (ih fun x hx => hstep x (mem_cons_of_mem _ hx))

/-- An invariant of the steps holds at the end of a run, and before each of its steps. -/
theorem invariant (I : σ → Prop) (hstep : ∀ s a s', I s → step s a s' → I s') (h : Run step s tr t)
    (hs : I s) : I t ∧ ∀ x ∈ tr, I x.1 ∧ step x.1 x.2.1 x.2.2 := by
  induction h with
  | nil s => exact ⟨hs, by simp⟩
  | @cons s s' t a tr hst _ ih =>
    obtain ⟨ht, hmem⟩ := ih (hstep s a s' hs hst)
    refine ⟨ht, fun x hx => ?_⟩
    rcases mem_cons.mp hx with rfl | hx
    · exact ⟨hs, hst⟩
    · exact hmem x hx

/-- A measure that every step lowers bounds the length of a run. -/
theorem length_le (μ : σ → Nat) (hstep : ∀ s a s', step s a s' → μ s' < μ s) (h : Run step s tr t) :
    tr.length + μ t ≤ μ s := by
  induction h with
  | nil s => simp
  | cons hst _ ih =>
    have hlt := hstep _ _ _ hst
    rw [length_cons]
    omega

/-- With such a measure every state leads to one where no step is possible. -/
theorem exists_terminal (μ : σ → Nat) (hstep : ∀ s a s', step s a s' → μ s' < μ s) (s) :
    ∃ tr t, Run step s tr t ∧ ∀ a t', ¬step t a t' := by
  induction hn : μ s using Nat.strong_induction_on generalizing s with
  | _ n ih =>
    by_cases hterminal : ∀ a t', ¬step s a t'
    · exact ⟨[], s, .nil s, hterminal⟩
    · push Not at hterminal
      obtain ⟨a, s', hst⟩ := hterminal
      obtain ⟨tr, t, hrun, hend⟩ := ih (μ s') (hn ▸ hstep s a s' hst) s' rfl
      exact ⟨_, t, .cons hst hrun, hend⟩

/-- A successful loop is a run whose labels are the elements it went through. -/
theorem of_foldlM {f : σ → α → Except ε σ} :
    ∀ (xs : List α) (s t : σ), xs.foldlM f s = .ok t →
      ∃ tr, Run (fun s a s' => f s a = .ok s') s tr t ∧ tr.map (fun x => x.2.1) = xs := by
  intro xs
  induction xs with
  | nil =>
    intro s t h
    rw [foldlM_nil, pure_eq_ok] at h
    exact ⟨[], h ▸ .nil s, rfl⟩
  | cons x rest ih =>
    intro s t h
    rw [foldlM_cons, bind_eq_ok] at h
    obtain ⟨s', hx, hrest⟩ := h
    obtain ⟨tr, hrun, hmap⟩ := ih s' t hrest
    exact ⟨(s, x, s') :: tr, .cons hx hrun, by simp [hmap]⟩

/-- A successful loop is a run when every pass through its body is one. -/
theorem of_foldlM_done (I : List β → σ → Prop) (xs : List β) (s t)
    (hbody : ∀ done x todo, xs = done ++ x :: todo → ∀ u u', I done u → f u x = .ok u' →
      I (done ++ [x]) u' ∧ ∃ tr, Run step u tr u')
    (hs : I [] s) (h : xs.foldlM f s = .ok t) : I xs t ∧ ∃ tr, Run step s tr t := by
  have hends : Ends (fun u => I xs u ∧ ∃ tr, Run step s tr u) (fun _ => True) (xs.foldlM f s) := by
    refine Ends.foldlM (fun done u => I done u ∧ ∃ tr, Run step s tr u) ?_ ⟨hs, [], .nil s⟩
    rintro done x todo hxs u ⟨hu, tr, hrun⟩
    cases hx : f u x with
    | error e => trivial
    | ok u' =>
      obtain ⟨hu', tr', hrun'⟩ := hbody done x todo hxs u u' hu hx
      exact ⟨hu', tr ++ tr', hrun.append hrun'⟩
  exact hends.of_ok h

/-- The same for an invariant that does not look at the elements that have been passed. -/
theorem of_foldlM_inv (I : σ → Prop) (xs : List β) (s t)
    (hbody : ∀ x ∈ xs, ∀ u u', I u → f u x = .ok u' → I u' ∧ ∃ tr, Run step u tr u')
    (hs : I s) (h : xs.foldlM f s = .ok t) : I t ∧ ∃ tr, Run step s tr t :=
  of_foldlM_done (fun _ => I) xs s t
    (fun done x todo hxs u u' hu hx => hbody x (by rw [hxs]; simp) u u' hu hx) hs h

/-- The state after a step that is possible and does not fail. -/
def attempt (possible : σ → α → Prop) [∀ s a, Decidable (possible s a)] (apply : σ → α → Except ε σ)
    (s : σ) (a : α) : Option σ :=
  if possible s a then (apply s a).toOption else none

theorem attempt_eq_some {possible : σ → α → Prop} [∀ s a, Decidable (possible s a)]
    {apply : σ → α → Except ε σ} (s) (a : α) (s' : σ)
    (h : attempt possible apply s a = some s') : possible s a ∧ apply s a = .ok s' := by
  unfold attempt at h
  split_ifs at h with hpossible
  exact ⟨hpossible, toOption_eq_some.mp h⟩

/-- Takes the labels one after the other, and puts the last state to a test. -/
def replay (next : σ → α → Option σ) (test : σ → Bool) : σ → List α → Bool
  | s, [] => test s
  | s, a :: rest => (next s a).any fun s' => replay next test s' rest

theorem of_replay {next : σ → α → Option σ} {test : σ → Bool}
    (hnext : ∀ s a s', next s a = some s' → step s a s') :
    ∀ (labels : List α) (s : σ), replay next test s labels = true →
      ∃ tr t, Run step s tr t ∧ tr.map (fun x => x.2.1) = labels ∧ test t = true := by
  intro labels
  induction labels with
  | nil => exact fun s h => ⟨[], s, .nil s, rfl, h⟩
  | cons a rest ih =>
    intro s h
    obtain ⟨s', hs', hrest⟩ := (any_eq_true _ _).mp h
    obtain ⟨tr, t, hrun, hlabels, htest⟩ := ih s' hrest
    exact ⟨_, t, .cons (hnext _ _ _ hs') hrun, by rw [map_cons, hlabels], htest⟩

end Run

end Lts
