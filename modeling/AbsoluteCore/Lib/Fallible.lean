/-
Reasoning about code that can fail.

The modelled functions return in `Except`, and their loops are `List.foldlM`.  The
lemmas here take such a computation apart: what a successful bind did, where a
failing loop failed, and what a loop preserves when every pass through its body
does.
-/
import Mathlib

namespace Fallible

open List Option Except

variable {ε α β σ γ : Type} {x : Except ε α} {f : α → Except ε β} {e : ε} {a : α} {ys : List β}
  {xs : List α} {k : α → γ}

/-- A bind succeeds when both of its halves do. -/
theorem bind_eq_ok {b : β} : (x >>= f) = .ok b ↔ ∃ a, x = .ok a ∧ f a = .ok b := by
  cases x with
  | error e => simp [bind, Except.bind]
  | ok a => simp [bind, Except.bind]

theorem bind_eq_error : (x >>= f) = .error e ↔ x = .error e ∨ ∃ a, x = .ok a ∧ f a = .error e := by
  cases x with
  | error e => simp [bind, Except.bind]
  | ok a => simp [bind, Except.bind]

@[simp] theorem pure_eq_ok {b : α} : (pure a : Except ε α) = .ok b ↔ a = b := by
  simp [pure, Except.pure]

@[simp] theorem ok_bind (a : α) (f : α → Except ε β) : ((.ok a : Except ε α) >>= f) = f a := rfl

@[simp] theorem error_bind (e : ε) (f : α → Except ε β) :
    ((.error e : Except ε α) >>= f) = .error e := rfl

theorem toOption_eq_some : x.toOption = some a ↔ x = .ok a := by
  cases x <;> simp [Except.toOption]

theorem any_toOption {p : α → Bool} : x.toOption.any p = true ↔ ∃ a, x = .ok a ∧ p a = true := by
  cases x with
  | error e => simp [Except.toOption]
  | ok a => simp [Except.toOption]

/-- A loop that collects results succeeds when every pass does. -/
theorem mapM_eq_ok : xs.mapM f = .ok ys ↔ List.Forall₂ (fun x y => f x = .ok y) xs ys := by
  induction xs generalizing ys with
  | nil =>
    rw [mapM_nil, pure_eq_ok, forall₂_nil_left_iff]
    exact eq_comm
  | cons x rest ih =>
    simp only [mapM_cons, bind_eq_ok, pure_eq_ok, forall₂_cons_left_iff, ih]
    constructor
    · rintro ⟨y, hy, ys', hrest, rfl⟩
      exact ⟨y, ys', hy, hrest, rfl⟩
    · rintro ⟨y, ys', hy, hrest, rfl⟩
      exact ⟨y, hy, ys', hrest, rfl⟩

theorem mapM_eq_some {f : α → Option β} : xs.mapM f = some ys ↔ xs.map f = ys.map some := by
  induction xs generalizing ys with
  | nil => cases ys <;> simp
  | cons x rest ih =>
    rw [mapM_cons, map_cons]
    cases hx : f x with
    | none => cases ys <;> simp
    | some y =>
      simp only [bind_eq_bind, bind_some, bind_eq_some_iff, ih,
        Option.pure_def, some.injEq]
      constructor
      · rintro ⟨zs, hzs, rfl⟩
        rw [hzs]
        rfl
      · intro h
        cases ys with
        | nil => exact absurd h (by simp)
        | cons z zs =>
          obtain ⟨hz, hrest⟩ := List.cons.inj h
          obtain rfl := some.inj hz
          exact ⟨zs, hrest, rfl⟩

theorem mapM_map_ok {f : β → Except ε γ} {g : α → β}
    (h : ∀ x ∈ xs, f (g x) = .ok (k x)) : (xs.map g).mapM f = .ok (xs.map k) := by
  induction xs with
  | nil => rfl
  | cons x rest ih =>
    rw [map_cons, mapM_cons, h x mem_cons_self, ok_bind, ih fun y hy => h y (mem_cons_of_mem _ hy)]
    rfl

theorem mapM_ok {k : α → β} (h : ∀ x ∈ xs, f x = .ok (k x)) : xs.mapM f = .ok (xs.map k) := by
  have hid : (xs.map id).mapM f = .ok (xs.map k) := mapM_map_ok h
  rwa [List.map_id] at hid

/-- A loop whose passes succeed as before gives what it gave before. -/
theorem mapM_ok_imp {g : α → Except ε β}
    (h : ∀ x ∈ xs, ∀ y, f x = .ok y → g x = .ok y) (hf : xs.mapM f = .ok ys) :
    xs.mapM g = .ok ys := by
  rw [mapM_eq_ok] at hf ⊢
  induction hf with
  | nil => exact .nil
  | cons hx _ ih =>
    exact .cons (h _ mem_cons_self _ hx) (ih fun x hx => h x (mem_cons_of_mem _ hx))

/-- A quantity that each pass fixes can be read off the results. -/
theorem mapM_map_eq {g : β → γ}
    (h : xs.mapM f = .ok ys) (hg : ∀ x ∈ xs, ∀ y, f x = .ok y → g y = k x) :
    ys.map g = xs.map k := by
  rw [mapM_eq_ok] at h
  induction h with
  | nil => rfl
  | cons hxy _ ih =>
    rw [map_cons, map_cons, hg _ mem_cons_self _ hxy, ih fun x hx => hg x (mem_cons_of_mem _ hx)]

/-- Each result stands where its argument stood. -/
theorem mapM_getElem? (h : xs.mapM f = .ok ys)
    {i : Nat} {x : α} (hx : xs[i]? = some x) : ∃ y, ys[i]? = some y ∧ f x = .ok y := by
  rw [mapM_eq_ok] at h
  induction h generalizing i with
  | nil => simp at hx
  | cons hxy _ ih =>
    cases i with
    | zero => exact ⟨_, rfl, some.inj hx ▸ hxy⟩
    | succ i => exact ih hx

theorem mapM_mem (h : xs.mapM f = .ok ys) :
    (∀ x ∈ xs, ∃ y ∈ ys, f x = .ok y) ∧ ∀ y ∈ ys, ∃ x ∈ xs, f x = .ok y := by
  rw [mapM_eq_ok] at h
  induction h with
  | nil => simp
  | @cons x y xs ys hxy _ ih =>
    refine ⟨?_, ?_⟩
    · intro z hz
      rcases mem_cons.mp hz with rfl | hz
      · exact ⟨y, mem_cons_self, hxy⟩
      · obtain ⟨w, hw, heq⟩ := ih.1 z hz
        exact ⟨w, mem_cons_of_mem _ hw, heq⟩
    · intro w hw
      rcases mem_cons.mp hw with rfl | hw
      · exact ⟨x, mem_cons_self, hxy⟩
      · obtain ⟨z, hz, heq⟩ := ih.2 w hw
        exact ⟨z, mem_cons_of_mem _ hz, heq⟩

/-- A loop with a pass that fails has no results. -/
theorem mapM_ne_ok {x : α} (hmem : x ∈ xs) (hx : f x = .error e) (ys) : xs.mapM f ≠ .ok ys := by
  intro h
  obtain ⟨y, -, hy⟩ := (mapM_mem h).1 x hmem
  rw [hx] at hy
  cases hy

theorem exists_mapM_eq_ok : (∃ ys, xs.mapM f = .ok ys) ↔ ∀ x ∈ xs, ∃ y, f x = .ok y := by
  constructor
  · rintro ⟨ys, h⟩ x hx
    obtain ⟨y, -, hy⟩ := (mapM_mem h).1 x hx
    exact ⟨y, hy⟩
  · intro h
    induction xs with
    | nil => exact ⟨[], rfl⟩
    | cons x rest ih =>
      obtain ⟨y, hy⟩ := h x mem_cons_self
      obtain ⟨ys, hys⟩ := ih fun z hz => h z (mem_cons_of_mem _ hz)
      exact ⟨y :: ys, by rw [mapM_cons, hy, ok_bind, hys]; rfl⟩

/-! ### Loops -/

/-- The code ends in a state with `P` or fails with `Q`. -/
def Ends (P : σ → Prop) (Q : ε → Prop) : Except ε σ → Prop
  | .ok s => P s
  | .error e => Q e

namespace Ends

variable {P P' : σ → Prop} {Q Q' : ε → Prop} {x : Except ε σ} {R : β → Prop} {f : σ → Except ε β}
  {s : σ}

theorem imp (h : Ends P Q x) (hP : ∀ s, P s → P' s) (hQ : ∀ e, Q e → Q' e) : Ends P' Q' x := by
  cases x with
  | ok s => exact hP s h
  | error e => exact hQ e h

theorem bind (h : Ends P Q x) (hP : ∀ s, P s → Ends R Q' (f s))
    (hQ : ∀ e, Q e → Q' e) : Ends R Q' (x >>= f) := by
  cases x with
  | ok s => exact hP s h
  | error e => exact hQ e h

theorem bind_any (x)
    (h : ∀ s, Ends R (fun _ => True) (f s)) : Ends R (fun _ => True) (x >>= f) := by
  cases x with
  | ok s => exact h s
  | error e => trivial

theorem of_ok (h : Ends P Q x) (hx : x = .ok s) : P s := by
  rw [hx] at h
  exact h

theorem exists_ok (h : Ends P Q x) (hQ : ∀ e, ¬ Q e) : ∃ s, x = .ok s ∧ P s := by
  cases x with
  | ok s => exact ⟨s, rfl, h⟩
  | error e => exact absurd h (hQ e)

/-- What a loop has passed, where it ends and where it fails. -/
theorem foldlM {f : σ → α → Except ε σ} (P : List α → σ → Prop) {xs : List α}
    (hstep : ∀ done x todo, xs = done ++ x :: todo → ∀ t, P done t →
      Ends (P (done ++ [x])) Q (f t x)) (hs : P [] s) : Ends (P xs) Q (xs.foldlM f s) := by
  have hloop : ∀ (todo done : List α) (t : σ), xs = done ++ todo → P done t →
      Ends (P xs) Q (todo.foldlM f t) := by
    intro todo
    induction todo with
    | nil =>
      intro done t hxs ht
      rw [append_nil] at hxs
      exact hxs ▸ ht
    | cons x rest ih =>
      intro done t hxs ht
      exact (hstep done x rest hxs t ht).bind (fun t' ht' => ih _ t' (by simpa using hxs) ht')
        fun _ he => he
  exact hloop xs [] s rfl hs

end Ends

/-! ### Code that asks for something -/

/-- The code ends in a state with `P` if `c` holds, and fails with `e` if it does not. -/
def Decides (e : ε) (c : Prop) (P : σ → Prop) : Except ε σ → Prop :=
  Ends (fun s => c ∧ P s) fun e' => ¬c ∧ e' = e

namespace Decides

variable {e : ε} {c d : Prop} {P P' : σ → Prop} {x : Except ε σ} {R : β → Prop}

theorem of_ok {s : σ} (h : Decides e c P x) (hx : x = .ok s) : c ∧ P s := by
  subst hx
  exact h

theorem exists_ok (h : Decides e c P x) (hc : c) : ∃ s, x = .ok s ∧ P s := by
  cases x with
  | ok s => exact ⟨s, rfl, h.2⟩
  | error e' => exact absurd hc h.1

theorem eq_error (h : Decides e c P x) (hc : ¬c) : x = .error e := by
  cases x with
  | ok s => exact absurd h.1 hc
  | error e' => rw [h.2]

theorem imp (h : Decides e c P x) (hc : c ↔ d) (hP : ∀ s, x = .ok s → d → P s → P' s) :
    Decides e d P' x := by
  cases x with
  | ok s => exact ⟨hc.mp h.1, hP s rfl (hc.mp h.1) h.2⟩
  | error e' => exact ⟨fun hd => h.1 (hc.mpr hd), h.2⟩

theorem map {f : σ → β} (h : Decides e c P x) (hR : ∀ s, c → P s → R (f s)) :
    Decides e c R (x >>= fun s => pure (f s)) := by
  cases x with
  | ok s => exact ⟨h.1, hR s h.1 h.2⟩
  | error e' => exact h

theorem bind {f : σ → Except ε β} (h : Decides e c P x)
    (hf : ∀ s, c → P s → Decides e d R (f s)) : Decides e (c ∧ d) R (x >>= f) := by
  cases x with
  | ok s => exact (hf s h.1 h.2).imp (and_iff_right h.1).symm fun _ _ _ hr => hr
  | error e' => exact ⟨fun hcd => h.1 hcd.1, h.2⟩

end Decides

/-- What every pass through the body preserves holds when the loop is done. -/
theorem foldlM_inv {f : σ → α → Except ε σ} (P : σ → Prop) (xs : List α) (s s' : σ)
    (hstep : ∀ x ∈ xs, ∀ t t', P t → f t x = .ok t' → P t') (hs : P s)
    (h : xs.foldlM f s = .ok s') : P s' := by
  have hends : Ends P (fun _ => True) (xs.foldlM f s) := by
    refine Ends.foldlM (fun _ => P) ?_ hs
    intro done x todo hxs t ht
    cases hx : f t x with
    | ok t' => exact hstep x (by simp [hxs]) t t' ht hx
    | error e => trivial
  exact hends.of_ok h

/-- A loop whose passes each add something to `g` adds their sum. -/
theorem foldlM_sum {f : σ → α → Except ε σ} (g : σ → Int) (w : α → Int) {xs : List α} {s s' : σ}
    (hstep : ∀ t x t', f t x = .ok t' → g t' = g t + w x) (h : xs.foldlM f s = .ok s') :
    g s' = g s + (xs.map w).sum := by
  induction xs generalizing s with
  | nil =>
    rw [foldlM_nil, pure_eq_ok] at h
    simp [h]
  | cons x xs ih =>
    rw [foldlM_cons, bind_eq_ok] at h
    obtain ⟨t, ht, h⟩ := h
    rw [ih h, hstep s x t ht, map_cons, sum_cons, add_assoc]

/-- A loop whose body cannot fail under its invariant does not fail; the invariant may know which
elements have been passed. -/
theorem foldlM_ok_done {f : σ → α → Except ε σ} (P : List α → σ → Prop) (xs) (s : σ)
    (hstep : ∀ done x todo, xs = done ++ x :: todo → ∀ t, P done t →
      ∃ t', f t x = .ok t' ∧ P (done ++ [x]) t')
    (hs : P [] s) : ∃ s', xs.foldlM f s = .ok s' ∧ P xs s' := by
  have hends : Ends (P xs) (fun _ => False) (xs.foldlM f s) := by
    refine Ends.foldlM P ?_ hs
    intro done x todo hxs t ht
    obtain ⟨t', hx, ht'⟩ := hstep done x todo hxs t ht
    rw [hx]
    exact ht'
  exact hends.exists_ok fun _ he => he

theorem foldlM_ok {f : σ → α → Except ε σ} (P : σ → Prop) (xs : List α) (s : σ)
    (hstep : ∀ x ∈ xs, ∀ t, P t → ∃ t', f t x = .ok t' ∧ P t') (hs : P s) :
    ∃ s', xs.foldlM f s = .ok s' ∧ P s' :=
  foldlM_ok_done (fun _ => P) xs s (fun done x todo hxs => hstep x (by simp [hxs])) hs

/-- A failing loop failed in one pass, and every pass before that one went through. -/
theorem foldlM_error {f : σ → α → Except ε σ} : ∀ (xs : List α) (s : σ), xs.foldlM f s = .error e →
      ∃ pre x post t, xs = pre ++ x :: post ∧ pre.foldlM f s = .ok t ∧ f t x = .error e := by
  intro xs
  induction xs with
  | nil => intro s h; simp [pure, Except.pure] at h
  | cons x rest ih =>
    intro s h
    rw [foldlM_cons, bind_eq_error] at h
    rcases h with hx | ⟨t, hx, hrest⟩
    · exact ⟨[], x, rest, s, rfl, rfl, hx⟩
    · obtain ⟨pre, y, post, u, rfl, hpre, hy⟩ := ih t hrest
      refine ⟨x :: pre, y, post, u, rfl, ?_, hy⟩
      rw [foldlM_cons, hx, ok_bind, hpre]

/-- Conversely, where a pass fails after the ones before it went through, the loop fails. -/
theorem foldlM_append_error {f : σ → α → Except ε σ} {pre : List α} {s t : σ} {x : α}
    (hpre : pre.foldlM f s = .ok t) (hx : f t x = .error e) (post : List α) :
    (pre ++ x :: post).foldlM f s = .error e := by
  rw [foldlM_append, hpre, ok_bind, foldlM_cons, hx, error_bind]

end Fallible
