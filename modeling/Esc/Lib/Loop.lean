import Mathlib

/-!
# Loops with early returns

A loop over a list whose body may fail is `List.foldlM` in `Except`. The error
value is the loop state at the failing check, so a failed loop is a successful run
over the transactions before the failing one followed by one failing step.

The rules below carry an invariant that may depend on the part of the list that
has been processed.
-/

namespace Lib

universe u v

variable {ε : Type u} {σ : Type u} {τ : Type v}

/-- Both computations of a successful sequence succeeded. -/
theorem bind_eq_ok {α β : Type u} {x : Except ε α} {f : α → Except ε β} {b : β}
    (h : (x >>= f) = .ok b) : ∃ a, x = .ok a ∧ f a = .ok b := by
  cases x with
  | error e => cases h
  | ok a => exact ⟨a, rfl, h⟩

/-- A failed sequence failed in its first or in its second computation. -/
theorem bind_eq_error {α β : Type u} {x : Except ε α} {f : α → Except ε β} {e : ε}
    (h : (x >>= f) = .error e) : x = .error e ∨ ∃ a, x = .ok a ∧ f a = .error e := by
  cases x with
  | error e' =>
      cases h
      exact Or.inl rfl
  | ok a => exact Or.inr ⟨a, rfl, h⟩

/-- The computation succeeds with a result that passes a test. -/
def succeeds {α : Type u} (x : Except ε α) (p : α → Bool) : Bool :=
  match x with
  | .ok a => p a
  | .error _ => false

theorem exists_of_succeeds {α : Type u} {x : Except ε α} {p : α → Bool} (h : succeeds x p) :
    ∃ a, x = .ok a ∧ p a := by
  cases x with
  | error e => cases h
  | ok a => exact ⟨a, rfl, h⟩

/-- What holds of the result of a computation, whichever way it ends. -/
def Both {α : Type u} (p : ε → Prop) (q : α → Prop) : Except ε α → Prop
  | .error e => p e
  | .ok a => q a

theorem Both.error {α : Type u} {p : ε → Prop} {q : α → Prop} {x : Except ε α} {e : ε}
    (hboth : Both p q x) (h : x = .error e) : p e := by
  subst h
  exact hboth

theorem Both.ok {α : Type u} {p : ε → Prop} {q : α → Prop} {x : Except ε α} {a : α}
    (hboth : Both p q x) (h : x = .ok a) : q a := by
  subst h
  exact hboth

theorem Both.bind {α β : Type u} {p : ε → Prop} {q : α → Prop} {r : β → Prop}
    {x : Except ε α} {f : α → Except ε β} (hx : Both p q x) (hf : ∀ a, q a → Both p r (f a)) :
    Both p r (x >>= f) := by
  cases x with
  | error e => exact hx
  | ok a => exact hf a hx

theorem Both.foldlM {p : ε → Prop} {q : σ → Prop} {f : σ → τ → Except ε σ} {xs : List τ} {s : σ}
    (hinit : q s) (hstep : ∀ t ∈ xs, ∀ s, q s → Both p q (f s t)) : Both p q (xs.foldlM f s) := by
  induction xs generalizing s with
  | nil => exact hinit
  | cons t xs ih =>
      rw [List.foldlM_cons]
      refine (hstep t List.mem_cons_self s hinit).bind fun s₁ hs₁ => ?_
      exact ih hs₁ fun t' ht' => hstep t' (List.mem_cons_of_mem _ ht')

/-- Invariant rule for a loop that ran to its end. -/
theorem foldlM_invariant {f : σ → τ → Except ε σ} (P : List τ → σ → Prop) {xs : List τ}
    {s s' : σ} (hinit : P [] s)
    (hstep : ∀ pre t post s s', pre ++ t :: post = xs → P pre s → f s t = .ok s' →
      P (pre ++ [t]) s')
    (h : xs.foldlM f s = .ok s') : P xs s' := by
  suffices hgen : ∀ (post pre : List τ) (s : σ), pre ++ post = xs → P pre s →
      post.foldlM f s = .ok s' → P xs s' from hgen xs [] s rfl hinit h
  intro post
  induction post with
  | nil =>
      intro pre s hxs hp hrun
      rw [List.append_nil] at hxs
      cases hrun
      exact hxs ▸ hp
  | cons t post ih =>
      intro pre s hxs hp hrun
      rw [List.foldlM_cons] at hrun
      obtain ⟨s₁, hfirst, hrest⟩ := bind_eq_ok hrun
      refine ih (pre ++ [t]) s₁ ?_ (hstep pre t post s s₁ hxs hp hfirst) hrest
      rw [List.append_assoc, List.singleton_append, hxs]

/-- The same rule for an invariant that speaks of the elements still to come. -/
theorem foldlM_remaining {f : σ → τ → Except ε σ} (P : List τ → σ → Prop)
    (hstep : ∀ t post s s', P (t :: post) s → f s t = .ok s' → P post s') {xs : List τ} {s s' : σ}
    (hinit : P xs s) (h : xs.foldlM f s = .ok s') : P [] s' := by
  induction xs generalizing s with
  | nil =>
      cases h
      exact hinit
  | cons t xs ih =>
      rw [List.foldlM_cons] at h
      obtain ⟨s₁, hfirst, hrest⟩ := bind_eq_ok h
      exact ih (hstep t xs s s₁ hinit hfirst) hrest

/-- The rule for steps about which something is known where the loop reaches them. -/
theorem foldlM_reached {f : σ → τ → Except ε σ} (P : σ → Prop) {xs : List τ} {s s' : σ}
    (hinit : P s)
    (hstep : ∀ pre t post s₁ s₂, xs = pre ++ t :: post → pre.foldlM f s = .ok s₁ → P s₁ →
      f s₁ t = .ok s₂ → P s₂)
    (h : xs.foldlM f s = .ok s') : P s' := by
  induction xs generalizing s with
  | nil =>
      cases h
      exact hinit
  | cons t xs ih =>
      rw [List.foldlM_cons] at h
      obtain ⟨s₁, hfirst, hrest⟩ := bind_eq_ok h
      refine ih (hstep [] t xs s s₁ rfl rfl hinit hfirst) ?_ hrest
      rintro pre t' post s₂ s₃ hxs hrun
      refine hstep (t :: pre) t' post s₂ s₃ (by rw [hxs, List.cons_append]) ?_
      rw [List.foldlM_cons, hfirst]
      exact hrun

/-- A loop runs to its end when every step from a state it reaches succeeds. -/
theorem foldlM_total {f : σ → τ → Except ε σ} (P : σ → Prop) {xs : List τ} {s : σ} (hinit : P s)
    (hstep : ∀ pre t post s₁, xs = pre ++ t :: post → pre.foldlM f s = .ok s₁ → P s₁ →
      ∃ s₂, f s₁ t = .ok s₂ ∧ P s₂) : ∃ s', xs.foldlM f s = .ok s' ∧ P s' := by
  induction xs generalizing s with
  | nil => exact ⟨s, rfl, hinit⟩
  | cons t xs ih =>
      obtain ⟨s₁, hfirst, hp⟩ := hstep [] t xs s rfl rfl hinit
      obtain ⟨s', hrest, hp'⟩ := ih hp fun pre t' post s₂ hxs hrun =>
        hstep (t :: pre) t' post s₂ (by rw [hxs, List.cons_append])
          (by rw [List.foldlM_cons, hfirst]; exact hrun)
      refine ⟨s', ?_, hp'⟩
      rw [List.foldlM_cons, hfirst]
      exact hrest

/-- A loop that failed did so at some element, after a successful run before it. -/
theorem foldlM_eq_error {f : σ → τ → Except ε σ} {xs : List τ} {s : σ} {e : ε}
    (h : xs.foldlM f s = .error e) :
    ∃ pre t post s₁, xs = pre ++ t :: post ∧ pre.foldlM f s = .ok s₁ ∧ f s₁ t = .error e := by
  induction xs generalizing s with
  | nil => cases h
  | cons t xs ih =>
      rw [List.foldlM_cons] at h
      rcases bind_eq_error h with hfail | ⟨s₁, hfirst, hrest⟩
      · exact ⟨[], t, xs, s, rfl, rfl, hfail⟩
      · obtain ⟨pre, t', post, s₂, rfl, hrun, hfail⟩ := ih hrest
        refine ⟨t :: pre, t', post, s₂, rfl, ?_, hfail⟩
        rw [List.foldlM_cons, hfirst]
        exact hrun

/-- Invariant rule for a loop without early return. -/
theorem foldl_invariant {f : σ → τ → σ} (P : List τ → σ → Prop) {xs : List τ} {s : σ}
    (hinit : P [] s)
    (hstep : ∀ pre t post s, pre ++ t :: post = xs → P pre s → P (pre ++ [t]) (f s t)) :
    P xs (xs.foldl f s) := by
  suffices hgen : ∀ (post pre : List τ) (s : σ), pre ++ post = xs → P pre s →
      P xs (post.foldl f s) from hgen xs [] s rfl hinit
  intro post
  induction post with
  | nil =>
      intro pre s hxs hp
      rw [List.append_nil] at hxs
      exact hxs ▸ hp
  | cons t post ih =>
      intro pre s hxs hp
      refine ih (pre ++ [t]) (f s t) ?_ (hstep pre t post s hxs hp)
      rw [List.append_assoc, List.singleton_append, hxs]

/-- Invariant rule for a loop that may stop, where the position does not matter. -/
theorem foldlM_option_invariant {σ τ : Type u} {f : σ → τ → Option σ} (P : σ → Prop) {xs : List τ}
    {s s' : σ} (hinit : P s) (hstep : ∀ t ∈ xs, ∀ s s', P s → f s t = some s' → P s')
    (h : xs.foldlM f s = some s') : P s' := by
  induction xs generalizing s with
  | nil =>
      cases h
      exact hinit
  | cons t xs ih =>
      rw [List.foldlM_cons] at h
      obtain ⟨s₁, hfirst, hrest⟩ := Option.bind_eq_some_iff.mp h
      refine ih (hstep t List.mem_cons_self s s₁ hinit hfirst) ?_ hrest
      exact fun t ht => hstep t (List.mem_cons_of_mem _ ht)

/-- Invariant rule for a loop that may stop, with the reason for which it does. -/
theorem foldlM_option_run {σ τ : Type u} {f : σ → τ → Option σ} (P : List τ → σ → Prop) {Q : Prop}
    {xs : List τ} {s : σ} (hinit : P [] s)
    (hstep : ∀ pre t post s, pre ++ t :: post = xs → P pre s →
      (∃ s', f s t = some s' ∧ P (pre ++ [t]) s') ∨ f s t = none ∧ Q) :
    (∃ s', xs.foldlM f s = some s' ∧ P xs s') ∨ xs.foldlM f s = none ∧ Q := by
  suffices hgen : ∀ (post pre : List τ) (s : σ), pre ++ post = xs → P pre s →
      (∃ s', post.foldlM f s = some s' ∧ P xs s') ∨ post.foldlM f s = none ∧ Q from
    hgen xs [] s rfl hinit
  intro post
  induction post with
  | nil =>
      intro pre s hxs hp
      rw [List.append_nil] at hxs
      exact Or.inl ⟨s, rfl, hxs ▸ hp⟩
  | cons t post ih =>
      intro pre s hxs hp
      rw [List.foldlM_cons]
      rcases hstep pre t post s hxs hp with ⟨s₁, hfirst, hp₁⟩ | ⟨hfirst, hq⟩
      · rw [hfirst]
        exact ih (pre ++ [t]) s₁ (by rw [← hxs, List.append_assoc]; rfl) hp₁
      · rw [hfirst]
        exact Or.inr ⟨rfl, hq⟩

/-- What a run of total steps keeps, each step with the run before it. -/
theorem foldl_reached {σ τ : Type u} {f : σ → τ → σ} (P : σ → Prop) {xs : List τ} {s : σ}
    (hinit : P s)
    (hstep : ∀ pre t post, xs = pre ++ t :: post → P (pre.foldl f s) → P (f (pre.foldl f s) t)) :
    P (xs.foldl f s) := by
  induction xs generalizing s with
  | nil => exact hinit
  | cons t xs ih =>
      refine ih (hstep [] t xs rfl hinit) ?_
      intro pre t' post hxs
      exact hstep (t :: pre) t' post (by rw [hxs, List.cons_append])

end Lib
