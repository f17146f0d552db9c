import Mathlib.Logic.Relation

/-!
# Two parties on a link

A party sends symbols, waits for a number of symbols, and ends with a result or leaves. Two parties
are joined by two queues, one in each direction, and take their steps in any order.

A step of one party does not disturb a step of the other. So when one run of the two comes to an
end, every run does, after the same number of steps and in the same state.
-/

namespace Lib

universe u v

/-- The program of a party. -/
inductive Party (α : Type u) (ρ : Type v) where
  | done (r : ρ)
  | leave
  | send (xs : List α) (next : Party α ρ)
  | recv (n : Nat) (next : List α → Party α ρ)

namespace Party

variable {α : Type u} {ρ σ : Type v}

/-- Go on with the result. -/
def bind : Party α ρ → (ρ → Party α σ) → Party α σ
  | done r, f => f r
  | leave, _ => leave
  | send xs next, f => send xs (next.bind f)
  | recv n next, f => recv n fun xs => (next xs).bind f

/-- The party only reads: it takes these symbols, and then has this result. -/
inductive Reads : Party α ρ → List α → ρ → Prop where
  | done (r : ρ) : Reads (done r) [] r
  | recv {n : Nat} {next : List α → Party α ρ} {xs ys : List α} {r : ρ} (hn : xs.length = n)
      (h : Reads (next xs) ys r) : Reads (recv n next) (xs ++ ys) r

/-- A single read. -/
theorem Reads.single {xs : List α} {f : List α → ρ} {n : Nat} (hn : xs.length = n) :
    Reads (.recv n fun xs => .done (f xs)) xs (f xs) := by
  have h : Reads (.recv n fun xs => .done (f xs)) (xs ++ []) (f xs) := .recv hn (.done _)
  rwa [List.append_nil] at h

end Party

/-- Two parties, with what is on its way to each of them. -/
structure Link (α : Type u) (ρ σ : Type v) where
  left : Party α ρ
  right : Party α σ
  toRight : List α := []
  toLeft : List α := []

namespace Link

variable {α : Type u} {ρ σ ρ' σ' : Type v}

/-- One party takes a step. -/
inductive Step : Link α ρ σ → Link α ρ σ → Prop where
  | sendLeft (xs : List α) (p : Party α ρ) (q : Party α σ) (tr tl : List α) :
      Step ⟨.send xs p, q, tr, tl⟩ ⟨p, q, tr ++ xs, tl⟩
  | sendRight (xs : List α) (p : Party α ρ) (q : Party α σ) (tr tl : List α) :
      Step ⟨p, .send xs q, tr, tl⟩ ⟨p, q, tr, tl ++ xs⟩
  | recvLeft {n : Nat} (f : List α → Party α ρ) (q : Party α σ) (tr tl : List α)
      (h : n ≤ tl.length) : Step ⟨.recv n f, q, tr, tl⟩ ⟨f (tl.take n), q, tr, tl.drop n⟩
  | recvRight {n : Nat} (p : Party α ρ) (f : List α → Party α σ) (tr tl : List α)
      (h : n ≤ tr.length) : Step ⟨p, .recv n f, tr, tl⟩ ⟨p, f (tr.take n), tr.drop n, tl⟩

/-- Exchange the names of the parties. -/
def swap (l : Link α ρ σ) : Link α σ ρ := ⟨l.right, l.left, l.toLeft, l.toRight⟩

theorem Step.swap {x y : Link α ρ σ} (h : Step x y) : Step x.swap y.swap := by
  cases h with
  | sendLeft xs p q tr tl => exact .sendRight xs q p tl tr
  | sendRight xs p q tr tl => exact .sendLeft xs q p tl tr
  | recvLeft f q tr tl h => exact .recvRight q f tl tr h
  | recvRight p f tr tl h => exact .recvLeft f p tl tr h

/-- What is sent later does not change what is read first. -/
theorem Step.recvLeft_append {n : Nat} (f : List α → Party α ρ) (q : Party α σ)
    (tr : List α) {tl : List α} (xs : List α) (h : n ≤ tl.length) :
    Step ⟨.recv n f, q, tr, tl ++ xs⟩ ⟨f (tl.take n), q, tr, tl.drop n ++ xs⟩ := by
  have hstep := Step.recvLeft f q tr (tl ++ xs) (Nat.le_trans h (by simp))
  rwa [List.take_append_of_le_length h, List.drop_append_of_le_length h] at hstep

theorem Step.recvRight_append {n : Nat} (p : Party α ρ) (f : List α → Party α σ)
    {tr : List α} (tl xs : List α) (h : n ≤ tr.length) :
    Step ⟨p, .recv n f, tr ++ xs, tl⟩ ⟨p, f (tr.take n), tr.drop n ++ xs, tl⟩ :=
  (Step.recvLeft_append f p tl xs h).swap

/-- Each party has at most one step, and steps of different parties commute. -/
theorem Step.diamond {x y z : Link α ρ σ} (hy : Step x y) (hz : Step x z) :
    y = z ∨ ∃ w, Step y w ∧ Step z w := by
  cases hy with
  | sendLeft xs p q tr tl =>
    cases hz with
    | sendLeft => exact .inl rfl
    | sendRight ys _ q' => exact .inr ⟨_, .sendRight ys p q' _ tl, .sendLeft xs p q' tr _⟩
    | recvRight _ f _ _ h => exact .inr ⟨_, .recvRight_append p f tl xs h, .sendLeft xs p _ _ tl⟩
  | sendRight xs p q tr tl =>
    cases hz with
    | sendRight => exact .inl rfl
    | sendLeft ys p' => exact .inr ⟨_, .sendLeft ys p' q tr _, .sendRight xs p' q _ tl⟩
    | recvLeft f _ _ _ h => exact .inr ⟨_, .recvLeft_append f q tr xs h, .sendRight xs _ q tr _⟩
  | recvLeft f q tr tl h =>
    cases hz with
    | recvLeft => exact .inl rfl
    | sendRight ys _ q' => exact .inr ⟨_, .sendRight ys _ q' tr _, .recvLeft_append f q' tr ys h⟩
    | recvRight _ g _ _ h' => exact .inr ⟨_, .recvRight _ g tr _ h', .recvLeft f _ _ tl h⟩
  | recvRight p f tr tl h =>
    cases hz with
    | recvRight => exact .inl rfl
    | sendLeft ys p' => exact .inr ⟨_, .sendLeft ys p' _ _ tl, .recvRight_append p' f tl ys h⟩
    | recvLeft g _ _ _ h' => exact .inr ⟨_, .recvLeft g _ _ tl h', .recvRight _ f tr _ h⟩

end Link

/-! ## Runs -/

/-- A run of `n` steps. -/
inductive Steps {α : Type u} (step : α → α → Prop) : Nat → α → α → Prop where
  | refl (x : α) : Steps step 0 x x
  | head {n : Nat} {x y z : α} (h : step x y) (hrest : Steps step n y z) : Steps step (n + 1) x z

section Runs

variable {α : Type u} {step : α → α → Prop} {x y z : α} {n m : Nat}

theorem Steps.of_reflTransGen (h : Relation.ReflTransGen step x y) : ∃ n, Steps step n x y := by
  induction h using Relation.ReflTransGen.head_induction_on with
  | refl => exact ⟨0, .refl y⟩
  | head hstep _ ih =>
    obtain ⟨n, hn⟩ := ih
    exact ⟨n + 1, .head hstep hn⟩

variable (hdiamond : ∀ {x y z}, step x y → step x z → y = z ∨ ∃ w, step y w ∧ step z w)
  (hend : ∀ y, ¬ step z y)

include hdiamond hend

/-- A first step takes a run to the end one step on. -/
theorem Steps.tail (h : Steps step n x z) (hstep : step x y) :
    ∃ k, k + 1 = n ∧ Steps step k y z := by
  induction h generalizing y with
  | refl x => exact absurd hstep (hend y)
  | @head n _ _ _ hfirst hrest ih =>
    rcases hdiamond hstep hfirst with rfl | ⟨w, hw, hw'⟩
    · exact ⟨n, rfl, hrest⟩
    · obtain ⟨k, rfl, hk⟩ := ih hend hw'
      exact ⟨k + 1, rfl, .head hw hk⟩

/-- When one run comes to an end, every other run can be continued to it, and the number of steps is
the same. -/
theorem Steps.complete (h : Steps step n x z) (hother : Steps step m x y) :
    ∃ k, m + k = n ∧ Steps step k y z := by
  induction hother generalizing n with
  | refl x => exact ⟨n, Nat.zero_add n, h⟩
  | head hstep _ ih =>
    obtain ⟨k, rfl, hk⟩ := h.tail hdiamond hend hstep
    obtain ⟨j, rfl, hj⟩ := ih hk
    exact ⟨j, by omega, hj⟩

end Runs

namespace Link

variable {α : Type u} {ρ σ ρ' σ' : Type v}

/-- A run of any length. -/
abbrev Runs (x y : Link α ρ σ) : Prop := Relation.ReflTransGen Step x y

theorem Runs.swap {x y : Link α ρ σ} (h : Runs x y) : Runs x.swap y.swap := by
  induction h with
  | refl => exact .refl
  | tail _ hstep ih => exact ih.tail hstep.swap

/-- The left party reads what is at the front of its queue. -/
theorem runs_readLeft {p : Party α ρ'} {xs : List α} {r : ρ'} (h : p.Reads xs r)
    (f : ρ' → Party α ρ) (q : Party α σ) (tr tl : List α) :
    Runs ⟨p.bind f, q, tr, xs ++ tl⟩ ⟨f r, q, tr, tl⟩ := by
  induction h with
  | done r => exact .refl
  | @recv n next xs ys r hn _ ih =>
    have hlength : n ≤ (xs ++ (ys ++ tl)).length := by
      rw [List.length_append]
      omega
    have hstep := Step.recvLeft (fun xs => (next xs).bind f) q tr _ hlength
    rw [List.take_left' hn, List.drop_left' hn] at hstep
    rw [List.append_assoc]
    exact .head hstep ih

theorem runs_readRight {q : Party α σ'} {xs : List α} {r : σ'} (h : q.Reads xs r)
    (p : Party α ρ) (f : σ' → Party α σ) (tr tl : List α) :
    Runs ⟨p, q.bind f, xs ++ tr, tl⟩ ⟨p, f r, tr, tl⟩ :=
  (runs_readLeft h f p tl tr).swap

/-- The left party sends a message that the right one waits for. -/
theorem runs_toRight {q : Party α σ'} {xs : List α} {r : σ'} (h : q.Reads xs r) (p : Party α ρ)
    (f : σ' → Party α σ) : Runs ⟨.send xs p, q.bind f, [], []⟩ ⟨p, f r, [], []⟩ := by
  refine .head (.sendLeft xs p _ [] []) ?_
  rw [List.nil_append, ← List.append_nil xs]
  exact runs_readRight h p f [] []

theorem runs_toLeft {p : Party α ρ'} {xs : List α} {r : ρ'} (h : p.Reads xs r)
    (f : ρ' → Party α ρ) (q : Party α σ) : Runs ⟨p.bind f, .send xs q, [], []⟩ ⟨f r, q, [], []⟩ :=
  (runs_toRight h q f).swap

/-- Both parties send a message, and then wait for that of the other. -/
theorem runs_exchange {p : Party α ρ'} {q : Party α σ'} {xs ys : List α} {r : ρ'} {s : σ'}
    (hp : p.Reads ys r) (hq : q.Reads xs s) (f : ρ' → Party α ρ) (g : σ' → Party α σ) :
    Runs ⟨.send xs (p.bind f), .send ys (q.bind g), [], []⟩ ⟨f r, g s, [], []⟩ := by
  refine .head (.sendLeft xs _ _ [] []) (.head (.sendRight ys _ _ _ []) ?_)
  rw [List.nil_append, List.nil_append, ← List.append_nil xs, ← List.append_nil ys]
  exact (runs_readRight hq _ g [] _).trans (runs_readLeft hp f _ [] [])

/-- Two parties that are done take no more steps. -/
theorem not_step_done (r : ρ) (s : σ) (tr tl : List α) (y : Link α ρ σ) :
    ¬ Step ⟨.done r, .done s, tr, tl⟩ y := by
  intro h
  cases h

/-- If the parties can both come to an end, then whatever order they are run in, they do. -/
theorem Runs.complete {x : Link α ρ σ} {r : ρ} {s : σ} {tr tl : List α}
    (h : Runs x ⟨.done r, .done s, tr, tl⟩) :
    ∃ n, ∀ m y, Steps Step m x y → ∃ k, m + k = n ∧ Steps Step k y ⟨.done r, .done s, tr, tl⟩ := by
  obtain ⟨n, hn⟩ := Steps.of_reflTransGen h
  exact ⟨n, fun m y hy => hn.complete Step.diamond (not_step_done r s tr tl) hy⟩

end Link

end Lib
