import Mathlib.Data.List.Basic
import Mathlib.Tactic.Common

/-!
# First come, first served

Requests wait in queues, one for each class. An answer takes the request that has waited
longest in its class, or none. All queues are kept in one list: the front of a queue is
the first entry of its class.
-/

namespace Lib

/-- The first entry with a property leaves the list. -/
theorem perm_cons_eraseP {β : Type*} {p : β → Bool} {w : β} {ws : List β}
    (h : ws.find? p = some w) : ws.Perm (w :: ws.eraseP p) := by
  induction ws with
  | nil => cases h
  | cons v ws ih =>
      rw [List.find?_cons] at h
      rw [List.eraseP_cons]
      cases hv : p v with
      | true =>
          rw [hv] at h
          cases h
          exact .refl _
      | false =>
          rw [hv] at h
          exact ((ih h).cons v).trans (.swap w v _)

variable {κ ι α : Type*} [DecidableEq κ]

/-- The requests with the answers that take them, and the requests that are left. -/
def serve (cls : α → κ) (waiting : List (κ × ι)) : List α → List (ι × α) × List (κ × ι)
  | [] => ([], waiting)
  | a :: as =>
      match waiting.find? fun w => w.1 = cls a with
      | some w =>
          let rest := serve cls (waiting.eraseP fun w => w.1 = cls a) as
          ((w.2, a) :: rest.1, rest.2)
      | none => serve cls waiting as

section Serve

variable (cls : α → κ)

theorem serve_of_find {waiting : List (κ × ι)} {a : α} {w : κ × ι} (as : List α)
    (h : waiting.find? (fun w => w.1 = cls a) = some w) :
    serve cls waiting (a :: as) =
      ((w.2, a) :: (serve cls (waiting.eraseP fun w => w.1 = cls a) as).1,
        (serve cls (waiting.eraseP fun w => w.1 = cls a) as).2) := by
  rw [serve, h]

theorem serve_of_find_none {waiting : List (κ × ι)} {a : α} (as : List α)
    (h : waiting.find? (fun w => w.1 = cls a) = none) :
    serve cls waiting (a :: as) = serve cls waiting as := by
  rw [serve, h]

/-- Every request is taken by an answer of its class, or left. -/
theorem serve_perm (waiting : List (κ × ι)) (as : List α) :
    ((serve cls waiting as).1.map (fun p => (cls p.2, p.1)) ++ (serve cls waiting as).2).Perm
      waiting := by
  induction as generalizing waiting with
  | nil => exact .refl _
  | cons a as ih =>
      cases hfind : waiting.find? fun w => w.1 = cls a with
      | some w =>
        have hclass : w.1 = cls a := by simpa using List.find?_some hfind
        have hentry : (cls a, w.2) = w := Prod.ext hclass.symm rfl
        rw [serve_of_find cls as hfind]
        refine (List.Perm.cons (cls a, w.2) (ih _)).trans ?_
        rw [hentry]
        exact (perm_cons_eraseP hfind).symm
      | none =>
        rw [serve_of_find_none cls as hfind]
        exact ih waiting

/-- Every answer takes one request at most. -/
theorem serve_sublist (waiting : List (κ × ι)) (as : List α) :
    ((serve cls waiting as).1.map Prod.snd).Sublist as := by
  induction as generalizing waiting with
  | nil => exact .refl _
  | cons a as ih =>
      cases hfind : waiting.find? fun w => w.1 = cls a with
      | some w =>
        rw [serve_of_find cls as hfind]
        exact (ih _).cons_cons a
      | none =>
        rw [serve_of_find_none cls as hfind]
        exact (ih waiting).cons a

/-- In each class as many requests are taken as there are requests and answers. -/
theorem serve_count (waiting : List (κ × ι)) (as : List α) (c : κ) :
    (serve cls waiting as).1.countP (fun p => cls p.2 = c) =
      min (waiting.countP fun w => w.1 = c) (as.countP fun a => cls a = c) := by
  induction as generalizing waiting with
  | nil => simp [serve]
  | cons a as ih =>
      cases hfind : waiting.find? fun w => w.1 = cls a with
      | some w =>
        have hclass : w.1 = cls a := by simpa using List.find?_some hfind
        have hperm := (perm_cons_eraseP hfind).countP_eq fun w => w.1 = c
        rw [serve_of_find cls as hfind, List.countP_cons, ih, hperm, List.countP_cons,
          List.countP_cons, hclass]
        split <;> omega
      | none =>
        rw [serve_of_find_none cls as hfind, ih, List.countP_cons]
        split
        · rename_i hc
          have hnone : waiting.countP (fun w => w.1 = c) = 0 := by
            rw [List.countP_eq_zero]
            intro w hw
            have hne := List.find?_eq_none.mp hfind w hw
            rw [← of_decide_eq_true hc]
            exact hne
          omega
        · rfl

end Serve

end Lib
