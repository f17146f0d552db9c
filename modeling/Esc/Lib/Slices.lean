import Mathlib.Tactic

/-!
# Parts of a byte string

A file put together from parts is the concatenation of the parts, and each part is
found again at the sum of the lengths before it.
-/

namespace Lib

universe u

variable {α : Type u}

/-- The `len` elements from `off` on. -/
def slice (l : List α) (off len : Nat) : List α := (l.drop off).take len

theorem slice_append_left {l r : List α} {off len : Nat} (h : off + len ≤ l.length) :
    slice (l ++ r) off len = slice l off len := by
  unfold slice
  rw [List.drop_append_of_le_length (by omega), List.take_append_of_le_length (by
    rw [List.length_drop]; omega)]

theorem slice_append_right (l r : List α) (off len : Nat) :
    slice (l ++ r) (l.length + off) len = slice r off len := by
  unfold slice
  rw [List.drop_append, List.drop_eq_nil_of_le (by omega), List.nil_append,
    Nat.add_sub_cancel_left]

/-- A slice of a slice. -/
theorem slice_slice (l : List α) {off len a b : Nat} (h : a + b ≤ len) :
    slice (slice l off len) a b = slice l (off + a) b := by
  unfold slice
  rw [List.drop_take, List.drop_drop, List.take_take, Nat.min_eq_left (by omega)]

/-- Where the part of number `k` starts. -/
def startOf (parts : List (List α)) (k : Nat) : Nat := (parts.take k).flatten.length

@[simp] theorem startOf_zero (parts : List (List α)) : startOf parts 0 = 0 := rfl

theorem startOf_succ {parts : List (List α)} {k : Nat} {p : List α} (h : parts[k]? = some p) :
    startOf parts (k + 1) = startOf parts k + p.length := by
  unfold startOf
  rw [List.take_add_one, h, List.flatten_append, List.length_append]
  simp

theorem startOf_cons (p : List α) (parts : List (List α)) (k : Nat) :
    startOf (p :: parts) (k + 1) = p.length + startOf parts k := by
  simp [startOf]

theorem startOf_of_length_le {parts : List (List α)} {k : Nat} (h : parts.length ≤ k) :
    startOf parts k = parts.flatten.length := by
  unfold startOf
  rw [List.take_of_length_le h]

theorem startOf_append_left {parts parts' : List (List α)} {k : Nat} (h : k ≤ parts.length) :
    startOf (parts ++ parts') k = startOf parts k := by
  unfold startOf
  rw [List.take_append_of_le_length h]

theorem startOf_mono (parts : List (List α)) {j k : Nat} (h : j ≤ k) :
    startOf parts j ≤ startOf parts k := by
  unfold startOf
  obtain ⟨i, rfl⟩ := Nat.exists_eq_add_of_le h
  rw [List.take_add, List.flatten_append, List.length_append]
  omega

/-- Each part is found at its start. -/
theorem slice_flatten {parts : List (List α)} {k : Nat} {p : List α} (h : parts[k]? = some p) :
    slice parts.flatten (startOf parts k) p.length = p := by
  obtain ⟨hk, rfl⟩ := List.getElem?_eq_some_iff.mp h
  have hsplit :
      parts.flatten = (parts.take k).flatten ++ (parts[k] ++ (parts.drop (k + 1)).flatten) := by
    rw [← List.flatten_cons, ← List.flatten_append, List.getElem_cons_drop, List.take_append_drop]
  have happend := slice_append_right (parts.take k).flatten
    (parts[k] ++ (parts.drop (k + 1)).flatten) 0 parts[k].length
  rw [← hsplit] at happend
  refine happend.trans ?_
  rw [slice, List.drop_zero, List.take_left]

theorem startOf_le {parts : List (List α)} (k : Nat) : startOf parts k ≤ parts.flatten.length := by
  by_cases h : k ≤ parts.length
  · exact (startOf_mono parts h).trans (startOf_of_length_le le_rfl).le
  · exact (startOf_of_length_le (by omega)).le

end Lib
