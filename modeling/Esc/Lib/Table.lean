import Mathlib.Algebra.BigOperators.Group.Finset.Basic
import Mathlib.Algebra.BigOperators.Intervals
import Mathlib.Tactic.Abel

/-!
# Growable tables of records

One structure serves for the vectors and for the record files of the program. A
table has a size and a total lookup; the entries past the end are the default
record, and this is a field of the structure. Two tables of the same size that
agree below it are therefore equal.

`set` overwrites an existing entry, `write` is a file write that may extend the
table and fills a gap with default records, and `resize` cuts or extends.
-/

namespace Lib

universe u

/-- A vector or record file. Lookup is total; past the end it is the default. -/
structure Table (α : Type u) [Inhabited α] where
  size : Nat
  get : Nat → α
  beyond : ∀ i, size ≤ i → get i = default

namespace Table

variable {α : Type u} [Inhabited α]

@[ext] theorem ext {t t' : Table α} (hsize : t.size = t'.size)
    (hget : ∀ i, t.get i = t'.get i) : t = t' := by
  cases t with
  | mk size get beyond =>
      cases t' with
      | mk size' get' beyond' =>
          obtain rfl : size = size' := hsize
          obtain rfl : get = get' := funext hget
          rfl

/-- The empty table. -/
def empty : Table α := ⟨0, fun _ => default, fun _ _ => rfl⟩

instance : Inhabited (Table α) := ⟨empty⟩

/-- The table that holds exactly the entries of a list. -/
def ofList (xs : List α) : Table α where
  size := xs.length
  get i := xs.getD i default
  beyond i h := by simp [List.getElem?_eq_none h]

theorem ofList_forall {p : α → Prop} {xs : List α} (hdefault : p default) (h : ∀ x ∈ xs, p x)
    (i : Nat) : p ((ofList xs).get i) := by
  show p (xs.getD i default)
  rw [List.getD_eq_getElem?_getD]
  cases hi : xs[i]? with
  | none => exact hdefault
  | some x => exact h x (List.mem_of_getElem? hi)

/-- Sequential read of one record: nothing is read past the end. -/
def read? (t : Table α) (i : Nat) : Option α :=
  if i < t.size then some (t.get i) else none

/-- Overwrite an existing entry; an index past the end changes nothing. -/
def set (t : Table α) (i : Nat) (a : α) : Table α where
  size := t.size
  get j := if j = i ∧ i < t.size then a else t.get j
  beyond j h := by
    have hne : ¬ (j = i ∧ i < t.size) := by omega
    simp [hne, t.beyond j h]

/-- Replace one entry by a function of its old content. -/
def modify (t : Table α) (i : Nat) (f : α → α) : Table α := t.set i (f (t.get i))

/-- Replace every entry by a function of its index and its content. -/
def mapIdx (t : Table α) (f : Nat → α → α) : Table α where
  size := t.size
  get i := if i < t.size then f i (t.get i) else default
  beyond _ h := if_neg (Nat.not_lt.mpr h)

/-- A file write: the table grows when the index is past the end. -/
def write (t : Table α) (i : Nat) (a : α) : Table α where
  size := max t.size (i + 1)
  get j := if j = i then a else t.get j
  beyond j h := by
    have hne : j ≠ i := by omega
    simp [hne, t.beyond j (by omega)]

/-- Append one entry. -/
def push (t : Table α) (a : α) : Table α := t.write t.size a

/-- Cut the table, or extend it by default entries. -/
def resize (t : Table α) (n : Nat) : Table α where
  size := n
  get j := if j < n then t.get j else default
  beyond j h := by simp [Nat.not_lt.mpr h]

@[simp] theorem size_set (t : Table α) (i : Nat) (a : α) : (t.set i a).size = t.size := rfl

@[simp] theorem size_modify (t : Table α) (i : Nat) (f : α → α) :
    (t.modify i f).size = t.size := rfl

@[simp] theorem size_write (t : Table α) (i : Nat) (a : α) :
    (t.write i a).size = max t.size (i + 1) := rfl

theorem get_set (t : Table α) (i j : Nat) (a : α) :
    (t.set i a).get j = if j = i ∧ i < t.size then a else t.get j := rfl

@[simp] theorem get_set_self (t : Table α) {i : Nat} (a : α) (h : i < t.size) :
    (t.set i a).get i = a := by
  simp [get_set, h]

@[simp] theorem get_set_ne (t : Table α) {i j : Nat} (a : α) (h : j ≠ i) :
    (t.set i a).get j = t.get j := by
  simp [get_set, h]

theorem get_modify (t : Table α) (i j : Nat) (f : α → α) :
    (t.modify i f).get j = if j = i ∧ i < t.size then f (t.get i) else t.get j := rfl

@[simp] theorem get_modify_self (t : Table α) {i : Nat} (f : α → α) (h : i < t.size) :
    (t.modify i f).get i = f (t.get i) := by
  simp [get_modify, h]

@[simp] theorem get_modify_ne (t : Table α) {i j : Nat} (f : α → α) (h : j ≠ i) :
    (t.modify i f).get j = t.get j := by
  simp [get_modify, h]

theorem get_write (t : Table α) (i j : Nat) (a : α) :
    (t.write i a).get j = if j = i then a else t.get j := rfl

@[simp] theorem get_write_self (t : Table α) (i : Nat) (a : α) : (t.write i a).get i = a := by
  simp [get_write]

@[simp] theorem get_write_ne (t : Table α) {i j : Nat} (a : α) (h : j ≠ i) :
    (t.write i a).get j = t.get j := by
  simp [get_write, h]

/-- A write to an existing entry. -/
theorem write_eq_set (t : Table α) {i : Nat} (a : α) (h : i < t.size) :
    t.write i a = t.set i a := by
  ext j
  · exact max_eq_left h
  · simp [get_write, get_set, h]

theorem get_mapIdx (t : Table α) (f : Nat → α → α) (i : Nat) :
    (t.mapIdx f).get i = if i < t.size then f i (t.get i) else default := rfl

theorem mapIdx_mapIdx (t : Table α) (f g : Nat → α → α) :
    (t.mapIdx f).mapIdx g = t.mapIdx fun i a => g i (f i a) := by
  refine Table.ext rfl fun i => ?_
  show (if i < t.size then g i (if i < t.size then f i (t.get i) else default) else default) =
    if i < t.size then g i (f i (t.get i)) else default
  split <;> rfl

section Accumulate

variable {M : Type*} (op : M → M → M) (e : M)

/-- Combine a field of the entries below a bound. -/
def accumulate (t : Table α) (f : α → M) : Nat → M
  | 0 => e
  | n + 1 => op (t.accumulate f n) (f (t.get n))

variable {op e} {t t' : Table α} {f : α → M} {n i : Nat}

theorem accumulate_congr (h : ∀ j < n, f (t'.get j) = f (t.get j)) :
    t'.accumulate op e f n = t.accumulate op e f n := by
  induction n with
  | zero => rfl
  | succ n ih =>
    rw [accumulate, accumulate, ih fun j hj => h j (Nat.lt_succ_of_lt hj), h n (Nat.lt_succ_self n)]

/-- Tables that differ in one entry below the bound. -/
theorem accumulate_exchange [Std.Associative op] [Std.Commutative op] (hi : i < n)
    (h : ∀ j < n, j ≠ i → f (t'.get j) = f (t.get j)) :
    op (t'.accumulate op e f n) (f (t.get i)) = op (t.accumulate op e f n) (f (t'.get i)) := by
  induction n with
  | zero => exact absurd hi (Nat.not_lt_zero i)
  | succ n ih =>
    rw [accumulate, accumulate]
    by_cases hin : i = n
    · have hrest : t'.accumulate op e f n = t.accumulate op e f n :=
        accumulate_congr fun j hj => h j (Nat.lt_succ_of_lt hj) (hin ▸ hj.ne)
      rw [hrest, hin]
      ac_rfl
    · have hlt : i < n := by omega
      have hrest := ih hlt fun j hj => h j (Nat.lt_succ_of_lt hj)
      rw [h n (Nat.lt_succ_self n) fun hne => hin hne.symm]
      calc op (op (t'.accumulate op e f n) (f (t.get n))) (f (t.get i))
          = op (op (t'.accumulate op e f n) (f (t.get i))) (f (t.get n)) := by ac_rfl
        _ = op (op (t.accumulate op e f n) (f (t'.get i))) (f (t.get n)) := by rw [hrest]
        _ = op (op (t.accumulate op e f n) (f (t.get n))) (f (t'.get i)) := by ac_rfl

end Accumulate

end Table

/-- A sum over an initial range changes by the difference at the one index
where the summands differ. -/
theorem sum_range_point {M : Type*} [AddCommGroup M] {n i : Nat} {f g : Nat → M} (hi : i < n)
    (h : ∀ j, j < n → j ≠ i → f j = g j) :
    ∑ j ∈ Finset.range n, f j = ∑ j ∈ Finset.range n, g j - g i + f i := by
  have hmem : i ∈ Finset.range n := Finset.mem_range.mpr hi
  rw [← Finset.add_sum_erase _ f hmem, ← Finset.add_sum_erase _ g hmem]
  have hrest : ∑ j ∈ (Finset.range n).erase i, f j = ∑ j ∈ (Finset.range n).erase i, g j :=
    Finset.sum_congr rfl fun j hj =>
      h j (Finset.mem_range.mp (Finset.mem_of_mem_erase hj)) (Finset.ne_of_mem_erase hj)
  rw [hrest]
  abel

end Lib
