import Mathlib.Tactic

/-!
# Memory seen from a data pointer

A pointer into a buffer is the function that gives the byte at each offset. Offsets
past the end of the buffer read whatever follows in memory, so a read is never
undefined and a statement about all such functions covers every content behind the
buffer. Numbers are little-endian.
-/

namespace Lib

/-- Memory from a data pointer on. -/
abbrev Bytes := Nat → UInt8

namespace Bytes

/-- The pointer `d + off`. -/
def skip (d : Bytes) (off : Nat) : Bytes := fun i => d (off + i)

/-- The first `n` bytes. -/
def take (d : Bytes) (n : Nat) : List UInt8 := (List.range n).map d

/-- A buffer in front of other memory. -/
def ofList (l : List UInt8) (rest : Bytes) : Bytes := fun i => l.getD i (rest (i - l.length))

@[simp] theorem skip_apply (d : Bytes) (off i : Nat) : d.skip off i = d (off + i) := rfl

@[simp] theorem skip_zero (d : Bytes) : d.skip 0 = d := by
  funext i
  rw [skip_apply, Nat.zero_add]

@[simp] theorem skip_skip (d : Bytes) (a b : Nat) : (d.skip a).skip b = d.skip (a + b) := by
  funext i
  simp only [skip_apply, Nat.add_assoc]

@[simp] theorem length_take (d : Bytes) (n : Nat) : (d.take n).length = n := by
  simp [take]

theorem take_congr {d e : Bytes} {n : Nat} (h : ∀ i < n, d i = e i) : d.take n = e.take n := by
  apply List.map_congr_left
  intro i hi
  exact h i (List.mem_range.mp hi)

theorem eq_of_take_eq {d e : Bytes} {n i : Nat} (h : d.take n = e.take n) (hi : i < n) :
    d i = e i := by
  have h' := congrArg (fun l => l[i]?) h
  simpa [take, hi] using h'

theorem take_add (d : Bytes) (m n : Nat) : d.take (m + n) = d.take m ++ (d.skip m).take n := by
  rw [take, List.range_add, List.map_append, List.map_map]
  rfl

theorem take_take (d : Bytes) {m n : Nat} (h : m ≤ n) : (d.take n).take m = d.take m := by
  rw [take, take, ← List.map_take, List.take_range, Nat.min_eq_left h]

/-- Inside the buffer the memory behind it does not matter. -/
theorem ofList_take (d rest : Bytes) {n i : Nat} (hi : i < n) : ofList (d.take n) rest i = d i := by
  simp [ofList, take, hi]

theorem ofList_append_left (l l' : List UInt8) (rest : Bytes) {i : Nat} (hi : i < l.length) :
    ofList (l ++ l') rest i = l.getD i 0 := by
  simp [ofList, List.getElem?_append_left hi, hi]

theorem ofList_append_right (l l' : List UInt8) (rest : Bytes) (i : Nat) :
    ofList (l ++ l') rest (l.length + i) = ofList l' rest i := by
  rw [ofList, ofList, List.getD_eq_getElem?_getD, List.getD_eq_getElem?_getD,
    List.getElem?_append_right (by omega), List.length_append, Nat.add_sub_cancel_left,
    Nat.add_sub_add_left]

theorem skip_ofList_append {l : List UInt8} {n : Nat} (h : l.length = n) (l' : List UInt8)
    (rest : Bytes) : (ofList (l ++ l') rest).skip n = ofList l' rest := by
  funext i
  rw [skip_apply, ← h, ofList_append_right]

theorem take_ofList_append {l : List UInt8} {n : Nat} (h : l.length = n) (l' : List UInt8)
    (rest : Bytes) : (ofList (l ++ l') rest).take n = l := by
  apply List.ext_getElem
  · rw [length_take, h]
  · intro i _ hi
    simp only [take, List.getElem_map, List.getElem_range]
    rw [ofList_append_left _ _ _ hi, List.getD_eq_getElem?_getD, List.getElem?_eq_getElem hi,
      Option.getD_some]

/-- The parts of a table whose entries have one width. -/
theorem skip_ofList_flatten {parts : List (List UInt8)} {w i : Nat}
    (hw : ∀ p ∈ parts, p.length = w) (hi : i ≤ parts.length) (tail : List UInt8) (rest : Bytes) :
    (ofList (parts.flatten ++ tail) rest).skip (w * i) =
      ofList ((parts.drop i).flatten ++ tail) rest := by
  induction i generalizing parts with
  | zero =>
    funext j
    rw [skip_apply, Nat.mul_zero, Nat.zero_add, List.drop_zero]
  | succ i ih =>
    cases parts with
    | nil => simp at hi
    | cons p parts =>
      rw [List.flatten_cons, List.append_assoc, List.drop_succ_cons, Nat.mul_succ, Nat.add_comm,
        ← skip_skip, skip_ofList_append (hw p (by simp))]
      exact ih (fun q hq => hw q (by simp [hq])) (by simpa using hi)

end Bytes

/-- The number that little-endian bytes stand for. -/
def ofLE : List UInt8 → Nat
  | [] => 0
  | b :: bs => b.toNat + 256 * ofLE bs

theorem ofLE_lt (bs : List UInt8) : ofLE bs < 256 ^ bs.length := by
  induction bs with
  | nil => simp [ofLE]
  | cons b bs ih =>
    have hb := b.toNat_lt
    rw [ofLE, List.length_cons, Nat.pow_succ]
    omega

theorem ofLE_inj {bs cs : List UInt8} (hlen : bs.length = cs.length) (h : ofLE bs = ofLE cs) :
    bs = cs := by
  induction bs generalizing cs with
  | nil =>
    cases cs with
    | nil => rfl
    | cons c cs => simp at hlen
  | cons b bs ih =>
    cases cs with
    | nil => simp at hlen
    | cons c cs =>
      have hb := b.toNat_lt
      have hc := c.toNat_lt
      rw [ofLE, ofLE] at h
      have hhead : b = c := UInt8.toNat_inj.mp (by omega)
      have htail : bs = cs := ih (by simpa using hlen) (by omega)
      rw [hhead, htail]

namespace Bytes

/-- Numbers of two and four bytes, and of three bytes. -/
def uint16 (d : Bytes) : UInt16 := UInt16.ofNat (ofLE (d.take 2))

def uint24 (d : Bytes) : Nat := ofLE (d.take 3)

def uint32 (d : Bytes) : UInt32 := UInt32.ofNat (ofLE (d.take 4))

theorem uint24_lt (d : Bytes) : d.uint24 < 2 ^ 24 := by
  have h := ofLE_lt (d.take 3)
  rw [length_take] at h
  exact h

theorem take_eq_of_uint32_eq {d e : Bytes} (h : d.uint32 = e.uint32) : d.take 4 = e.take 4 := by
  apply ofLE_inj (by simp)
  have hd := ofLE_lt (d.take 4)
  have he := ofLE_lt (e.take 4)
  rw [length_take] at hd he
  have hnat := congrArg UInt32.toNat h
  rw [uint32, uint32, UInt32.toNat_ofNat', UInt32.toNat_ofNat', Nat.mod_eq_of_lt (by omega),
    Nat.mod_eq_of_lt (by omega)] at hnat
  exact hnat

theorem uint16_congr {d e : Bytes} (h : d.take 2 = e.take 2) : d.uint16 = e.uint16 := by
  rw [uint16, uint16, h]

theorem uint24_congr {d e : Bytes} (h : d.take 3 = e.take 3) : d.uint24 = e.uint24 := by
  rw [uint24, uint24, h]

theorem uint32_congr {d e : Bytes} (h : d.take 4 = e.take 4) : d.uint32 = e.uint32 := by
  rw [uint32, uint32, h]

end Bytes

end Lib
