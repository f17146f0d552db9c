import Esc.Lib.Bytes

/-!
# Records of fixed width

A record written into a stream is read back from the stream whatever follows it. A
sequence of records is written without separators, and read back by its length.

A reader of a stream returns what it has read together with the rest, or fails when the
stream is too short.
-/

namespace Lib

universe u v

/-- A record type with its bytes. The reader is given the stream from the record on. -/
structure Codec (α : Type u) where
  width : Nat
  encode : α → List UInt8
  decode : List UInt8 → α
  length_encode : ∀ a, (encode a).length = width
  decode_encode : ∀ a rest, decode (encode a ++ rest) = a

/-- Take `n` bytes from a stream. -/
def readData (n : Nat) (stream : List UInt8) : Option (List UInt8 × List UInt8) :=
  if n ≤ stream.length then some (stream.take n, stream.drop n) else none

theorem length_of_readData {n : Nat} {stream bs rest : List UInt8}
    (h : readData n stream = some (bs, rest)) :
    bs.length = n ∧ stream.length = n + rest.length := by
  rw [readData] at h
  split at h
  · obtain ⟨rfl, rfl⟩ := Prod.mk.inj (Option.some.inj h)
    rw [List.length_take, List.length_drop]
    omega
  · cases h

theorem readData_append {n : Nat} {bs : List UInt8} (rest : List UInt8) (h : bs.length = n) :
    readData n (bs ++ rest) = some (bs, rest) := by
  unfold readData
  rw [if_pos (by rw [List.length_append]; omega), List.take_left' h, List.drop_left' h]

namespace Codec

variable {α : Type u} (c : Codec α)

attribute [simp] length_encode decode_encode

@[simp] theorem decode_encode_self (a : α) : c.decode (c.encode a) = a := by
  have h := c.decode_encode a []
  rwa [List.append_nil] at h

/-- Read a record from a stream. -/
def read (stream : List UInt8) : Option (α × List UInt8) :=
  (readData c.width stream).map fun p => (c.decode p.1, p.2)

@[simp] theorem read_append (a : α) (rest : List UInt8) :
    c.read (c.encode a ++ rest) = some (a, rest) := by
  rw [read, readData_append rest (c.length_encode a), Option.map_some, decode_encode_self]

theorem length_of_read {stream rest : List UInt8} {a : α} (h : c.read stream = some (a, rest)) :
    stream.length = c.width + rest.length := by
  obtain ⟨p, hp, heq⟩ := Option.map_eq_some_iff.mp h
  rw [← (Prod.mk.inj heq).2]
  exact (length_of_readData hp).2

def encodeAll (as : List α) : List UInt8 := as.flatMap c.encode

def decodeAll : Nat → List UInt8 → List α
  | 0, _ => []
  | n + 1, bs => c.decode bs :: decodeAll n (bs.drop c.width)

@[simp] theorem encodeAll_nil : c.encodeAll [] = [] := rfl

@[simp] theorem encodeAll_cons (a : α) (as : List α) :
    c.encodeAll (a :: as) = c.encode a ++ c.encodeAll as := List.flatMap_cons

theorem encodeAll_append (as bs : List α) :
    c.encodeAll (as ++ bs) = c.encodeAll as ++ c.encodeAll bs := List.flatMap_append

@[simp] theorem length_encodeAll (as : List α) : (c.encodeAll as).length = as.length * c.width := by
  induction as with
  | nil => simp
  | cons a as ih => simp [ih, Nat.add_mul, Nat.add_comm]

theorem decodeAll_encodeAll (as : List α) (rest : List UInt8) :
    c.decodeAll as.length (c.encodeAll as ++ rest) = as := by
  induction as with
  | nil => rfl
  | cons a as ih =>
    rw [List.length_cons, decodeAll, encodeAll_cons, List.append_assoc, decode_encode,
      List.drop_left' (c.length_encode a), ih]

/-- Every value takes the same number of bytes, so the bytes determine the values. -/
theorem encodeAll_injective (hwidth : 0 < c.width) {as bs : List α}
    (h : c.encodeAll as = c.encodeAll bs) : as = bs := by
  have hlength : as.length = bs.length := by
    refine Nat.eq_of_mul_eq_mul_right hwidth ?_
    rw [← c.length_encodeAll, ← c.length_encodeAll, h]
  calc as = c.decodeAll as.length (c.encodeAll as ++ []) := (c.decodeAll_encodeAll as []).symm
    _ = c.decodeAll bs.length (c.encodeAll bs ++ []) := by rw [h, hlength]
    _ = bs := c.decodeAll_encodeAll bs []

@[simp] theorem length_decodeAll (n : Nat) (bs : List UInt8) : (c.decodeAll n bs).length = n := by
  induction n generalizing bs with
  | zero => rfl
  | succ n ih => simp [decodeAll, ih]

theorem drop_encodeAll (as : List α) {m : Nat} (h : m ≤ as.length) :
    (c.encodeAll as).drop (m * c.width) = c.encodeAll (as.drop m) := by
  have hsplit : c.encodeAll as = c.encodeAll (as.take m) ++ c.encodeAll (as.drop m) := by
    rw [← encodeAll_append, List.take_append_drop]
  rw [hsplit, List.drop_left' (by rw [length_encodeAll, List.length_take_of_le h])]

/-- Read `n` records from a stream. -/
def readAll : Nat → List UInt8 → Option (List α × List UInt8)
  | 0, stream => some ([], stream)
  | n + 1, stream =>
      (readData c.width stream).bind fun (bytes, stream) =>
        (readAll n stream).map fun (as, stream) => (c.decode bytes :: as, stream)

theorem readAll_encodeAll (as : List α) (rest : List UInt8) :
    c.readAll as.length (c.encodeAll as ++ rest) = some (as, rest) := by
  induction as with
  | nil => rfl
  | cons a as ih =>
    rw [List.length_cons, readAll, encodeAll_cons, List.append_assoc,
      readData_append _ (c.length_encode a)]
    simp only [Option.bind_some, ih, Option.map_some, decode_encode_self]

/-- Two records one after the other. -/
def prod {β : Type v} (d : Codec β) : Codec (α × β) where
  width := c.width + d.width
  encode p := c.encode p.1 ++ d.encode p.2
  decode bs := (c.decode bs, d.decode (bs.drop c.width))
  length_encode p := by simp
  decode_encode p rest := by
    rw [List.append_assoc, decode_encode, List.drop_left' (c.length_encode p.1), decode_encode]

/-- A record type that is stored as another one. -/
def map {β : Type v} (f : α → β) (g : β → α) (h : ∀ b, f (g b) = b) : Codec β where
  width := c.width
  encode b := c.encode (g b)
  decode bs := f (c.decode bs)
  length_encode b := c.length_encode (g b)
  decode_encode b rest := by rw [decode_encode, h]

end Codec

end Lib
