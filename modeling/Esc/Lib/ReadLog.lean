import Esc.Lib.Bytes

/-!
# Programs that read a buffer

A computation together with the list of its reads, each an offset and a number of bytes.
The reads of a sequence are those of its parts, so whether a program stays inside its
buffer is a question about its single reads.
-/

namespace Lib

/-- A result with the reads that led to it. -/
structure ReadLog (α : Type) where
  reads : List (Nat × Nat)
  value : α
deriving DecidableEq, Repr

namespace ReadLog

variable {α β : Type}

instance : Monad ReadLog where
  pure a := ⟨[], a⟩
  bind x f := ⟨x.reads ++ (f x.value).reads, (f x.value).value⟩

/-- Read `n` bytes at an offset. -/
def read (d : Bytes) (off n : Nat) : ReadLog (List UInt8) := ⟨[(off, n)], (d.skip off).take n⟩

/-- All reads are inside a buffer of the given length. -/
def InBounds (len : Nat) (x : ReadLog α) : Prop := ∀ r ∈ x.reads, r.1 + r.2 ≤ len

instance (len : Nat) (x : ReadLog α) : Decidable (x.InBounds len) :=
  inferInstanceAs (Decidable (∀ r ∈ x.reads, r.1 + r.2 ≤ len))

@[simp] theorem value_pure (a : α) : (pure a : ReadLog α).value = a := rfl

@[simp] theorem value_bind (x : ReadLog α) (f : α → ReadLog β) :
    (x >>= f).value = (f x.value).value := rfl

@[simp] theorem value_read (d : Bytes) (off n : Nat) :
    (read d off n).value = (d.skip off).take n := rfl

@[simp] theorem inBounds_pure (len : Nat) (a : α) : (pure a : ReadLog α).InBounds len := by
  intro r hr
  cases hr

@[simp] theorem inBounds_bind (len : Nat) (x : ReadLog α) (f : α → ReadLog β) :
    (x >>= f).InBounds len ↔ x.InBounds len ∧ (f x.value).InBounds len := by
  constructor
  · intro h
    exact ⟨fun r hr => h r (List.mem_append_left _ hr),
      fun r hr => h r (List.mem_append_right _ hr)⟩
  · rintro ⟨hx, hf⟩ r hr
    rcases List.mem_append.mp hr with hr | hr
    · exact hx r hr
    · exact hf r hr

@[simp] theorem inBounds_read (len : Nat) (d : Bytes) (off n : Nat) :
    (read d off n).InBounds len ↔ off + n ≤ len := by
  simp [InBounds, read]

/-- A loop over the records of a buffer, each of the given size. -/
def records (step : Nat → β → ReadLog β) (size : Nat) : Nat → Nat → β → ReadLog β
  | 0, _, b => pure b
  | n + 1, off, b => step off b >>= fun b => records step size n (off + size) b

/-- A loop over records that reads each of them to its end stays in the buffer exactly when
all records are inside. -/
theorem inBounds_records {step : Nat → β → ReadLog β} {size len : Nat}
    (hstep : ∀ off b, (step off b).InBounds len ↔ off + size ≤ len) (n off : Nat) (b : β) :
    (records step size n off b).InBounds len ↔ n = 0 ∨ off + n * size ≤ len := by
  induction n generalizing off b with
  | zero => simp [records]
  | succ n ih =>
    rw [records, inBounds_bind, hstep, ih, Nat.succ_mul]
    constructor
    · rintro ⟨hfirst, rfl | hrest⟩
      · exact .inr (by omega)
      · exact .inr (by omega)
    · rintro (h | h)
      · omega
      · exact ⟨by omega, .inr (by omega)⟩

end ReadLog

end Lib
