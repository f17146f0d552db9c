import Esc.Lib.Slices
import Mathlib.Data.Int.Bitwise

/-!
# Reading a file of a block

`BlockFileReader` holds a file descriptor and the window of the file it reads: the
whole file when the block is a directory, a part of the archive when the block has
been archived. `read` and `lseek` compute with the position in the descriptor and the
end of the window.

A reader on a window of a larger file follows a reader on the file itself as long as
the calls stay in the file: no seek from the end, no step over one of the ends, and no
read of `2 ^ 31` bytes or more.
-/

namespace Esc

open Lib

variable {r r' : BlockFileReader} {data : List UInt8}

/-- The reader; without a descriptor it is closed. -/
structure BlockFileReader where
  fd : Option (List UInt8) := none
  seek : Nat := 0
  fileSize : Nat := 0
  position : Nat := 0

inductive Whence where
  | set
  | cur
  | fin
deriving DecidableEq

namespace BlockFileReader

def isOpen (r : BlockFileReader) : Bool := r.fd.isSome && 0 < r.fileSize

def getSize (r : BlockFileReader) : UInt32 := UInt32.ofNat r.fileSize

/-- The end of the window in the descriptor, a 64-bit number. -/
def stop (r : BlockFileReader) : Nat := (r.fileSize + r.seek) % 2 ^ 64

/-- Read up to `size` bytes. The position is kept in an `int`; `none` is the failed
assertion on a negative one. -/
def read (r : BlockFileReader) (size : UInt32) : Option (List UInt8 × BlockFileReader) :=
  match r.fd with
  | none => none
  | some data =>
      let current := r.position % 2 ^ 32
      if 2 ^ 31 ≤ current then none
      else
        let size := if r.stop < (size.toNat + current) % 2 ^ 32 then
            (r.stop + 2 ^ 32 - current) % 2 ^ 32
          else size.toNat
        let bytes := slice data r.position size
        some (bytes, { r with position := r.position + bytes.length })

/-- The offset that a call of `lseek` asks for, and from where. -/
def request (r : BlockFileReader) (position : Int32) : Whence → Int × Whence
  | .cur => (position.toInt, .cur)
  | .fin => (Int.bmod (r.fileSize + position.toInt) (2 ^ 64), .set)
  | .set => (Int.bmod (position.toInt + r.seek) (2 ^ 64), .set)

/-- An offset past the end of the window goes to the end. -/
def clamp (r : BlockFileReader) (o : Int × Whence) : Int × Whence :=
  if Int.bmod r.stop (2 ^ 64) < o.1 then (Int.bmod r.stop (2 ^ 64), .set) else o

/-- The system call; it refuses a negative position. -/
def move (r : BlockFileReader) (o : Int × Whence) : Bool × BlockFileReader :=
  let target := if o.2 = .cur then r.position + o.1 else o.1
  if target < 0 then (false, r) else (true, { r with position := target.toNat })

def lseek (r : BlockFileReader) (position : Int32) (whence : Whence) : Bool × BlockFileReader :=
  if r.fd.isNone then (false, r) else r.move (r.clamp (r.request position whence))

/-- A reader of a whole file at a position. -/
def atPos (file : List UInt8) (position : Nat) : BlockFileReader :=
  { fd := some file, fileSize := file.length, position }

end BlockFileReader

/-- A call on a reader. -/
inductive ReaderCall where
  | read (size : UInt32)
  | lseek (position : Int32) (whence : Whence)

/-- What a call returns. -/
inductive ReaderReply where
  | bytes (bytes : List UInt8)
  | moved (ok : Bool)
deriving DecidableEq

namespace BlockFileReader

def call (r : BlockFileReader) : ReaderCall → Option (ReaderReply × BlockFileReader)
  | .read size => (r.read size).map fun p => (.bytes p.1, p.2)
  | .lseek position whence => some (.moved (r.lseek position whence).1, (r.lseek position whence).2)

/-- A sequence of calls with what they return. -/
def calls (r : BlockFileReader) : List ReaderCall → Option (List ReaderReply)
  | [] => some []
  | c :: cs => do
      let (reply, r) ← r.call c
      let replies ← r.calls cs
      return reply :: replies

/-- The call stays in the file. -/
def Stays (r : BlockFileReader) : ReaderCall → Prop
  | .read size => size.toNat < 2 ^ 31
  | .lseek position .set => 0 ≤ position.toInt
  | .lseek position .cur =>
      0 ≤ r.position + position.toInt ∧ r.position + position.toInt ≤ r.fileSize
  | .lseek _ .fin => False

/-- All calls of a sequence stay in the file. -/
def StaysAll (r : BlockFileReader) : List ReaderCall → Prop
  | [] => True
  | c :: cs => r.Stays c ∧ ∀ reply r', r.call c = some (reply, r') → r'.StaysAll cs

/-- A reader `r'` on the window of a larger file with the content that `r` reads. -/
structure Window (r r' : BlockFileReader) : Prop where
  whole : ∃ data, r.fd = some data ∧ r.seek = 0 ∧ r.fileSize = data.length ∧
    ∃ data', r'.fd = some data' ∧ slice data' r'.seek r'.fileSize = data ∧
      r'.seek + r'.fileSize ≤ data'.length ∧ data'.length < 2 ^ 31
  size : r'.fileSize = r.fileSize
  position : r'.position = r'.seek + r.position
  inside : r.position ≤ r.fileSize

theorem stop_of_lt (h : r.fileSize + r.seek < 2 ^ 31) : r.stop = r.fileSize + r.seek := by
  unfold stop
  exact Nat.mod_eq_of_lt (by omega)

/-- A read inside the window of a small file. -/
theorem read_eq {size : UInt32} (hfd : r.fd = some data) (hsmall : r.fileSize + r.seek < 2 ^ 31)
    (hpos : r.position ≤ r.fileSize + r.seek) (hsize : size.toNat < 2 ^ 31) :
    let n := min size.toNat (r.fileSize + r.seek - r.position)
    r.read size = some (slice data r.position n,
      { r with position := r.position + (slice data r.position n).length }) := by
  have hcurrent : r.position % 2 ^ 32 = r.position := Nat.mod_eq_of_lt (by omega)
  have hsum : (size.toNat + r.position) % 2 ^ 32 = size.toNat + r.position :=
    Nat.mod_eq_of_lt (by omega)
  simp only [read, hfd, stop_of_lt hsmall, hcurrent, hsum]
  rw [if_neg (by omega)]
  split
  · rw [show (r.fileSize + r.seek + 2 ^ 32 - r.position) % 2 ^ 32 =
      min size.toNat (r.fileSize + r.seek - r.position) by omega]
  · rw [show size.toNat = min size.toNat (r.fileSize + r.seek - r.position) by omega]
    simp

/-- One read. -/
theorem Window.read (h : Window r r') {size : UInt32} (hsize : size.toNat < 2 ^ 31) :
    ∃ bytes r₁ r₁', r.read size = some (bytes, r₁) ∧ r'.read size = some (bytes, r₁') ∧
      Window r₁ r₁' := by
  obtain ⟨⟨data, hfd, hseek, hfile, data', hfd', hdata, hend, hsmall⟩, hsame, hpos, hinside⟩ := h
  have hread := read_eq hfd (by omega) (by omega) hsize
  have hread' := read_eq hfd' (by omega) (by omega) hsize
  have hcount : r'.fileSize + r'.seek - r'.position = r.fileSize + r.seek - r.position := by omega
  dsimp only at hread hread'
  rw [hcount] at hread'
  have hbytes : slice data' r'.position (min size.toNat (r.fileSize + r.seek - r.position)) =
      slice data r.position (min size.toNat (r.fileSize + r.seek - r.position)) := by
    rw [← hdata, slice_slice _ (by omega), hpos]
  rw [hbytes] at hread'
  refine ⟨_, _, _, hread, hread', ⟨data, hfd, hseek, hfile, data', hfd', hdata, hend, hsmall⟩,
    hsame, ?_, ?_⟩
  · simp only [hpos]
    omega
  · have hlength : (slice data r.position
        (min size.toNat (r.fileSize + r.seek - r.position))).length ≤
        r.fileSize + r.seek - r.position := by
      unfold slice
      rw [List.length_take]
      omega
    simp only
    omega

theorem bmod_of_small {n : Int} (h0 : -2 ^ 32 ≤ n) (h : n < 2 ^ 32) : Int.bmod n (2 ^ 64) = n := by
  apply Int.bmod_eq_of_le <;> omega

theorem clamp_of_small (hsmall : r.fileSize + r.seek < 2 ^ 31) (o : Int × Whence) :
    r.clamp o = if ((r.fileSize + r.seek : Nat) : Int) < o.1 then
      (((r.fileSize + r.seek : Nat) : Int), .set) else o := by
  unfold clamp
  rw [stop_of_lt hsmall, bmod_of_small (by omega) (by omega)]

theorem move_set (r : BlockFileReader) {offset : Int} (h : 0 ≤ offset) :
    r.move (offset, .set) = (true, { r with position := offset.toNat }) :=
  if_neg (by simpa using h)

theorem move_cur (r : BlockFileReader) {offset : Int} (h : 0 ≤ r.position + offset) :
    r.move (offset, .cur) = (true, { r with position := (r.position + offset).toNat }) :=
  if_neg (by simpa using h)

theorem lseek_eq (hfd : r.fd = some data) (position : Int32) (whence : Whence) :
    r.lseek position whence = r.move (r.clamp (r.request position whence)) :=
  if_neg (by rw [hfd]; exact Bool.false_ne_true)

/-- A seek from the start, inside a small file. -/
theorem lseek_set {position : Int32} (hfd : r.fd = some data)
    (hsmall : r.fileSize + r.seek < 2 ^ 31) (hposition : 0 ≤ position.toInt) :
    r.lseek position .set = (true,
      { r with position := r.seek + min position.toInt.toNat r.fileSize }) := by
  have hlt := position.toInt_lt
  rw [lseek_eq hfd, request, bmod_of_small (by omega) (by omega), clamp_of_small hsmall]
  split
  · rename_i hpast
    rw [move_set r (by omega)]
    congr 2
    simp only at hpast
    omega
  · rename_i hin
    rw [move_set r (by omega)]
    congr 2
    simp only at hin
    omega

/-- A seek from the present position that stays in a small file. -/
theorem lseek_cur {position : Int32} (hfd : r.fd = some data)
    (hsmall : r.fileSize + r.seek < 2 ^ 31) (hlower : 0 ≤ r.position + position.toInt)
    (hupper : position.toInt ≤ r.fileSize + r.seek) :
    r.lseek position .cur = (true, { r with position := (r.position + position.toInt).toNat }) := by
  rw [lseek_eq hfd, request, clamp_of_small hsmall, if_neg (by simp only; omega),
    move_cur r hlower]

/-- One call that stays in the file. -/
theorem Window.call (h : Window r r') {c : ReaderCall} (hstays : r.Stays c) :
    ∃ reply r₁ r₁', r.call c = some (reply, r₁) ∧ r'.call c = some (reply, r₁') ∧
      Window r₁ r₁' := by
  cases c with
  | read size =>
      obtain ⟨bytes, r₁, r₁', hread, hread', hwindow⟩ := h.read hstays
      exact ⟨.bytes bytes, r₁, r₁', by simp [BlockFileReader.call, hread],
        by simp [BlockFileReader.call, hread'], hwindow⟩
  | lseek position whence =>
      obtain ⟨⟨data, hfd, hseek, hfile, data', hfd', hdata, hend, hsmall⟩,
        hsame, hpos, hinside⟩ := h
      cases whence with
      | fin => exact hstays.elim
      | set =>
          refine ⟨_, _, _, rfl, by
            rw [BlockFileReader.call, lseek_set hfd' (by omega) hstays,
              lseek_set hfd (by omega) hstays], ?_⟩
          rw [lseek_set hfd (by omega) hstays]
          refine ⟨⟨data, hfd, hseek, hfile, data', hfd', hdata, hend, hsmall⟩, hsame, ?_, ?_⟩
          · simp only
            omega
          · simp only
            omega
      | cur =>
          obtain ⟨hlower, hupper⟩ := hstays
          refine ⟨_, _, _, rfl, by
            rw [BlockFileReader.call, lseek_cur hfd' (by omega) (by omega) (by omega),
              lseek_cur hfd (by omega) hlower (by omega)], ?_⟩
          rw [lseek_cur hfd (by omega) hlower (by omega)]
          refine ⟨⟨data, hfd, hseek, hfile, data', hfd', hdata, hend, hsmall⟩, hsame, ?_, ?_⟩
          · simp only
            omega
          · simp only
            omega

/-- A sequence of calls that stay in the file gets the same replies. -/
theorem Window.calls (h : Window r r') {cs : List ReaderCall} (hstays : r.StaysAll cs) :
    r'.calls cs = r.calls cs := by
  induction cs generalizing r r' with
  | nil => rfl
  | cons c cs ih =>
      obtain ⟨reply, r₁, r₁', hcall, hcall', hwindow⟩ := h.call hstays.1
      simp only [BlockFileReader.calls, hcall, hcall', Option.bind_eq_bind, Option.bind_some]
      rw [ih hwindow (hstays.2 reply r₁ hcall)]

/-- A read inside a file succeeds below `2 ^ 31` and fails on an assertion above. -/
theorem read_at {file : List UInt8} {p w : Nat} (hfile : file.length < 2 ^ 63)
    (hw : w ≤ 2 ^ 30) (hle : p + w ≤ file.length) (hp : p < 2 ^ 31 + 2 ^ 30) :
    (BlockFileReader.atPos file p).read (.ofNat w) =
      if p < 2 ^ 31 then some (slice file p w, .atPos file (p + w)) else none := by
  have hcurrent : p % 2 ^ 32 = p := Nat.mod_eq_of_lt (by omega)
  have hsize : (UInt32.ofNat w).toNat = w :=
    UInt32.toNat_ofNat_of_lt' (lt_of_le_of_lt hw (by decide))
  have hstop : (BlockFileReader.atPos file p).stop = file.length := Nat.mod_eq_of_lt (by
    show file.length + 0 < _
    omega)
  have hlength : (slice file p w).length = w := by
    rw [slice, List.length_take, List.length_drop]
    omega
  have hsum : (w + p) % 2 ^ 32 = w + p := Nat.mod_eq_of_lt (by omega)
  have hfd : (BlockFileReader.atPos file p).fd = some file := rfl
  have hpos : (BlockFileReader.atPos file p).position = p := rfl
  simp only [BlockFileReader.read, hfd, hstop, hpos, hcurrent, hsize, hsum,
    if_neg (show ¬ file.length < w + p by omega), hlength]
  by_cases hsmall : p < 2 ^ 31
  · rw [if_neg (by omega), if_pos hsmall]
    rfl
  · rw [if_pos (by omega), if_neg hsmall]

end BlockFileReader

end Esc
