import Esc.Lib.Slices
import Mathlib.Data.Vector.Basic

/-!
# Repair of an account log

The log of an account is a file of records of one size. When the length of the file is not a
multiple of that size, `fix_log` appends zeros and moves the records in the file to the front, so
that those behind the damage start at a multiple of the record size again. It reads and writes the
same file, with the reading position ahead of the writing position by the length of the damage.
-/

namespace Esc

open Lib

/-- The size of a `log_t`. -/
def recordSize : Nat := 64

/-- The bytes of a `log_t`. -/
abbrev LogRecord := Vector UInt8 recordSize

def logBytes (rs : List LogRecord) : List UInt8 := rs.flatMap Vector.toList

@[simp] theorem logBytes_nil : logBytes [] = [] := rfl

@[simp] theorem logBytes_cons (r : LogRecord) (rs : List LogRecord) :
    logBytes (r :: rs) = r.toList ++ logBytes rs := rfl

@[simp] theorem logBytes_append (rs rs' : List LogRecord) :
    logBytes (rs ++ rs') = logBytes rs ++ logBytes rs' := List.flatMap_append

@[simp] theorem length_logBytes (rs : List LogRecord) :
    (logBytes rs).length = recordSize * rs.length := by
  induction rs with
  | nil => rfl
  | cons r rs ih =>
    rw [logBytes_cons, List.length_append, ih, List.length_cons, Vector.length_toList]
    ring

theorem exists_logBytes {k : Nat} {bytes : List UInt8} (h : bytes.length = recordSize * k) :
    ∃ rs : List LogRecord, rs.length = k ∧ bytes = logBytes rs := by
  induction k generalizing bytes with
  | zero => exact ⟨[], rfl, List.length_eq_zero_iff.mp h⟩
  | succ k ih =>
    rw [Nat.mul_succ] at h
    obtain ⟨rs, hlength, hrs⟩ := ih (show (bytes.drop recordSize).length = recordSize * k by
      rw [List.length_drop, h, Nat.add_sub_cancel])
    have htake : (bytes.take recordSize).toArray.size = recordSize := by
      rw [List.size_toArray, List.length_take, h]
      omega
    refine ⟨⟨(bytes.take recordSize).toArray, htake⟩ :: rs, ?_, ?_⟩
    · rw [List.length_cons, hlength]
    · rw [logBytes_cons, ← hrs]
      exact (List.take_append_drop recordSize bytes).symm

/-- A write to a descriptor at `pos`, which lies inside the file. -/
def pwrite (file : List UInt8) (pos : Nat) (bytes : List UInt8) : List UInt8 :=
  file.take pos ++ bytes ++ file.drop (pos + bytes.length)

/-- The file under repair, the positions of the reading and of the writing descriptor, and the
buffer between them. -/
structure Repair where
  file : List UInt8
  rd : Nat
  wd : Nat
  log : LogRecord

/-- Reads a record. At the end of the file only the first bytes of the buffer change. -/
def Repair.read (s : Repair) : Nat × Repair :=
  let got := slice s.file s.rd recordSize
  (got.length, { s with
    rd := s.rd + got.length
    log := .ofFn fun i => got.getD i s.log[i] })

def Repair.write (s : Repair) : Repair :=
  { s with file := pwrite s.file s.wd s.log.toList, wd := s.wd + recordSize }

/-- The loop over a file of `size` bytes. Its counter is an `int`. -/
def Repair.copy (size : Nat) : Nat → Int32 → Repair → Option Repair
  | 0, _, _ => none
  | fuel + 1, l, s =>
    if l.toInt < size then
      if s.read.1 ≠ recordSize then some s.read.2
      else Repair.copy size fuel (l + 64) s.read.2.write
    else some s

/-- The content of the log after `fix_log`, which returns false in every case. The return value
`none` would stand for a loop that does not end. -/
def fixLog (file : List UInt8) : Option (List UInt8) :=
  let l := file.length % recordSize
  if l = 0 then some file
  else
    -- append a suffix
    let file := file ++ List.replicate l 0
    if file.length % recordSize ≠ 0 then some file
    else
      (Repair.copy file.length file.length 64 ⟨file, l, 0, .replicate recordSize 0⟩).map fun s =>
        s.write.file

/-! ## The loop -/

theorem pwrite_append {out old bytes : List UInt8} (h : old.length = bytes.length)
    (rest : List UInt8) :
    pwrite (out ++ old ++ rest) out.length bytes = out ++ bytes ++ rest := by
  rw [pwrite, ← List.drop_drop, List.append_assoc out old, List.take_left, List.drop_left,
    List.drop_left' h]

theorem Repair.read_record {s : Repair} {read rest : List UInt8} {r : LogRecord}
    (hfile : s.file = read ++ (r.toList ++ rest)) (hrd : s.rd = read.length) :
    s.read = (recordSize, { s with rd := s.rd + recordSize, log := r }) := by
  have hgot : slice s.file s.rd recordSize = r.toList := by
    rw [slice, hfile, hrd, List.drop_left, List.take_left' r.length_toList]
  have hlog : Vector.ofFn (fun i => r.toList.getD i s.log[i]) = r := by
    ext i hi
    simp
  rw [Repair.read, hgot, r.length_toList]
  simp only [hlog]

theorem Repair.read_short {s : Repair} {read rest : List UInt8} (hfile : s.file = read ++ rest)
    (hrd : s.rd = read.length) (hrest : rest.length < recordSize) : s.read.1 ≠ recordSize := by
  have hgot : slice s.file s.rd recordSize = rest := by
    rw [slice, hfile, hrd, List.drop_left, List.take_of_length_le hrest.le]
  rw [Repair.read, hgot]
  exact hrest.ne

/-- The counter of the loop wraps to a smaller number. -/
theorem toInt_add_recordSize (l : Int32) : (l + 64).toInt ≤ l.toInt + 64 := by
  have hlow := l.le_toInt
  rw [Int32.toInt_add, show (64 : Int32).toInt = 64 from rfl, Int.bmod_def]
  omega

/-- A record takes the place of the gap and of its own first bytes. -/
theorem Repair.write_record {s : Repair} {out gap rest : List UInt8}
    (hfile : s.file = out ++ gap ++ (s.log.toList ++ rest)) (hwd : s.wd = out.length) :
    s.write = { s with
      file := out ++ s.log.toList ++ ((gap ++ s.log.toList).drop recordSize ++ rest)
      wd := out.length + recordSize } := by
  have hsplit : s.file = out ++ (gap ++ s.log.toList).take recordSize ++
      ((gap ++ s.log.toList).drop recordSize ++ rest) := by
    rw [hfile, List.append_assoc out (List.take _ _), ← List.append_assoc (List.take _ _),
      List.take_append_drop, List.append_assoc, List.append_assoc]
  rw [Repair.write, hsplit, hwd, pwrite_append]
  rw [List.length_take, List.length_append, s.log.length_toList]
  omega

/-- The records behind the reading position move to the writing position. The distance between
the positions stays the same, and a record is read before its place is overwritten. -/
theorem Repair.copy_records {size fuel : Nat} {l : Int32} {s : Repair} {out gap tail : List UInt8}
    {rs : List LogRecord} (hfile : s.file = out ++ gap ++ (logBytes rs ++ tail))
    (hrd : s.rd = out.length + gap.length) (hwd : s.wd = out.length)
    (htail : tail.length < recordSize)
    (hsize : out.length + gap.length + recordSize * rs.length + tail.length = size)
    (hgap : 0 < gap.length) (hl : l.toInt ≤ out.length + recordSize) (hfuel : rs.length < fuel) :
    ∃ s' gap', Repair.copy size fuel l s = some s' ∧ gap'.length = gap.length ∧
      s'.file = out ++ logBytes rs ++ (gap' ++ tail) ∧
      s'.wd = out.length + recordSize * rs.length := by
  induction rs generalizing fuel l s out gap with
  | nil =>
    rw [logBytes_nil, List.nil_append] at hfile
    have hshort := s.read_short hfile (by rw [hrd, List.length_append]) htail
    obtain ⟨fuel, rfl⟩ := Nat.exists_eq_add_one_of_ne_zero (Nat.ne_of_gt hfuel)
    rw [Repair.copy, if_pos hshort]
    refine ⟨if l.toInt < size then s.read.2 else s, gap, ?_, rfl, ?_, ?_⟩
    · split <;> rfl
    · rw [logBytes_nil, List.append_nil, ← List.append_assoc, ← hfile]
      split <;> rfl
    · split <;> exact hwd
  | cons r rs ih =>
    rw [logBytes_cons, List.append_assoc r.toList] at hfile
    have hread := s.read_record hfile (by rw [hrd, List.length_append])
    rw [List.length_cons, Nat.mul_succ] at hsize
    rw [List.length_cons] at hfuel
    obtain ⟨fuel, rfl⟩ := Nat.exists_eq_add_one_of_ne_zero (Nat.ne_of_gt (Nat.zero_lt_of_lt hfuel))
    have hlength : ((gap ++ r.toList).drop recordSize).length = gap.length := by
      rw [List.length_drop, List.length_append, r.length_toList, Nat.add_sub_cancel]
    have hout : (out ++ r.toList).length = out.length + recordSize := by
      rw [List.length_append, r.length_toList]
    have hnext := toInt_add_recordSize l
    have hwrite := (Repair.mk s.file (s.rd + recordSize) s.wd r).write_record hfile hwd
    rw [Repair.copy, if_pos (by omega), hread, if_neg (not_not.mpr rfl), hwrite]
    obtain ⟨s', gap', hcopy, hgap', hfile', hwd'⟩ := @ih fuel (l + 64)
      ⟨out ++ r.toList ++ ((gap ++ r.toList).drop recordSize ++ (logBytes rs ++ tail)),
        s.rd + recordSize, out.length + recordSize, r⟩ (out ++ r.toList)
      ((gap ++ r.toList).drop recordSize) (by simp only [List.append_assoc])
      (by rw [hout, hlength, ← Nat.add_right_comm, ← hrd]) hout.symm (by rw [hout, hlength]; omega)
      (by rw [hlength]; exact hgap) (by rw [hout]; unfold recordSize at *; omega) (by omega)
    refine ⟨s', gap', hcopy, hgap'.trans hlength, ?_, ?_⟩
    · rw [hfile', logBytes_cons, List.append_assoc out]
    · rw [hwd', hout, List.length_cons]
      ring

/-! ## The repair -/

theorem length_damaged (before after : List LogRecord) (part : List UInt8) :
    (logBytes before ++ part ++ logBytes after).length =
      recordSize * (before.length + after.length) + part.length := by
  rw [List.length_append, List.length_append, length_logBytes, length_logBytes]
  ring

theorem length_damaged_mod (before after : List LogRecord) {part : List UInt8}
    (hpart : part.length < recordSize) :
    (logBytes before ++ part ++ logBytes after).length % recordSize = part.length := by
  rw [length_damaged, Nat.mul_add_mod, Nat.mod_eq_of_lt hpart]

/-- The suffix has the length of the damage, so it completes the last record only when the damage
is half a record. -/
theorem length_padded_mod (before after : List LogRecord) {part : List UInt8}
    (hpart : part.length < recordSize) (hne : part ≠ []) :
    (logBytes before ++ part ++ logBytes after ++
      List.replicate part.length (0 : UInt8)).length % recordSize = 0 ↔
      2 * part.length = recordSize := by
  have hpos := List.length_pos_iff.mpr hne
  rw [List.length_append, length_damaged, List.length_replicate, Nat.add_assoc, Nat.mul_add_mod]
  unfold recordSize at *
  omega

/-- A damage of half a record is repaired: the file becomes a sequence of records that ends with
those behind the damage and one more. -/
theorem fixLog_half {before after : List LogRecord} {part : List UInt8}
    (hpart : 2 * part.length = recordSize) :
    ∃ moved last, fixLog (logBytes before ++ part ++ logBytes after) =
        some (logBytes (moved ++ after ++ [last])) := by
  have hlt : part.length < recordSize := by
    unfold recordSize at *
    omega
  have hne : part ≠ [] := by
    rintro rfl
    cases hpart
  -- The bytes before the damage and the damage itself, cut at another place.
  obtain ⟨moved, hmoved, hbytes⟩ : ∃ rs : List LogRecord, rs.length = before.length ∧
      (logBytes before ++ part).drop part.length = logBytes rs := by
    apply exists_logBytes
    rw [List.length_drop, List.length_append, length_logBytes, Nat.add_sub_cancel]
  obtain ⟨gap, hgap, hfile⟩ : ∃ gap : List UInt8, gap.length = part.length ∧
      logBytes before ++ part ++ logBytes after ++ List.replicate part.length 0 =
        [] ++ gap ++ (logBytes (moved ++ after) ++ List.replicate part.length 0) := by
    refine ⟨(logBytes before ++ part).take part.length, ?_, ?_⟩
    · rw [List.length_take, List.length_append]
      omega
    · rw [logBytes_append, ← hbytes, List.nil_append, ← List.append_assoc, ← List.append_assoc,
        List.take_append_drop]
  rw [fixLog, length_damaged_mod before after hlt, if_neg (List.length_pos_iff.mpr hne).ne',
    if_neg (not_not.mpr ((length_padded_mod before after hlt hne).mpr hpart)), hfile]
  generalize hzeros : List.replicate part.length (0 : UInt8) = zeros at hfile ⊢
  have hzerosLength : zeros.length = part.length := by rw [← hzeros, List.length_replicate]
  have hsize : ([] ++ gap ++ (logBytes (moved ++ after) ++ zeros)).length =
      recordSize * (moved ++ after).length + recordSize := by
    rw [List.length_append, List.length_append, List.length_append, length_logBytes, hgap,
      hzerosLength, ← hpart, List.length_nil]
    ring
  have hcounter : (64 : Int32).toInt ≤ ([] : List UInt8).length + recordSize := le_rfl
  obtain ⟨s', gap', hcopy, hgap', hfile', hwd'⟩ :=
    (Repair.mk _ part.length 0 (.replicate recordSize 0)).copy_records rfl
      (by rw [hgap, List.length_nil, Nat.zero_add]) rfl (hzerosLength ▸ hlt)
      (show _ = recordSize * (moved ++ after).length + recordSize by
        rw [hgap, hzerosLength, List.length_nil]; omega)
      (hgap ▸ List.length_pos_iff.mpr hne) hcounter
      (show (moved ++ after).length < recordSize * (moved ++ after).length + recordSize by
        unfold recordSize; omega)
  refine ⟨moved, s'.log, ?_⟩
  -- The last record overwrites what is left of the gap and the suffix.
  rw [hsize, hcopy, Option.map_some, Repair.write, hfile', hwd', List.nil_append, List.length_nil,
    Nat.zero_add, ← length_logBytes, ← List.append_nil (logBytes (moved ++ after) ++ _),
    pwrite_append, List.append_nil, logBytes_append (moved ++ after), logBytes_cons, logBytes_nil,
    List.append_nil]
  rw [List.length_append, hgap', hgap, hzerosLength, s'.log.length_toList, ← hpart, Nat.two_mul]

/-- Any other damage leaves a file that is not a sequence of records. -/
theorem fixLog_ne_logBytes {before after : List LogRecord} {part : List UInt8} (hne : part ≠ [])
    (hpart : part.length < recordSize) (hhalf : 2 * part.length ≠ recordSize)
    (rs : List LogRecord) :
    fixLog (logBytes before ++ part ++ logBytes after) ≠ some (logBytes rs) := by
  intro h
  have hpadded := mt (length_padded_mod before after hpart hne).mp hhalf
  rw [fixLog, length_damaged_mod before after hpart, if_neg (List.length_pos_iff.mpr hne).ne',
    if_pos hpadded] at h
  apply hpadded
  rw [Option.some.inj h, length_logBytes, Nat.mul_mod_right]

/-- A file of whole records, a damage and more whole records becomes a file of records with those
behind the damage among them exactly when the damage has half the size of a record. -/
theorem fixLog_iff (before after : List LogRecord) (part : List UInt8) (hne : part ≠ [])
    (hpart : part.length < recordSize) :
    (∃ rs, fixLog (logBytes before ++ part ++ logBytes after) = some (logBytes rs) ∧
      after <:+: rs) ↔ 2 * part.length = recordSize := by
  constructor
  · rintro ⟨rs, hrs, -⟩
    by_contra hhalf
    exact fixLog_ne_logBytes hne hpart hhalf rs hrs
  · intro hhalf
    obtain ⟨moved, last, h⟩ := fixLog_half hhalf
    exact ⟨_, h, moved, [last], rfl⟩

/-- A damage of 32 bytes between records. -/
theorem fixLog_iff_32 :
    ∃ rs, fixLog (logBytes [.replicate recordSize 5, .replicate recordSize 6] ++ .replicate 32 0 ++
        logBytes [.replicate recordSize 7, .replicate recordSize 8]) = some (logBytes rs) ∧
      [.replicate recordSize 7, .replicate recordSize 8] <:+: rs :=
  (fixLog_iff [.replicate recordSize 5, .replicate recordSize 6]
    [.replicate recordSize 7, .replicate recordSize 8] (.replicate 32 0) (by decide)
    (by decide)).mpr rfl

/-- A damage of one byte before one record is not repaired. -/
theorem fixLog_one_byte :
    ¬ ∃ rs, fixLog (logBytes [] ++ [0] ++ logBytes [.replicate recordSize 7]) =
      some (logBytes rs) ∧ [.replicate recordSize 7] <:+: rs := by
  rintro ⟨rs, h, -⟩
  exact fixLog_ne_logBytes (by decide) (by decide) (by decide) rs h

end Esc
