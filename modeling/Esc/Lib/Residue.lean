import Esc.Lib.Word
import Mathlib.Data.ZMod.Basic

/-!
# Amounts modulo the word size

64-bit amounts add up without overflow in the integers modulo `2 ^ 64`. A statement about
sums there holds for all amounts; when the sums are small it is one about integers.
-/

namespace Lib

/-- An amount as a residue. -/
def residue (a : Int64) : ZMod (2 ^ 64) := (a.toInt : ZMod (2 ^ 64))

theorem intCast_bmod (x : Int) : ((x.bmod (2 ^ 64) : Int) : ZMod (2 ^ 64)) = x := by
  rw [ZMod.intCast_eq_intCast_iff]
  exact Int.bmod_emod

@[simp] theorem residue_zero : residue 0 = 0 := by
  rw [residue, Int64.toInt_zero, Int.cast_zero]

theorem residue_add (a b : Int64) : residue (a + b) = residue a + residue b := by
  rw [residue, residue, residue, Int64.toInt_add, intCast_bmod, Int.cast_add]

/-- A multiple of a positive amount that is no multiple of the word size. -/
theorem eq_zero_of_nsmul_residue {k n : Nat} {a : Int64} (ha : a.toInt = n) (hn : 0 < n)
    (hk : k * n < 2 ^ 64) (h : k • residue a = 0) : k = 0 := by
  rw [residue, ha, Int.cast_natCast, nsmul_eq_mul, ← Nat.cast_mul, ZMod.natCast_eq_zero_iff] at h
  have hzero := Nat.eq_zero_of_dvd_of_lt h hk
  exact (Nat.mul_eq_zero.mp hzero).resolve_right hn.ne'

end Lib
