import Mathlib

/-!
# Exact readings of 64-bit signed arithmetic

Machine additions, subtractions and multiplications are exact as long as the
integer result is representable. Division and the arithmetic right shift by
constants never overflow here.
-/

namespace Lib

/-- An integer that a signed 64-bit word represents. -/
def Fits (n : Int) : Prop := -2 ^ 63 ≤ n ∧ n < 2 ^ 63

instance (n : Int) : Decidable (Fits n) := inferInstanceAs (Decidable (_ ∧ _))

theorem Fits.of_nonneg {n : Int} (h0 : 0 ≤ n) (h : n < 2 ^ 63) : Fits n := ⟨by omega, h⟩

theorem fits_toInt (a : Int64) : Fits a.toInt := ⟨a.le_toInt, a.toInt_lt⟩

theorem Fits.bmod {n : Int} (h : Fits n) : n.bmod (2 ^ 64) = n := by
  obtain ⟨hlo, hhi⟩ := h
  exact Int.bmod_eq_of_le (by omega) (by omega)

theorem toInt_add {a b : Int64} (h : Fits (a.toInt + b.toInt)) :
    (a + b).toInt = a.toInt + b.toInt := by
  rw [Int64.toInt_add, h.bmod]

theorem toInt_sub {a b : Int64} (h : Fits (a.toInt - b.toInt)) :
    (a - b).toInt = a.toInt - b.toInt := by
  rw [Int64.toInt_sub, h.bmod]

theorem toInt_neg {a : Int64} (h : Fits (-a.toInt)) : (-a).toInt = -a.toInt := by
  rw [Int64.toInt_neg, h.bmod]

theorem toInt_mul {a b : Int64} (h : Fits (a.toInt * b.toInt)) :
    (a * b).toInt = a.toInt * b.toInt := by
  rw [Int64.toInt_mul, h.bmod]

/-- Truncating division of a nonnegative word by a positive one. -/
theorem toInt_div {a b : Int64} (ha : 0 ≤ a.toInt) (hb : 0 < b.toInt) :
    (a / b).toInt = a.toInt / b.toInt := by
  have hle : a.toInt / b.toInt ≤ a.toInt := Int.ediv_le_self _ ha
  have hnonneg : 0 ≤ a.toInt / b.toInt := Int.ediv_nonneg ha hb.le
  have hfits : Fits (a.toInt / b.toInt) :=
    Fits.of_nonneg hnonneg (lt_of_le_of_lt hle (fits_toInt a).2)
  rw [Int64.toInt_div, Int.tdiv_eq_ediv_of_nonneg ha, hfits.bmod]

/-- Truncating division by a positive word never overflows. -/
theorem toInt_tdiv (a : Int64) {b : Int64} (hb : 0 < b.toInt) :
    (a / b).toInt = a.toInt.tdiv b.toInt := by
  rw [Int64.toInt_div]
  refine Fits.bmod ?_
  have habs := Int.natAbs_tdiv_le_natAbs a.toInt b.toInt
  obtain ⟨hlow, hhigh⟩ := fits_toInt a
  by_cases ha : 0 ≤ a.toInt
  · have hsign := Int.tdiv_nonneg ha hb.le
    exact ⟨by omega, by omega⟩
  · have hneg : (-a.toInt).tdiv b.toInt = -(a.toInt.tdiv b.toInt) := Int.neg_tdiv _ _
    have hsign := Int.tdiv_nonneg (a := -a.toInt) (by omega) hb.le
    exact ⟨by omega, by omega⟩

end Lib
