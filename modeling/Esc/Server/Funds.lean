import Esc.Server.CommitSpec

/-!
# Funds

Sums over the accounts of a bank and over the pending deposits, in exact integers, and
the dividend that an account may still be paid. `ledgerMax` is twice the total supply
with room to spare, and small enough that a dividend is never the reserved value.
-/

namespace Esc

open Lib

/-- Largest amount of money that the bookkeeping below allows for. -/
def ledgerMax : Int := 0x7000000000000000

/-- The dividend that an account may still be paid in this period. -/
def due (v : Servers) (u : User) : Int :=
  if dividendDue v u then max 0 (dividendValue v u).toInt else 0

theorem due_nonneg (v : Servers) (u : User) : 0 ≤ due v u := by
  rw [due]
  split
  · exact le_max_left _ _
  · exact le_rfl

theorem due_of_not_due {v : Servers} {u : User} (h : ¬ dividendDue v u) : due v u = 0 := by
  rw [due, if_neg h]

theorem toInt_noDividend : noDividend.toInt = -ledgerMax - 1 := by decide

/-- A charge never exceeds the balance. -/
theorem neg_le_dividendValue {v : Servers} {u : User} (hw : 0 ≤ u.weight.toInt) :
    -u.weight.toInt ≤ (dividendValue v u).toInt := by
  have hneg : (-u.weight).toInt = -u.weight.toInt :=
    toInt_neg ⟨by have := (fits_toInt u.weight).2; omega, by omega⟩
  rw [dividendValue]
  split
  · rw [hneg]
  · rename_i h
    rw [Int64.lt_iff_toInt_lt, hneg] at h
    omega

/-- A dividend on a bounded balance is booked exactly, leaves a nonnegative balance
and uses up what was due. -/
theorem dividend_exact {v : Servers} {u : User} (fee : Int64) (hw : 0 ≤ u.weight.toInt)
    (hmax : u.weight.toInt + due v u ≤ ledgerMax) :
    (dividend v u fee).2.1.weight.toInt =
        u.weight.toInt + (paid (dividend v u fee).1).toInt ∧
      0 ≤ (dividend v u fee).2.1.weight.toInt ∧
      (paid (dividend v u fee).1).toInt ≤ due v u := by
  by_cases h : dividendDue v u
  · have hlow := neg_le_dividendValue (v := v) hw
    rw [due, if_pos h] at hmax ⊢
    have hle := le_max_right (0 : Int) (dividendValue v u).toInt
    have hpaid : paid (dividendValue v u) = dividendValue v u := by
      rw [paid, if_neg]
      intro heq
      rw [heq, toInt_noDividend] at hlow
      have hpos := le_max_left (0 : Int) (dividendValue v u).toInt
      omega
    rw [dividend_of_due fee h, hpaid]
    have hadd : (u.weight + dividendValue v u).toInt =
        u.weight.toInt + (dividendValue v u).toInt :=
      toInt_add ⟨by omega, by simp only [ledgerMax] at hmax; omega⟩
    refine ⟨hadd, ?_, hle⟩
    rw [hadd]
    omega
  · rw [dividend_of_not_due fee h, paid_noDividend]
    exact ⟨(add_zero _).symm, hw, due_nonneg v u⟩

/-- Total balance of a bank, in exact integers. -/
def State.bankTotal (s : State) (svid : UInt16) : Int :=
  ∑ i ∈ Finset.range (s.srvs.node svid).users.toNat, ((s.usr svid).get i).weight.toInt

/-- Total of the pending remote deposits. -/
def State.depositTotal (s : State) : Int := Map.total (fun _ w => w.toInt) s.deposit

end Esc
