import Esc.Server.State

/-!
# Dividends

An account that was not touched in the present dividend period is credited, or
charged, at its first touch. The function signals "nothing due" by a reserved
64-bit value, and its callers compare with that value; `paid` is the amount such a
caller books.
-/

namespace Esc

open Lib

/-- The reserved return value, `0x8FFFFFFFFFFFFFFF` read as a signed word. -/
def noDividend : Int64 := Int64.ofBitVec 0x8FFFFFFFFFFFFFFF

/-- The account has not been touched since the period started. -/
def dividendDue (v : Servers) (u : User) : Prop :=
  u.rpath < v.periodStart ∧ u.lpath < v.periodStart

instance (v : Servers) (u : User) : Decidable (dividendDue v u) :=
  inferInstanceAs (Decidable (_ ∧ _))

/-- The dividend less the dividend fee, before it is limited by the balance. -/
def dividendAmount (v : Servers) (u : User) : Int64 :=
  (if u.lpath < v.now - accountDormantAge then -txsGokFee u.weight
    else if u.lpath < v.now - accountInactiveAge then 0
    else (u.weight >>> 16) * Int64.ofNat v.div.toNat) - txsDivFee

/-- The dividend paid when one is due: a charge never exceeds the balance. -/
def dividendValue (v : Servers) (u : User) : Int64 :=
  if dividendAmount v u < -u.weight then -u.weight else dividendAmount v u

/-- The returned value, the updated account and the updated fee counter. -/
def dividend (v : Servers) (u : User) (fee : Int64) : Int64 × User × Int64 :=
  if dividendDue v u then
    (dividendValue v u,
      { u with rpath := v.now, weight := u.weight + dividendValue v u },
      if dividendAmount v u < -u.weight then fee else fee + txsDivFee)
  else
    (noDividend, u, fee)

/-- What a caller books for a returned value. -/
def paid (div : Int64) : Int64 := if div = noDividend then 0 else div

@[simp] theorem paid_noDividend : paid noDividend = 0 := rfl

theorem dividend_of_not_due {v : Servers} {u : User} (fee : Int64) (h : ¬ dividendDue v u) :
    dividend v u fee = (noDividend, u, fee) := by
  simp [dividend, h]

theorem dividend_of_due {v : Servers} {u : User} (fee : Int64) (h : dividendDue v u) :
    dividend v u fee =
      (dividendValue v u, { u with rpath := v.now, weight := u.weight + dividendValue v u },
        if dividendAmount v u < -u.weight then fee else fee + txsDivFee) := by
  simp [dividend, h]

/-- The fields of a record that a dividend leaves alone. -/
theorem dividend_record (v : Servers) (u : User) (fee : Int64) :
    (dividend v u fee).2.1 =
      { u with
        rpath := (dividend v u fee).2.1.rpath
        weight := (dividend v u fee).2.1.weight } := by
  by_cases h : dividendDue v u
  · rw [dividend_of_due fee h]
  · rw [dividend_of_not_due fee h]

/-- An account that was credited, or did not need to be, is not due again. -/
theorem not_due_dividend (v : Servers) (u : User) (fee : Int64) :
    ¬ dividendDue v (dividend v u fee).2.1 := by
  by_cases h : dividendDue v u
  · rw [dividend_of_due fee h]
    intro hdue
    exact UInt32.lt_irrefl _ (UInt32.lt_of_lt_of_le hdue.1 v.periodStart_le)
  · rw [dividend_of_not_due fee h]
    exact h

/-- Dividends depend on block time and rate only. -/
theorem dividend_congr {v v' : Servers} (hnow : v'.now = v.now) (hdiv : v'.div = v.div) (u : User)
    (fee : Int64) :
    (dividendDue v' u ↔ dividendDue v u) ∧ dividendValue v' u = dividendValue v u ∧
      dividend v' u fee = dividend v u fee := by
  have hstart : v'.periodStart = v.periodStart := by
    rw [Servers.periodStart, Servers.periodStart, hnow]
  have hdue : dividendDue v' u ↔ dividendDue v u := by
    rw [dividendDue, dividendDue, hstart]
  have hamount : dividendAmount v' u = dividendAmount v u := by
    rw [dividendAmount, dividendAmount, hnow, hdiv]
  have hvalue : dividendValue v' u = dividendValue v u := by
    rw [dividendValue, dividendValue, hamount]
  refine ⟨hdue, hvalue, ?_⟩
  by_cases h : dividendDue v u
  · rw [dividend_of_due fee h, dividend_of_due fee (hdue.mpr h), hvalue, hamount, hnow]
  · rw [dividend_of_not_due fee h, dividend_of_not_due fee (mt hdue.mp h)]

end Esc
