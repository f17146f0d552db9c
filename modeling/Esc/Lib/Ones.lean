import Mathlib.Data.Nat.Digits.Lemmas

/-!
# The ones of a binary number

How many ones a number has, by its last bit, by its last bits and by the highest of them.
-/

namespace Lib

/-- The number of ones of a binary number. -/
def ones (n : Nat) : Nat := (Nat.digits 2 n).sum

@[simp] theorem ones_zero : ones 0 = 0 := by simp [ones]

@[simp] theorem ones_one : ones 1 = 1 := rfl

theorem ones_eq (n : Nat) : ones n = n % 2 + ones (n / 2) := by
  rcases Nat.eq_zero_or_pos n with rfl | hpos
  · simp
  · simp [ones, Nat.digits_def' (by decide : 1 < 2) hpos]

theorem ones_two_mul (n : Nat) : ones (2 * n) = ones n := by
  rw [ones_eq, Nat.mul_mod_right, Nat.mul_div_cancel_left n (by decide), Nat.zero_add]

theorem ones_two_mul_add_one (n : Nat) : ones (2 * n + 1) = ones n + 1 := by
  rw [ones_eq, show (2 * n + 1) / 2 = n by omega, show (2 * n + 1) % 2 = 1 by omega, Nat.add_comm]

theorem ones_le (n : Nat) : ones n ≤ n := Nat.digit_sum_le 2 n

theorem ones_succ_le (n : Nat) : ones (n + 1) ≤ ones n + 1 := by
  induction n using Nat.strong_induction_on with
  | h n ih =>
    rcases Nat.even_or_odd' n with ⟨q, rfl | rfl⟩
    · rw [ones_two_mul_add_one, ones_two_mul]
    · have hle := ih q (by omega)
      rw [show 2 * q + 1 + 1 = 2 * (q + 1) by omega, ones_two_mul, ones_two_mul_add_one]
      omega

theorem ones_eq_zero {n : Nat} (h : ones n = 0) : n = 0 := by
  induction n using Nat.strong_induction_on with
  | h n ih =>
    rw [ones_eq] at h
    by_contra hne
    have := ih (n / 2) (by omega) (by omega)
    omega

theorem div_two_pow_succ (m k : Nat) : m / 2 ^ (k + 1) = m / 2 / 2 ^ k := by
  rw [Nat.pow_succ', Nat.div_div_eq_div_mul]

theorem mod_two_pow_succ (m k : Nat) : m % 2 ^ (k + 1) = 2 * (m / 2 % 2 ^ k) + m % 2 := by
  rw [Nat.pow_succ', Nat.mod_mul]
  omega

theorem ones_mod_succ (m k : Nat) : ones (m % 2 ^ (k + 1)) = ones (m / 2 % 2 ^ k) + m % 2 := by
  rw [mod_two_pow_succ, ones_eq, show (2 * (m / 2 % 2 ^ k) + m % 2) % 2 = m % 2 by omega,
    show (2 * (m / 2 % 2 ^ k) + m % 2) / 2 = m / 2 % 2 ^ k by omega, Nat.add_comm]

theorem ones_mod_le (n k : Nat) : ones (n % 2 ^ k) ≤ k := by
  induction k generalizing n with
  | zero => simp [Nat.mod_one]
  | succ k ih =>
    have := ih (n / 2)
    rw [ones_mod_succ]
    omega

/-- The bits below a place and those from it on. -/
theorem ones_split (n k : Nat) : ones n = ones (n / 2 ^ k) + ones (n % 2 ^ k) := by
  induction k generalizing n with
  | zero => simp [Nat.mod_one]
  | succ k ih =>
    rw [ones_eq, ih (n / 2), div_two_pow_succ, ones_mod_succ]
    omega

theorem ones_mul_two_pow_add (n : Nat) {k r : Nat} (hr : r < 2 ^ k) :
    ones (n * 2 ^ k + r) = ones n + ones r := by
  have hpos : 0 < 2 ^ k := Nat.two_pow_pos k
  rw [ones_split _ k, Nat.mul_comm, Nat.mul_add_div hpos, Nat.div_eq_of_lt hr, Nat.mul_add_mod,
    Nat.mod_eq_of_lt hr, Nat.add_zero]

theorem ones_two_pow_sub_one (k : Nat) : ones (2 ^ k - 1) = k := by
  induction k with
  | zero => rfl
  | succ k ih =>
    have hpos : 0 < 2 ^ k := Nat.two_pow_pos k
    rw [show 2 ^ (k + 1) - 1 = 2 * (2 ^ k - 1) + 1 by omega, ones_two_mul_add_one, ih]

theorem ones_mod_succ_high (n k : Nat) :
    ones (n % 2 ^ (k + 1)) = n / 2 ^ k % 2 + ones (n % 2 ^ k) := by
  have hpos : 0 < 2 ^ k := Nat.two_pow_pos k
  rw [pow_succ, Nat.mod_mul, Nat.add_comm, Nat.mul_comm, ones_mul_two_pow_add _ (Nat.mod_lt n hpos)]
  rcases Nat.mod_two_eq_zero_or_one (n / 2 ^ k) with h | h
  · rw [h, ones_zero]
  · rw [h, ones_one]

/-- The highest of the ones below a place. -/
theorem exists_high_one {n k r : Nat} (h : ones (n % 2 ^ k) = r + 1) :
    ∃ l < k, ones (n % 2 ^ l) = r ∧ n / 2 ^ l % 2 = 1 := by
  induction k with
  | zero => simp [Nat.mod_one] at h
  | succ k ih =>
    rw [ones_mod_succ_high] at h
    rcases Nat.mod_two_eq_zero_or_one (n / 2 ^ k) with hbit | hbit
    · obtain ⟨l, hl, hones⟩ := ih (by omega)
      exact ⟨l, by omega, hones⟩
    · exact ⟨k, k.lt_succ_self, by omega, hbit⟩

end Lib
