import Mathlib.Data.List.Basic

/-!
# Backlogs

A counter goes up by one at some steps and down by one at the others, and stays at zero when it
cannot go down. It is positive exactly when some last stretch of steps has gone up more often than
down.
-/

namespace Lib

/-- The counter before step `k`, when it starts with step `start`. -/
def backlog (up : Nat → Bool) (start : Nat) : Nat → Nat
  | 0 => 0
  | k + 1 =>
    if k < start then 0 else if up k then backlog up start k + 1 else backlog up start k - 1

/-- The number of steps up from `j` to `k`. -/
def upCount (up : Nat → Bool) (j k : Nat) : Nat := (List.range' j (k - j)).countP up

variable {up : Nat → Bool} {start j k : Nat}

theorem backlog_of_le (hk : k ≤ start) : backlog up start k = 0 := by
  cases k with
  | zero => rfl
  | succ k => exact if_pos hk

theorem backlog_succ (hk : start ≤ k) : backlog up start (k + 1) =
    if up k then backlog up start k + 1 else backlog up start k - 1 :=
  if_neg (Nat.not_lt.mpr hk)

theorem upCount_succ (hj : j ≤ k) :
    upCount up j (k + 1) = upCount up j k + if up k then 1 else 0 := by
  have hcount : k + 1 - j = (k - j) + 1 := by omega
  have hlast : j + 1 * (k - j) = k := by omega
  rw [upCount, upCount, hcount, List.range'_concat, hlast, List.countP_append,
    List.countP_singleton]

/-- The counter is above `m` when in some last stretch the steps up outnumber the others by more
than `m`. -/
theorem lt_backlog_iff (m k : Nat) : m < backlog up start k ↔
    ∃ j, start ≤ j ∧ j < k ∧ (k - j) + m < 2 * upCount up j k := by
  induction k generalizing m with
  | zero => simp [backlog]
  | succ k ih =>
    by_cases hk : k < start
    · rw [backlog_of_le hk]
      constructor
      · intro h
        exact absurd h (Nat.not_lt_zero m)
      · rintro ⟨j, hstart, hlt, -⟩
        omega
    · -- the stretch is the last step alone, or it starts before it
      have hself : upCount up k (k + 1) = if up k then 1 else 0 := by
        rw [upCount_succ (Nat.le_refl k), upCount, Nat.sub_self]
        exact Nat.zero_add _
      rw [backlog_succ (Nat.not_lt.mp hk)]
      constructor
      · intro h
        by_cases hup : up k
        · rw [if_pos hup] at h hself
          rcases Nat.eq_zero_or_pos m with rfl | hpos
          · exact ⟨k, Nat.not_lt.mp hk, Nat.lt_succ_self k, by omega⟩
          · obtain ⟨j, hj, hlt, hmore⟩ := (ih (m - 1)).mp (by omega)
            refine ⟨j, hj, Nat.lt_succ_of_lt hlt, ?_⟩
            rw [upCount_succ (Nat.le_of_lt hlt), if_pos hup]
            omega
        · rw [if_neg hup] at h
          obtain ⟨j, hj, hlt, hmore⟩ := (ih (m + 1)).mp (by omega)
          refine ⟨j, hj, Nat.lt_succ_of_lt hlt, ?_⟩
          rw [upCount_succ (Nat.le_of_lt hlt), if_neg hup]
          omega
      · rintro ⟨j, hj, hlt, hmore⟩
        rcases Nat.lt_succ_iff_lt_or_eq.mp hlt with hlt | rfl
        · rw [upCount_succ (Nat.le_of_lt hlt)] at hmore
          by_cases hup : up k
          · rw [if_pos hup] at hmore ⊢
            have hbefore := (ih (m - 1)).mpr
            rcases Nat.eq_zero_or_pos m with rfl | hpos
            · exact Nat.succ_pos _
            · have := hbefore ⟨j, hj, hlt, by omega⟩
              omega
          · rw [if_neg hup] at hmore ⊢
            have := (ih (m + 1)).mpr ⟨j, hj, hlt, by omega⟩
            omega
        · rw [hself] at hmore
          by_cases hup : up j
          · rw [if_pos hup] at hmore ⊢
            omega
          · rw [if_neg hup] at hmore
            omega

end Lib
