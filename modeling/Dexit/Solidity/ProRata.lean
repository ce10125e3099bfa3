import Mathlib.Algebra.BigOperators.Pi
import Mathlib.Algebra.BigOperators.Ring.List
import Mathlib.Algebra.Ring.Nat

/-!
# Splitting a pot

Integer code splits a pot in one of two ways: equally, by an integer division,
or in proportion to stakes, by a fixed-point fraction of the whole. Both round
down twice or once, so the parts never exceed the pot, as long as there are no
more parts than the divisor and no more stake than the whole.
-/

namespace Solidity

open List

/-- The part of `pot` that a stake of `a` in `whole` earns, with the fraction
rounded down to a multiple of `1 / scale`. -/
def share (scale whole pot a : ℕ) : ℕ :=
  pot * (a * scale / whole) / scale

variable {scale whole a : ℕ}

theorem fraction_le (h : a ≤ whole) : a * scale / whole ≤ scale := by
  by_cases hw : whole = 0
  · simp [hw]
  · have hle : a * scale ≤ scale * whole := by
      rw [mul_comm scale whole]
      exact Nat.mul_le_mul_right scale h
    exact Nat.div_le_of_le_mul (by rwa [mul_comm whole scale])

theorem share_le (pot : ℕ) (h : a ≤ whole) : share scale whole pot a ≤ pot := by
  unfold share
  have hmul : pot * (a * scale / whole) ≤ scale * pot := by
    rw [mul_comm scale pot]
    exact Nat.mul_le_mul_left pot (fraction_le h)
  exact Nat.div_le_of_le_mul hmul

section Lists
variable {α : Type}

/-- Rounding every summand down loses at least as much as rounding the sum. -/
theorem sum_div_le_div_sum (f : α → ℕ) (n : ℕ) (xs : List α) :
    (xs.map fun x => f x / n).sum ≤ (xs.map f).sum / n := by
  induction xs with
  | nil => simp
  | cons x rest ih =>
    simp only [map_cons, sum_cons]
    have := Nat.div_add_div_le_add_div (x := f x) (y := (rest.map f).sum) (z := n)
    omega

/-- The shares of all stakes in a whole never exceed the pot. -/
theorem sum_share_le (scale : ℕ) (pot : ℕ) (stake : α → ℕ) {xs : List α}
    (h : (xs.map stake).sum ≤ whole) :
    (xs.map fun x => share scale whole pot (stake x)).sum ≤ pot := by
  have fractions : (xs.map fun x => stake x * scale / whole).sum ≤ scale := by
    calc (xs.map fun x => stake x * scale / whole).sum
        ≤ (xs.map fun x => stake x * scale).sum / whole := sum_div_le_div_sum _ _ _
      _ = (xs.map stake).sum * scale / whole := by rw [sum_map_mul_right]
      _ ≤ scale := fraction_le h
  calc (xs.map fun x => share scale whole pot (stake x)).sum
      ≤ (xs.map fun x => pot * (stake x * scale / whole)).sum / scale := sum_div_le_div_sum _ _ _
    _ = pot * (xs.map fun x => stake x * scale / whole).sum / scale := by
        rw [sum_map_mul_left]
    _ ≤ pot := by
        apply Nat.div_le_of_le_mul
        rw [mul_comm scale pot]
        exact Nat.mul_le_mul_left pot fractions

variable [DecidableEq α] [Fintype α]

/-- Crediting every occurrence in a list adds up to its length. -/
theorem sum_count_mul (xs : List α) (n : ℕ) : ∑ a, xs.count a * n = xs.length * n := by
  induction xs with
  | nil => simp
  | cons x rest ih =>
    have hcount : ∀ a, (x :: rest).count a * n = rest.count a * n + if a = x then n else 0 := by
      intro a
      by_cases ha : x = a
      · subst ha
        simp [add_mul]
      · simp [ha, Ne.symm ha]
    simp only [hcount, Finset.sum_add_distrib, ih, Finset.sum_ite_eq', Finset.mem_univ, ↓reduceIte,
      length_cons, add_mul, one_mul]

end Lists

end Solidity
