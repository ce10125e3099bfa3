import Mathlib.Data.List.Sort

/-!
# Exchange sort and removal of neighbours that repeat

The two nested loops that compare every position with all later ones, and the
loop that deletes an element equal to the one before it.
-/

namespace Go

open List

variable {α : Type} [LinearOrder α]

/-- The inner loop at one position: the element there meets every later one
and the smaller of the two stays. -/
def pass (x : α) : List α → α × List α
  | [] => (x, [])
  | y :: ys =>
    if x > y then
      let r := pass y ys
      (r.1, x :: r.2)
    else
      let r := pass x ys
      (r.1, y :: r.2)

theorem pass_length (x : α) (ys : List α) : (pass x ys).2.length = ys.length := by
  induction ys generalizing x with
  | nil => rfl
  | cons y ys ih =>
    unfold pass
    split
    · simp [ih y]
    · simp [ih x]

/-- Both loops. -/
def exchangeSort : List α → List α
  | [] => []
  | x :: xs => (pass x xs).1 :: exchangeSort (pass x xs).2
termination_by l => l.length
decreasing_by simp [pass_length]

theorem pass_perm (x : α) (ys : List α) : ((pass x ys).1 :: (pass x ys).2).Perm (x :: ys) := by
  induction ys generalizing x with
  | nil => exact List.Perm.refl _
  | cons y ys ih =>
    unfold pass
    split
    · exact (List.Perm.swap ..).trans ((ih y).cons x)
    · have hmove := (List.Perm.swap y (pass x ys).1 (pass x ys).2).trans ((ih x).cons y)
      exact hmove.trans (List.Perm.swap x y ys)

theorem pass_le_self (x : α) (ys : List α) : (pass x ys).1 ≤ x := by
  induction ys generalizing x with
  | nil => exact le_rfl
  | cons y ys ih =>
    unfold pass
    split
    next h => exact (ih y).trans h.le
    next => exact ih x

/-- What stays at the position is the least element. -/
theorem pass_le (x : α) (ys : List α) : ∀ z ∈ (pass x ys).2, (pass x ys).1 ≤ z := by
  intro z hz
  induction ys generalizing x with
  | nil => simp [pass] at hz
  | cons y ys ih =>
    unfold pass at hz ⊢
    split at hz
    next h =>
      rw [if_pos h]
      obtain rfl | hz := mem_cons.mp hz
      · exact (pass_le_self y ys).trans h.le
      · exact ih y hz
    next h =>
      rw [if_neg h]
      obtain rfl | hz := mem_cons.mp hz
      · exact (pass_le_self x ys).trans (le_of_not_gt h)
      · exact ih x hz

theorem exchangeSort_perm (l : List α) : (exchangeSort l).Perm l := by
  fun_induction exchangeSort l with
  | case1 => exact List.Perm.refl _
  | case2 x xs ih => exact (ih.cons _).trans (pass_perm x xs)

theorem exchangeSort_sorted (l : List α) : (exchangeSort l).Pairwise (· ≤ ·) := by
  fun_induction exchangeSort l with
  | case1 => exact List.Pairwise.nil
  | case2 x xs ih =>
    refine pairwise_cons.mpr ⟨?_, ih⟩
    intro z hz
    exact pass_le x xs z ((exchangeSort_perm _).mem_iff.mp hz)

/-- The loop that removes an element equal to its predecessor and looks at the
same position again. -/
def compact : List α → List α
  | [] => []
  | [x] => [x]
  | x :: y :: ys => if y = x then compact (x :: ys) else x :: compact (y :: ys)
termination_by l => l.length

theorem mem_compact {l : List α} {z : α} : z ∈ compact l ↔ z ∈ l := by
  fun_induction compact l with
  | case1 => rfl
  | case2 => rfl
  | case3 x ys ih => rw [ih]; simp
  | case4 x y ys h ih => rw [mem_cons, ih, mem_cons (l := y :: ys)]

/-- In a sorted list no element is left twice. -/
theorem compact_sorted {l : List α} (h : l.Pairwise (· ≤ ·)) : (compact l).Pairwise (· < ·) := by
  fun_induction compact l with
  | case1 => exact List.Pairwise.nil
  | case2 x => exact pairwise_singleton _ x
  | case3 x ys ih => exact ih (pairwise_cons.mp h).2
  | case4 x y ys hne ih =>
    obtain ⟨hx, hys⟩ := pairwise_cons.mp h
    refine pairwise_cons.mpr ⟨?_, ih hys⟩
    intro z hz
    have hxy : x < y := lt_of_le_of_ne (hx y mem_cons_self) (Ne.symm hne)
    obtain rfl | hz := mem_cons.mp (mem_compact.mp hz)
    · exact hxy
    · exact hxy.trans_le ((pairwise_cons.mp hys).1 z hz)

end Go
