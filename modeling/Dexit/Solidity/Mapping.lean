import Mathlib.Algebra.BigOperators.Pi
import Mathlib.Algebra.GroupWithZero.Nat
import Mathlib.Algebra.Order.BigOperators.Group.Finset

/-!
# Mappings and their totals

A Solidity mapping is a total function; writing a slot is `Function.update`,
and writing a slot of a mapping of mappings is `set₂`. A ledger is a mapping
read through a numeric field `g`, and its total is the sum of `g` over all keys.
-/

namespace Solidity

open Function (update)
open Finset

variable {α β V : Type} [DecidableEq α] [DecidableEq β]

/-- `m[a][b] = x`. -/
def set₂ (m : α → β → V) (a : α) (b : β) (x : V) : α → β → V :=
  update m a (update (m a) b x)

section
variable (m : α → β → V)
include m

theorem set₂_apply (a c : α) (b d : β) (x : V) :
    set₂ m a b x c d = if c = a ∧ d = b then x else m c d := by
  unfold set₂
  by_cases hc : c = a
  · subst hc
    by_cases hd : d = b
    · subst hd; simp
    · simp [hd]
  · simp [hc]

@[simp] theorem set₂_self (a : α) (b : β) (x : V) : set₂ m a b x a b = x := by
  simp [set₂_apply]

theorem set₂_of_ne {a c : α} {b d : β} (x : V) (h : ¬ (c = a ∧ d = b)) :
    set₂ m a b x c d = m c d := by
  rw [set₂_apply, if_neg h]

@[simp] theorem set₂_eq_self (a : α) (b : β) : set₂ m a b (m a b) = m := by
  simp [set₂]

@[simp] theorem set₂_idem (a : α) (b : β) (x y : V) : set₂ (set₂ m a b x) a b y = set₂ m a b y := by
  simp [set₂]

end

/-! Reading a mapping of records through one of their fields. -/

variable {b : β} {W : Type} {x : V}

omit [DecidableEq β] in
theorem map_update (g : V → W) (m : α → V) (a : α) (x : V) :
    (fun i => g (update m a x i)) = update (fun i => g (m i)) a (g x) := by
  funext i
  by_cases hi : i = a
  · subst hi; simp
  · simp [hi]

theorem map_set₂ (g : V → W) (m : α → β → V) (a : α) (b : β) (x : V) :
    (fun i j => g (set₂ m a b x i j)) = set₂ (fun i j => g (m i j)) a b (g x) := by
  funext i j
  rw [set₂_apply, set₂_apply]
  split <;> rfl

omit [DecidableEq β] in
/-- A write that leaves field `g` alone leaves it alone everywhere. -/
theorem update_field (g : V → W) {m : α → V} {a : α} (h : g x = g (m a))
    (b : α) : g (update m a x b) = g (m b) := by
  by_cases hb : b = a
  · subst hb
    rw [Function.update_self, h]
  · rw [Function.update_of_ne hb]

theorem set₂_field (g : V → W) {m : α → β → V} {a : α}
    (h : g x = g (m a b)) (c : α) (d : β) : g (set₂ m a b x c d) = g (m c d) := by
  rw [set₂_apply]
  split
  next hcd =>
    rw [hcd.1, hcd.2, h]
  · rfl

theorem map_set₂_same (g : V → W) (m : α → β → V) (a : α) (b : β) (x : V)
    (h : g x = g (m a b)) : (fun i j => g (set₂ m a b x i j)) = fun i j => g (m i j) :=
  funext fun i => funext fun j => set₂_field g h i j

section Totals
variable [Fintype α]

section
variable (g : V → ℕ)
include g

/-- Replacing one slot moves the total by the difference of the two values. -/
theorem sum_update (m : α → V) (a : α) (x : V) :
    ∑ i, g (update m a x i) + g (m a) = ∑ i, g (m i) + g x := by
  have h : ∀ i, g (update m a x i) = update (fun i => g (m i)) a (g x) i := by
    intro i
    by_cases hi : i = a
    · subst hi; simp
    · simp [hi]
  rw [sum_congr rfl (fun i _ => h i), sum_update_of_mem (mem_univ a),
    ← add_sum_erase univ (fun i => g (m i)) (mem_univ a)]
  have e : univ \ {a} = univ.erase a := by
    ext i; simp
  rw [e]
  omega

theorem sum_update_same (m : α → V) (a : α) (x : V) (h : g x = g (m a)) :
    ∑ i, g (update m a x i) = ∑ i, g (m i) := by
  have := sum_update g m a x
  omega

/-- Clearing one slot takes its value off the total. -/
theorem sum_update_zero (m : α → V) (a : α) (x : V) (h : g x = 0) :
    ∑ i, g (update m a x i) + g (m a) = ∑ i, g (m i) := by
  have := sum_update g m a x
  omega

section
variable (m : α → β → V) (a : α)
include m a

/-- The column of a nested mapping that holds the written slot. -/
theorem sum_set₂_column (b : β) (x : V) :
    ∑ i, g (set₂ m a b x i b) + g (m a b) = ∑ i, g (m i b) + g x := by
  have h : ∀ i, set₂ m a b x i b = update (fun i => m i b) a x i := by
    intro i
    by_cases hi : i = a
    · subst hi; simp
    · simp [set₂, hi]
  rw [sum_congr rfl (fun i _ => congrArg g (h i))]
  exact sum_update g (fun i => m i b) a x

/-- Every other column is untouched. -/
theorem sum_set₂_other {c : β} (x : V) (h : c ≠ b) :
    ∑ i, g (set₂ m a b x i c) = ∑ i, g (m i c) := by
  refine sum_congr rfl (fun i _ => ?_)
  rw [set₂_of_ne m x (fun hc => h hc.2)]

theorem sum_set₂ [Fintype β] (b : β) (x : V) :
    ∑ i, ∑ j, g (set₂ m a b x i j) + g (m a b) = ∑ i, ∑ j, g (m i j) + g x := by
  have outer := sum_update (fun row : β → V => ∑ j, g (row j)) m a (update (m a) b x)
  have inner := sum_update g (m a) b x
  simp only [set₂]
  omega

theorem sum_set₂_zero [Fintype β] (b : β) (x : V)
    (h : g x = 0) : ∑ i, ∑ j, g (set₂ m a b x i j) + g (m a b) = ∑ i, ∑ j, g (m i j) := by
  have := sum_set₂ g m a b x
  omega

end

end

/-- The entries of a duplicate-free list weigh at most the whole ledger. -/
theorem sum_list_le (f : α → ℕ) {keys : List α} (h : keys.Nodup) : (keys.map f).sum ≤ ∑ i, f i := by
  have e : (keys.map f).sum = ∑ i ∈ keys.toFinset, f i := by
    rw [List.sum_toFinset f h]
  rw [e]
  exact sum_le_sum_of_subset (subset_univ _)

omit [DecidableEq α] in
theorem le_sum (f : α → ℕ) (a : α) : f a ≤ ∑ i, f i :=
  single_le_sum (fun _ _ => Nat.zero_le _) (mem_univ a)

end Totals

end Solidity
