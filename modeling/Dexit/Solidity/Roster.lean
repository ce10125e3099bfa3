import Dexit.Solidity.SwapRemove

/-!
# Rosters

A roster is an array used as a bounded set of seats. `Reseat` lists what code
that respects this use may do with it: seat a newcomer while there is room,
hand a seat to a newcomer, vacate a seat above a floor. Such changes keep the
roster free of duplicates and within its bounds, and everyone seated afterwards
was seated before or is a newcomer.
-/

namespace Solidity

open List

variable {α : Type} [DecidableEq α]

/-- `ys` arises from `xs` by seating newcomers that satisfy `fit` and vacating. -/
inductive Reseat (floor cap : Nat) (fit : α → Prop) (xs : List α) : List α → Prop
  | refl : Reseat floor cap fit xs xs
  | push {ys : List α} (h : Reseat floor cap fit xs ys) (a : α) (new : a ∉ ys)
      (room : ys.length < cap) (ok : fit a) : Reseat floor cap fit xs (ys ++ [a])
  | replace {ys : List α} (h : Reseat floor cap fit xs ys) (i : Nat) (a : α) (new : a ∉ ys)
      (ok : fit a) : Reseat floor cap fit xs (ys.set i a)
  | vacate {ys : List α} (h : Reseat floor cap fit xs ys) (a : α) (more : floor < ys.length) :
      Reseat floor cap fit xs (swapRemoveFirst a ys)

namespace Reseat

variable {floor cap : Nat} {fit : α → Prop} {xs ys zs : List α}

section
variable (h : Reseat floor cap fit xs ys)
include h

theorem nodup (hx : xs.Nodup) : ys.Nodup := by
  induction h with
  | refl => exact hx
  | push _ a new _ _ ih =>
    exact nodup_append.mpr ⟨ih, nodup_singleton a,
      fun b hb c hc e => new (by rw [mem_singleton] at hc; rwa [← hc, ← e])⟩
  | replace _ i a new _ ih => exact ih.set new
  | vacate _ a _ ih => exact swapRemoveFirst_nodup ih

theorem length_le (hx : xs.length ≤ cap) : ys.length ≤ cap := by
  induction h with
  | refl => exact hx
  | push _ a _ room _ _ =>
    rw [length_append]
    exact room
  | replace _ i a _ _ ih => rwa [length_set]
  | @vacate ys _ a _ ih =>
    obtain hlen | hlen := swapRemoveFirst_length_cases a ys <;> omega

theorem floor_le : min floor xs.length ≤ ys.length := by
  induction h with
  | refl => exact Nat.min_le_right _ _
  | push _ a _ _ _ ih =>
    rw [length_append]
    omega
  | replace _ i a _ _ ih => rwa [length_set]
  | @vacate ys _ a more ih =>
    obtain hlen | hlen := swapRemoveFirst_length_cases a ys <;> omega

theorem ne_nil (hfloor : 0 < floor) (hx : xs ≠ []) : ys ≠ [] := by
  have hle := h.floor_le
  have hpos := length_pos_iff.mpr hx
  exact ne_nil_of_length_pos (by omega)

/-- Nobody is seated out of nowhere. -/
theorem mem {b : α} (hb : b ∈ ys) : b ∈ xs ∨ fit b := by
  induction h with
  | refl => exact Or.inl hb
  | push _ a _ _ ok ih =>
    obtain hb | hb := mem_append.mp hb
    · exact ih hb
    · rw [mem_singleton.mp hb]; exact Or.inr ok
  | replace _ i a _ ok ih =>
    obtain hb | rfl := mem_or_eq_of_mem_set hb
    · exact ih hb
    · exact Or.inr ok
  | vacate _ a _ ih => exact ih (mem_of_mem_swapRemoveFirst hb)

theorem trans (h' : Reseat floor cap fit ys zs) : Reseat floor cap fit xs zs := by
  induction h' with
  | refl => exact h
  | push _ a new room ok ih => exact ih.push a new room ok
  | replace _ i a new ok ih => exact ih.replace i a new ok
  | vacate _ a more ih => exact ih.vacate a more

theorem mono {fit' : α → Prop} (hf : ∀ a, fit a → fit' a) : Reseat floor cap fit' xs ys := by
  induction h with
  | refl => exact .refl
  | push _ a new room ok ih => exact ih.push a new room (hf a ok)
  | replace _ i a new ok ih => exact ih.replace i a new (hf a ok)
  | vacate _ a more ih => exact ih.vacate a more

end

/-- Where the members stay, whoever follows them is a newcomer. -/
theorem added {new : List α} (h : Reseat floor cap fit xs (xs ++ new)) (hx : xs.Nodup) :
    (xs ++ new).Nodup ∧ ∀ a ∈ new, fit a ∧ a ∉ xs := by
  have hnd := h.nodup hx
  refine ⟨hnd, fun a ha => ?_⟩
  have hnew : a ∉ xs := fun hold => (nodup_append.mp hnd).2.2 a hold a ha rfl
  exact ⟨(h.mem (mem_append_right _ ha)).resolve_left hnew, hnew⟩

end Reseat

end Solidity
