import Mathlib.Data.List.Induction
import Mathlib.Data.List.Nodup
import Mathlib.Data.List.Perm.Basic

/-!
# Removing an array element by swapping with the last

The usual way to delete from an unordered Solidity array: the last element
overwrites slot `i`, then the array is popped. As a multiset the result is the
array without its `i`-th element, which is all that membership, duplicates and
length need; `swapRemove_getElem?` says which slot moved.
-/

namespace Solidity

open List

variable {α : Type} {i : Nat} {xs : List α}

/-- Slot `i` takes the last element, unless it is the last; then `pop`. -/
def swapRemove (xs : List α) (i : Nat) : List α :=
  match xs.getLast? with
  | none => xs
  | some last => (if i ≠ xs.length - 1 then xs.set i last else xs).dropLast

theorem swapRemove_concat_last (ys : List α) (last : α) :
    swapRemove (ys ++ [last]) ys.length = ys := by
  simp [swapRemove]

theorem swapRemove_concat_lt {ys : List α} {last : α} (h : i < ys.length) :
    swapRemove (ys ++ [last]) i = ys.set i last := by
  have hne : i ≠ ys.length := by omega
  simp [swapRemove, hne, set_append_left _ _ h]

/-- Only the removed element is lost. -/
theorem swapRemove_perm (h : i < xs.length) : (xs[i] :: swapRemove xs i).Perm xs := by
  induction xs using reverseRecOn with
  | nil => simp at h
  | append_singleton ys last _ =>
    by_cases hi : i < ys.length
    · rw [swapRemove_concat_lt hi, getElem_append_left hi]
      refine ((set_perm_cons_eraseIdx hi last).cons _).trans ?_
      refine (List.Perm.swap _ _ _).trans ?_
      refine ((getElem_cons_eraseIdx_perm hi).cons last).trans ?_
      exact (perm_append_singleton last ys).symm
    · have e : i = ys.length := by simp at h; omega
      subst e
      rw [swapRemove_concat_last]
      simpa using (perm_append_singleton last ys).symm

theorem swapRemove_length (h : i < xs.length) : (swapRemove xs i).length + 1 = xs.length := by
  simpa using (swapRemove_perm h).length_eq

theorem swapRemove_nodup (h : i < xs.length) (hn : xs.Nodup) :
    xs[i] ∉ swapRemove xs i ∧ (swapRemove xs i).Nodup :=
  nodup_cons.mp ((swapRemove_perm h).nodup_iff.mpr hn)

theorem mem_of_mem_swapRemove {x : α} (h : x ∈ swapRemove xs i) : x ∈ xs := by
  by_cases hi : i < xs.length
  · exact (swapRemove_perm hi).mem_iff.mp (mem_cons_of_mem _ h)
  unfold swapRemove at h
  split at h
  · exact h
  · split at h
    · rw [set_eq_of_length_le (by omega)] at h
      exact dropLast_subset _ h
    · exact dropLast_subset _ h

theorem mem_swapRemove_of_ne {x : α} (hi : i < xs.length)
    (h : x ∈ xs) (hne : x ≠ xs[i]) : x ∈ swapRemove xs i := by
  rcases mem_cons.mp ((swapRemove_perm hi).mem_iff.mpr h) with e | hm
  · exact absurd e hne
  · exact hm

/-- The last element sits at `i` afterwards; every other slot is unmoved. -/
theorem swapRemove_getElem? {j : Nat} (hi : i < xs.length) (hj : j < xs.length - 1) :
    (swapRemove xs i)[j]? = if j = i then xs[xs.length - 1]? else xs[j]? := by
  induction xs using reverseRecOn with
  | nil => simp at hi
  | append_singleton ys last _ =>
    have hj' : j < ys.length := by simpa using hj
    by_cases hil : i < ys.length
    · rw [swapRemove_concat_lt hil]
      by_cases e : j = i
      · subst e; simp [hil]
      · simp [e, getElem?_set_ne (Ne.symm e), getElem?_append_left hj']
    · have e : i = ys.length := by simp at hi; omega
      subst e
      rw [swapRemove_concat_last]
      have hne : j ≠ ys.length := by omega
      simp [hne, getElem?_append_left hj']

section Search
variable [DecidableEq α] {x : α} {xs : List α}

/-- The first occurrence of `x` is removed, if there is one. -/
def swapRemoveFirst (x : α) (xs : List α) : List α :=
  match xs.idxOf? x with
  | none => xs
  | some i => swapRemove xs i

theorem swapRemoveFirst_of_notMem (h : x ∉ xs) : swapRemoveFirst x xs = xs := by
  unfold swapRemoveFirst
  rw [idxOf?_eq_none_iff.mpr h]

theorem swapRemoveFirst_perm (h : x ∈ xs) : (x :: swapRemoveFirst x xs).Perm xs := by
  unfold swapRemoveFirst
  cases e : xs.idxOf? x with
  | none => exact absurd h (idxOf?_eq_none_iff.mp e)
  | some i =>
    rw [idxOf?, findIdx?_eq_some_iff_getElem] at e
    obtain ⟨hi, hx, _⟩ := e
    have := swapRemove_perm hi
    rwa [show xs[i] = x by simpa using hx] at this

theorem swapRemoveFirst_length (h : x ∈ xs) : (swapRemoveFirst x xs).length + 1 = xs.length := by
  simpa using (swapRemoveFirst_perm h).length_eq

theorem swapRemoveFirst_length_cases (x : α) (xs : List α) :
    (swapRemoveFirst x xs).length = xs.length ∨ (swapRemoveFirst x xs).length + 1 = xs.length := by
  by_cases hx : x ∈ xs
  · exact .inr (swapRemoveFirst_length hx)
  · exact .inl (by rw [swapRemoveFirst_of_notMem hx])

theorem mem_of_mem_swapRemoveFirst {y : α} (h : y ∈ swapRemoveFirst x xs) : y ∈ xs := by
  by_cases hx : x ∈ xs
  · exact (swapRemoveFirst_perm hx).mem_iff.mp (mem_cons_of_mem _ h)
  · rwa [swapRemoveFirst_of_notMem hx] at h

theorem mem_swapRemoveFirst_of_ne {y : α} (h : y ∈ xs) (hne : y ≠ x) :
    y ∈ swapRemoveFirst x xs := by
  by_cases hx : x ∈ xs
  · exact (mem_cons.mp ((swapRemoveFirst_perm hx).mem_iff.mpr h)).resolve_left hne
  · rwa [swapRemoveFirst_of_notMem hx]

theorem swapRemoveFirst_nodup (h : xs.Nodup) : (swapRemoveFirst x xs).Nodup := by
  by_cases hx : x ∈ xs
  · exact (nodup_cons.mp ((swapRemoveFirst_perm hx).nodup_iff.mpr h)).2
  · rwa [swapRemoveFirst_of_notMem hx]

theorem notMem_swapRemoveFirst (h : xs.Nodup) : x ∉ swapRemoveFirst x xs := by
  by_cases hx : x ∈ xs
  · exact (nodup_cons.mp ((swapRemoveFirst_perm hx).nodup_iff.mpr h)).1
  · rwa [swapRemoveFirst_of_notMem hx]

theorem swapRemoveFirst_concat {ys : List α} (h : x ∉ ys) : swapRemoveFirst x (ys ++ [x]) = ys := by
  have hidx : (ys ++ [x]).idxOf? x = some ys.length := by
    simp [idxOf?, findIdx?_append, findIdx?_eq_none_iff.mpr fun y hy => beq_false_of_ne
      (ne_of_mem_of_not_mem hy h)]
  unfold swapRemoveFirst
  rw [hidx]
  exact swapRemove_concat_last ys x

/-- Places noted for the elements stay right exactly when the last one is removed: otherwise it
moves. -/
theorem places_swapRemoveFirst_iff {place : α → Nat} (hnd : xs.Nodup) (hx : x ∈ xs)
    (hplace : ∀ y ∈ xs, xs[place y]? = some y) :
    (∀ y ∈ swapRemoveFirst x xs, (swapRemoveFirst x xs)[place y]? = some y) ↔
      xs.getLast? = some x := by
  obtain ⟨ys, last, rfl⟩ := (eq_nil_or_concat' xs).resolve_left (ne_nil_of_mem hx)
  have hfresh : last ∉ ys := fun h => disjoint_of_nodup_append hnd h (by simp)
  rw [getLast?_append, getLast?_singleton, Option.some_or, Option.some_inj]
  constructor
  · intro hstay
    by_contra hne
    have hlast : last ∈ ys ++ [last] := by simp
    have hmoved := hstay last (mem_swapRemoveFirst_of_ne hlast hne)
    obtain ⟨hroom, _⟩ := List.getElem?_eq_some_iff.mp hmoved
    have hlen := swapRemoveFirst_length hx
    have hold := hplace last hlast
    rw [length_append, length_singleton] at hlen
    rw [getElem?_append_left (by omega)] at hold
    exact hfresh (mem_of_getElem? hold)
  · rintro rfl y hy
    rw [swapRemoveFirst_concat hfresh] at hy ⊢
    have hold := hplace y (mem_append_left _ hy)
    rw [getElem?_append] at hold
    split at hold
    · exact hold
    · have hself := mem_singleton.mp (mem_of_getElem? hold)
      exact absurd (hself ▸ hy) hfresh

end Search

end Solidity
