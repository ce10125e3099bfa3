import Mathlib.Algebra.Group.Nat.Defs
import Mathlib.Data.List.AList

/-!
# Numbered entries in a sliding window

A map from 64-bit numbers that is kept to the last few of them: before a new
number comes in the oldest one is deleted, and when the window gets narrower a
loop deletes the numbers that fall out of it. Subtraction wraps, so a deletion
below zero hits a number far above the window.
-/

namespace Go

open List UInt64 AList

variable {ν : Type}

/-- Every key is at most `top` and among the last `width` numbers up to it. -/
def InWindow (m : AList fun _ : UInt64 => ν) (top : UInt64) (width : ℕ) : Prop :=
  ∀ k ∈ m, k.toNat ≤ top.toNat ∧ top.toNat < k.toNat + width

/-- Deletes `start`, `start - 1`, and so on, `count` numbers in all. -/
def eraseDown (m : AList fun _ : UInt64 => ν) (start : UInt64) (count : ℕ) :
    AList fun _ : UInt64 => ν :=
  (List.range count).foldl (fun m i => m.erase (start - UInt64.ofNat i)) m

variable {a start k : UInt64} {n count : ℕ}

theorem toNat_sub_of_le (h : n ≤ a.toNat) : (a - UInt64.ofNat n).toNat = a.toNat - n := by
  have hn : (ofNat n).toNat = n := toNat_ofNat_of_lt' (lt_of_le_of_lt h a.toNat_lt)
  rw [UInt64.toNat_sub_of_le _ _ (UInt64.le_iff_toNat_le.mpr (by omega)), hn]

/-- A wrapping subtraction below zero. -/
theorem toNat_sub_of_lt (h : a.toNat < n) (hn : n < 2 ^ 64) :
    (a - UInt64.ofNat n).toNat = 2 ^ 64 + a.toNat - n := by
  have hn' : (ofNat n).toNat = n := toNat_ofNat_of_lt' hn
  rw [UInt64.toNat_sub, hn']
  omega

theorem sub_sub_ofNat (a : UInt64) (n i : ℕ) : a - ofNat n - ofNat i = a - ofNat (n + i) := by
  rw [ofNat_add]
  grind

theorem mem_eraseDown {m : AList fun _ : UInt64 => ν} :
    k ∈ eraseDown m start count ↔ k ∈ m ∧ ∀ i < count, k ≠ start - ofNat i := by
  unfold eraseDown
  induction count with
  | zero => simp
  | succ n ih =>
    rw [range_succ, foldl_append, foldl_cons, foldl_nil, mem_erase, ih]
    constructor
    · rintro ⟨hn, hk, hrest⟩
      refine ⟨hk, ?_⟩
      intro i hi
      obtain hi | rfl := Nat.lt_succ_iff_lt_or_eq.mp hi
      · exact hrest i hi
      · exact hn
    · rintro ⟨hk, hall⟩
      exact ⟨hall n (Nat.lt_succ_self n), hk, fun i hi => hall i (Nat.lt_succ_of_lt hi)⟩

section
variable {m : AList fun _ : UInt64 => ν} {top next : UInt64} {width : ℕ}

theorem inWindow_empty : InWindow (∅ : AList fun _ : UInt64 => ν) top width := by
  intro k hk
  exact absurd hk (notMem_empty k)

/-- Without its oldest number the window is one narrower at the next number. -/
theorem InWindow.drop_oldest (h : InWindow m top width) (hnext : next.toNat = top.toNat + 1)
    (hfull : width ≤ next.toNat) :
    k ∈ m.erase (next - ofNat width) ↔ k ∈ m ∧ next.toNat < k.toNat + width := by
  have hold := toNat_sub_of_le hfull
  rw [mem_erase]
  constructor
  · rintro ⟨hne, hk⟩
    refine ⟨hk, ?_⟩
    have hin := h k hk
    have : k.toNat ≠ next.toNat - width := by
      intro e
      exact hne (UInt64.toNat_inj.mp (e.trans hold.symm))
    omega
  · rintro ⟨hk, hlt⟩
    refine ⟨?_, hk⟩
    rintro rfl
    omega

theorem InWindow.insert {v : ν} (hw : 0 < width)
    (h : ∀ k ∈ m, k.toNat ≤ top.toNat ∧ top.toNat < k.toNat + width) :
    InWindow (m.insert top v) top width := by
  intro k hk
  obtain rfl | hk := (mem_insert m).mp hk
  · omega
  · exact h k hk

variable {width' : ℕ}

/-- The loop deletes exactly what falls out of a narrower window. -/
theorem InWindow.narrow (h : InWindow m top width) :
    InWindow (eraseDown m (top - ofNat width') (width - width')) top width' := by
  intro k hk
  obtain ⟨hk, hall⟩ := mem_eraseDown.mp hk
  have hin := h k hk
  refine ⟨hin.1, ?_⟩
  by_contra hout
  have hstart := toNat_sub_of_le (a := top) (n := width') (by omega)
  have hstep := toNat_sub_of_le (a := top - ofNat width')
    (n := top.toNat - width' - k.toNat) (by omega)
  apply hall (top.toNat - width' - k.toNat) (by omega)
  apply UInt64.toNat_inj.mp
  omega

/-- In a window that does not span half of the numbers it deletes nothing else,
not even where the subtraction wraps. -/
theorem InWindow.mem_narrow (h : InWindow m top width) (hwidth : width ≤ 2 ^ 63)
    : k ∈ eraseDown m (top - UInt64.ofNat width') (width - width') ↔
      k ∈ m ∧ top.toNat < k.toNat + width' := by
  constructor
  · intro hk
    exact ⟨(mem_eraseDown.mp hk).1, (h.narrow k hk).2⟩
  · rintro ⟨hk, hin⟩
    refine mem_eraseDown.mpr ⟨hk, ?_⟩
    intro i hi heq
    have hle := (h k hk).1
    rw [sub_sub_ofNat] at heq
    by_cases hlow : width' + i ≤ top.toNat
    · have := toNat_sub_of_le hlow
      rw [← heq] at this
      omega
    · have := toNat_sub_of_lt (not_le.mp hlow) (by omega)
      rw [← heq] at this
      omega

end

theorem lookup_eraseDown {m : AList fun _ : UInt64 => ν}
    (h : k ∈ eraseDown m start count) : (eraseDown m start count).lookup k = m.lookup k := by
  have hne := (mem_eraseDown.mp h).2
  clear h
  unfold eraseDown
  induction count with
  | zero => rfl
  | succ n ih =>
    rw [range_succ, foldl_append, foldl_cons, foldl_nil,
      lookup_erase_ne (hne n (Nat.lt_succ_self n)), ih fun i hi => hne i (Nat.lt_succ_of_lt hi)]

end Go
