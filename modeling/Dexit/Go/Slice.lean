import Mathlib.Algebra.Group.Nat.Defs
import Mathlib.Data.Finset.Card

/-! Slices, maps used as sets, and the binary search of the sort package. -/

namespace Go

open List

/-- Lengths are 64-bit signed integers. -/
def maxLen : ℕ := 2 ^ 63

/-- A slice; its capacity is its length. -/
abbrev Slice (α : Type) : Type := { xs : List α // xs.length < maxLen }

/-- A map to the empty struct. -/
abbrev KeySet (α : Type) : Type := { s : Finset α // s.card < maxLen }

section
variable {α β : Type}

/-- The elements from `lo` up to `hi`; a bound out of range panics. -/
def Slice.sub (xs : Slice α) (lo hi : ℕ) : Option (Slice α) :=
  if lo ≤ hi ∧ hi ≤ xs.1.length then
    some ⟨(xs.1.drop lo).take (hi - lo), by
      have := xs.2
      rw [List.length_take, List.length_drop]
      omega⟩
  else none

theorem Slice.sub_append {xs : Slice α} {a b c : List α} (h : xs.1 = a ++ b ++ c) :
    ∃ r, xs.sub a.length (a ++ b).length = some r ∧ r.1 = b := by
  have hlo : a.length ≤ (a ++ b).length := by
    rw [length_append]
    omega
  have hhi : (a ++ b).length ≤ xs.1.length := by
    simp only [h, length_append]
    omega
  refine ⟨_, if_pos ⟨hlo, hhi⟩, ?_⟩
  simp only [h, append_assoc, drop_left, length_append, Nat.add_sub_cancel_left, take_left]

/-- `copy` overwrites as many elements as both slices have. -/
def copy (dst src : List α) : List α := src.take dst.length ++ dst.drop src.length

theorem length_copy (dst src : List α) : (copy dst src).length = dst.length := by
  simp only [copy, length_append, length_take, length_drop]
  omega

/-- Inserts every element into an empty map. -/
def Slice.toKeySet [DecidableEq α] (xs : Slice α) : KeySet α :=
  ⟨xs.1.toFinset, lt_of_le_of_lt (List.toFinset_card_le xs.1) xs.2⟩

/-- The loop of `Search` between `i` and `j`. -/
def searchFrom (f : ℕ → Bool) (i j : ℕ) : ℕ :=
  if i < j then
    if f ((i + j) / 2) then searchFrom f i ((i + j) / 2)
    else searchFrom f ((i + j) / 2 + 1) j
  else i
termination_by j - i

/-- The first index below `n` at which `f` holds, if `f` stays true from there. -/
def search (n : ℕ) (f : ℕ → Bool) : ℕ := searchFrom f 0 n

theorem searchFrom_eq {f : ℕ → Bool} {i j p : ℕ} (hip : i ≤ p) (hpj : p ≤ j)
    (hlow : ∀ x, x < p → f x = false) (hhigh : ∀ x, p ≤ x → x < j → f x = true) :
    searchFrom f i j = p := by
  fun_induction searchFrom f i j with
  | case1 i j hij hmid ih =>
    have hle : p ≤ (i + j) / 2 := by
      by_contra hlt
      rw [hlow _ (not_le.mp hlt)] at hmid
      cases hmid
    exact ih hip hle fun x hp hx => hhigh x hp (by omega)
  | case2 i j hij hmid ih =>
    have hlt : (i + j) / 2 < p := by
      by_contra hle
      exact hmid (hhigh _ (not_lt.mp hle) (by omega))
    exact ih hlt hpj hhigh
  | case3 i j hij => omega

/-- `Search` finds the place where `f` turns true. -/
theorem search_eq {n : ℕ} {f : ℕ → Bool} {p : ℕ} (hp : p ≤ n)
    (hlow : ∀ x, x < p → f x = false) (hhigh : ∀ x, p ≤ x → x < n → f x = true) :
    search n f = p :=
  searchFrom_eq (Nat.zero_le p) hp hlow hhigh

end

end Go
