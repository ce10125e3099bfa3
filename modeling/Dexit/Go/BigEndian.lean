import Mathlib.Tactic.Linarith
import Mathlib.Tactic.Ring

/-!
# Big-endian numbers

Numbers as byte strings, most significant byte first:

* `toBytes k n` are the last `k` bytes of `n`, `ofBytes` is the number of a string;
* `ofBytes_toBytes`, `toBytes_ofBytes`: each undoes the other;
* `pow_le_ofBytes`, `toBytes_head`: strings without a leading zero byte.

`sub64` is the difference of two `uint64`.
-/

namespace Go.BigEndian

open List

def ofBytes (bs : List UInt8) : ℕ := bs.foldl (fun n b => n * 256 + b.toNat) 0

def toBytes : ℕ → ℕ → List UInt8
  | 0, _ => []
  | k + 1, n => UInt8.ofNat (n / 256 ^ k) :: toBytes k n

@[simp] theorem length_toBytes (k n : ℕ) : (toBytes k n).length = k := by
  induction k with
  | zero => rfl
  | succ k ih => rw [toBytes, length_cons, ih]

theorem foldl_eq (bs : List UInt8) (n : ℕ) :
    bs.foldl (fun n b => n * 256 + b.toNat) n = n * 256 ^ bs.length + ofBytes bs := by
  induction bs generalizing n with
  | nil => simp [ofBytes]
  | cons b bs ih =>
    rw [ofBytes, foldl_cons, foldl_cons, ih, ih, length_cons]
    ring

theorem ofBytes_cons (b : UInt8) (bs : List UInt8) :
    ofBytes (b :: bs) = b.toNat * 256 ^ bs.length + ofBytes bs := by
  rw [ofBytes, foldl_cons, foldl_eq, zero_mul, zero_add]

theorem ofBytes_lt (bs : List UInt8) : ofBytes bs < 256 ^ bs.length := by
  induction bs with
  | nil => simp [ofBytes]
  | cons b bs ih =>
    rw [ofBytes_cons, length_cons, pow_succ]
    have hb : b.toNat < 256 := b.toNat_lt
    nlinarith

theorem ofBytes_toBytes (k n : ℕ) : ofBytes (toBytes k n) = n % 256 ^ k := by
  induction k with
  | zero => simp [toBytes, ofBytes, Nat.mod_one]
  | succ k ih =>
    have hbyte : (UInt8.ofNat (n / 256 ^ k)).toNat = n / 256 ^ k % 256 := UInt8.toNat_ofNat'
    have hmod : n % 256 ^ (k + 1) = n % 256 ^ k + 256 ^ k * (n / 256 ^ k % 256) := by
      rw [pow_succ, Nat.mod_mul]
    rw [toBytes, ofBytes_cons, ih, length_toBytes, hbyte, hmod, add_comm, mul_comm]

theorem toBytes_ofBytes (bs : List UInt8) : toBytes bs.length (ofBytes bs) = bs := by
  have hmod : ∀ (k m n : ℕ), toBytes k (m * 256 ^ k + n) = toBytes k n := by
    intro k
    induction k with
    | zero => intros; rfl
    | succ k ih =>
      intro m n
      have hsplit : m * 256 ^ (k + 1) + n = m * 256 * 256 ^ k + n := by ring
      rw [toBytes, toBytes, hsplit, ih, add_comm, Nat.add_mul_div_right _ _ (by positivity)]
      congr 1
      apply UInt8.toNat.inj
      simp
  induction bs with
  | nil => rfl
  | cons b bs ih =>
    have hlt := ofBytes_lt bs
    rw [ofBytes_cons, length_cons, toBytes, hmod, ih, add_comm,
      Nat.add_mul_div_right _ _ (by positivity), Nat.div_eq_of_lt hlt, zero_add]
    simp

/-- The bytes of a string that does not start with zero are as many as its number needs. -/
theorem pow_le_ofBytes {b : UInt8} {bs : List UInt8} (hb : b ≠ 0) :
    256 ^ bs.length ≤ ofBytes (b :: bs) := by
  have hpos : 0 < b.toNat := Nat.pos_of_ne_zero fun h => hb (UInt8.toNat.inj h)
  rw [ofBytes_cons]
  exact Nat.le_add_right_of_le (Nat.le_mul_of_pos_left _ hpos)

theorem toBytes_head {k n : ℕ} (hle : 256 ^ k ≤ n) (hlt : n < 256 ^ (k + 1)) :
    ∃ b bs, toBytes (k + 1) n = b :: bs ∧ b ≠ 0 := by
  refine ⟨_, _, rfl, ?_⟩
  intro h
  have hnat := congrArg UInt8.toNat h
  have hdiv : n / 256 ^ k < 256 := Nat.div_lt_of_lt_mul (by rw [← pow_succ]; exact hlt)
  have hpos : 0 < n / 256 ^ k := Nat.div_pos hle (by positivity)
  simp at hnat
  omega

end Go.BigEndian

namespace Go

def sub64 (a b : ℕ) : ℕ := (a + (2 ^ 64 - b % 2 ^ 64)) % 2 ^ 64

theorem sub64_lt (a b : ℕ) : sub64 a b < 2 ^ 64 := Nat.mod_lt _ (by decide)

theorem sub64_sub64 (a b c : ℕ) : sub64 (sub64 a b) c = sub64 a (b + c) := by
  unfold sub64
  omega

variable {a b : ℕ}

theorem sub64_of_le (h : b ≤ a) (ha : a < 2 ^ 64) : sub64 a b = a - b := by
  unfold sub64
  omega

theorem sub64_eq_zero (ha : a < 2 ^ 64) (hb : b < 2 ^ 64) (h : sub64 a b = 0) : a = b := by
  unfold sub64 at h
  omega

end Go
