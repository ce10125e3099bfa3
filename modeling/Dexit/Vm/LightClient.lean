import Mathlib.Data.List.DropRight
import Dexit.Go.BigEndian
import Dexit.Go.Slice
import Dexit.Outcome

/-!
# The input of the Merkle proof contract

`DecodeKeyValueMerkleProof` (core/vm/lightclient/types.go). The decoding of the
proof itself is a parameter. The `recover` of the contract, which turns a panic
into an error, is left out.
-/

namespace Dexit.Vm.LightClient

open Go List Outcome

abbrev Bytes := List UInt8

/-- What goes wrong; `panic` is a slice bound out of range. -/
inductive Err
  | inputTooShort
  | keyTooLong (keyLength : ℕ)
  | valueTooLong (valueLength : ℕ)
  | invalidProof
  | panic
  deriving DecidableEq

/-- `input[lo:hi]`. Go lets `hi` go up to the capacity, which the length tests of the
decoder leave no use for. -/
def slice (input : Bytes) (lo hi : ℕ) : Except Err Bytes :=
  if lo ≤ hi ∧ hi ≤ input.length then .ok ((input.drop lo).take (hi - lo)) else .error .panic

/-- `bytes.Trim(b, "\x00")`. -/
def trim (b : Bytes) : Bytes := (b.dropWhile (· = 0)).rdropWhile (· = 0)

structure KeyValueMerkleProof (Proof : Type) where
  key : Bytes
  value : Bytes
  storeName : Bytes
  appHash : Bytes
  proof : Proof
  deriving DecidableEq

section
variable {Proof : Type} (unmarshal : Bytes → Option Proof)

/-- The sums are of type `uint64`. -/
def decodeKeyValueMerkleProof (input : Bytes) : Except Err (KeyValueMerkleProof Proof) := do
  let inputLength := input.length
  if inputLength ≤ 32 + 32 + 32 + 32 then .error .inputTooShort
  let storeName ← slice input 0 32
  let keyLength := BigEndian.ofBytes (← slice input (32 + 32 - 8) (32 + 32))
  if inputLength ≤ (32 + 32 + keyLength + 32) % 2 ^ 64 then .error (.keyTooLong keyLength)
  let pos := (64 + keyLength) % 2 ^ 64
  let key ← slice input 64 pos
  let valueLength :=
    BigEndian.ofBytes (← slice input ((pos + 32 - 8) % 2 ^ 64) ((pos + 32) % 2 ^ 64))
  let pos := (pos + 32) % 2 ^ 64
  if inputLength ≤ (32 + 32 + keyLength + 32 + valueLength + 32) % 2 ^ 64 then
    .error (.valueTooLong valueLength)
  let value ← slice input pos ((pos + valueLength) % 2 ^ 64)
  let pos := (pos + valueLength) % 2 ^ 64
  let appHash ← slice input pos ((pos + 32) % 2 ^ 64)
  let proofBytes ← slice input ((pos + 32) % 2 ^ 64) inputLength
  match unmarshal proofBytes with
  | none => .error .invalidProof
  | some proof => .ok ⟨key, value, trim storeName, appHash, proof⟩

/-- The number in the last eight bytes of the word at `pos`. -/
def lengthAt (input : Bytes) (pos : ℕ) : ℕ := BigEndian.ofBytes ((input.drop (pos + 24)).take 8)

/-- The proof consists of consecutive parts of the input. -/
def Parts (input : Bytes) (p : KeyValueMerkleProof Proof) : Prop :=
  ∃ name keyWord valueWord proofBytes,
    input = name ++ keyWord ++ p.key ++ valueWord ++ p.value ++ p.appHash ++ proofBytes ∧
      name.length = 32 ∧ keyWord.length = 32 ∧ valueWord.length = 32 ∧ p.appHash.length = 32 ∧
      p.storeName = trim name ∧ p.key.length = BigEndian.ofBytes (keyWord.drop 24) ∧
      p.value.length = BigEndian.ofBytes (valueWord.drop 24) ∧ unmarshal proofBytes = some p.proof

/-- A length word that makes its sum wrap around is refused by the test for its length. -/
def Bounded (input : Bytes) : Prop :=
  let keyLength := lengthAt input 32
  let valueLength := lengthAt input (64 + keyLength)
  input.length ≤ 128 ∨ keyLength + 96 < 2 ^ 64 ∧ (input.length ≤ keyLength + 96 ∨
    keyLength + valueLength + 128 < 2 ^ 64 ∨ input.length ≤ keyLength + valueLength + 128 - 2 ^ 64)

variable {unmarshal} {input : Bytes}

theorem slice_ok {lo hi : ℕ} (h : lo ≤ hi ∧ hi ≤ input.length) :
    slice input lo hi = .ok ((input.drop lo).take (hi - lo)) := if_pos h

theorem slice_panic {lo hi : ℕ} (h : ¬ (lo ≤ hi ∧ hi ≤ input.length)) :
    slice input lo hi = .error .panic := if_neg h

theorem lengthAt_lt (input : Bytes) (pos : ℕ) : lengthAt input pos < 2 ^ 64 := by
  refine (BigEndian.ofBytes_lt _).trans_le ?_
  have hle : ((input.drop (pos + 24)).take 8).length ≤ 8 := length_take_le 8 _
  exact (Nat.pow_le_pow_right (by decide) hle).trans (by decide)

theorem lengthAt_word (input : Bytes) (pos hi : ℕ) (h : hi = pos + 32) :
    BigEndian.ofBytes (((input.drop pos).take (hi - pos)).drop 24) = lengthAt input pos := by
  rw [h, Nat.add_sub_cancel_left, drop_take, drop_drop]
  rfl

/-- A list from `lo` on is the part up to `hi` and the rest. -/
theorem drop_split {lo hi : ℕ} (h : lo ≤ hi) :
    input.drop lo = (input.drop lo).take (hi - lo) ++ input.drop hi := by
  conv_lhs => rw [← take_append_drop (hi - lo) (input.drop lo)]
  rw [drop_drop, Nat.add_sub_cancel' h]

/-- The input is read within its bounds exactly where no sum of the tests for the lengths wraps
around, or the input is refused nevertheless. -/
theorem decode_safe_iff (unmarshal : Bytes → Option Proof) (input : Slice UInt8) :
    (decodeKeyValueMerkleProof unmarshal input.1 ≠ .error .panic ∧
      ∀ p, decodeKeyValueMerkleProof unmarshal input.1 = .ok p → Parts unmarshal input.1 p) ↔
        Bounded input.1 := by
  obtain ⟨input, hlen⟩ := input
  dsimp only
  have hk := lengthAt_lt input 32
  have hv := lengthAt_lt input (64 + lengthAt input 32)
  rw [maxLen] at hlen
  unfold Bounded decodeKeyValueMerkleProof
  have hkey : BigEndian.ofBytes ((input.drop (32 + 32 - 8)).take (32 + 32 - (32 + 32 - 8))) =
    lengthAt input 32 := rfl
  set k := lengthAt input 32
  have hvalue : BigEndian.ofBytes ((input.drop (64 + k + 32 - 8)).take
      (64 + k + 32 - (64 + k + 32 - 8))) = lengthAt input (64 + k) := by
    rw [lengthAt, show 64 + k + 32 - 8 = 64 + k + 24 by omega,
      show 64 + k + 32 - (64 + k + 24) = 8 by omega]
  set v := lengthAt input (64 + k)
  by_cases hshort : input.length ≤ 128
  · exact iff_of_true (by simp [hshort]) (.inl hshort)
  rw [if_neg hshort, slice_ok (by omega), slice_ok (by omega)]
  simp only [ok_bind, hkey]
  by_cases hwrap : k + 96 < 2 ^ 64
  swap
  · rw [if_neg (by omega), slice_panic (by omega)]
    exact iff_of_false (by simp) (by omega)
  rw [Nat.mod_eq_of_lt (show 32 + 32 + k + 32 < 2 ^ 64 by omega),
    Nat.mod_eq_of_lt (show 64 + k < 2 ^ 64 by omega)]
  by_cases hlong : input.length ≤ k + 96
  · rw [if_pos (by omega)]
    exact iff_of_true (by simp) (by omega)
  rw [if_neg (by omega), slice_ok (by omega),
    Nat.mod_eq_of_lt (show 64 + k + 32 - 8 < 2 ^ 64 by omega),
    Nat.mod_eq_of_lt (show 64 + k + 32 < 2 ^ 64 by omega), slice_ok (by omega)]
  simp only [ok_bind, hvalue]
  by_cases hrefused : input.length ≤ (32 + 32 + k + 32 + v + 32) % 2 ^ 64
  · rw [if_pos hrefused]
    exact iff_of_true (by simp) (by omega)
  rw [if_neg hrefused]
  by_cases hsum : k + v + 128 < 2 ^ 64
  swap
  · rw [slice_panic (by omega)]
    exact iff_of_false (by simp) (by omega)
  have hend : (64 + k + 32 + v) % 2 ^ 64 = 64 + k + 32 + v := Nat.mod_eq_of_lt (by omega)
  rw [hend, Nat.mod_eq_of_lt (show 64 + k + 32 + v + 32 < 2 ^ 64 by omega), slice_ok (by omega),
    slice_ok (by omega), slice_ok (by omega)]
  refine iff_of_true ⟨?_, ?_⟩ (by omega)
  · simp only [ok_bind]
    split <;> simp
  · intro p hp
    simp only [ok_bind] at hp
    split at hp
    · cases hp
    next proof hproof =>
    cases hp
    refine ⟨(input.drop 0).take (32 - 0), (input.drop 32).take (64 - 32),
      (input.drop (64 + k)).take (64 + k + 32 - (64 + k)), input.drop (64 + k + 32 + v + 32),
      ?_, ?_, ?_, ?_, ?_, rfl, ?_, ?_, ?_⟩
    · simp only [append_assoc]
      rw [← drop_split (by omega), ← drop_split (by omega), ← drop_split (by omega),
        ← drop_split (by omega), ← drop_split (by omega), ← drop_split (by omega), drop_zero]
    · simp; omega
    · simp; omega
    · simp; omega
    · simp; omega
    · rw [lengthAt_word _ _ _ rfl]
      simp; omega
    · rw [lengthAt_word _ _ _ rfl]
      simp; omega
    · rw [← hproof, take_of_length_le (by simp)]

/-- A key of `2 ^ 64 - 1` bytes in an input of 129 bytes. -/
def overlongKey : Slice UInt8 :=
  ⟨replicate 56 0 ++ replicate 8 255 ++ replicate 65 0, by simp [maxLen]⟩

theorem overlongKey_panics :
    decodeKeyValueMerkleProof (fun _ => some ()) overlongKey.1 = .error .panic := by
  decide +kernel

end

end Dexit.Vm.LightClient
