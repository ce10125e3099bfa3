import Mathlib.Algebra.Group.Nat.Defs
import Dexit.Outcome

/-!
# Checked 256-bit arithmetic and reverts

What Solidity 0.8 code can do when it does not return: a failed `require`, a
panic, a refused native transfer. Every operator below either returns the
mathematical result or reverts, so a value that was computed never wrapped.
-/

namespace Solidity

/-- Why a call was undone. -/
inductive Revert where
  | require (message : String)
  | overflow
  | underflow
  | divisionByZero
  | outOfBounds
  | nonPayable
  | transferFailed
  | outOfGas
  deriving DecidableEq, Repr

/-- The result of running code that may revert. -/
abbrev Result (α : Type) := Except Revert α

/-- One past the largest `uint256`. -/
def wordSize : Nat := 2 ^ 256

def require (condition : Prop) [Decidable condition] (message : String) : Result Unit :=
  if condition then .ok () else .error (.require message)

def guardWith (condition : Prop) [Decidable condition] (reason : Revert) : Result Unit :=
  if condition then .ok () else .error reason

def add (a b : Nat) : Result Nat :=
  if a + b < wordSize then .ok (a + b) else .error .overflow

def sub (a b : Nat) : Result Nat :=
  if b ≤ a then .ok (a - b) else .error .underflow

def mul (a b : Nat) : Result Nat :=
  if a * b < wordSize then .ok (a * b) else .error .overflow

def div (a b : Nat) : Result Nat :=
  if b ≠ 0 then .ok (a / b) else .error .divisionByZero

def mod (a b : Nat) : Result Nat :=
  if b ≠ 0 then .ok (a % b) else .error .divisionByZero

variable {α : Type} {m : String} {u : Unit} {r : Revert} {xs : List α} {x : α}

/-- Reading an array slot. -/
def index (xs : List α) (i : Nat) : Result α :=
  match xs[i]? with
  | some x => .ok x
  | none => .error .outOfBounds

/-- Writing an array slot. -/
def store (xs : List α) (i : Nat) (x : α) : Result (List α) :=
  if i < xs.length then .ok (xs.set i x) else .error .outOfBounds

variable {p : Prop} {a b c i : Nat} {e : Revert}

@[simp] theorem require_ok [Decidable p] : require p m = .ok u ↔ p := by
  unfold require
  by_cases h : p <;> simp [h]

@[simp] theorem guardWith_ok [Decidable p] : guardWith p r = .ok u ↔ p := by
  unfold guardWith
  by_cases h : p <;> simp [h]

@[simp] theorem add_ok : add a b = .ok c ↔ a + b < wordSize ∧ a + b = c := by
  unfold add
  by_cases h : a + b < wordSize <;> simp [h]

@[simp] theorem sub_ok : sub a b = .ok c ↔ b ≤ a ∧ a - b = c := by
  unfold sub
  by_cases h : b ≤ a <;> simp [h]

@[simp] theorem mul_ok : mul a b = .ok c ↔ a * b < wordSize ∧ a * b = c := by
  unfold mul
  by_cases h : a * b < wordSize <;> simp [h]

@[simp] theorem div_ok : div a b = .ok c ↔ b ≠ 0 ∧ a / b = c := by
  unfold div
  by_cases h : b = 0 <;> simp [h]

@[simp] theorem mod_ok : mod a b = .ok c ↔ b ≠ 0 ∧ a % b = c := by
  unfold mod
  by_cases h : b = 0 <;> simp [h]

@[simp] theorem index_ok : index xs i = .ok x ↔ xs[i]? = some x := by
  unfold index
  cases xs[i]? <;> simp

@[simp] theorem store_ok {ys : List α} :
    store xs i x = .ok ys ↔ i < xs.length ∧ xs.set i x = ys := by
  unfold store
  by_cases h : i < xs.length <;> simp [h]

theorem require_error [Decidable p] : require p m = .error e ↔ ¬ p ∧ .require m = e := by
  unfold require
  by_cases h : p <;> simp [h]

theorem guardWith_error [Decidable p] : guardWith p r = .error e ↔ ¬ p ∧ r = e := by
  unfold guardWith
  by_cases h : p <;> simp [h]

theorem add_error : add a b = .error e ↔ wordSize ≤ a + b ∧ .overflow = e := by
  unfold add
  by_cases h : a + b < wordSize
  · simp [h, Nat.not_le.mpr h]
  · simp [h, Nat.not_lt.mp h]

theorem sub_error : sub a b = .error e ↔ a < b ∧ .underflow = e := by
  unfold sub
  by_cases h : b ≤ a
  · simp [h, Nat.not_lt.mpr h]
  · simp [h, Nat.not_le.mp h]

theorem index_error : index xs i = .error e ↔ xs.length ≤ i ∧ .outOfBounds = e := by
  unfold index
  cases h : xs[i]? with
  | none => simp [List.getElem?_eq_none_iff.mp h]
  | some x =>
    obtain ⟨hi, _⟩ := List.getElem?_eq_some_iff.mp h
    simp [Nat.not_le.mpr hi]

theorem store_error : store xs i x = .error e ↔ xs.length ≤ i ∧ .outOfBounds = e := by
  unfold store
  by_cases h : i < xs.length
  · simp [h, Nat.not_le.mpr h]
  · simp [h, Nat.not_lt.mp h]

end Solidity
