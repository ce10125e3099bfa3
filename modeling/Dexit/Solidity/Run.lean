import Mathlib.Data.List.Induction
import Dexit.Solidity.Checked

/-!
# Runs of a machine whose calls may revert

A call that reverts leaves the state as it was. `Along` says that every call of
a run meets a condition in the state it is made in, `Throughout` that a
property holds in every state of a run, `Since` that it has held from some call
on; the rules below turn facts about one successful call into facts about whole
runs.
-/

namespace Solidity

open List

variable {σ α : Type}

/-- What a call leaves behind, whether or not it reverts. -/
def step (exec : σ → α → Result σ) (s : σ) (a : α) : σ :=
  match exec s a with
  | .ok t => t
  | .error _ => s

def run (exec : σ → α → Result σ) (s : σ) (calls : List α) : σ :=
  calls.foldl (step exec) s

/-- Every call of the run meets `ok` in the state it is made in. -/
def Along (exec : σ → α → Result σ) (ok : σ → α → Prop) : σ → List α → Prop
  | _, [] => True
  | s, a :: calls => ok s a ∧ Along exec ok (step exec s a) calls

/-- `P` holds in every state of the run, the first and the last included. -/
def Throughout (exec : σ → α → Result σ) (P : σ → Prop) : σ → List α → Prop
  | s, [] => P s
  | s, a :: calls => P s ∧ Throughout exec P (step exec s a) calls

/-- Some call of the run met `start`, and `P` has held ever since. -/
def Since (exec : σ → α → Result σ) (start : σ → α → Prop) (P : σ → Prop) (s : σ)
    (calls : List α) : Prop :=
  ∃ before a after, calls = before ++ a :: after ∧ start (run exec s before) a ∧
    Throughout exec P (step exec (run exec s before) a) after

section
variable {exec : σ → α → Result σ} {s t : σ} {a : α} {calls : List α} {J P Q : σ → Prop}
  {ok ok' : σ → α → Prop}

theorem step_ok (h : exec s a = .ok t) : step exec s a = t := by
  unfold step
  rw [h]

theorem step_error {e : Revert} (h : exec s a = .error e) : step exec s a = s := by
  unfold step
  rw [h]

section
variable (exec : σ → α → Result σ) (s : σ)

/-- A call either leaves the state alone or succeeds. -/
theorem step_cases (a : α) : step exec s a = s ∨ exec s a = .ok (step exec s a) := by
  cases h : exec s a with
  | error e => exact Or.inl (step_error h)
  | ok t => right; rw [step_ok h]

theorem run_single (a : α) : run exec s [a] = step exec s a := rfl

theorem run_append (xs ys : List α) : run exec s (xs ++ ys) = run exec (run exec s xs) ys := by
  simp [run]

end

section
variable (h : Throughout exec P s calls)
include h

theorem throughout_start : P s := by
  cases calls with
  | nil => exact h
  | cons a rest => exact h.1

theorem throughout_last : P (run exec s calls) := by
  induction calls generalizing s with
  | nil => exact h
  | cons a rest ih => exact ih h.2

theorem Throughout.mono (hPQ : ∀ s, P s → Q s) : Throughout exec Q s calls := by
  induction calls generalizing s with
  | nil => exact hPQ s h
  | cons a rest ih => exact ⟨hPQ s h.1, ih h.2⟩

theorem Throughout.and
    (h' : Throughout exec Q s calls) : Throughout exec (fun s => P s ∧ Q s) s calls := by
  induction calls generalizing s with
  | nil => exact ⟨h, h'⟩
  | cons a rest ih => exact ⟨⟨h.1, h'.1⟩, ih h.2 h'.2⟩

end

theorem Along.and (h : Along exec ok s calls)
    (h' : Along exec ok' s calls) : Along exec (fun s a => ok s a ∧ ok' s a) s calls := by
  induction calls generalizing s with
  | nil => trivial
  | cons a rest ih => exact ⟨⟨h.1, h'.1⟩, ih h.2 h'.2⟩

theorem along_append {xs ys : List α} :
    Along exec ok s (xs ++ ys) ↔ Along exec ok s xs ∧ Along exec ok (run exec s xs) ys := by
  induction xs generalizing s with
  | nil => simp [Along, run]
  | cons a rest ih =>
    simp only [cons_append, Along, ih, and_assoc]
    rfl

theorem throughout_append {xs ys : List α} (h : Throughout exec P s (xs ++ ys)) :
    P (run exec s xs) ∧ Throughout exec P (run exec s xs) ys := by
  induction xs generalizing s with
  | nil => exact ⟨throughout_start h, h⟩
  | cons a rest ih => exact ih h.2

theorem throughout_concat :
    Throughout exec P s (calls ++ [a]) ↔
      Throughout exec P s calls ∧ P (run exec s (calls ++ [a])) := by
  induction calls generalizing s with
  | nil => rfl
  | cons b rest ih =>
    simp only [cons_append, Throughout, ih, and_assoc]
    rfl

/-- Every state of a run is the last one of a run that stops there. -/
theorem throughout_split {before after : List α}
    (h : Throughout exec P s (before ++ after)) : Throughout exec P s before := by
  induction before generalizing s with
  | nil =>
    have start : P s := throughout_start h
    exact start
  | cons b rest ih => exact ⟨h.1, ih h.2⟩

/-- **Past rule.** What holds at the end of a run and not at its start arose in
some call. If it implies `P` wherever `J` holds, `P` has held since that call. -/
theorem since_of_arises {start : σ → α → Prop}
    (arises : ∀ s a t, J s → exec s a = .ok t → Q t → Q s ∨ start s a)
    (holds : ∀ s, J s → Q s → P s) (hJ : Throughout exec J s calls) (first : ¬ Q s)
    (last : Q (run exec s calls)) : Since exec start P s calls := by
  induction calls using reverseRecOn with
  | nil => exact absurd last first
  | append_singleton xs a ih =>
    have hend : P (run exec s (xs ++ [a])) := holds _ (throughout_concat.mp hJ).2 last
    have earlier (hq : Q (run exec s xs)) : Since exec start P s (xs ++ [a]) := by
      obtain ⟨before, b, after, rfl, hstart, hP⟩ := ih (throughout_concat.mp hJ).1 hq
      refine ⟨before, b, after ++ [a], by simp, hstart, throughout_concat.mpr ⟨hP, ?_⟩⟩
      simpa [run] using hend
    rw [run_append, run_single] at last hend
    obtain e | e := step_cases exec (run exec s xs) a
    · rw [e] at last
      exact earlier last
    · obtain hq | hstart := arises _ _ _ (throughout_last (throughout_concat.mp hJ).1) e last
      · exact earlier hq
      · exact ⟨xs, a, [], rfl, hstart, hend⟩

/-- Two conditions that agree under an invariant agree along every run. -/
theorem along_congr
    (keeps : ∀ s, ∀ a ∈ calls, ∀ t, J s → exec s a = .ok t → J t)
    (agree : ∀ s, ∀ a ∈ calls, J s → (ok s a ↔ ok' s a)) (hJ : J s) :
    Along exec ok s calls ↔ Along exec ok' s calls := by
  induction calls generalizing s with
  | nil => exact Iff.rfl
  | cons a rest ih =>
    have hnext : J (step exec s a) := by
      obtain e | e := step_cases exec s a
      · rwa [e]
      · exact keeps s a mem_cons_self _ hJ e
    have hrest := ih (fun s b hb => keeps s b (mem_cons_of_mem a hb))
      (fun s b hb => agree s b (mem_cons_of_mem a hb)) hnext
    simp only [Along, agree s a mem_cons_self hJ, hrest]

theorem along_true (exec : σ → α → Result σ) (s : σ) (calls : List α) :
    Along exec (fun _ _ => True) s calls := by
  induction calls generalizing s with
  | nil => trivial
  | cons a rest ih => exact ⟨trivial, ih _⟩

/-- **Invariant rule.** What successful calls that meet `ok` preserve holds in
every state of a run all of whose calls meet `ok`. -/
theorem throughout_of_preserved (keeps : ∀ s a t, P s → ok s a → exec s a = .ok t → P t)
    (start : P s) (h : Along exec ok s calls) : Throughout exec P s calls := by
  induction calls generalizing s with
  | nil => exact start
  | cons a rest ih =>
    refine ⟨start, ih ?_ h.2⟩
    obtain e | e := step_cases exec s a
    · rwa [e]
    · exact keeps s a _ start h.1 e

/-- **Clock rule.** An invariant that speaks of the time, and stays true as time
passes, holds throughout a run whose calls are made in order of time. -/
theorem throughout_of_clocked {P : Nat → σ → Prop} {time : α → Nat} {now : Nat}
    (keeps : ∀ now s, ∀ a ∈ calls, ∀ t, P now s → now ≤ time a → exec s a = .ok t → P (time a) t)
    (later : ∀ now then_ s, now ≤ then_ → P now s → P then_ s)
    (start : P now s) (first : ∀ a ∈ calls, now ≤ time a)
    (order : calls.Pairwise fun a b => time a ≤ time b) :
    Throughout exec (fun s => ∃ now, P now s) s calls := by
  induction calls generalizing s now with
  | nil => exact ⟨now, start⟩
  | cons a rest ih =>
    obtain ⟨hafter, horder⟩ := pairwise_cons.mp order
    have hnow := first a mem_cons_self
    refine ⟨⟨now, start⟩, ih (fun now s b hb => keeps now s b (mem_cons_of_mem a hb)) ?_ hafter
      horder⟩
    obtain e | e := step_cases exec s a
    · rw [e]
      exact later now _ s hnow start
    · exact keeps now s a mem_cons_self _ start hnow e

/-- An invariant that every successful call preserves holds in every state. -/
theorem run_preserves (keeps : ∀ s a t, P s → exec s a = .ok t → P t)
    (start : P s) (calls : List α) : P (run exec s calls) :=
  throughout_last (throughout_of_preserved (fun s a t hs _ h => keeps s a t hs h) start
    (along_true exec s calls))

/-- **Exact rule.** If, under an invariant `J`, a successful call keeps `P`
exactly when it meets `ok`, and calls that revert meet `ok`, then `P` holds in
every state of a run exactly when every call of the run meets `ok`. -/
theorem throughout_iff_along {A : σ → α → Prop}
    (keeps : ∀ s a t, J s → A s a → exec s a = .ok t → J t)
    (exact : ∀ s a t, J s → A s a → P s → exec s a = .ok t → (P t ↔ ok s a))
    (reverts : ∀ s a e, J s → exec s a = .error e → ok s a)
    (hJ : J s) (hP : P s) (hA : Along exec A s calls) :
    Throughout exec P s calls ↔ Along exec ok s calls := by
  induction calls generalizing s with
  | nil => exact ⟨fun _ => trivial, fun _ => hP⟩
  | cons a rest ih =>
    cases h : exec s a with
    | error e =>
      have hs := step_error h
      simp only [Throughout, Along, hs]
      have hr := ih hJ hP (by have := hA.2; rwa [hs] at this)
      exact ⟨fun hT => ⟨reverts s a e hJ h, hr.mp hT.2⟩, fun hA => ⟨hP, hr.mpr hA.2⟩⟩
    | ok t =>
      have hs := step_ok h
      simp only [Throughout, Along, hs]
      have hJt := keeps s a t hJ hA.1 h
      have hA' : Along exec A t rest := by have := hA.2; rwa [hs] at this
      have he := exact s a t hJ hA.1 hP h
      constructor
      · rintro ⟨_, hT⟩
        have hPt := throughout_start hT
        exact ⟨he.mp hPt, (ih hJt hPt hA').mp hT⟩
      · rintro ⟨hok, hA⟩
        have hPt := he.mpr hok
        exact ⟨hP, (ih hJt hPt hA').mpr hA⟩

end

end Solidity
