import Mathlib.Logic.Basic

/-! Sequences of computations that may fail, over any type of errors. -/

namespace Outcome

open List

variable {ε α β : Type} {x : Except ε α} {f : α → Except ε β}

/-- A sequence of two computations returns exactly when both do. -/
theorem bind_ok {b : β} : (x >>= f) = .ok b ↔ ∃ a, x = .ok a ∧ f a = .ok b := by
  cases x with
  | error e =>
    constructor
    · intro h; cases h
    · rintro ⟨a, h, _⟩; cases h
  | ok a =>
    constructor
    · intro h; exact ⟨a, rfl, h⟩
    · rintro ⟨a', h, hf⟩; cases h; exact hf

/-- The same without the result, for chains whose values are forced. -/
theorem bind_returns : (∃ b, (x >>= f) = .ok b) ↔ ∃ a, x = .ok a ∧ ∃ b, f a = .ok b := by
  simp only [bind_ok]
  constructor
  · rintro ⟨b, a, hx, hf⟩
    exact ⟨a, hx, b, hf⟩
  · rintro ⟨a, hx, b, hf⟩
    exact ⟨b, a, hx, hf⟩

/-- A sequence of two computations fails where the first failure is. -/
theorem bind_error {e : ε} :
    (x >>= f) = .error e ↔ x = .error e ∨ ∃ a, x = .ok a ∧ f a = .error e := by
  cases x with
  | error e' =>
    constructor
    · intro h; cases h; exact .inl rfl
    · rintro (h | ⟨a, h, _⟩)
      · cases h; rfl
      · cases h
  | ok a =>
    constructor
    · intro h; exact .inr ⟨a, rfl, h⟩
    · rintro (h | ⟨a', h, hf⟩)
      · cases h
      · cases h; exact hf

theorem exists_ok (h : x.isOk = true) : ∃ a, x = .ok a := by
  cases x with
  | ok a => exact ⟨a, rfl⟩
  | error e => cases h

@[simp] theorem pure_ok {a b : α} : (pure a : Except ε α) = .ok b ↔ a = b := by
  constructor
  · intro h; cases h; rfl
  · rintro rfl; rfl

@[simp] theorem pure_error {a : α} {e : ε} : (pure a : Except ε α) ≠ .error e := nofun

@[simp] theorem ok_bind (a : α) (f : α → Except ε β) : ((.ok a : Except ε α) >>= f) = f a := rfl

@[simp] theorem error_bind (e : ε) (f : α → Except ε β) :
    ((.error e : Except ε α) >>= f) = .error e := rfl

/-! ## Two loops that differ in one failure -/

section Loops
variable {σ : Type} {f g : σ → α → Except ε σ} {bad : σ → α → Prop} {e : ε} {xs : List α}

theorem foldlM_ne_error (hg : ∀ s, ∀ a ∈ xs, g s a ≠ .error e) (s : σ) :
    xs.foldlM g s ≠ .error e := by
  induction xs generalizing s with
  | nil => exact pure_error
  | cons a rest ih =>
    rw [foldlM_cons, Ne, bind_error]
    rintro (h | ⟨u, _, h⟩)
    · exact hg s a mem_cons_self h
    · exact ih (fun t b hb => hg t b (mem_cons_of_mem _ hb)) u h

theorem foldlM_congr (h : ∀ s, ∀ a ∈ xs, f s a = g s a) (s : σ) : xs.foldlM f s = xs.foldlM g s := by
  induction xs generalizing s with
  | nil => rfl
  | cons a rest ih =>
    rw [foldlM_cons, foldlM_cons, h s a mem_cons_self]
    congr 1
    funext t
    exact ih (fun t b hb => h t b (mem_cons_of_mem _ hb)) t

/-- A loop comes to a bad element. -/
def Meets (g : σ → α → Except ε σ) (bad : σ → α → Prop) (s : σ) (xs : List α) : Prop :=
  ∃ before a after t, xs = before ++ a :: after ∧ before.foldlM g s = .ok t ∧ bad t a

theorem meets_cons {a : α} {rest : List α} {s : σ} :
    Meets g bad s (a :: rest) ↔ bad s a ∨ ∃ u, g s a = .ok u ∧ Meets g bad u rest := by
  constructor
  · rintro ⟨before, b, after, t, hxs, hfold, hbad⟩
    cases before with
    | nil =>
      cases hxs
      cases hfold
      exact .inl hbad
    | cons c before =>
      cases hxs
      rw [foldlM_cons, bind_ok] at hfold
      obtain ⟨u, hu, hfold⟩ := hfold
      exact .inr ⟨u, hu, before, b, after, t, rfl, hfold, hbad⟩
  · rintro (hbad | ⟨u, hu, before, b, after, t, rfl, hfold, hbad⟩)
    · exact ⟨[], a, rest, s, rfl, rfl, hbad⟩
    · refine ⟨a :: before, b, after, t, rfl, ?_, hbad⟩
      rw [foldlM_cons, bind_ok]
      exact ⟨u, hu, hfold⟩

/-- The bodies agree but on bad elements, where `f` fails: so does its loop as
soon as one is met. -/
theorem foldlM_of_meets (hsame : ∀ s, ∀ a ∈ xs, ¬ bad s a → f s a = g s a)
    (hbad : ∀ s, ∀ a ∈ xs, bad s a → f s a = .error e) (s : σ) :
    (Meets g bad s xs → xs.foldlM f s = .error e) ∧
      (¬ Meets g bad s xs → xs.foldlM f s = xs.foldlM g s) := by
  induction xs generalizing s with
  | nil =>
    refine ⟨?_, fun _ => rfl⟩
    rintro ⟨before, a, after, t, hxs, _⟩
    exact absurd hxs (append_ne_nil_of_right_ne_nil _ (cons_ne_nil a after)).symm
  | cons a rest ih =>
    have ih := ih (fun t b hb => hsame t b (mem_cons_of_mem _ hb))
      (fun t b hb => hbad t b (mem_cons_of_mem _ hb))
    rw [meets_cons, foldlM_cons, foldlM_cons]
    by_cases h : bad s a
    · rw [hbad s a mem_cons_self h]
      exact ⟨fun _ => rfl, fun hno => absurd (.inl h) hno⟩
    rw [hsame s a mem_cons_self h]
    cases hu : g s a with
    | error e' =>
      refine ⟨?_, fun _ => rfl⟩
      rintro (hnow | ⟨u, hu', _⟩)
      · exact absurd hnow h
      · cases hu'
    | ok u =>
      refine ⟨?_, fun hno => (ih u).2 fun hm => hno (.inr ⟨u, rfl, hm⟩)⟩
      rintro (hnow | ⟨u', hu', hm⟩)
      · exact absurd hnow h
      · cases hu'
        exact (ih u).1 hm

end Loops

end Outcome
