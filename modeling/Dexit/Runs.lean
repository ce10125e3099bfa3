import Mathlib.Data.List.Infix

/-!
# Properties of every state of a run

A run is a fold over the inputs of a machine, and its states are the ends of its
prefixes. `foldl_prefixes_iff` turns an exact condition for one step into one for
the whole run.
-/

namespace Runs

open List

variable {σ α : Type} {step : σ → α → σ} {s : σ} {a : α} {xs : List α}

theorem forall_prefix_cons {Q : List α → Prop} :
    (∀ pre, pre <+: a :: xs → Q pre) ↔ Q [] ∧ ∀ pre, pre <+: xs → Q (a :: pre) := by
  simp only [prefix_cons_iff]
  constructor
  · intro h
    exact ⟨h [] (.inl rfl), fun pre hpre => h _ (.inr ⟨pre, rfl, hpre⟩)⟩
  · rintro ⟨hnil, hcons⟩ pre (rfl | ⟨rest, rfl, hrest⟩)
    · exact hnil
    · exact hcons rest hrest

theorem forall_step_cons {R : List α → α → Prop} :
    (∀ pre x, pre ++ [x] <+: a :: xs → R pre x) ↔
      R [] a ∧ ∀ pre x, pre ++ [x] <+: xs → R (a :: pre) x := by
  constructor
  · intro h
    refine ⟨h [] a (by simp), ?_⟩
    intro pre x hpre
    exact h (a :: pre) x (cons_prefix_cons.mpr ⟨rfl, hpre⟩)
  · rintro ⟨hnil, hcons⟩ pre x hpre
    cases pre with
    | nil =>
      obtain ⟨rfl, -⟩ := cons_prefix_cons.mp hpre
      exact hnil
    | cons b pre =>
      rw [cons_append, cons_prefix_cons] at hpre
      obtain ⟨rfl, hrest⟩ := hpre
      exact hcons pre x hrest

/-- If a step out of a good state is good exactly when it is not `bad`, all states
of a run are good exactly when none of its steps is. `J` is what every step
keeps, and `ok` what is known of the inputs. -/
theorem foldl_prefixes_iff (J : σ → Prop) (ok : α → Prop) {P : σ → Prop} {bad : σ → α → Prop}
    (hstep : ∀ s a, J s → P s → ok a → J (step s a) ∧ (P (step s a) ↔ ¬ bad s a))
    (hJ : J s) (hP : P s) (hok : ∀ a ∈ xs, ok a) :
    (∀ pre, pre <+: xs → P (pre.foldl step s)) ↔
      ∀ pre a, pre ++ [a] <+: xs → ¬ bad (pre.foldl step s) a := by
  induction xs generalizing s with
  | nil => simp [prefix_nil, hP]
  | cons a xs ih =>
    obtain ⟨hJ', hiff⟩ := hstep s a hJ hP (hok a mem_cons_self)
    rw [forall_prefix_cons, forall_step_cons]
    simp only [foldl_cons, foldl_nil, hP, true_and]
    by_cases hbad : bad s a
    · refine iff_of_false (fun h => ?_) fun h => h.1 hbad
      exact hiff.mp (h [] nil_prefix) hbad
    · rw [and_iff_right hbad]
      exact ih hJ' (hiff.mpr hbad) fun x hx => hok x (mem_cons_of_mem a hx)

end Runs
