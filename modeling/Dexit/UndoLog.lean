import Mathlib.Logic.Basic

/-!
# Undo logs

A machine that writes an entry for each change, so that the changes can be
undone newest first. Undoing does not give back the very same state, only one
that agrees with it: caches that were filled meanwhile stay. `Back base s es`
says that the entries `es` lead from `s` back to a state that agrees with
`base`.
-/

namespace UndoLog

/-- How entries are undone, and which states count as the same. -/
structure Machine (σ ε : Type) where
  undo : ε → σ → Option σ
  Agree : σ → σ → Prop
  /-- What the operations and `undo` need of a state. -/
  Good : σ → Prop
  /-- What `undo` needs of an entry in the state it is undone in. -/
  Valid : ε → σ → Prop
  agree_refl : ∀ s, Agree s s
  agree_trans : ∀ {s t u}, Agree s t → Agree t u → Agree s u
  good_congr : ∀ {s t}, Agree s t → Good s → Good t
  valid_congr : ∀ {e s t}, Agree s t → Valid e s → Valid e t
  undo_congr : ∀ {e s t s'}, Good s → Valid e s → Agree s t → undo e s = some s' →
    ∃ t', undo e t = some t' ∧ Agree s' t'

variable {σ ε : Type} {M : Machine σ ε}

/-- Undoes entries one by one. -/
def unwind (M : Machine σ ε) : List ε → σ → Option σ
  | [], s => some s
  | e :: es, s => (M.undo e s).bind (unwind M es)

/-- The entries lead back to `base`, through good states only. -/
def Back (M : Machine σ ε) (base : σ) : σ → List ε → Prop
  | s, [] => M.Good s ∧ M.Agree base s
  | s, e :: es => M.Good s ∧ M.Valid e s ∧ ∃ t, M.undo e s = some t ∧ Back M base t es

variable {base s t : σ} {e : ε} {es fs : List ε}

theorem Back.good (h : Back M base s es) : M.Good s := by
  cases es with
  | nil => exact h.1
  | cons e es => exact h.1

theorem Back.start (h : M.Good s) : Back M s s [] := ⟨h, M.agree_refl s⟩

/-- A change that nothing can observe needs no entry. -/
theorem Back.congr (h : Back M base s es) (hst : M.Agree s t) : Back M base t es := by
  induction es generalizing s t with
  | nil => exact ⟨M.good_congr hst h.1, M.agree_trans h.2 hst⟩
  | cons e es ih =>
    obtain ⟨hgood, hvalid, u, hu, hback⟩ := h
    obtain ⟨u', hu', hagree⟩ := M.undo_congr hgood hvalid hst hu
    exact ⟨M.good_congr hst hgood, M.valid_congr hst hvalid, u', hu', ih hback hagree⟩

/-- A change with an entry that undoes it. -/
theorem Back.push (h : Back M base s es) (hgood : M.Good t) (hvalid : M.Valid e t)
    (hundo : ∃ u, M.undo e t = some u ∧ M.Agree s u) : Back M base t (e :: es) := by
  obtain ⟨u, hu, hagree⟩ := hundo
  exact ⟨hgood, hvalid, u, hu, h.congr hagree⟩

/-- Undoing some of the entries leaves the others. -/
theorem Back.unwind_append (h : Back M base s (es ++ fs)) :
    ∃ t, unwind M es s = some t ∧ Back M base t fs := by
  induction es generalizing s with
  | nil => exact ⟨s, rfl, h⟩
  | cons e es ih =>
    obtain ⟨-, -, u, hu, hback⟩ := h
    obtain ⟨t, ht, hrest⟩ := ih hback
    refine ⟨t, ?_, hrest⟩
    rw [unwind, hu, Option.bind_some, ht]

end UndoLog
