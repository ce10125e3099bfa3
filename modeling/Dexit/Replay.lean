import Mathlib.Data.List.Basic

/-!
# Recording and replaying

A producer runs a program and records some of what it does; a follower runs
the same program and takes the records from the front of a list instead of
making them. A step that fails leaves no record, so the follower has to see
from the next record that it belongs to a later step. `fresh s rest` says that
it can: no step that fails in `s` would take the first record of `rest`.

* `Preserves`: what holds before and after a program;
* `Appends`: what a program adds to a list in its state;
* `Shadows`: a program that runs in lockstep with another on a mapped state;
* `Replays`, `Finishes`: a follower that is fed what a producer recorded.
-/

namespace Replay

open List

/-- Computations whose state survives an error. -/
abbrev M (σ ε α : Type) : Type := ExceptT ε (StateM σ) α

section Programs
variable {σ ε α β : Type}

def exec (x : M σ ε α) (s : σ) : Except ε α × σ := x.run.run s

/-- Part of the current state. -/
def reads (f : σ → α) : M σ ε α := fun s => (.ok (f s), s)

def writes (f : σ → σ) : M σ ε Unit := fun s => (.ok (), f s)

def fails (e : ε) : M σ ε α := fun s => (.error e, s)

def lifts : Except ε α → M σ ε α
  | .ok a => pure a
  | .error e => fails e

/-- Runs `x` and ignores its error. -/
def swallow (x : M σ ε Unit) : M σ ε Unit := fun s => (.ok (), (exec x s).2)

def forEach (body : α → M σ ε Unit) : List α → M σ ε Unit
  | [] => pure ()
  | a :: rest => do
    body a
    forEach body rest

@[simp] theorem exec_pure (a : α) (s : σ) : exec (pure a : M σ ε α) s = (.ok a, s) := rfl

@[simp] theorem exec_reads (f : σ → α) (s : σ) : exec (reads f : M σ ε α) s = (.ok (f s), s) := rfl

@[simp] theorem exec_writes (f : σ → σ) (s : σ) :
    exec (writes f : M σ ε Unit) s = (.ok (), f s) := rfl

@[simp] theorem exec_swallow (x : M σ ε Unit) (s : σ) :
    exec (swallow x) s = (.ok (), (exec x s).2) := rfl

variable {k : α → M σ ε β} {s t : σ}

theorem exec_bind_ok {x : M σ ε α} {a : α}
    (h : exec x s = (.ok a, t)) : exec (x >>= k) s = exec (k a) t := by
  have hx : x s = (.ok a, t) := h
  unfold exec
  simp only [bind, ExceptT.bind, ExceptT.mk, StateT.bind, ExceptT.run, StateT.run, hx,
    ExceptT.bindCont]

theorem exec_bind_error {x : M σ ε α} {e : ε}
    (h : exec x s = (.error e, t)) : exec (x >>= k) s = (.error e, t) := by
  have hx : x s = (.error e, t) := h
  unfold exec
  simp only [bind, ExceptT.bind, ExceptT.mk, StateT.bind, ExceptT.run, StateT.run, hx,
    ExceptT.bindCont]
  rfl

theorem of_exec_bind {x : M σ ε α} {b : β} (h : exec (x >>= k) s = (.ok b, t)) :
    ∃ a u, exec x s = (.ok a, u) ∧ exec (k a) u = (.ok b, t) := by
  cases hx : exec x s with
  | mk r u =>
    cases r with
    | error e =>
      rw [exec_bind_error hx] at h
      cases h
    | ok a => exact ⟨a, u, rfl, (exec_bind_ok hx).symm.trans h⟩

theorem exec_forEach_singleton (body : α → M σ ε Unit) (a : α) (s : σ) :
    exec (forEach body [a]) s = exec (body a) s := by
  cases h : exec (body a) s with
  | mk r t =>
    cases r with
    | error e => exact exec_bind_error h
    | ok _ => exact exec_bind_ok h

end Programs

section Rules
variable {σ ε x α β : Type} {body : α → M σ ε Unit} {f g : M σ ε α}

/-! ## What a program preserves -/

def Preserves (I : σ → Prop) (f : M σ ε α) : Prop := ∀ s, I s → I (exec f s).2

section
variable {I : σ → Prop}

theorem Preserves.of_eq {f : M σ ε α} (h : ∀ s, (exec f s).2 = s) : Preserves I f := by
  intro s hs
  rw [h]
  exact hs

theorem Preserves.bind {f : M σ ε α} {k : α → M σ ε β} (hf : Preserves I f)
    (hk : ∀ a, Preserves I (k a)) : Preserves I (f >>= k) := by
  intro s hs
  have ht := hf s hs
  cases h : exec f s with
  | mk r t =>
    rw [h] at ht
    cases r with
    | error e =>
      rw [exec_bind_error h]
      exact ht
    | ok a =>
      rw [exec_bind_ok h]
      exact hk a t ht

theorem Preserves.swallow {f : M σ ε Unit} (h : Preserves I f) : Preserves I (swallow f) := h

theorem Preserves.forEach {body : α → M σ ε Unit} {xs : List α}
    (h : ∀ a ∈ xs, Preserves I (body a)) : Preserves I (forEach body xs) := by
  induction xs with
  | nil => exact Preserves.of_eq fun _ => rfl
  | cons a rest ih =>
    apply Preserves.bind (h a mem_cons_self)
    intro _
    apply ih
    intro b hb
    exact h b (mem_cons_of_mem _ hb)

end

/-! ## What a program adds to a list -/

/-- Every run of `f` extends the list by elements that satisfy `P`. -/
def Appends (log : σ → List x) (P : x → Prop) (f : M σ ε α) : Prop :=
  ∀ s, ∃ new, log (exec f s).2 = log s ++ new ∧ ∀ e ∈ new, P e

section
variable {log : σ → List x} {P : x → Prop} {f : M σ ε α}

theorem Appends.of_eq (h : ∀ s, log (exec f s).2 = log s) : Appends log P f := by
  intro s
  exact ⟨[], by rw [h, append_nil], by simp⟩

theorem Appends.mono {Q : x → Prop} (h : Appends log P f) (hPQ : ∀ e, P e → Q e) :
    Appends log Q f := by
  intro s
  obtain ⟨new, hlog, hnew⟩ := h s
  exact ⟨new, hlog, fun e he => hPQ e (hnew e he)⟩

theorem Appends.bind {k : α → M σ ε β} (hf : Appends log P f)
    (hk : ∀ a, Appends log P (k a)) : Appends log P (f >>= k) := by
  intro s
  obtain ⟨new, hlog, hnew⟩ := hf s
  cases h : exec f s with
  | mk r t =>
    rw [h] at hlog
    cases r with
    | error e =>
      rw [exec_bind_error h]
      exact ⟨new, hlog, hnew⟩
    | ok a =>
      obtain ⟨later, hlog', hlater⟩ := hk a t
      rw [exec_bind_ok h]
      refine ⟨new ++ later, ?_, ?_⟩
      · rw [hlog', hlog, append_assoc]
      · intro e he
        obtain he | he := mem_append.mp he
        · exact hnew e he
        · exact hlater e he

theorem Appends.swallow {f : M σ ε Unit} (h : Appends log P f) : Appends log P (swallow f) := h

theorem Appends.forEach {body : α → M σ ε Unit} (h : ∀ a, Appends log P (body a)) (xs : List α) :
    Appends log P (forEach body xs) := by
  induction xs with
  | nil => exact Appends.of_eq fun _ => rfl
  | cons a rest ih => exact Appends.bind (h a) fun _ => ih

end

/-! ## Loops that only log their errors -/

theorem exec_forEach_ok (h : ∀ a s, (exec (body a) s).1 = .ok ())
    (xs : List α) (s : σ) : exec (forEach body xs) s = (.ok (), (exec (forEach body xs) s).2) := by
  induction xs generalizing s with
  | nil => rfl
  | cons a rest ih =>
    have hstep : exec (body a) s = (.ok (), (exec (body a) s).2) := by
      rw [← h a s]
    have hrun : exec (forEach body (a :: rest)) s = exec (forEach body rest) (exec (body a) s).2 :=
      exec_bind_ok hstep
    rw [hrun]
    exact ih _

/-! ## Programs in lockstep -/

/-- `g` does on the image of every state what `f` does on the state. -/
def Shadows (φ : σ → σ) (f g : M σ ε α) : Prop :=
  ∀ s, exec g (φ s) = ((exec f s).1, φ (exec f s).2)

section
variable {φ : σ → σ}

theorem Shadows.pure (a : α) : Shadows φ (pure a : M σ ε α) (pure a) := fun _ => rfl

theorem Shadows.reads {f : σ → α} (hf : ∀ s, f (φ s) = f s) :
    Shadows φ (reads f : M σ ε α) (reads f) := by
  intro s
  simp only [exec_reads, hf]

theorem Shadows.swallow {f g : M σ ε Unit} (h : Shadows φ f g) :
    Shadows φ (swallow f) (swallow g) := by
  intro s
  simp only [exec_swallow, h s]

theorem Shadows.bind {f g : M σ ε α} {k k' : α → M σ ε β} (h : Shadows φ f g)
    (hk : ∀ a, Shadows φ (k a) (k' a)) : Shadows φ (f >>= k) (g >>= k') := by
  intro s
  have hg := h s
  cases hf : exec f s with
  | mk r t =>
    rw [hf] at hg
    cases r with
    | error e => rw [exec_bind_error hf, exec_bind_error hg]
    | ok a =>
      rw [exec_bind_ok hf, exec_bind_ok hg]
      exact hk a t

theorem Shadows.forEach {body body' : α → M σ ε Unit} (h : ∀ a, Shadows φ (body a) (body' a))
    (xs : List α) : Shadows φ (forEach body xs) (forEach body' xs) := by
  induction xs with
  | nil => exact Shadows.pure ()
  | cons a rest ih => exact Shadows.bind (h a) fun _ => ih

end

/-! ## Following a record -/

/-- What is recorded, how a follower is given records, and when a list of
records may come next. -/
structure Tape (σ x : Type) where
  log : σ → List x
  feed : List x → σ → σ
  fresh : σ → List x → Prop

/-- Whatever `f` records, `g` can be fed before `rest`: it then does what `f`
did, up to the error it reports, and leaves `rest`. -/
def Replays (T : Tape σ x) (f g : M σ ε α) : Prop :=
  ∀ s rest, T.fresh (exec f s).2 rest → ∃ new, T.log (exec f s).2 = T.log s ++ new ∧
    T.fresh s (new ++ rest) ∧ ∃ r, exec g (T.feed (new ++ rest) s) = (r, T.feed rest (exec f s).2) ∧
      r.toOption = (exec f s).1.toOption

/-- When `f` returns, `g` can be fed exactly what it recorded. -/
def Finishes (T : Tape σ x) (f g : M σ ε α) : Prop :=
  ∀ s t a, exec f s = (.ok a, t) → ∃ new, T.log t = T.log s ++ new ∧ T.fresh s new ∧
    exec g (T.feed new s) = (.ok a, T.feed [] t)

variable {T : Tape σ x}

theorem Replays.of_same (hlog : ∀ s, (exec f s).2 = s)
    (h : ∀ rest s, exec g (T.feed rest s) = ((exec f s).1, T.feed rest s)) : Replays T f g := by
  intro s rest hfresh
  rw [hlog] at hfresh ⊢
  exact ⟨[], by simp, hfresh, _, h rest s, rfl⟩

theorem Replays.pure (a : α) : Replays T (pure a : M σ ε α) (pure a) :=
  Replays.of_same (fun _ => rfl) fun _ _ => rfl

theorem Replays.lifts (r : Except ε α) : Replays T (lifts r : M σ ε α) (lifts r) := by
  cases r with
  | ok a => exact Replays.pure a
  | error e => exact Replays.of_same (fun _ => rfl) fun _ _ => rfl

theorem Replays.reads {f : σ → α} (hf : ∀ rest s, f (T.feed rest s) = f s) :
    Replays T (reads f : M σ ε α) (reads f) := by
  refine Replays.of_same (fun _ => rfl) fun rest s => ?_
  simp only [exec_reads, hf]

theorem Replays.swallow {f g : M σ ε Unit} (h : Replays T f g) :
    Replays T (swallow f) (swallow g) := by
  intro s rest hfresh
  obtain ⟨new, hlog, hnew, r, hrun, -⟩ := h s rest hfresh
  refine ⟨new, hlog, hnew, .ok (), ?_, rfl⟩
  simp only [exec_swallow, hrun]

variable {k k' : α → M σ ε β} {r : Except ε α}

theorem toOption_error {e : ε}
    (h : r.toOption = (.error e : Except ε α).toOption) : ∃ e', r = .error e' := by
  cases r with
  | error e' => exact ⟨e', rfl⟩
  | ok a => cases h

theorem toOption_ok {a : α} (h : r.toOption = (.ok a : Except ε α).toOption) : r = .ok a := by
  cases r with
  | error e => cases h
  | ok b =>
    cases h
    rfl

theorem Replays.bind (h : Replays T f g)
    (hk : ∀ a, Replays T (k a) (k' a)) : Replays T (f >>= k) (g >>= k') := by
  intro s rest hfresh
  cases hf : exec f s with
  | mk r t =>
    cases r with
    | error e =>
      rw [exec_bind_error hf] at hfresh ⊢
      obtain ⟨new, hlog, hnew, r, hrun, hr⟩ := h s rest (by rw [hf]; exact hfresh)
      rw [hf] at hlog hrun hr
      obtain ⟨e', rfl⟩ := toOption_error hr
      exact ⟨new, hlog, hnew, .error e', exec_bind_error hrun, rfl⟩
    | ok a =>
      rw [exec_bind_ok hf] at hfresh ⊢
      obtain ⟨later, hlog, hlater, r, hrun, hr⟩ := hk a t rest hfresh
      obtain ⟨new, hlog', hnew, r', hrun', hr'⟩ := h s (later ++ rest) (by rw [hf]; exact hlater)
      rw [hf] at hlog' hrun' hr'
      obtain rfl := toOption_ok hr'
      refine ⟨new ++ later, ?_, ?_, r, ?_, hr⟩
      · rw [hlog, hlog', append_assoc]
      · rw [append_assoc]
        exact hnew
      · rw [append_assoc, exec_bind_ok hrun']
        exact hrun

theorem Replays.forEach {body' : α → M σ ε Unit} (h : ∀ a, Replays T (body a) (body' a))
    (xs : List α) : Replays T (forEach body xs) (forEach body' xs) := by
  induction xs with
  | nil => exact Replays.pure ()
  | cons a rest ih => exact Replays.bind (h a) fun _ => ih

theorem Replays.finishes (h : Replays T f g)
    (hk : ∀ a, Finishes T (k a) (k' a)) : Finishes T (f >>= k) (g >>= k') := by
  intro s t b hrun
  obtain ⟨a, u, hf, hrun⟩ := of_exec_bind hrun
  obtain ⟨later, hlog, hlater, hgo⟩ := hk a u t b hrun
  obtain ⟨new, hlog', hnew, r, hgo', hr⟩ := h s later (by rw [hf]; exact hlater)
  rw [hf] at hlog' hgo' hr
  obtain rfl := toOption_ok hr
  refine ⟨new ++ later, ?_, hnew, ?_⟩
  · rw [hlog, hlog', append_assoc]
  · rw [exec_bind_ok hgo']
    exact hgo

end Rules

end Replay
