import Mathlib.Algebra.BigOperators.Group.List.Basic
import Mathlib.Algebra.GroupWithZero.Nat
import Dexit.BlockTree
import Dexit.Runs

/-!
# The header chain and its index

`InsertHeaderChain` stores a list of headers and, when they lead to a heavier
chain than the current one, moves the index of canonical hashes over to it. The
index is moved in three parts: the ancestors of the list, the headers of the
list that were known before, and those that are new. A header is named by its
hash, and there is no ancient store.
-/

namespace Dexit.Core.Headers

open Function List Bool

inductive Err
  | unknownAncestor
  | panic
deriving DecidableEq, Repr

inductive WriteStatus
  | nonStatTy
  | canonStatTy
  | sideStatTy
deriving DecidableEq, Repr

/-- The database and the marker in memory. -/
structure HeaderChain (H : Type) where
  header : H → Bool
  td : H → Option ℕ
  canonical : Index H
  headHeaderHash : Option H
  current : H

section
variable {H : Type} [DecidableEq H] (t : BlockTree H) (difficulty : H → ℕ)

/-- A chain that has nothing but its genesis. -/
def HeaderChain.fresh : HeaderChain H where
  header h := decide (h = t.genesis)
  td h := if h = t.genesis then some (difficulty t.genesis) else none
  canonical := .branch t t.genesis
  headHeaderHash := some t.genesis
  current := t.genesis

def HeaderChain.store (s : HeaderChain H) (h : H) (td : ℕ) : HeaderChain H :=
  { s with
    header := update s.header h true
    td := update s.td h (some td) }

/-- The loop over the headers: what is not known is stored with its total
difficulty. Returns the total difficulty of the last one and what was stored. -/
def storeHeaders (s : HeaderChain H) (newTD : ℕ) : List H → HeaderChain H × ℕ × List H
  | [] => (s, newTD, [])
  | h :: hs =>
    let newTD := newTD + difficulty h
    if s.header h then storeHeaders s newTD hs
    else
      let r := storeHeaders (s.store h newTD) newTD hs
      (r.1, r.2.1, h :: r.2.2)

/-- Whether the import overtakes the current header. A tie goes to the shorter
chain, and the coin decides between chains of one length. -/
def overtakes (s : HeaderChain H) (newTD lastNumber : ℕ) (coin : Bool) : Bool :=
  let localTD := (s.td s.current).getD 0
  let head := t.number s.current
  decide (newTD > localTD) || (decide (newTD = localTD) &&
      (decide (lastNumber < head) || (decide (lastNumber = head) && coin)))

/-- The headers before the first one that is stored; none if nothing is. -/
def knownBefore (s : HeaderChain H) (headers : List H) : List H :=
  match headers.findIdx? (fun h => !s.header h) with
  | none => []
  | some firstInserted => headers.take firstInserted

/-- The marker that the last write of the list leaves. -/
def headAfter (old : Option H) (hs : List H) : Option H := hs.foldl (fun _ h => some h) old

/-- The markers after an import that overtook; `s` has the headers stored
already, `known` are the headers before the first stored one. -/
def adopt (s : HeaderChain H) (first last : H) (known inserted : List H) :
    Except Err (HeaderChain H) := do
  let s' := { s with
    canonical := s.canonical.writeAll t inserted
    headHeaderHash := headAfter s.headHeaderHash inserted
    current := last }
  if t.parent first = s.current then pure s'
  else
    -- all reads are of the database, the writes wait in a batch
    let batch := s.canonical.deleteUp (t.number last + 1) s.canonical
    match Index.relink t s.header s.canonical (t.number first - 1) (t.parent first) batch with
    | none => .error .panic
    | some batch =>
      pure { s' with
        canonical := (batch.writeAll t known).writeAll t inserted
        headHeaderHash := headAfter (headAfter s.headHeaderHash known) inserted }

/-- `writeHeaders`; `coin` is the outcome of the random tie-break. -/
def writeHeaders (coin : Bool) (s : HeaderChain H) : List H → Except Err (WriteStatus × HeaderChain H)
  | [] => .ok (.nonStatTy, s)
  | first :: rest =>
    match if t.number first = 0 then none else s.td (t.parent first) with
    | none => .error .unknownAncestor
    | some ptd =>
      let headers := first :: rest
      let last := rest.getLastD first
      let (stored, newTD, inserted) := storeHeaders difficulty s ptd headers
      let known := knownBefore s headers
      if overtakes t stored newTD (t.number last) coin then do
        let stored ← adopt t stored first last known inserted
        pure (if inserted.isEmpty then .nonStatTy else .canonStatTy, stored)
      else pure (if inserted.isEmpty then .nonStatTy else .sideStatTy, stored)

/-- A call of `InsertHeaderChain` with the outcome of its tie-break. -/
abbrev Call (H : Type) : Type := List H × Bool

/-- An error leaves the chain as it was. -/
def insertHeaderChain (s : HeaderChain H) (call : Call H) : HeaderChain H :=
  match writeHeaders t difficulty call.2 s call.1 with
  | .error _ => s
  | .ok (_, s') => s'

def run (s : HeaderChain H) (calls : List (Call H)) : HeaderChain H :=
  calls.foldl (insertHeaderChain t difficulty) s

/-! ## The index that is wanted -/

/-- The difficulties of a branch, from height `n` down. -/
def totalFrom : ℕ → H → ℕ
  | 0, h => difficulty h
  | n + 1, h => totalFrom n (t.parent h) + difficulty h

/-- The total difficulty of a header. -/
def total (h : H) : ℕ := totalFrom t difficulty (t.number h) h

/-- The index, the stored marker and the current header agree, and nothing that
is known is heavier. -/
structure Indexed (s : HeaderChain H) : Prop where
  canonical : s.canonical.Follows t s.current
  persisted : s.headHeaderHash = some s.current
  heaviest : ∀ h, s.header h = true → total t difficulty h ≤ total t difficulty s.current

/-- Headers come with all their ancestors and their total difficulty. -/
structure Stored (s : HeaderChain H) : Prop where
  genesis : s.header t.genesis = true
  closed : ∀ h, s.header h = true → h ≠ t.genesis → s.header (t.parent h) = true
  td : ∀ h, s.td h = if s.header h then some (total t difficulty h) else none
  current : s.header s.current = true

/-- The import overtakes, to another header than the current one, and starts
with a header that is known: either no header of it is new, or it starts on top
of the current header. -/
def Forgets (s : HeaderChain H) (call : Call H) : Prop :=
  ∃ first rest ptd, call.1 = first :: rest ∧ t.number first ≠ 0 ∧ s.td (t.parent first) = some ptd ∧
    overtakes t s (ptd + (call.1.map difficulty).sum) (t.number (rest.getLastD first)) call.2 = true ∧
    rest.getLastD first ≠ s.current ∧ s.header first = true ∧
    ((∀ h ∈ call.1, s.header h = true) ∨ t.parent first = s.current)

/-- The headers of a call are linked, whatever the first one hangs on. -/
def LinkedCall (call : Call H) : Prop :=
  match call.1 with
  | [] => True
  | first :: rest => t.Linked first rest

end

/-! ## Total difficulties -/

section
variable {H : Type} {t : BlockTree H} {difficulty : H → ℕ} {s : HeaderChain H} {p h : H}
  {hs : List H}

theorem total_child (hc : t.Child p h) : total t difficulty h = total t difficulty p + difficulty h := by
  obtain ⟨rfl, hnum⟩ := hc
  rw [total, hnum, totalFrom, total]

theorem total_linked (hl : t.Linked p hs) :
    total t difficulty (hs.getLastD p) = total t difficulty p + (hs.map difficulty).sum := by
  induction hs generalizing p with
  | nil => rfl
  | cons h hs ih =>
    rw [getLastD_cons, ih hl.2, total_child hl.1, map_cons, sum_cons]
    omega

theorem total_le_last (hl : t.Linked p hs) (hmem : h ∈ hs) :
    total t difficulty h ≤ total t difficulty (hs.getLastD p) := by
  induction hs generalizing p with
  | nil => cases hmem
  | cons x hs ih =>
    rw [getLastD_cons]
    obtain rfl | hmem := mem_cons.mp hmem
    · have hsum : total t difficulty (hs.getLastD h) = _ := total_linked hl.2
      omega
    · exact ih hl.2 hmem

section
variable (hst : Stored t difficulty s)
include hst

/-- Below a known header everything is known. -/
theorem Stored.known_below (hl : t.Linked p hs) (hmem : h ∈ hs)
    (hknown : s.header h = true) : s.header p = true := by
  induction hs generalizing p with
  | nil => cases hmem
  | cons x hs ih =>
    have hx : s.header x = true := by
      obtain rfl | hmem := mem_cons.mp hmem
      · exact hknown
      · exact ih hl.2 hmem
    have hne : x ≠ t.genesis := t.ne_genesis (n := t.number p) (by have := hl.1.2; omega)
    rw [← hl.1.1]
    exact hst.closed x hx hne

theorem Stored.known_ancestor (hknown : s.header h = true) {n : ℕ}
    (hn : n ≤ t.number h) : s.header (t.ancestor h n) = true :=
  t.ancestor_induction (fun x hlt hx => hst.closed x hx (t.ne_genesis hlt)) hknown hn

/-- The known headers of a list stand before the new ones. -/
theorem Stored.split (hl : t.Linked p hs) :
    ∃ pre post, hs = pre ++ post ∧ (∀ h ∈ pre, s.header h = true) ∧
      ∀ h ∈ post, s.header h = false := by
  induction hs generalizing p with
  | nil => exact ⟨[], [], rfl, by simp, by simp⟩
  | cons h hs ih =>
    by_cases hknown : s.header h = true
    · obtain ⟨pre, post, rfl, hpre, hpost⟩ := ih hl.2
      exact ⟨h :: pre, post, rfl, by simpa [hknown] using hpre, hpost⟩
    refine ⟨[], h :: hs, rfl, by simp, ?_⟩
    intro x hx
    by_contra hx'
    obtain rfl | hx := mem_cons.mp hx
    · exact hknown (by simpa using hx')
    · exact hknown (hst.known_below hl.2 hx (by simpa using hx'))

/-- The markers do not matter for what is stored. -/
theorem Stored.moved {head : H} (hhead : s.header head = true) (c : Index H) (marker : Option H) :
    Stored t difficulty { s with canonical := c, headHeaderHash := marker, current := head } :=
  ⟨hst.genesis, hst.closed, hst.td, hhead⟩

end

theorem headAfter_linked (hs : List H) (old : H) :
    headAfter (some old) hs = some (hs.getLastD old) := by
  induction hs generalizing old with
  | nil => rfl
  | cons h hs ih => rw [headAfter, foldl_cons, getLastD_cons]; exact ih h

/-- The whole list is written over the branch of its parent. -/
theorem follows_writeAll {c : Index H} (hup : c.UpTo t p)
    (habove : ∀ n, t.number (hs.getLastD p) < n → c.hash n = none) (hl : t.Linked p hs) :
    (c.writeAll t hs).Follows t (hs.getLastD p) := by
  rw [Index.follows_iff]
  refine ⟨hup.writeAll hl, ?_⟩
  intro n hn
  rw [Index.writeAll_of_ne, habove n hn]
  intro x hx
  have := (hl.number_mem hx).2
  omega

variable {newTD lastNumber : ℕ} {coin : Bool}

theorem total_le_of_overtakes (hst : Stored t difficulty s)
    (h : overtakes t s newTD lastNumber coin = true) : total t difficulty s.current ≤ newTD := by
  simp only [overtakes, hst.td, hst.current, if_true, Option.getD_some, or_eq_true,
    and_eq_true, decide_eq_true_eq] at h
  omega

theorem le_total_of_not_overtakes (hst : Stored t difficulty s)
    (h : overtakes t s newTD lastNumber coin = false) : newTD ≤ total t difficulty s.current := by
  simp only [overtakes, hst.td, hst.current, if_true, Option.getD_some, or_eq_false_iff,
    decide_eq_false_iff_not] at h
  omega

end

/-! ## Storing the headers -/

section
variable {H : Type} [DecidableEq H] {t : BlockTree H} {difficulty : H → ℕ} {s g : HeaderChain H}
  {p first : H} {hs rest : List H}

/-- What the first loop changes. -/
structure Grown (t : BlockTree H) (difficulty : H → ℕ) (s g : HeaderChain H) (hs : List H) :
    Prop where
  header : ∀ h, g.header h = (s.header h || decide (h ∈ hs))
  stored : Stored t difficulty g
  canonical : g.canonical = s.canonical
  persisted : g.headHeaderHash = s.headHeaderHash
  current : g.current = s.current

theorem Stored.store {h : H} (hst : Stored t difficulty s) (hp : s.header p = true) (hc : t.Child p h) :
    Stored t difficulty (s.store h (total t difficulty h)) where
  genesis := by
    by_cases heq : t.genesis = h
    · simp [HeaderChain.store, heq]
    · simpa [HeaderChain.store, update_of_ne heq] using hst.genesis
  closed x hx hne := by
    simp only [HeaderChain.store, update_apply] at hx ⊢
    split at hx
    next heq =>
      subst heq
      split
      next => rfl
      next => rw [hc.1]; exact hp
    next =>
      split
      next => rfl
      next => exact hst.closed x hx hne
  td x := by
    simp only [HeaderChain.store, update_apply]
    split
    next heq => rw [heq]; rfl
    next => exact hst.td x
  current := by
    simp only [HeaderChain.store, update_apply]
    split
    next => rfl
    next => exact hst.current

theorem storeHeaders_spec (hst : Stored t difficulty s) (hp : s.header p = true)
    (hl : t.Linked p hs) :
    ∃ g, storeHeaders difficulty s (total t difficulty p) hs =
        (g, total t difficulty (hs.getLastD p), hs.filter fun h => !s.header h) ∧
      Grown t difficulty s g hs := by
  induction hs generalizing s p with
  | nil => exact ⟨s, rfl, by simp, hst, rfl, rfl, rfl⟩
  | cons h hs ih =>
    have htotal : total t difficulty h = total t difficulty p + difficulty h := total_child hl.1
    rw [storeHeaders, ← htotal, getLastD_cons]
    by_cases hknown : s.header h = true
    · obtain ⟨g, hg, hgrown⟩ := ih hst hknown hl.2
      refine ⟨g, by simpa [hknown] using hg, ?_, hgrown.stored, hgrown.canonical,
        hgrown.persisted, hgrown.current⟩
      intro x
      rw [hgrown.header x]
      by_cases hx : x = h
      · simp [hx, hknown]
      · simp [hx]
    · have hself : (s.store h (total t difficulty h)).header h = true := by
        simp [HeaderChain.store]
      obtain ⟨g, hg, hgrown⟩ := ih (hst.store hp hl.1) hself hl.2
      have hfilter : (hs.filter fun x => !(s.store h (total t difficulty h)).header x) =
          hs.filter fun x => !s.header x := by
        apply filter_congr
        intro x hx
        have hne : x ≠ h := by
          rintro rfl
          have := (hl.2.number_mem hx).1
          omega
        simp [HeaderChain.store, update_of_ne hne]
      rw [hfilter] at hg
      refine ⟨g, by simp [hknown, hg], ?_, hgrown.stored, hgrown.canonical,
        hgrown.persisted, hgrown.current⟩
      intro x
      rw [hgrown.header x]
      by_cases hx : x = h <;> simp [HeaderChain.store, hx]

/-! ## Moving the index -/

variable {last : H} {known inserted : List H}

/-- On top of the current header. -/
theorem adopt_onTop (htop : t.parent first = s.current) :
    adopt t s first last known inserted = .ok { s with
      canonical := s.canonical.writeAll t inserted
      headHeaderHash := headAfter s.headHeaderHash inserted
      current := last } := by
  simp only [adopt, if_pos htop]
  rfl

/-- Elsewhere: the branch of the parent is in the index, nothing stands above
the last header, and between them the index is untouched before the headers are
written. -/
theorem adopt_elsewhere (hst : Stored t difficulty s) (hf : s.canonical.Follows t s.current)
    (htop : t.parent first ≠ s.current)
    (hchild : t.Child (t.parent first) first) (hp : s.header (t.parent first) = true)
    (hlast : t.number first ≤ t.number last) :
    ∃ c : Index H, adopt t s first last known inserted = .ok { s with
        canonical := (c.writeAll t known).writeAll t inserted
        headHeaderHash := headAfter (headAfter s.headHeaderHash known) inserted
        current := last } ∧
      c.UpTo t (t.parent first) ∧ (∀ n, t.number last < n → c.hash n = none) ∧
      ∀ n, t.number first ≤ n → n ≤ t.number last → c.hash n = s.canonical.hash n := by
  have hnum := hchild.2
  have hdel := hf.deleteUp_hash (t.number last + 1) s.canonical
  have hkeep : ∀ m ≤ t.number (t.parent first),
      (s.canonical.deleteUp (t.number last + 1) s.canonical).hash m = s.canonical.hash m := by
    intro m hm
    rw [hdel, if_neg (by omega)]
  obtain ⟨c, hc, hup, habove⟩ := hf.relink (fun n hn => hst.known_ancestor hp hn) hkeep
  have hpred : t.number first - 1 = t.number (t.parent first) := by omega
  refine ⟨c, ?_, hup, ?_, ?_⟩
  · simp only [adopt, if_neg htop, hpred, hc]
    rfl
  · intro n hn
    rw [habove n (by omega), hdel]
    split
    next => rfl
    next h => exact hf.above (by omega)
  · intro n hn hn'
    rw [habove n (by omega), hdel, if_neg (by omega)]

/-! ## One call -/

/-- The parts of a call that is not refused. -/
structure Import (t : BlockTree H) (difficulty : H → ℕ) (s : HeaderChain H) (first : H)
    (rest pre post : List H) (g : HeaderChain H) : Prop where
  child : t.Child (t.parent first) first
  linked : t.Linked (t.parent first) (first :: rest)
  parent : s.header (t.parent first) = true
  split : first :: rest = pre ++ post
  known : ∀ h ∈ pre, s.header h = true
  unknown : ∀ h ∈ post, s.header h = false
  grown : Grown t difficulty s g (first :: rest)

theorem overtakes_grown (hst : Stored t difficulty s) (hg : Grown t difficulty s g hs)
    (newTD lastNumber : ℕ) (coin : Bool) :
    overtakes t g newTD lastNumber coin = overtakes t s newTD lastNumber coin := by
  have htd : g.td s.current = s.td s.current := by
    rw [hg.stored.td, hst.td, hg.header, hst.current]
    rfl
  simp only [overtakes, hg.current, htd]

/-- A call whose first parent is known: the headers are stored, and then the
index is moved or not. -/
theorem exists_import (hst : Stored t difficulty s)
    (hl : t.Linked first rest) (hne : t.number first ≠ 0)
    (hp : s.header (t.parent first) = true) (coin : Bool) :
    let last := rest.getLastD first
    let ahead := overtakes t s (total t difficulty last) (t.number last) coin
    ∃ g pre post, Import t difficulty s first rest pre post g ∧
      (ahead = false → insertHeaderChain t difficulty s (first :: rest, coin) = g) ∧
      (ahead = true → ∀ s', adopt t g first last (if post = [] then [] else pre) post = .ok s' →
        insertHeaderChain t difficulty s (first :: rest, coin) = s') := by
  dsimp only
  have hchild : t.Child (t.parent first) first :=
    ⟨rfl, t.number_parent first fun h => hne (h ▸ t.number_genesis)⟩
  have hlinked : t.Linked (t.parent first) (first :: rest) := ⟨hchild, hl⟩
  obtain ⟨g, hg, hgrown⟩ := storeHeaders_spec hst hp hlinked
  obtain ⟨pre, post, hsplit, hpre, hpost⟩ := hst.split hlinked
  have htd : s.td (t.parent first) = some (total t difficulty (t.parent first)) := by
    rw [hst.td, hp]
    rfl
  have hknown : knownBefore s (first :: rest) = if post = [] then [] else pre := by
    have hnone : pre.findIdx? (fun h => !s.header h) = none := by
      rw [findIdx?_eq_none_iff]
      intro h hh
      simp [hpre h hh]
    rw [hsplit]
    cases post with
    | nil => simp [knownBefore, hnone]
    | cons x post =>
      have hsome : (pre ++ x :: post).findIdx? (fun h => !s.header h) = some pre.length := by
        simp [hnone, findIdx?_cons, hpost x mem_cons_self]
      simp [knownBefore, hsome]
  have hinserted : ((first :: rest).filter fun h => !s.header h) = post := by
    rw [hsplit, filter_append, filter_eq_nil_iff.mpr, filter_eq_self.mpr, nil_append]
    · intro h hh
      simp [hpost h hh]
    · intro h hh
      simp [hpre h hh]
  rw [hinserted, getLastD_cons] at hg
  refine ⟨g, pre, post, ⟨hchild, hlinked, hp, hsplit, hpre, hpost, hgrown⟩, ?_, ?_⟩
  · intro hover
    simp only [insertHeaderChain, writeHeaders, if_neg hne, htd, hg,
      overtakes_grown hst hgrown, hover]
    rfl
  · intro hover s' hadopt
    simp only [insertHeaderChain, writeHeaders, if_neg hne, htd, hg,
      overtakes_grown hst hgrown, hover, hknown, hadopt]
    rfl

namespace Import

variable {pre post : List H} (h : Import t difficulty s first rest pre post g)
include h

theorem first_le : t.number first ≤ t.number (rest.getLastD first) := by
  have := (h.linked.number_mem mem_cons_self).2
  rwa [getLastD_cons] at this

theorem last_known : g.header (rest.getLastD first) = true := by
  rw [h.grown.header, decide_eq_true (getLastD_mem_cons ..), Bool.or_true]

/-- Nothing that is known after the call is heavier than both heads. -/
theorem heaviest (hi : Indexed t difficulty s) {x head : H} (hx : g.header x = true)
    (hcur : total t difficulty s.current ≤ total t difficulty head)
    (hlast : total t difficulty (rest.getLastD first) ≤ total t difficulty head) :
    total t difficulty x ≤ total t difficulty head := by
  rw [h.grown.header, Bool.or_eq_true, decide_eq_true_eq] at hx
  obtain hx | hx := hx
  · exact (hi.heaviest x hx).trans hcur
  · have hle : total t difficulty x ≤ total t difficulty ((first :: rest).getLastD _) :=
      total_le_last h.linked hx
    rw [getLastD_cons] at hle
    exact hle.trans hlast

section
variable (hi : Indexed t difficulty s)
  (hover : total t difficulty s.current ≤ total t difficulty (rest.getLastD first))
include hi hover

/-- Above the current header the index is right unless the list starts with a
known header, which is then not written. -/
theorem onTop_iff (htop : t.parent first = s.current) : Indexed t difficulty { g with
      canonical := g.canonical.writeAll t post
      headHeaderHash := headAfter g.headHeaderHash post
      current := rest.getLastD first } ↔ s.header first = false := by
  have hnum := h.child.2
  constructor
  · intro hindexed
    by_contra hfirst
    have hat := hindexed.canonical.upTo (t.number first) h.first_le
    have hnone : (g.canonical.writeAll t post).hash (t.number first) = none := by
      rw [Index.writeAll_of_ne, h.grown.canonical, hi.canonical.above (by rw [← htop]; omega)]
      intro x hx heq
      have hmem : x ∈ first :: rest := by rw [h.split]; exact mem_append_right _ hx
      obtain rfl | hmem := mem_cons.mp hmem
      · exact hfirst (h.unknown x hx)
      · have := (h.linked.2.number_mem hmem).1
        omega
    simp only [hnone] at hat
    cases hat
  · intro hfirst
    have hpost : post = first :: rest := by
      cases pre with
      | nil => exact h.split.symm
      | cons x pre =>
        have hx : first = x := (List.cons.inj h.split).1
        have := h.known x mem_cons_self
        rw [← hx, hfirst] at this
        cases this
    constructor
    case canonical =>
      have hup : g.canonical.UpTo t (t.parent first) := by
        rw [h.grown.canonical, htop]
        exact hi.canonical.upTo
      have habove : ∀ n, t.number ((first :: rest).getLastD (t.parent first)) < n →
          g.canonical.hash n = none := by
        intro n hn
        rw [getLastD_cons] at hn
        have := h.first_le
        rw [h.grown.canonical]
        exact hi.canonical.above (by rw [← htop]; omega)
      have hf := follows_writeAll hup habove h.linked
      rw [getLastD_cons] at hf
      rw [hpost]
      exact hf
    case persisted =>
      simp only [h.grown.persisted, hi.persisted, hpost]
      rw [headAfter_linked, getLastD_cons]
    case heaviest => exact fun x hx => h.heaviest hi hx hover le_rfl

/-- Elsewhere the index is right when a header is new, for then the known ones
are written too. With no new header only the branch below the list is. -/
theorem elsewhere_iff {c : Index H} (hup : c.UpTo t (t.parent first))
    (habove : ∀ n, t.number (rest.getLastD first) < n → c.hash n = none)
    (hkeep : ∀ n, t.number first ≤ n → n ≤ t.number (rest.getLastD first) →
      c.hash n = g.canonical.hash n) :
    Indexed t difficulty { g with
      canonical := (c.writeAll t (if post = [] then [] else pre)).writeAll t post
      headHeaderHash := headAfter (headAfter g.headHeaderHash (if post = [] then [] else pre)) post
      current := rest.getLastD first } ↔ (post = [] → rest.getLastD first = s.current) := by
  have hnum := h.child.2
  constructor
  · rintro hindexed rfl
    have hhead := hindexed.persisted
    simp only [if_true, headAfter, foldl_nil, h.grown.persisted, hi.persisted,
      Option.some_inj] at hhead
    exact hhead.symm
  · intro hpost
    have hheaviest : ∀ x, g.header x = true →
        total t difficulty x ≤ total t difficulty (rest.getLastD first) :=
      fun x hx => h.heaviest hi hx hover le_rfl
    by_cases hnil : post = []
    · have hlast := hpost hnil
      subst hnil
      refine ⟨?_, ?_, hheaviest⟩
      · show c.Follows t (rest.getLastD first)
        rw [Index.follows_iff]
        refine ⟨?_, habove⟩
        intro n hn
        rcases lt_or_ge n (t.number first) with hlt | hge
        · have hanc := h.linked.ancestor_last (n := n) (by omega)
          rw [getLastD_cons] at hanc
          rw [hup n (by omega), hanc]
        · rw [hkeep n hge hn, h.grown.canonical, hlast]
          exact hi.canonical.upTo n (hlast ▸ hn)
      · simp only [if_true, headAfter, foldl_nil, h.grown.persisted, hi.persisted, hlast]
    · rw [if_neg hnil]
      have habove' : ∀ n, t.number ((first :: rest).getLastD (t.parent first)) < n →
          c.hash n = none := by
        rwa [getLastD_cons]
      have hf := follows_writeAll hup habove' h.linked
      rw [getLastD_cons, h.split, Index.writeAll, foldl_append] at hf
      refine ⟨hf, ?_, hheaviest⟩
      have hhead := headAfter_linked (first :: rest) s.current
      rw [getLastD_cons, h.split, headAfter, foldl_append] at hhead
      simp only [h.grown.persisted, hi.persisted]
      exact hhead

end

/-- Both sides of a call that is not refused. -/
theorem forgets_iff (hst : Stored t difficulty s) (coin : Bool) :
    Forgets t difficulty s (first :: rest, coin) ↔
      overtakes t s (total t difficulty (rest.getLastD first))
        (t.number (rest.getLastD first)) coin = true ∧
      rest.getLastD first ≠ s.current ∧ s.header first = true ∧
      (post = [] ∨ t.parent first = s.current) := by
  have htd : s.td (t.parent first) = some (total t difficulty (t.parent first)) := by
    rw [hst.td, h.parent]
    rfl
  have hsum : total t difficulty (rest.getLastD first) =
      total t difficulty (t.parent first) + ((first :: rest).map difficulty).sum := by
    rw [← total_linked h.linked, getLastD_cons]
  have hall : (∀ x ∈ first :: rest, s.header x = true) ↔ post = [] := by
    rw [h.split]
    constructor
    · intro hall
      rw [eq_nil_iff_forall_not_mem]
      intro x hx
      have := hall x (mem_append_right pre hx)
      rw [h.unknown x hx] at this
      cases this
    · rintro rfl
      rw [append_nil]
      exact h.known
  constructor
  · rintro ⟨first', rest', ptd, heq, -, hptd, hover, hrest⟩
    obtain ⟨rfl, rfl⟩ := List.cons.inj heq
    rw [htd, Option.some_inj] at hptd
    rw [← hptd, ← hsum] at hover
    exact ⟨hover, hrest.1, hrest.2.1, hrest.2.2.imp_left hall.mp⟩
  · rintro ⟨hover, hlast, hfirst, hor⟩
    have hne : t.number first ≠ 0 := by
      have := h.child.2
      omega
    rw [hsum] at hover
    exact ⟨first, rest, _, rfl, hne, htd, hover, hlast, hfirst, hor.imp_left hall.mpr⟩

end Import

/-- A call that is not refused keeps the index right exactly when it does not forget a
header. -/
theorem accepted_indexed_iff (hst : Stored t difficulty s) (hi : Indexed t difficulty s)
    (hl : t.Linked first rest) (hne : t.number first ≠ 0) (hp : s.header (t.parent first) = true)
    (coin : Bool) : Stored t difficulty (insertHeaderChain t difficulty s (first :: rest, coin)) ∧
      (Indexed t difficulty (insertHeaderChain t difficulty s (first :: rest, coin)) ↔
        ¬ Forgets t difficulty s (first :: rest, coin)) := by
  obtain ⟨g, pre, post, h, hside, hadopt⟩ := exists_import hst hl hne hp coin
  rw [h.forgets_iff hst coin]
  cases hover : overtakes t s (total t difficulty (rest.getLastD first))
    (t.number (rest.getLastD first)) coin with
  | false =>
    rw [hside hover]
    have hindexed : Indexed t difficulty g := by
      refine ⟨?_, ?_, ?_⟩
      · rw [h.grown.canonical, h.grown.current]
        exact hi.canonical
      · rw [h.grown.persisted, h.grown.current]
        exact hi.persisted
      · intro x hx
        rw [h.grown.current]
        exact h.heaviest hi hx le_rfl (le_total_of_not_overtakes hst hover)
    exact ⟨h.grown.stored, by simp [hindexed]⟩
  | true =>
    have hle := total_le_of_overtakes hst hover
    by_cases htop : t.parent first = s.current
    · have hgtop : t.parent first = g.current := by rw [h.grown.current, htop]
      rw [hadopt hover _ (adopt_onTop hgtop)]
      refine ⟨h.grown.stored.moved h.last_known _ _, ?_⟩
      rw [h.onTop_iff hi hle htop]
      -- the list leads higher, so its last header is not the current one
      have hlast : rest.getLastD first ≠ s.current := by
        intro heq
        have hnum := h.child.2
        have hfirst := h.first_le
        rw [heq, ← htop] at hfirst
        omega
      rw [← not_eq_true]
      exact ⟨fun hfirst hforgets => hfirst hforgets.2.2.1,
        fun hkeep hfirst => hkeep ⟨rfl, hlast, hfirst, .inr htop⟩⟩
    · have hgtop : t.parent first ≠ g.current := by rwa [h.grown.current]
      have hgf : g.canonical.Follows t g.current := by
        rw [h.grown.canonical, h.grown.current]
        exact hi.canonical
      have hgp : g.header (t.parent first) = true := by rw [h.grown.header, h.parent, Bool.true_or]
      obtain ⟨c, hc, hup, habove, hkeep⟩ :=
        adopt_elsewhere h.grown.stored hgf hgtop h.child hgp h.first_le
      rw [hadopt hover _ hc]
      refine ⟨h.grown.stored.moved h.last_known _ _, ?_⟩
      rw [h.elsewhere_iff hi hle hup habove hkeep]
      have hknown : post = [] → s.header first = true := by
        rintro rfl
        exact h.known first (by rw [← append_nil pre, ← h.split]; exact mem_cons_self)
      grind

/-- One call. -/
theorem insertHeaderChain_indexed_iff (hst : Stored t difficulty s) (hi : Indexed t difficulty s)
    {call : Call H} (hl : LinkedCall t call) :
    Stored t difficulty (insertHeaderChain t difficulty s call) ∧
      (Indexed t difficulty (insertHeaderChain t difficulty s call) ↔
        ¬ Forgets t difficulty s call) := by
  obtain ⟨headers, coin⟩ := call
  cases headers with
  | nil =>
    refine ⟨hst, iff_of_true hi ?_⟩
    rintro ⟨first, rest, _, heq, _⟩
    cases heq
  | cons first rest =>
    by_cases hp : t.number first ≠ 0 ∧ s.header (t.parent first) = true
    · exact accepted_indexed_iff hst hi hl hp.1 hp.2 coin
    -- the parent is missing, and the call is refused
    have hnone : (if t.number first = 0 then none else s.td (t.parent first)) = none := by
      rw [hst.td]
      grind
    have hsame : insertHeaderChain t difficulty s (first :: rest, coin) = s := by
      simp only [insertHeaderChain, writeHeaders, hnone]
    rw [hsame]
    refine ⟨hst, iff_of_true hi ?_⟩
    rintro ⟨first', rest', ptd, heq, hne, hptd, _⟩
    obtain ⟨rfl, rfl⟩ := List.cons.inj heq
    rw [if_neg hne, hptd] at hnone
    cases hnone

/-! ## Runs -/

/-- After every call of a run the index is the branch of the heaviest known
header, and the stored marker names it, exactly when no call overtakes with
headers that begin with a known one and are all known or start on top of the
current header. -/
theorem insertHeaderChain_consistent_iff (hst : Stored t difficulty s) (hi : Indexed t difficulty s)
    (calls : List (Call H)) (hl : ∀ call ∈ calls, LinkedCall t call) :
    (∀ pre, pre <+: calls → Indexed t difficulty (run t difficulty s pre)) ↔
      ∀ pre call, pre ++ [call] <+: calls → ¬ Forgets t difficulty (run t difficulty s pre) call :=
  Runs.foldl_prefixes_iff (Stored t difficulty) (LinkedCall t)
    (fun _ _ hst hi hl => insertHeaderChain_indexed_iff hst hi hl) hst hi hl

theorem stored_fresh : Stored t difficulty (HeaderChain.fresh t difficulty) where
  genesis := by simp [HeaderChain.fresh]
  closed h hh hne := absurd (by simpa [HeaderChain.fresh] using hh) hne
  td h := by
    simp only [HeaderChain.fresh, decide_eq_true_eq]
    split
    next heq => rw [heq, total, t.number_genesis, totalFrom]
    next => rfl
  current := by simp [HeaderChain.fresh]

theorem indexed_fresh : Indexed t difficulty (HeaderChain.fresh t difficulty) where
  canonical := Index.branch_follows t.genesis
  persisted := rfl
  heaviest h hh := by
    have heq : h = t.genesis := by simpa [HeaderChain.fresh] using hh
    rw [heq]
    rfl

end

/-- A genesis with two children. -/
def fork : BlockTree (Fin 3) where
  genesis := 0
  parent _ := 0
  number h := if h = 0 then 0 else 1
  number_genesis := rfl
  number_parent := by decide

/-- The first child is imported, then its sibling twice; the coin keeps the
first child at first, and then gives way to the sibling. -/
def siblingTwice : List (Call (Fin 3)) := [([1], false), ([2], false), ([2], true)]

theorem insertHeaderChain_consistent_iff_siblings :
    (∀ pre, pre <+: siblingTwice.take 2 → Indexed fork 1 (run fork 1 (.fresh fork 1) pre)) ↔
      ∀ pre call, pre ++ [call] <+: siblingTwice.take 2 →
        ¬ Forgets fork 1 (run fork 1 (.fresh fork 1) pre) call :=
  insertHeaderChain_consistent_iff stored_fresh indexed_fresh _ (by
    simp [siblingTwice, LinkedCall, BlockTree.Linked])

/-- The current header is the sibling, but the index and the stored marker still
have the first child. -/
theorem known_sibling_not_indexed :
    (∀ call ∈ siblingTwice, LinkedCall fork call) ∧
      (run fork 1 (.fresh fork 1) siblingTwice).current = 2 ∧
      (run fork 1 (.fresh fork 1) siblingTwice).headHeaderHash = some 1 ∧
      (run fork 1 (.fresh fork 1) siblingTwice).canonical.hash 1 = some 1 ∧
      ¬ Indexed fork 1 (run fork 1 (.fresh fork 1) siblingTwice) := by
  have hcurrent : (run fork 1 (.fresh fork 1) siblingTwice).current = 2 := by decide +kernel
  have hmarker : (run fork 1 (.fresh fork 1) siblingTwice).headHeaderHash = some 1 := by
    decide +kernel
  refine ⟨by simp [siblingTwice, LinkedCall, BlockTree.Linked], hcurrent, hmarker,
    by decide +kernel, ?_⟩
  intro hindexed
  have := hindexed.persisted
  exact absurd this (by decide)

end Dexit.Core.Headers
