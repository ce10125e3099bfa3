import Mathlib.Algebra.Group.Nat.Defs
import Mathlib.Data.Nat.Basic
import Mathlib.Order.Basic

/-!
# Sections of the canonical chain

`ChainIndexer` (core/chain_indexer.go) without checkpoints and children. The update loop
processes a section without the lock. All accesses to the stored sections hold it but one: when
`Reset` of the backend fails, `processSection` calls `setValidSections(0)` without it. So
`newHead` and `verifyLastHead` are taken apart where this call may come between.

Headers are named by their hashes, and the zero hash is `none`. The chain may change between any
two reads. `processSection` reads each number once, so that its reads are given by one table, in
which nothing relates the entries. Numbers are taken modulo 2^64 where they may wrap around.
-/

namespace Dexit.Core

open Function List

/-- The parameters of the indexer, and what the headers name as their parents. -/
structure IndexerConfig (H : Type) where
  sectionSize : ℕ
  confirmsReq : ℕ
  parentHash : H → Option H

/-- What `processSection` reads from the database, and what the backend returns. -/
structure Pass (H : Type) where
  canonicalHash : ℕ → Option H
  hasHeader : H → ℕ → Bool
  process : ℕ → Bool
  commit : Bool

/-- The update loop: `processSection` runs for a section on top of a head, or has returned the
new head, if it did not fail. -/
inductive Updating (H : Type)
  | idle
  | processing (sec : ℕ) (oldHead : Option H)
  | processed (sec : ℕ) (oldHead : Option H) (newHead : Option (Option H))

/-- Who calls `verifyLastHead`: `Sections`, or the update loop before and after a section. -/
inductive Caller
  | sections
  | update
  | failed

/-- What the holder of the lock does next: `newHead` goes back to the stored sections, and
`verifyLastHead` compares the last head or drops it. -/
inductive Holder
  | free
  | revert (stored : ℕ)
  | verify (caller : Caller)
  | pop (caller : Caller)

/-- The indexer with its database. `commits` is what the backend was fed before its latest
`Commit` of each section. -/
structure ChainIndexer (H : Type) where
  storedSections : ℕ := 0
  knownSections : ℕ := 0
  sectionHead : ℕ → Option H := fun _ => none
  commits : ℕ → Option (List H) := fun _ => none
  updating : Updating H := .idle
  holder : Holder := .free

namespace ChainIndexer

variable {H : Type}

section
variable (cfg : IndexerConfig H) (c : ChainIndexer H)

/-- The loop removes the heads from the last one down. -/
def setValidSections (sections : ℕ) : ChainIndexer H :=
  { c with
    storedSections := sections
    sectionHead := fun i =>
      if sections ≤ i ∧ i < c.storedSections then none else c.sectionHead i }

/-- Up to the call of `setValidSections`. -/
def newHead (head : ℕ) (reorg : Bool) : ChainIndexer H :=
  if reorg then
    let known := (head + 1) % 2 ^ 64 / cfg.sectionSize
    { c with
      knownSections := if known < c.knownSections then known else c.knownSections
      holder := if known < c.storedSections then .revert known else .free }
  else if head ≥ cfg.confirmsReq then
    let sections := (head + 1 - cfg.confirmsReq) % 2 ^ 64 / cfg.sectionSize
    if sections > c.knownSections then { c with knownSections := sections } else c
  else c

/-- `verifyLastHead` finds nothing to drop. -/
def Verified (chain : ℕ → Option H) : Prop :=
  c.storedSections = 0 ∨ c.sectionHead (c.storedSections - 1) =
    chain ((c.storedSections * cfg.sectionSize + (2 ^ 64 - 1)) % 2 ^ 64)

def prevHead (heads : ℕ → Option H) (sec : ℕ) : Option H :=
  if sec > 0 then heads (sec - 1) else none

/-- The caller of `verifyLastHead` goes on, until it gives the lock back. -/
def verified : Caller → ChainIndexer H
  | .sections => { c with holder := .free }
  | .update =>
    { c with
      updating := .processing c.storedSections (prevHead c.sectionHead c.storedSections)
      holder := .free }
  | .failed => { c with knownSections := c.storedSections, updating := .idle, holder := .free }

variable [DecidableEq H]

/-- The loop of `processSection` over the numbers of a section, with what the backend was fed,
the latest header first. -/
def processHeaders (p : Pass H) : List ℕ → Option H → List H → Option (Option H × List H)
  | [], lastHead, fed => some (lastHead, fed)
  | number :: numbers, lastHead, fed =>
    match p.canonicalHash number with
    | none => none
    | some hash =>
      if !p.hasHeader hash number then none
      else if cfg.parentHash hash ≠ lastHead then none
      else if p.process number then processHeaders p numbers (some hash) (hash :: fed)
      else none

/-- After `Reset` has succeeded. `Commit` is called for what was fed, and may fail. -/
def processSection (p : Pass H) (sec : ℕ) (lastHead : Option H) : ChainIndexer H :=
  let number := sec * cfg.sectionSize % 2 ^ 64
  match processHeaders cfg p (range' number ((sec + 1) * cfg.sectionSize % 2 ^ 64 - number))
    lastHead [] with
  | none => { c with updating := .processed sec lastHead none }
  | some (newHead, fed) =>
    { c with
      commits := update c.commits sec (some fed.reverse)
      updating := .processed sec lastHead (if p.commit then some newHead else none) }

/-- The update loop after it got the lock again. -/
def finishUpdate (sec : ℕ) (oldHead : Option H) : Option (Option H) → ChainIndexer H
  | none => { c with holder := .verify .failed }
  | some newHead =>
    if sec = 0 ∨ oldHead = c.sectionHead (sec - 1) then
      setValidSections
        { c with sectionHead := update c.sectionHead sec newHead, updating := .idle } (sec + 1)
    else { c with holder := .verify .failed }

/-- What the update loop, `newHead` and `Sections` do next. -/
inductive Step : ChainIndexer H → Prop
  | newHead (head : ℕ) (reorg : Bool) : c.holder = .free → Step (c.newHead cfg head reorg)
  | revert {stored : ℕ} : c.holder = .revert stored →
    Step { c.setValidSections stored with holder := .free }
  | sections : c.holder = .free → Step { c with holder := .verify .sections }
  | update : c.holder = .free → c.updating = .idle → c.knownSections > c.storedSections →
    Step { c with holder := .verify .update }
  | verified {caller : Caller} (chain : ℕ → Option H) : c.holder = .verify caller →
    c.Verified cfg chain → Step (c.verified caller)
  | unverified {caller : Caller} (chain : ℕ → Option H) : c.holder = .verify caller →
    ¬c.Verified cfg chain → Step { c with holder := .pop caller }
  | pop {caller : Caller} : c.holder = .pop caller → Step
    { c.setValidSections ((c.storedSections + (2 ^ 64 - 1)) % 2 ^ 64) with
      holder := .verify caller }
  | process (p : Pass H) {sec : ℕ} {oldHead : Option H} : c.updating = .processing sec oldHead →
    Step (c.processSection cfg p sec oldHead)
  | finishUpdate {sec : ℕ} {oldHead : Option H} {newHead : Option (Option H)} :
    c.holder = .free → c.updating = .processed sec oldHead newHead →
    Step (c.finishUpdate sec oldHead newHead)

end

/-- The states of runs; where they are `apart`, neither `newHead` nor `Sections` is running when
`Reset` fails and `processSection` returns. -/
inductive Reached [DecidableEq H] (cfg : IndexerConfig H) (apart : Prop) : ChainIndexer H → Prop
  | start : Reached cfg apart {}
  | step {c c' : ChainIndexer H} : Reached cfg apart c → Step cfg c c' → Reached cfg apart c'
  | resetFails {c : ChainIndexer H} {sec : ℕ} {oldHead : Option H} : Reached cfg apart c →
    c.updating = .processing sec oldHead → (apart → c.holder = .free) →
    Reached cfg apart { c.setValidSections 0 with updating := .processed sec oldHead none }

/-- `Sections` returns this number. -/
def Returns (cfg : IndexerConfig H) (c : ChainIndexer H) (chain : ℕ → Option H) (n : ℕ) :
    Prop :=
  c.holder = .verify .sections ∧ c.Verified cfg chain ∧ c.storedSections = n

/-- Every canonical block but the first is a child of the one before it. -/
def ParentLinked (cfg : IndexerConfig H) (chain : ℕ → Option H) : Prop :=
  ∀ n h, chain (n + 1) = some h → cfg.parentHash h = chain n

/-! ## Linked headers -/

variable {cfg : IndexerConfig H} {c c' : ChainIndexer H} {chain : ℕ → Option H}
  {p : Pass H} {lastHead head oldHead : Option H} {hs fed : List H} {holder : Holder}
  {updating : Updating H} {i n lo sec sections stored : ℕ}

variable (cfg) in
/-- The headers, the latest one first, lead to a head from an older one. -/
def Leads : Option H → List H → Option H → Prop
  | head, [], oldHead => head = oldHead
  | head, h :: hs, oldHead => head = some h ∧ Leads (cfg.parentHash h) hs oldHead

/-- Where the head is canonical, so are the headers that lead to it, and the older head. -/
theorem Leads.canonical (hlinked : ParentLinked cfg chain) (h : Leads cfg head hs oldHead)
    (hhead : ∀ n, lo + hs.length = n + 1 → head = chain n) :
    hs.reverse.map some = (range' lo hs.length).map chain ∧
      ∀ n, lo = n + 1 → oldHead = chain n := by
  induction hs generalizing head with
  | nil => exact ⟨rfl, h ▸ hhead⟩
  | cons h' hs ih =>
    obtain ⟨rfl, hleads⟩ := h
    have hhash := hhead (lo + hs.length) rfl
    obtain ⟨hmap, hfirst⟩ := ih hleads fun n hn => hlinked n h' (hn ▸ hhash).symm
    refine ⟨?_, hfirst⟩
    rw [reverse_cons, map_append, hmap, length_cons, range'_concat, map_append,
      Nat.one_mul, map_singleton, map_singleton, hhash]

theorem processHeaders_leads [DecidableEq H] {numbers : List ℕ} {fed' : List H}
    (hfed : Leads cfg lastHead fed oldHead)
    (h : processHeaders cfg p numbers lastHead fed = some (head, fed')) :
    Leads cfg head fed' oldHead ∧ fed'.length = fed.length + numbers.length := by
  induction numbers generalizing lastHead fed with
  | nil =>
    cases h
    exact ⟨hfed, rfl⟩
  | cons number numbers ih =>
    rw [processHeaders] at h
    split at h
    · cases h
    next hash _ =>
    split_ifs at h with _ hparent
    have hfed' : Leads cfg (some hash) (hash :: fed) oldHead := ⟨rfl, not_not.mp hparent ▸ hfed⟩
    obtain ⟨hleads, hlen⟩ := ih hfed' h
    exact ⟨hleads, by rw [hlen, length_cons, length_cons, Nat.add_right_comm, Nat.add_assoc]⟩

/-! ## What is stored -/

variable (cfg) in
/-- The numbers of these sections do not wrap around. -/
def maxSections : ℕ := (2 ^ 64 - 1) / cfg.sectionSize

section
variable (cfg) (commits : ℕ → Option (List H))

/-- The latest commit of a section leads from one head to the next. -/
def Committed (sec : ℕ) (oldHead newHead : Option H) : Prop :=
  ∃ fed, commits sec = some fed.reverse ∧ fed.length = cfg.sectionSize ∧
    Leads cfg newHead fed oldHead

/-- A section on top of a head was begun, and none was stored since. -/
structure Begun (stored sec : ℕ) (oldHead : Option H) : Prop where
  stored : stored ≤ sec
  bound : sec < maxSections cfg
  oldHead : oldHead = none ↔ sec = 0

def Ongoing (stored : ℕ) : Updating H → Prop
  | .idle => True
  | .processing sec oldHead => Begun cfg stored sec oldHead
  | .processed sec oldHead newHead => Begun cfg stored sec oldHead ∧
    ∀ head ∈ newHead, Committed cfg commits sec oldHead head

/-- What the holder of the lock has seen. -/
def Held (stored : ℕ) : Holder → Prop
  | .free => True
  | .revert known => known ≤ stored
  | .verify caller => caller = .update → stored < maxSections cfg
  | .pop caller => 0 < stored ∧ (caller = .update → stored < maxSections cfg)

end

variable (cfg c) in
/-- Exactly the stored sections have heads, and each leads to the next one. -/
structure Sound : Prop where
  known : c.knownSections ≤ maxSections cfg
  bound : c.storedSections ≤ maxSections cfg
  absent : ∀ i, c.storedSections ≤ i → c.sectionHead i = none
  present : ∀ i < c.storedSections,
    Committed cfg c.commits i (prevHead c.sectionHead i) (c.sectionHead i)
  ongoing : Ongoing cfg c.commits c.storedSections c.updating
  held : Held cfg c.storedSections c.holder

theorem prevHead_congr {heads heads' : ℕ → Option H} (h : ∀ j < i, heads' j = heads j) :
    prevHead heads' i = prevHead heads i := by
  unfold prevHead
  split_ifs with hpos
  · exact h _ (Nat.sub_one_lt_of_lt hpos)
  · rfl

theorem size_pos (h : n < maxSections cfg) : 0 < cfg.sectionSize := by
  refine Nat.pos_of_ne_zero fun hzero => ?_
  rw [maxSections, hzero, Nat.div_zero] at h
  exact Nat.not_lt_zero n h

theorem sectionEnd_lt (h : n ≤ maxSections cfg) : n * cfg.sectionSize < 2 ^ 64 := by
  have hle := (Nat.mul_le_mul_right cfg.sectionSize h).trans (Nat.div_mul_le_self _ _)
  omega

theorem Ongoing.drop {commits : ℕ → Option (List H)} (h : Ongoing cfg commits stored updating)
    (hle : sections ≤ stored) : Ongoing cfg commits sections updating := by
  cases updating with
  | idle => trivial
  | processing => exact { h with stored := hle.trans h.stored }
  | processed => exact ⟨{ h.1 with stored := hle.trans h.1.stored }, h.2⟩

section
variable (h : Sound cfg c)
include h

/-- Sections may be dropped at any time. -/
theorem Sound.drop (hle : sections ≤ c.storedSections)
    (hongoing : Ongoing cfg c.commits c.storedSections updating)
    (hheld : Held cfg sections holder) :
    Sound cfg { c.setValidSections sections with updating, holder } where
  known := h.known
  bound := hle.trans h.bound
  absent i hi := by
    change ite _ _ _ = _
    split_ifs with hin
    · rfl
    · exact h.absent i (not_lt.mp fun hlt => hin ⟨hi, hlt⟩)
  present i hi := by
    have hkeep (j : ℕ) (hj : j ≤ i) : (c.setValidSections sections).sectionHead j =
        c.sectionHead j := if_neg fun h => h.1.not_gt (hj.trans_lt hi)
    have hpresent := h.present i (hi.trans_le hle)
    rwa [← hkeep i le_rfl, ← prevHead_congr fun j hj => hkeep j hj.le] at hpresent
  ongoing := hongoing.drop hle
  held := hheld

theorem Sound.prevHead_eq_none :
    prevHead c.sectionHead c.storedSections = none ↔ c.storedSections = 0 := by
  unfold prevHead
  split_ifs with hpos
  · have hlt := Nat.sub_one_lt_of_lt hpos
    obtain ⟨_ | ⟨h', fed⟩, -, hlen, hleads⟩ := h.present _ hlt
    · exact absurd hlen (size_pos (hlt.trans_le h.bound)).ne
    · rw [hleads.1]
      exact iff_of_false (Option.some_ne_none h') hpos.ne'
  · exact iff_of_true rfl (by omega)

/-- Where the head of a stored section is canonical, so is the section, and the head before. -/
theorem Sound.canonical (hlinked : ParentLinked cfg chain) (hi : i < c.storedSections)
    (hhead : c.sectionHead i = chain ((i + 1) * cfg.sectionSize - 1)) :
    (∃ fed, c.commits i = some fed ∧
      fed.map some = (range' (i * cfg.sectionSize) cfg.sectionSize).map chain) ∧
    ∀ j, i = j + 1 → c.sectionHead j = chain (i * cfg.sectionSize - 1) := by
  obtain ⟨fed, hcommit, hlen, hleads⟩ := h.present i hi
  rw [Nat.succ_mul, ← hlen] at hhead
  obtain ⟨hmap, hprev⟩ := hleads.canonical hlinked fun n hn => hhead.trans (by rw [hn]; rfl)
  rw [hlen] at hmap hprev
  refine ⟨⟨_, hcommit, hmap⟩, ?_⟩
  rintro j rfl
  have hmul := Nat.mul_pos j.succ_pos (size_pos (hi.trans_le h.bound))
  exact hprev _ (Nat.sub_add_cancel hmul).symm

theorem Sound.newHead (head : ℕ) (reorg : Bool) : Sound cfg (c.newHead cfg head reorg) := by
  have hmax (n : ℕ) : n % 2 ^ 64 / cfg.sectionSize ≤ maxSections cfg :=
    Nat.div_le_div_right (Nat.le_sub_one_of_lt (Nat.mod_lt n (by decide)))
  dsimp only [ChainIndexer.newHead]
  split
  next =>
    refine { h with known := ?_, held := ?_ }
    · change ite _ _ _ ≤ _
      split_ifs
      exacts [hmax _, h.known]
    · change Held cfg c.storedSections (ite _ _ _)
      split_ifs with hlt
      exacts [hlt.le, trivial]
  next =>
    split_ifs
    · exact { h with known := hmax _ }
    · exact h
    · exact h

/-- The caller of `verifyLastHead` goes on with fewer sections, if any. -/
theorem Sound.verified {caller : Caller} (hheld : c.holder = .verify caller) :
    Sound cfg (c.verified caller) := by
  have hseen := hheld ▸ h.held
  cases caller with
  | sections => exact { h with held := trivial }
  | update =>
    exact { h with ongoing := ⟨le_rfl, hseen rfl, h.prevHead_eq_none⟩, held := trivial }
  | failed => exact { h with known := h.bound, ongoing := trivial, held := trivial }

/-- A section is stored only on top of the sections that were there when it was begun. -/
theorem Sound.store (hbegun : Begun cfg c.storedSections sec oldHead)
    (hcommit : Committed cfg c.commits sec oldHead head) (hfree : c.holder = .free)
    (hsame : sec = 0 ∨ oldHead = c.sectionHead (sec - 1)) :
    Sound cfg (setValidSections
      { c with sectionHead := update c.sectionHead sec head, updating := .idle } (sec + 1)) := by
  have hold : prevHead c.sectionHead sec = oldHead := by
    unfold prevHead
    split_ifs with hpos
    · exact (hsame.resolve_left hpos.ne').symm
    · exact (hbegun.oldHead.mpr (by omega)).symm
  obtain rfl : c.storedSections = sec := by
    have hle := hbegun.stored
    by_contra hne
    have habsent := h.absent (sec - 1) (by omega)
    rw [prevHead, if_pos (by omega), habsent] at hold
    have hzero := hbegun.oldHead.mp hold.symm
    omega
  have hheads (i : ℕ) : ¬(c.storedSections + 1 ≤ i ∧ i < c.storedSections) := by omega
  simp only [setValidSections, hheads, if_false]
  refine
    { known := h.known, bound := hbegun.bound, absent := fun i hi => ?_, present := fun i hi => ?_
      ongoing := trivial, held := hfree ▸ trivial }
  · have hlt : c.storedSections < i := hi
    exact (update_of_ne hlt.ne' ..).trans (h.absent i hlt.le)
  · have hle := Nat.le_of_lt_succ hi
    rw [prevHead_congr fun j hj => update_of_ne (hj.trans_le hle).ne ..]
    change Committed cfg c.commits i _ (update c.sectionHead c.storedSections head i)
    obtain hlt | rfl := hle.lt_or_eq
    · rw [update_of_ne hlt.ne]
      exact h.present i hlt
    · rw [update_self, hold]
      exact hcommit

variable [DecidableEq H]

/-- A section that is committed is not stored yet. -/
theorem Sound.process (hbegun : Begun cfg c.storedSections sec oldHead) :
    Sound cfg (c.processSection cfg p sec oldHead) := by
  have hend := sectionEnd_lt (Nat.succ_le_of_lt hbegun.bound)
  rw [Nat.succ_mul] at hend
  unfold processSection
  dsimp only
  generalize hfed : processHeaders cfg p _ _ _ = result
  obtain _ | ⟨head, fed⟩ := result
  · exact { h with ongoing := ⟨hbegun, nofun⟩ }
  · obtain ⟨hleads, hlen⟩ := processHeaders_leads (show Leads cfg oldHead [] oldHead from rfl) hfed
    rw [length_range', Nat.succ_mul, Nat.mod_eq_of_lt hend, Nat.mod_eq_of_lt (by omega)] at hlen
    refine { h with present := fun i hi => ?_, ongoing := ⟨hbegun, fun head' hhead' => ?_⟩ }
    · obtain ⟨fed', hcommit, hfed'⟩ := h.present i hi
      exact ⟨fed', (update_of_ne (hi.trans_le hbegun.stored).ne ..).trans hcommit, hfed'⟩
    · refine ⟨fed, update_self .., by simpa using hlen, ?_⟩
      obtain ⟨-, hhead⟩ := Option.ite_none_right_eq_some.mp hhead'
      cases hhead
      exact hleads

theorem Sound.step (hstep : Step cfg c c') : Sound cfg c' := by
  have hongoing := h.ongoing
  have hheld := h.held
  cases hstep with
  | newHead head reorg => exact h.newHead head reorg
  | revert hholder =>
    rw [hholder] at hheld
    exact h.drop hheld hongoing trivial
  | sections => exact { h with held := nofun }
  | update _ _ hlt => exact { h with held := fun _ => hlt.trans_le h.known }
  | verified _ hholder => exact h.verified hholder
  | unverified _ hholder hno =>
    rw [hholder] at hheld
    refine { h with held := ⟨?_, hheld⟩ }
    exact Nat.pos_of_ne_zero fun hzero => hno (.inl hzero)
  | pop hholder =>
    rw [hholder] at hheld
    obtain ⟨hpos, hbound⟩ := hheld
    have hmax := h.bound.trans (Nat.div_le_self _ _)
    have hpred : (c.storedSections + (2 ^ 64 - 1)) % 2 ^ 64 = c.storedSections - 1 := by omega
    rw [hpred]
    exact h.drop (Nat.sub_le _ 1) hongoing fun heq => (Nat.sub_le _ 1).trans_lt (hbound heq)
  | process p hupdating =>
    rw [hupdating] at hongoing
    exact h.process hongoing
  | finishUpdate hfree hupdating =>
    rw [hupdating] at hongoing
    unfold ChainIndexer.finishUpdate
    split
    next => exact { h with held := nofun }
    next head =>
      split_ifs with hsame
      · exact h.store hongoing.1 (hongoing.2 head rfl) hfree hsame
      · exact { h with held := nofun }

end

theorem Reached.sound [DecidableEq H] (h : Reached cfg True c) : Sound cfg c := by
  induction h with
  | start =>
    exact
      { known := Nat.zero_le _, bound := Nat.zero_le _, absent := fun _ _ => rfl
        present := nofun, ongoing := trivial, held := trivial }
  | step _ hstep ih => exact ih.step hstep
  | resetFails _ hupdating hfree ih =>
    have hbegun := hupdating ▸ ih.ongoing
    exact ih.drop (Nat.zero_le _) ⟨hbegun, nofun⟩ (hfree trivial ▸ trivial)

/-- Whenever `Sections` returns a number and the canonical index is linked, the sections below it
are canonical: their heads, and what the backend was fed for them. -/
theorem sections_canonical [DecidableEq H] (hreached : Reached cfg True c)
    (hreturns : Returns cfg c chain n) (hlinked : ParentLinked cfg chain) (hi : i < n) :
    c.sectionHead i = chain ((i + 1) * cfg.sectionSize - 1) ∧
      ∃ fed, c.commits i = some fed ∧
        fed.map some = (range' (i * cfg.sectionSize) cfg.sectionSize).map chain := by
  have h := hreached.sound
  obtain ⟨-, hverified, rfl⟩ := hreturns
  -- Down from the last section, whose head was compared.
  have hhead : c.sectionHead i = chain ((i + 1) * cfg.sectionSize - 1) := by
    induction Nat.le_sub_one_of_lt hi using Nat.decreasingInduction with
    | of_succ k hk ih =>
      have hlt : k + 1 < c.storedSections := by omega
      exact (h.canonical hlinked hlt (ih hlt)).2 k rfl
    | self =>
      have hmul := Nat.mul_pos (Nat.zero_lt_of_lt hi) (size_pos (hi.trans_le h.bound))
      have hend := sectionEnd_lt h.bound
      have hlast : (c.storedSections * cfg.sectionSize + (2 ^ 64 - 1)) % 2 ^ 64 =
          c.storedSections * cfg.sectionSize - 1 := by omega
      rw [Verified, hlast] at hverified
      rw [Nat.sub_add_cancel (Nat.zero_lt_of_lt hi)]
      exact hverified.resolve_left (by omega)
  exact ⟨hhead, (h.canonical hlinked hi hhead).1⟩

theorem Leads.append {mid : Option H} {hs' : List H} (h : Leads cfg head hs mid)
    (h' : Leads cfg mid hs' oldHead) : Leads cfg head (hs ++ hs') oldHead := by
  induction hs generalizing head with
  | nil => exact h ▸ h'
  | cons _ _ ih => exact ⟨h.1, ih h.2⟩

/-- Whatever the chain does, the backend has one chain from its first block on. -/
theorem sections_chained [DecidableEq H] (h : Reached cfg True c) (hn : n ≤ c.storedSections) :
    ∃ fed, (range n).flatMap (fun i => (c.commits i).getD []) = fed.reverse ∧
      fed.length = n * cfg.sectionSize ∧ Leads cfg (prevHead c.sectionHead n) fed none := by
  induction n with
  | zero => exact ⟨[], rfl, (Nat.zero_mul _).symm, rfl⟩
  | succ n ih =>
    obtain ⟨fed, hfed, hlen, hleads⟩ := ih (Nat.le_of_succ_le hn)
    obtain ⟨last, hlast, hsize, hleads'⟩ := h.sound.present n hn
    refine ⟨last ++ fed, ?_, ?_, hleads'.append hleads⟩
    · simp [range_succ, hfed, hlast]
    · rw [length_append, hlen, hsize, Nat.succ_mul, Nat.add_comm]

/-! ## A block with two children -/

/-- `1` has the children `2` and `3`. -/
def siblings : IndexerConfig ℕ := ⟨2, 0, fun h => if h = 1 then none else some 1⟩

def upTo (child : ℕ) : ℕ → Option ℕ
  | 0 => some 1
  | 1 => some child
  | _ => none

theorem upTo_linked {child : ℕ} (h : child ≠ 1) : ParentLinked siblings (upTo child) := by
  rintro (_ | n) hash hhash
  · cases hhash
    exact if_neg h
  · cases hhash

/-- One section is stored, and the next one is processed. -/
def siblingIndexer : ChainIndexer ℕ where
  storedSections := 1
  knownSections := 2
  sectionHead i := if 1 ≤ i ∧ i < 0 then none else update (fun _ => none) 0 (some 2) i
  commits := update (fun _ => none) 0 (some [1, 2])
  updating := .processing 1 (some 2)

theorem siblingIndexer_reached (apart : Prop) : Reached siblings apart siblingIndexer := by
  have hknown : Reached siblings apart { knownSections := 2 } := .step .start (.newHead 3 false rfl)
  have hbegun := (hknown.step (.update rfl rfl (by decide))).step
    (.verified (upTo 2) rfl (.inl rfl))
  have hstored := (hbegun.step
    (.process ⟨upTo 2, fun _ _ => true, fun _ => true, true⟩ rfl)).step (.finishUpdate rfl rfl)
  have hnext := (hstored.step (.update rfl rfl (by decide))).step
    (.verified (upTo 2) rfl (.inr (by decide)))
  exact hnext

theorem sections_canonical_siblings :
    siblingIndexer.sectionHead 0 = some 2 ∧
      ∃ fed, siblingIndexer.commits 0 = some fed ∧ fed.map some = [some 1, some 2] :=
  sections_canonical ((siblingIndexer_reached True).step (.sections rfl))
    ⟨rfl, .inr (by decide), rfl⟩ (upTo_linked (by decide : 2 ≠ 1)) Nat.zero_lt_one

theorem siblings_chained :
    ∃ fed, [1, 2] = reverse fed ∧ fed.length = 2 ∧ Leads siblings (some 2) fed none :=
  sections_chained (siblingIndexer_reached True) (n := 1) le_rfl

/-- `Sections` found that the block of the only section was replaced. Before it drops the section,
`Reset` fails for the next one: the number of sections wraps around. The last of these has no
head and no canonical block, so that the comparison succeeds. -/
theorem sections_not_canonical : ∃ c, Reached siblings False c ∧
    Returns siblings c (upTo 3) (2 ^ 64 - 1) ∧ ParentLinked siblings (upTo 3) ∧
    c.sectionHead 0 = none ∧ upTo 3 1 = some 3 := by
  have hpop := ((siblingIndexer_reached False).step (.sections rfl)).step
    (.unverified (upTo 3) rfl (by unfold Verified; decide))
  refine ⟨_, (hpop.resetFails rfl nofun).step (.pop rfl), ⟨rfl, ?_, rfl⟩,
    upTo_linked (by decide), by decide +kernel, rfl⟩
  right
  decide +kernel

end ChainIndexer

end Dexit.Core
