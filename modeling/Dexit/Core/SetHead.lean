import Mathlib.Order.Lattice.Nat
import Dexit.BlockTree

/-!
# Rewinding the chain

`SetHead` takes the three heads back to a lower number and deletes what stands
above it, on every branch. The header chain is rewound one header at a time;
each step asks the block chain to move its own heads first, and the head of full
blocks goes further down until it finds a state.

There is no ancient store, so the callback never forces a deeper rewind, and no
root to go beyond. Blocks are named by their hashes.
-/

namespace Dexit.Core.Rewind

open List

/-- What the database has: the blocks whose header, total difficulty, body and
receipts are stored, the canonical hashes and the head markers. -/
structure ChainDb (H : Type) where
  headers : Finset H
  tds : Finset H
  bodies : Finset H
  receipts : Finset H
  canonical : Index H
  headHeaderHash : Option H
  headBlockHash : Option H
  headFastBlockHash : Option H

/-- The database and the heads in memory. -/
structure BlockChain (H : Type) where
  db : ChainDb H
  currentHeader : H
  currentBlock : H
  currentFastBlock : H

/-- Deletions that wait for the end of the rewind. -/
structure Batch (H : Type) where
  hashes : Finset H
  numbers : List ℕ

section
variable {H : Type} [DecidableEq H] (t : BlockTree H) (hasState : H → Bool) (pivot : Option ℕ)

/-- `GetBlock` finds a block when it has both its header and its body. -/
def ChainDb.HasBlock (db : ChainDb H) (h : H) : Prop := h ∈ db.headers ∧ h ∈ db.bodies

instance ChainDb.decidableHasBlock (db : ChainDb H) (h : H) : Decidable (db.HasBlock h) :=
  inferInstanceAs (Decidable (_ ∧ _))

def readAllHashes (db : ChainDb H) (n : ℕ) : Finset H := db.headers.filter fun h => t.number h = n

/-- Goes down from `h` to a block with state; to genesis when a block is missing
or the pivot is passed. -/
def findState (db : ChainDb H) (h : H) : H :=
  if hasState h then h
  else if ∃ p ∈ pivot, t.number h ≤ p then t.genesis
  -- the number of the parent of number zero would wrap around
  else if _h : t.number h = 0 then t.genesis
  else if db.HasBlock (t.parent h) then findState db (t.parent h)
  else t.genesis
termination_by t.number h
decreasing_by
  have := t.number_of_parent (Nat.pos_of_ne_zero _h)
  omega

/-- The callback that is run before the head header is moved to `header`. First
the head of full blocks; it may stay where it is to be repaired. -/
def updateHeadBlock (s : BlockChain H) (header : H) : BlockChain H :=
  if t.number header ≤ t.number s.currentBlock then
    let newHeadBlock :=
      if s.db.HasBlock header then findState t hasState pivot s.db header else t.genesis
    { s with
      db := { s.db with headBlockHash := some newHeadBlock }
      currentBlock := newHeadBlock }
  else s

/-- Then the head of fast blocks. -/
def updateHeadFastBlock (s : BlockChain H) (header : H) : BlockChain H :=
  if t.number header < t.number s.currentFastBlock then
    let newHeadFastBlock := if s.db.HasBlock header then header else t.genesis
    { s with
      db := { s.db with headFastBlockHash := some newHeadFastBlock }
      currentFastBlock := newHeadFastBlock }
  else s

def updateFn (s : BlockChain H) (header : H) : BlockChain H :=
  updateHeadFastBlock t (updateHeadBlock t hasState pivot s header) header

/-- The heights from `n` on that still have a header, the highest first. -/
def leftover (db : ChainDb H) (n : ℕ) : List ℕ :=
  if _h : (readAllHashes t db n).Nonempty then leftover db (n + 1) ++ [n] else []
termination_by db.headers.sup t.number + 1 - n
decreasing_by
  obtain ⟨h, hh⟩ := _h
  obtain ⟨hmem, hnum⟩ := Finset.mem_filter.mp hh
  have : t.number h ≤ db.headers.sup t.number := Finset.le_sup hmem
  omega

/-- Everything at the heights `nums`, on all branches, is put into the batch. -/
def gather (db : ChainDb H) (hdr : H) (batch : Batch H) (nums : List ℕ) : Batch H :=
  nums.foldl (fun batch num =>
    let hashes := readAllHashes t db num
    { hashes := batch.hashes ∪ if hashes = ∅ then {hdr} else hashes
      numbers := num :: batch.numbers }) batch

/-- One turn of the loop of the header chain's `SetHead`. -/
def rewindHeader (s : BlockChain H) : BlockChain H :=
  let hdr := s.currentHeader
  let parent := if t.parent hdr ∈ s.db.headers then t.parent hdr else t.genesis
  let s := updateFn t hasState pivot s parent
  { s with
    db := { s.db with headHeaderHash := some (t.parent hdr) }
    currentHeader := parent }

theorem rewindHeader_lt (s : BlockChain H) (hne : t.number s.currentHeader ≠ 0) :
    t.number (rewindHeader t hasState pivot s).currentHeader < t.number s.currentHeader := by
  have := t.number_of_parent (Nat.pos_of_ne_zero hne)
  simp only [rewindHeader]
  split
  · omega
  · rw [t.number_genesis]
    omega

/-- The loop of the header chain's `SetHead`; the first turn also collects what
stands above the head header. -/
def rewindHeaders (head : ℕ) (s : BlockChain H) (batch : Batch H) (origin : Bool) :
    BlockChain H × Batch H :=
  if _h : t.number s.currentHeader ≤ head then (s, batch)
  else
    let num := t.number s.currentHeader
    let nums := (if origin then leftover t s.db (num + 1) else []) ++ [num]
    rewindHeaders head (rewindHeader t hasState pivot s) (gather t s.db s.currentHeader batch nums)
      false
termination_by t.number s.currentHeader
decreasing_by exact rewindHeader_lt t hasState pivot s (by omega)

def Batch.write (batch : Batch H) (db : ChainDb H) : ChainDb H :=
  { db with
    headers := db.headers \ batch.hashes
    tds := db.tds \ batch.hashes
    bodies := db.bodies \ batch.hashes
    receipts := db.receipts \ batch.hashes
    canonical := batch.numbers.foldl Index.delete db.canonical }

/-- Reads the heads again; `none` when the whole chain has to be reset. -/
def loadLastState (s : BlockChain H) : Option (BlockChain H) := do
  let head ← s.db.headBlockHash
  guard (s.db.HasBlock head)
  let header := (s.db.headHeaderHash.filter (· ∈ s.db.headers)).getD head
  let fast := (s.db.headFastBlockHash.filter (fun h => s.db.HasBlock h)).getD head
  pure { s with currentHeader := header, currentBlock := head, currentFastBlock := fast }

/-- `SetHead`. -/
def setHead (s : BlockChain H) (head : ℕ) : Option (BlockChain H) :=
  if t.number s.currentBlock = head then
    loadLastState (updateFn t hasState pivot s s.currentBlock)
  else
    let r := rewindHeaders t hasState pivot head s ⟨∅, []⟩ true
    loadLastState { r.1 with db := r.2.write r.1.db }

/-! ## What is asked of it -/

/-- A chain database at rest. The head of full blocks has its state; neither it
nor the head of fast blocks has to be the lower one. -/
structure Consistent (s : BlockChain H) : Prop where
  genesis : t.genesis ∈ s.db.headers
  closed : ∀ h ∈ s.db.headers, h ≠ t.genesis → t.parent h ∈ s.db.headers
  tds : s.db.tds ⊆ s.db.headers
  bodies : s.db.bodies ⊆ s.db.headers
  receipts : s.db.receipts ⊆ s.db.headers
  header : s.currentHeader ∈ s.db.headers
  canonical : s.db.canonical.Follows t s.currentHeader
  block : s.db.canonical.hash (t.number s.currentBlock) = some s.currentBlock
  fast : s.db.canonical.hash (t.number s.currentFastBlock) = some s.currentFastBlock
  stored : ∀ n h, n ≤ max (t.number s.currentBlock) (t.number s.currentFastBlock) →
    s.db.canonical.hash n = some h → h ∈ s.db.bodies
  state : hasState s.currentBlock = true
  markers : s.db.headHeaderHash = some s.currentHeader ∧
    s.db.headBlockHash = some s.currentBlock ∧ s.db.headFastBlockHash = some s.currentFastBlock

/-- The highest canonical block up to `limit` that has its state; genesis when
none has. -/
def HighestWithState (c : Index H) (limit : ℕ) (b : H) : Prop :=
  (∃ n ≤ limit, c.hash n = some b ∧ (hasState b = true ∨ b = t.genesis) ∧
    ∀ m h, n < m → m ≤ limit → c.hash m = some h → hasState h = false)

/-- Nothing of a block above `n` is left. -/
structure ClearedAbove (db : ChainDb H) (n : ℕ) : Prop where
  blocks : ∀ h, n < t.number h → h ∉ db.headers ∧ h ∉ db.tds ∧ h ∉ db.bodies ∧ h ∉ db.receipts
  canonical : ∀ m, n < m → db.canonical.hash m = none

end

/-! ## The heads on the way down -/

section
variable {H : Type} (t : BlockTree H) (hasState : H → Bool)

/-- The highest block of the branch of `head` up to a height that has its state,
or genesis. -/
def best (head : H) : ℕ → H
  | 0 => t.genesis
  | n + 1 => if hasState (t.ancestor head (n + 1)) then t.ancestor head (n + 1) else best head n

/-- The chain with its header at height `n`, before anything is deleted. -/
def rewound (s : BlockChain H) (n : ℕ) : BlockChain H :=
  let header := t.ancestor s.currentHeader n
  let block := best t hasState s.currentHeader (min n (t.number s.currentBlock))
  let fast := t.ancestor s.currentHeader (min n (t.number s.currentFastBlock))
  { db := { s.db with
      headHeaderHash := some header
      headBlockHash := some block
      headFastBlockHash := some fast }
    currentHeader := header
    currentBlock := block
    currentFastBlock := fast }

variable {t hasState} {head h : H} {n m : ℕ}

theorem ancestor_zero : t.ancestor head 0 = t.genesis :=
  t.eq_genesis (t.number_ancestor (Nat.zero_le _))

theorem best_eq (hstate : hasState (t.ancestor head n) = true) :
    best t hasState head n = t.ancestor head n := by
  cases n with
  | zero => exact ancestor_zero.symm
  | succ n => rw [best, if_pos hstate]

/-- What `best` finds, and that nothing higher has its state. -/
theorem best_spec (head : H) (n : ℕ) :
    ∃ m ≤ n, best t hasState head n = t.ancestor head m ∧
      (hasState (t.ancestor head m) = true ∨ m = 0) ∧
      ∀ i, m < i → i ≤ n → hasState (t.ancestor head i) = false := by
  induction n with
  | zero => exact ⟨0, le_rfl, ancestor_zero.symm, .inr rfl, fun i hi hi' => by omega⟩
  | succ n ih =>
    rw [best]
    split
    next hstate => exact ⟨n + 1, le_rfl, rfl, .inl hstate, fun i hi hi' => by omega⟩
    next hstate =>
    obtain ⟨m, hm, heq, hor, habove⟩ := ih
    refine ⟨m, by omega, heq, hor, ?_⟩
    intro i hi hi'
    rcases lt_or_ge i (n + 1) with hlt | hge
    · exact habove i hi (by omega)
    · obtain rfl : i = n + 1 := by omega
      simpa using hstate

theorem number_best_le (hn : n ≤ t.number head) : t.number (best t hasState head n) ≤ n := by
  obtain ⟨m, hm, heq, -⟩ : ∃ m ≤ n, best t hasState head n = _ ∧ _ := best_spec head n
  rw [heq, t.number_ancestor (by omega)]
  exact hm

/-- The head of full blocks goes one step down with the header; `b` is where it
was at first. -/
theorem best_step (hn : n + 1 ≤ t.number head) (b : ℕ) :
    (if n ≤ t.number (best t hasState head (min (n + 1) b)) then best t hasState head n
      else best t hasState head (min (n + 1) b)) = best t hasState head (min n b) := by
  have hle : t.number (best t hasState head (min (n + 1) b)) ≤ min (n + 1) b :=
    number_best_le (by omega)
  split
  next hcur => rw [min_eq_left (by omega)]
  next hcur =>
  rcases lt_or_ge n b with hlt | hge
  · rw [min_eq_left (by omega)] at hcur
    rw [min_eq_left (by omega), min_eq_left (by omega)]
    rw [best] at hcur ⊢
    split
    next hstate =>
      rw [if_pos hstate, t.number_ancestor hn] at hcur
      omega
    next => rfl
  · rw [min_eq_right (by omega), min_eq_right (by omega)]

theorem fast_step (hn : n + 1 ≤ t.number head) (f : ℕ) :
    (if n < t.number (t.ancestor head (min (n + 1) f)) then t.ancestor head n
      else t.ancestor head (min (n + 1) f)) = t.ancestor head (min n f) := by
  rw [t.number_ancestor (by omega)]
  split
  next hlt => rw [min_eq_left (by omega)]
  next hge =>
    congr 1
    omega

/-- The search of the callback is `best`. -/
theorem findState_eq_best [DecidableEq H] {db : ChainDb H} (hn : n ≤ t.number head)
    (hblocks : ∀ i ≤ n, db.HasBlock (t.ancestor head i)) :
    findState t hasState none db (t.ancestor head n) = best t hasState head n := by
  induction n with
  | zero =>
    rw [findState, ancestor_zero]
    simp [t.number_genesis, best]
  | succ n ih =>
    have hnum := t.number_ancestor hn
    have hparent := t.parent_ancestor (Nat.lt_of_succ_le hn)
    rw [findState, best]
    split
    · rfl
    · rw [if_neg (by simp), dif_neg (by omega), hparent, if_pos (hblocks n (by omega))]
      exact ih (by omega) fun i hi => hblocks i (by omega)

end

namespace Consistent

section
variable {H : Type} {t : BlockTree H} {hasState : H → Bool} {s : BlockChain H} {h : H} {n : ℕ}

section
variable (hc : Consistent t hasState s)
include hc

theorem header_le (hh : s.db.canonical.hash n = some h) :
    n ≤ t.number s.currentHeader ∧ h = t.ancestor s.currentHeader n := by
  have hf := hc.canonical n
  rw [hh] at hf
  split at hf
  next hn => exact ⟨hn, Option.some_inj.mp hf⟩
  next => cases hf

theorem mem_headers (hh : h ∈ s.db.headers) (hn : n ≤ t.number h) : t.ancestor h n ∈ s.db.headers :=
  t.ancestor_induction (fun x hlt hx => hc.closed x hx (t.ne_genesis hlt)) hh hn

theorem hasBlock (hn : n ≤ max (t.number s.currentBlock) (t.number s.currentFastBlock)) :
    s.db.HasBlock (t.ancestor s.currentHeader n) := by
  have hle : n ≤ t.number s.currentHeader := by
    have h1 := (hc.header_le hc.block).1
    have h2 := (hc.header_le hc.fast).1
    omega
  exact ⟨hc.mem_headers hc.header hle, hc.stored n _ hn (hc.canonical.upTo n hle)⟩

theorem highestWithState (hn : n ≤ t.number s.currentHeader) :
    HighestWithState t hasState s.db.canonical n (best t hasState s.currentHeader n) := by
  obtain ⟨m, hm, heq, hor, habove⟩ : ∃ m ≤ n, best t hasState s.currentHeader n = _ ∧ _ :=
    best_spec s.currentHeader n
  refine ⟨m, hm, ?_, ?_, ?_⟩
  · rw [heq]
    exact hc.canonical.upTo m (by omega)
  · rw [heq]
    refine hor.imp_right ?_
    rintro rfl
    exact ancestor_zero
  · intro i x hi hi' hx
    rw [(hc.header_le hx).2]
    exact habove i hi hi'

/-- A consistent chain has its heads where the way down begins. -/
theorem eq_rewound : s = rewound t hasState s (t.number s.currentHeader) := by
  have hblock := hc.header_le hc.block
  have hfast := hc.header_le hc.fast
  have hbest : best t hasState s.currentHeader (t.number s.currentBlock) = s.currentBlock := by
    rw [best_eq (by rw [← hblock.2]; exact hc.state), ← hblock.2]
  obtain ⟨hm1, hm2, hm3⟩ := hc.markers
  simp only [rewound, min_eq_right hblock.1, min_eq_right hfast.1, t.ancestor_self, hbest,
    ← hfast.2, ← hm1, ← hm2, ← hm3]

end

end

section
variable {H : Type} [DecidableEq H] {t : BlockTree H} {hasState : H → Bool}
  {s : BlockChain H} {h : H} {n m k : ℕ}

/-- One turn of the loop. -/
theorem rewindHeader_rewound (hc : Consistent t hasState s)
    (hk : k + 1 ≤ t.number s.currentHeader) :
    rewindHeader t hasState none (rewound t hasState s (k + 1)) = rewound t hasState s k := by
  let r := rewound t hasState s (k + 1)
  let a := t.ancestor s.currentHeader k
  have hparent := t.parent_ancestor (Nat.lt_of_succ_le hk)
  have hmem : a ∈ s.db.headers := hc.mem_headers hc.header (by omega)
  have hnum : t.number a = k := t.number_ancestor (by omega)
  have hheader : r.currentHeader = t.ancestor s.currentHeader (k + 1) := rfl
  have hdb : r.db.headers = s.db.headers := rfl
  have hbest : (if t.number a ≤ t.number r.currentBlock
      then best t hasState s.currentHeader k else r.currentBlock) =
      (rewound t hasState s k).currentBlock := by rw [hnum]; exact best_step hk _
  have hfast : (if t.number a < t.number r.currentFastBlock then a else r.currentFastBlock) =
      (rewound t hasState s k).currentFastBlock := by rw [hnum]; exact fast_step hk _
  have hfind : t.number a ≤ t.number r.currentBlock →
      r.db.HasBlock a ∧ findState t hasState none r.db a = best t hasState s.currentHeader k := by
    intro hcur
    have hle : t.number r.currentBlock ≤ min (k + 1) (t.number s.currentBlock) :=
      number_best_le (by omega)
    have hblocks : ∀ i ≤ k, s.db.HasBlock (t.ancestor s.currentHeader i) :=
      fun i hi => hc.hasBlock (by omega)
    exact ⟨hblocks k le_rfl, findState_eq_best (by omega) hblocks⟩
  have hblock : t.number a < t.number r.currentFastBlock → s.db.HasBlock a := by
    intro hcur
    simp only [r, rewound, hnum] at hcur
    rw [t.number_ancestor (by omega)] at hcur
    exact hc.hasBlock (by omega)
  -- the head that is not below `a` stays, with the marker it has
  let full (b : H) : BlockChain H := { r with db := { r.db with headBlockHash := some b }, currentBlock := b }
  have hfull : updateHeadBlock t hasState none r a = full (rewound t hasState s k).currentBlock := by
    rw [updateHeadBlock, ← hbest]
    split
    next hle => rw [if_pos (hfind hle).1, (hfind hle).2]
    next => rfl
  have hmove (b : H) : updateHeadFastBlock t (full b) a = { full b with
      db := { (full b).db with headFastBlockHash := some (rewound t hasState s k).currentFastBlock }
      currentFastBlock := (rewound t hasState s k).currentFastBlock } := by
    rw [updateHeadFastBlock, ← hfast]
    split
    next hlt => rw [if_pos (show (full b).db.HasBlock a from hblock hlt)]
    next => rfl
  rw [rewindHeader, hheader, hparent, hdb, if_pos hmem, updateFn, hfull, hmove]
  rfl

end

end Consistent

/-! ## What is deleted -/

section
variable {H : Type} {t : BlockTree H} {hasState : H → Bool} {s : BlockChain H} {db : ChainDb H}
  {batch : Batch H} {h : H} {n m : ℕ}

theorem mem_readAllHashes : h ∈ readAllHashes t db n ↔ h ∈ db.headers ∧ t.number h = n :=
  Finset.mem_filter

/-- The heights from `n` on are `n` and those above. -/
theorem from_iff (hn : ∃ h ∈ db.headers, t.number h = n) :
    n + 1 ≤ m ∧ (∃ h ∈ db.headers, t.number h = m) ∨ m = n ↔
      n ≤ m ∧ ∃ h ∈ db.headers, t.number h = m := by
  constructor
  · rintro (⟨hle, hm⟩ | rfl)
    · exact ⟨by omega, hm⟩
    · exact ⟨le_rfl, hn⟩
  · rintro ⟨hle, hm⟩
    rcases Nat.eq_or_lt_of_le hle with rfl | hlt
    · exact .inr rfl
    · exact .inl ⟨hlt, hm⟩

/-- All heights from `n` on are left over: a header above has ancestors at every
height below. -/
theorem Consistent.mem_leftover (hc : Consistent t hasState s) :
    m ∈ leftover t s.db n ↔ n ≤ m ∧ ∃ h ∈ s.db.headers, t.number h = m := by
  fun_induction leftover t s.db n with
  | case1 n hne ih =>
    obtain ⟨x, hx⟩ := hne
    replace hx := mem_readAllHashes.mp hx
    rw [mem_append, ih, mem_singleton]
    exact from_iff ⟨x, hx⟩
  | case2 n hempty =>
    simp only [not_mem_nil, false_iff]
    rintro ⟨hle, h, hh, rfl⟩
    exact hempty ⟨t.ancestor h n, mem_readAllHashes.mpr
      ⟨hc.mem_headers hh hle, t.number_ancestor hle⟩⟩

/-- The batch has everything between two heights on top of what it had. -/
structure Collects (t : BlockTree H) (db : ChainDb H) (old new : Batch H) (wanted : ℕ → Prop) :
    Prop where
  hashes : ∀ h, h ∈ new.hashes ↔ h ∈ old.hashes ∨ h ∈ db.headers ∧ wanted (t.number h)
  numbers : ∀ m, (∃ h ∈ db.headers, t.number h = m) → (m ∈ new.numbers ↔ m ∈ old.numbers ∨ wanted m)

theorem Collects.refl {p : ℕ → Prop} (hp : ∀ m, ¬ p m) : Collects t db batch batch p where
  hashes h := by simp [hp]
  numbers m _ := by simp [hp]

/-- What is not above `n` outlives the deletions. -/
theorem Collects.kept (hcol : Collects t db ⟨∅, []⟩ batch (n < ·)) (hh : t.number h ≤ n) :
    h ∉ batch.hashes := by
  rw [hcol.hashes]
  rintro (hmem | ⟨-, hlt⟩)
  · exact Finset.notMem_empty h hmem
  · omega

theorem Collects.trans {a b c : Batch H} {p q r : ℕ → Prop} (hab : Collects t db a b p)
    (hbc : Collects t db b c q)
    (hr : ∀ m, (∃ h ∈ db.headers, t.number h = m) → (r m ↔ p m ∨ q m)) :
    Collects t db a c r where
  hashes h := by
    rw [hbc.hashes, hab.hashes, or_assoc, ← and_or_left]
    constructor
    · exact Or.imp_right fun ⟨hh, hpq⟩ => ⟨hh, (hr _ ⟨h, hh, rfl⟩).mpr hpq⟩
    · exact Or.imp_right fun ⟨hh, hpq⟩ => ⟨hh, (hr _ ⟨h, hh, rfl⟩).mp hpq⟩
  numbers m hm := by
    rw [hbc.numbers m hm, hab.numbers m hm, or_assoc, hr m hm]

end

section
variable {H : Type} [DecidableEq H] {t : BlockTree H} {hasState : H → Bool}
  {s : BlockChain H} {db : ChainDb H} {batch : Batch H} {hdr h : H} {n m k : ℕ} {nums : List ℕ}

theorem gather_numbers : m ∈ (gather t db hdr batch nums).numbers ↔ m ∈ batch.numbers ∨ m ∈ nums := by
  induction nums generalizing batch with
  | nil => simp [gather]
  | cons num nums ih =>
    rw [gather, foldl_cons, ← gather, ih, mem_cons, mem_cons]
    tauto

theorem gather_hashes (hex : ∀ num ∈ nums, ∃ x ∈ db.headers, t.number x = num) :
    h ∈ (gather t db hdr batch nums).hashes ↔
      h ∈ batch.hashes ∨ h ∈ db.headers ∧ t.number h ∈ nums := by
  induction nums generalizing batch with
  | nil => simp [gather]
  | cons num nums ih =>
    obtain ⟨x, hx, hnum⟩ := hex num mem_cons_self
    have hne : readAllHashes t db num ≠ ∅ :=
      Finset.ne_empty_of_mem (mem_readAllHashes.mpr ⟨hx, hnum⟩)
    rw [gather, foldl_cons, ← gather, ih fun k hk => hex k (mem_cons_of_mem num hk)]
    simp only [if_neg hne, Finset.mem_union, mem_readAllHashes, mem_cons]
    tauto

theorem collects_gather (hex : ∀ num ∈ nums, ∃ x ∈ db.headers, t.number x = num) :
    Collects t db batch (gather t db hdr batch nums) (· ∈ nums) :=
  ⟨fun _ => gather_hashes hex, fun _ _ => gather_numbers⟩

/-- The turns after the first one. -/
theorem Consistent.rewindHeaders_rewound (hc : Consistent t hasState s)
    (hk : k ≤ t.number s.currentHeader) (hn : n ≤ k) (batch : Batch H) :
    ∃ batch', rewindHeaders t hasState none n (rewound t hasState s k) batch false =
        (rewound t hasState s n, batch') ∧
      Collects t s.db batch batch' fun m => n < m ∧ m ≤ k := by
  induction k generalizing batch with
  | zero =>
    obtain rfl : n = 0 := by omega
    have hnum : t.number (rewound t hasState s 0).currentHeader = 0 := t.number_ancestor hk
    rw [rewindHeaders, dif_pos hnum.le]
    exact ⟨batch, rfl, .refl fun m => by omega⟩
  | succ k ih =>
    have hnum : t.number (rewound t hasState s (k + 1)).currentHeader = k + 1 :=
      t.number_ancestor hk
    rw [rewindHeaders]
    split
    next hle =>
      obtain rfl : n = k + 1 := by omega
      exact ⟨batch, rfl, .refl fun m => by omega⟩
    next hgt =>
      simp only [Bool.false_eq_true, if_false, nil_append, hnum, hc.rewindHeader_rewound hk]
      obtain ⟨batch', heq, hcol⟩ := ih (by omega) (by omega)
        (gather t (rewound t hasState s (k + 1)).db (rewound t hasState s (k + 1)).currentHeader
          batch [k + 1])
      have hex : ∀ num ∈ [k + 1], ∃ x ∈ s.db.headers, t.number x = num := by
        intro num hnum'
        obtain rfl := mem_singleton.mp hnum'
        exact ⟨_, hc.mem_headers hc.header hk, hnum⟩
      refine ⟨batch', heq, (collects_gather hex).trans hcol ?_⟩
      intro m _
      rw [mem_singleton]
      omega

/-- The whole loop. -/
theorem Consistent.rewindHeaders_all (hc : Consistent t hasState s)
    (hn : n < t.number s.currentHeader) :
    ∃ batch, rewindHeaders t hasState none n s ⟨∅, []⟩ true = (rewound t hasState s n, batch) ∧
      Collects t s.db ⟨∅, []⟩ batch (n < ·) := by
  obtain ⟨k, hk⟩ : ∃ k, t.number s.currentHeader = k + 1 := ⟨_, (Nat.succ_pred (by omega)).symm⟩
  have hturn : rewindHeader t hasState none s = rewound t hasState s k := by
    have hstep := hc.rewindHeader_rewound hk.ge
    rwa [← hk, ← hc.eq_rewound] at hstep
  rw [rewindHeaders, dif_neg (by omega)]
  simp only [if_true, hturn]
  obtain ⟨batch', heq, hcol⟩ := hc.rewindHeaders_rewound (k := k) (n := n) (by omega) (by omega)
    (gather t s.db s.currentHeader ⟨∅, []⟩
      (leftover t s.db (t.number s.currentHeader + 1) ++ [t.number s.currentHeader]))
  have hmem : ∀ m, m ∈ leftover t s.db (t.number s.currentHeader + 1) ++
      [t.number s.currentHeader] ↔
      t.number s.currentHeader ≤ m ∧ ∃ x ∈ s.db.headers, t.number x = m := by
    intro m
    rw [mem_append, hc.mem_leftover, mem_singleton]
    exact from_iff ⟨_, hc.header, rfl⟩
  refine ⟨batch', heq, (collects_gather fun m hm => ((hmem m).mp hm).2).trans hcol ?_⟩
  intro m hm
  rw [hmem]
  constructor
  · intro hlt
    rcases lt_or_ge m (t.number s.currentHeader) with h | h
    · exact .inr ⟨hlt, by omega⟩
    · exact .inl ⟨h, hm⟩
  · rintro (⟨hle, -⟩ | ⟨hlt, -⟩)
    · omega
    · exact hlt

/-! ## The rewound chain -/

theorem Collects.hasBlock (hcol : Collects t db ⟨∅, []⟩ batch (n < ·)) (hh : t.number h ≤ n)
    (hblock : db.HasBlock h) : (batch.write db).HasBlock h :=
  ⟨Finset.mem_sdiff.mpr ⟨hblock.1, hcol.kept hh⟩, Finset.mem_sdiff.mpr ⟨hblock.2, hcol.kept hh⟩⟩

/-- All that is known above `n` is deleted. -/
theorem Consistent.clearedAbove (hc : Consistent t hasState s)
    (hcol : Collects t s.db ⟨∅, []⟩ batch (n < ·)) : ClearedAbove t (batch.write s.db) n where
  blocks h hn := by
    have hgone {stored : Finset H} (hsub : stored ⊆ s.db.headers) : h ∉ stored \ batch.hashes := by
      intro hh
      obtain ⟨hin, hnot⟩ := Finset.mem_sdiff.mp hh
      exact hnot ((hcol.hashes h).mpr (.inr ⟨hsub hin, hn⟩))
    exact ⟨hgone subset_rfl, hgone hc.tds, hgone hc.bodies, hgone hc.receipts⟩
  canonical m hm := by
    rw [Batch.write, Index.foldl_delete_hash]
    split
    next => rfl
    next hnot =>
    apply hc.canonical.above
    by_contra hle
    have hmem := hc.mem_headers hc.header (n := m) (by omega)
    have hnum : t.number (t.ancestor s.currentHeader m) = m := t.number_ancestor (by omega)
    exact hnot ((hcol.numbers m ⟨_, hmem, hnum⟩).mpr (.inr hm))

/-- After `SetHead` to a height below the header and other than that of the
current block, the header is the canonical one of that height, the fast block
the canonical one there or where it was, and the block the highest one below both
that has its state; nothing of any branch is left above. -/
theorem setHead_rewinds (hc : Consistent t hasState s) (hn : n < t.number s.currentHeader)
    (hb : n ≠ t.number s.currentBlock) :
    ∃ s', setHead t hasState none s n = some s' ∧ s.db.canonical.hash n = some s'.currentHeader ∧
      s.db.canonical.hash (min n (t.number s.currentFastBlock)) = some s'.currentFastBlock ∧
      HighestWithState t hasState s.db.canonical (min n (t.number s.currentBlock)) s'.currentBlock ∧
      ClearedAbove t s'.db n := by
  obtain ⟨batch, hloop, hcol⟩ := hc.rewindHeaders_all hn
  have hheader :=
    Finset.mem_sdiff.mpr ⟨hc.mem_headers hc.header hn.le, hcol.kept (t.number_ancestor hn.le).le⟩
  have hkept : ∀ m ≤ n, m ≤ max (t.number s.currentBlock) (t.number s.currentFastBlock) →
      (batch.write s.db).HasBlock (t.ancestor s.currentHeader m) := by
    intro m hm hmax
    exact hcol.hasBlock (by rw [t.number_ancestor (by omega)]; exact hm) (hc.hasBlock hmax)
  have hbest : (batch.write s.db).HasBlock
      (best t hasState s.currentHeader (min n (t.number s.currentBlock))) := by
    obtain ⟨m, hm, heq, -⟩ : ∃ m ≤ min n (t.number s.currentBlock),
        best t hasState s.currentHeader _ = _ ∧ _ := best_spec s.currentHeader _
    rw [heq]
    exact hkept m (by omega) (by omega)
  have hcleared := hc.clearedAbove hcol
  refine ⟨{ rewound t hasState s n with db := batch.write (rewound t hasState s n).db }, ?_,
    hc.canonical.upTo n hn.le, hc.canonical.upTo _ (by omega), hc.highestWithState (by omega),
    hcleared.blocks, hcleared.canonical⟩
  rw [setHead, if_neg hb.symm, hloop]
  have hfast := hkept (min n (t.number s.currentFastBlock)) (by omega) (by omega)
  simp only [ChainDb.HasBlock, Batch.write, Finset.mem_sdiff] at hbest hfast
  simp [loadLastState, rewound, ChainDb.HasBlock, Batch.write, hheader, hbest, hfast, guard,
    Option.filter]

end

/-- Four blocks on a line, and a fifth one next to the third. -/
def sidedTree : BlockTree (Fin 5) where
  genesis := 0
  parent h := if h = 4 then 1 else h - 1
  number h := if h = 4 then 2 else h
  number_genesis := rfl
  number_parent := by decide

/-- All are stored, the heads are at the end of the line. -/
def sidedChain : BlockChain (Fin 5) where
  db :=
    { headers := Finset.univ
      tds := Finset.univ
      bodies := Finset.univ
      receipts := Finset.univ
      canonical := .branch sidedTree 3
      headHeaderHash := some 3
      headBlockHash := some 3
      headFastBlockHash := some 3 }
  currentHeader := 3
  currentBlock := 3
  currentFastBlock := 3

/-- The state of the third block is gone. -/
def sidedState (h : Fin 5) : Bool := h ≠ 2

theorem sidedChain_consistent : Consistent sidedTree sidedState sidedChain where
  genesis := Finset.mem_univ _
  closed _ _ _ := Finset.mem_univ _
  tds := Finset.Subset.refl _
  bodies := Finset.Subset.refl _
  receipts := Finset.Subset.refl _
  header := Finset.mem_univ _
  canonical := Index.branch_follows 3
  block := rfl
  fast := rfl
  stored _ _ _ _ := Finset.mem_univ _
  state := rfl
  markers := ⟨rfl, rfl, rfl⟩

theorem sidedChain_rewinds :
    ∃ s', setHead sidedTree sidedState none sidedChain 2 = some s' ∧
      sidedChain.db.canonical.hash 2 = some s'.currentHeader ∧
      sidedChain.db.canonical.hash (min 2 (sidedTree.number sidedChain.currentFastBlock)) =
        some s'.currentFastBlock ∧
      HighestWithState sidedTree sidedState sidedChain.db.canonical
        (min 2 (sidedTree.number sidedChain.currentBlock)) s'.currentBlock ∧
      ClearedAbove sidedTree s'.db 2 :=
  setHead_rewinds sidedChain_consistent (by decide) (by decide)

end Dexit.Core.Rewind
