import Dexit.BlockTree
import Dexit.Runs

/-!
# The canonical chain and the transaction lookups

`writeBlockWithState` stores a block and, when it wins against the current one,
makes it the head. If its parent is not the head, `reorg` goes back from both to
their common block, makes the new blocks below the winner canonical one by one,
and deletes the lookups of the dropped transactions and the canonical hashes
above the head that it has reached by then; the winner itself is left to the
caller.

Blocks are named by their hashes. The state is committed without a rewind of the
chain, and there is no ancient store.
-/

namespace Dexit.Core.Canonical

open Function List

/-- The valid blocks. A transaction can be executed once on a branch only, for
its nonce is used up then, and genesis has none. -/
structure Blocks (H Tx : Type) extends BlockTree H where
  difficulty : H → ℕ
  time : H → ℕ
  txs : H → List Tx
  txs_genesis : txs genesis = []
  once : ∀ h tx m n, m ≤ number h → n ≤ number h → tx ∈ txs (toBlockTree.ancestor h m) →
    tx ∈ txs (toBlockTree.ancestor h n) → m = n

/-- What decides between blocks of the same total difficulty, apart from their
number and time: whether the engine sealed a block, and whether the node was told
to keep it. -/
structure Preference (H : Type) where
  isLocalBlock : H → Bool
  shouldPreserve : H → Bool

inductive Err
  | unknownAncestor
  | invalidOldChain
  | invalidNewChain
deriving DecidableEq, Repr

/-- The database, in which `known` blocks have header, body and receipts, and the
heads in memory. -/
structure BlockChain (H Tx : Type) where
  known : H → Bool
  td : H → Option ℕ
  canonical : Index H
  lookup : Tx → Option ℕ
  headBlockHash : H
  headHeaderHash : H
  headFastBlockHash : H
  currentBlock : H
  currentHeader : H
  currentFastBlock : H

section
variable {H Tx : Type} [DecidableEq H] [DecidableEq Tx] (B : Blocks H Tx)

/-- The other two heads follow if the block was not canonical yet. -/
def writeHeadBlock (s : BlockChain H Tx) (block : H) : BlockChain H Tx :=
  let updateHeads : Bool := s.canonical.hash (B.number block) ≠ some block
  { s with
    canonical := s.canonical.write (B.number block) block
    lookup := fun tx => if tx ∈ B.txs block then some (B.number block) else s.lookup tx
    headBlockHash := block
    headHeaderHash := if updateHeads then block else s.headHeaderHash
    headFastBlockHash := if updateHeads then block else s.headFastBlockHash
    currentBlock := block
    currentHeader := if updateHeads then block else s.currentHeader
    currentFastBlock := if updateHeads then block else s.currentFastBlock }

/-- Goes `d` blocks back; what is passed is returned with the block that is
reached. -/
def stepBack (known : H → Bool) : ℕ → H → Option (List H × H)
  | 0, h => some ([], h)
  | d + 1, h =>
    if known (B.parent h) then (stepBack known d (B.parent h)).map fun r => (h :: r.1, r.2) else none

/-- Goes back on both sides, from height `n`, to the first common block. -/
def meet (known : H → Bool) : ℕ → H → H → Except Err (List H × List H)
  | n, old, new =>
    if old = new then .ok ([], [])
    else
      match n with
      | 0 => .error .invalidOldChain
      | n + 1 =>
        if !known (B.parent old) then .error .invalidOldChain
        else if !known (B.parent new) then .error .invalidNewChain
        else (meet known n (B.parent old) (B.parent new)).map fun r => (old :: r.1, new :: r.2)

/-- The blocks that are dropped and those that are added, from the top. -/
def chains (known : H → Bool) (old new : H) : Except Err (List H × List H) :=
  if B.number old > B.number new then
    match stepBack B known (B.number old - B.number new) old with
    | none => .error .invalidOldChain
    | some (dropped, old) => (meet B known (B.number new) old new).map fun r => (dropped ++ r.1, r.2)
  else
    match stepBack B known (B.number new - B.number old) new with
    | none => .error .invalidNewChain
    | some (added, new) => (meet B known (B.number old) old new).map fun r => (r.1, added ++ r.2)

def txDifference (a b : List Tx) : List Tx := a.filter fun tx => tx ∉ b

/-- The writes of `reorg`. The first of the added blocks is not written. -/
def rewrite (s : BlockChain H Tx) (oldChain newChain : List H) : BlockChain H Tx :=
  let added := newChain.tail.reverse
  let s := added.foldl (writeHeadBlock B) s
  let useless := txDifference (oldChain.flatMap B.txs) (added.flatMap B.txs)
  { s with
    lookup := fun tx => if tx ∈ useless then none else s.lookup tx
    canonical := s.canonical.deleteUp (B.number s.currentBlock + 1) s.canonical }

def reorg (s : BlockChain H Tx) (oldBlock newBlock : H) : Except Err (BlockChain H Tx) :=
  (chains B s.known oldBlock newBlock).map fun r => rewrite B s r.1 r.2

/-- Whether a block with total difficulty `externTd` becomes the head; `coin` is
the outcome of the random choice. -/
def wins (pref : Preference H) (coin : Bool) (localTd externTd : ℕ) (current block : H) : Bool :=
  if externTd > localTd then true
  else if externTd = localTd then
    if B.number block < B.number current ∨ B.time block < B.time current then true
    else if pref.isLocalBlock current then true
    else if B.number block = B.number current then
      !pref.shouldPreserve current && (pref.shouldPreserve block || coin)
    else false
  else false

/-- The block with its total difficulty, and its receipts. -/
def store (s : BlockChain H Tx) (block : H) (externTd : ℕ) : BlockChain H Tx :=
  { s with
    known := update s.known block true
    td := update s.td block (some externTd) }

/-- `writeBlockWithState`; an error leaves what was stored before it. -/
def writeBlockWithState (pref : Preference H) (s : BlockChain H Tx) (block : H) (coin : Bool) :
    BlockChain H Tx × Option Err :=
  match if B.number block = 0 then none else s.td (B.parent block) with
  | none => (s, some .unknownAncestor)
  | some ptd =>
    let localTd := (s.td s.currentBlock).getD 0
    let externTd := B.difficulty block + ptd
    let stored := store s block externTd
    if wins B pref coin localTd externTd s.currentBlock block then
      if B.parent block = s.currentBlock then (writeHeadBlock B stored block, none)
      else
        match reorg B stored s.currentBlock block with
        | .error e => (stored, some e)
        | .ok s' => (writeHeadBlock B s' block, none)
    else (stored, none)

/-- A block with the outcome of its random choice. -/
abbrev Call (H : Type) : Type := H × Bool

def run (pref : Preference H) (s : BlockChain H Tx) (calls : List (Call H)) : BlockChain H Tx :=
  calls.foldl (fun s call => (writeBlockWithState B pref s call.1 call.2).1) s

/-! ## The index that is wanted -/

/-- The transaction is in the block of height `n` of a branch. -/
def Located (h : H) (tx : Tx) (n : ℕ) : Prop :=
  n ≤ B.number h ∧ tx ∈ B.txs (B.ancestor h n)

/-- The canonical hashes are the branch of the current block, and the lookups are
the transactions of that branch. -/
structure Indexed (s : BlockChain H Tx) : Prop where
  canonical : s.canonical.Follows B.toBlockTree s.currentBlock
  lookup : ∀ tx n, s.lookup tx = some n ↔ Located B s.currentBlock tx n

/-- Blocks come with their ancestors and a total difficulty. -/
structure Stored (s : BlockChain H Tx) : Prop where
  genesis : s.known B.genesis = true
  closed : ∀ h, s.known h = true → h ≠ B.genesis → s.known (B.parent h) = true
  td : ∀ h, (s.td h).isSome = s.known h
  current : s.known s.currentBlock = true

/-- The block wins below the current one, and its parent is canonical. -/
def LeavesTail (pref : Preference H) (s : BlockChain H Tx) (call : Call H) : Prop :=
  ∃ ptd, B.number call.1 ≠ 0 ∧ s.td (B.parent call.1) = some ptd ∧
    wins B pref call.2 ((s.td s.currentBlock).getD 0) (B.difficulty call.1 + ptd) s.currentBlock
      call.1 = true ∧
    s.canonical.hash (B.number (B.parent call.1)) = some (B.parent call.1) ∧
    B.number call.1 < B.number s.currentBlock

end

/-! ## The two branches -/

section
variable {H Tx : Type} {B : Blocks H Tx} {known : H → Bool} {h old new : H} {n m d k : ℕ}

/-- A block that is known with all its ancestors. -/
def Rooted (B : Blocks H Tx) (known : H → Bool) (h : H) : Prop :=
  ∀ n ≤ B.number h, known (B.ancestor h n) = true

theorem Rooted.self (hr : Rooted B known h) : known h = true := by
  rw [← B.ancestor_self h]
  exact hr _ le_rfl

theorem Rooted.ancestor (hr : Rooted B known h) (hn : n ≤ B.number h) :
    Rooted B known (B.ancestor h n) := by
  intro i hi
  rw [B.number_ancestor hn] at hi
  rw [B.ancestor_ancestor hi hn]
  exact hr i (by omega)

theorem Rooted.parent (hr : Rooted B known h) (hn : n < B.number h) :
    Rooted B known (B.parent h) := by
  have hnum := B.number_of_parent hn
  intro i hi
  rw [B.ancestor_parent (by omega)]
  exact hr i (by omega)

theorem stepBack_eq (hd : d ≤ B.number h) (hr : Rooted B known h) :
    stepBack B known d h = some (B.top d h, B.ancestor h (B.number h - d)) := by
  induction d generalizing h with
  | zero => simp [stepBack, BlockTree.top]
  | succ d ih =>
    have hlt := Nat.lt_of_succ_le hd
    have hnum := B.number_of_parent hlt
    have hparent := hr.parent hlt
    rw [stepBack, if_pos hparent.self, ih (by omega) hparent, BlockTree.ancestor_sub_succ hlt]
    rfl

/-- The height at which two branches part. -/
structure Parts (B : Blocks H Tx) (old new : H) (k : ℕ) : Prop where
  le_old : k ≤ B.number old
  le_new : k ≤ B.number new
  common : B.ancestor old k = B.ancestor new k
  apart : ∀ i, k < i → i ≤ B.number old → i ≤ B.number new → B.ancestor old i ≠ B.ancestor new i

theorem Parts.symm (hp : Parts B old new k) : Parts B new old k :=
  ⟨hp.le_new, hp.le_old, hp.common.symm, fun i hi hin hio => (hp.apart i hi hio hin).symm⟩

/-- The branches of the parents part where those of the blocks do. -/
theorem Parts.child (hp : Parts B (B.parent old) (B.parent new) k) (hold : B.number old = n + 1)
    (hnew : B.number new = n + 1) (hne : old ≠ new) : Parts B old new k := by
  have hold' := B.number_of_parent (show n < B.number old by omega)
  have hnew' := B.number_of_parent (show n < B.number new by omega)
  have h1 := hp.le_old
  refine ⟨by omega, by omega, ?_, ?_⟩
  · rw [← B.ancestor_parent (by omega), hp.common, B.ancestor_parent (by omega)]
  · intro i hi hio hin
    rcases Nat.eq_or_lt_of_le hio with rfl | hlt
    · rw [B.ancestor_self, show B.number old = B.number new by omega, B.ancestor_self]
      exact hne
    · rw [← B.ancestor_parent hlt, ← B.ancestor_parent (show i < B.number new by omega)]
      exact hp.apart i hi (by omega) (by omega)

/-- A longer branch parts where its lower end does. -/
theorem Parts.longer (hle : B.number new ≤ B.number old)
    (hp : Parts B (B.ancestor old (B.number new)) new k) : Parts B old new k := by
  have hnum := B.number_ancestor hle
  have hk := hp.le_new
  refine ⟨by omega, hk, ?_, ?_⟩
  · rw [← hp.common, B.ancestor_ancestor hk hle]
  · intro i hi hio hin
    rw [← B.ancestor_ancestor hin hle]
    exact hp.apart i hi (by omega) hin

/-- The upper end of a branch in two parts. -/
theorem top_split (hmn : k ≤ n) (hn : n ≤ B.number h) :
    B.top (B.number h - n) h ++ B.top (n - k) (B.ancestor h n) = B.top (B.number h - k) h := by
  have hadd : B.top (B.number h - n + (n - k)) h = _ := BlockTree.top_add _ _ (by omega)
  rw [show B.number h - (B.number h - n) = n by omega] at hadd
  rw [← hadd]
  congr 1
  omega

theorem meet_eq [DecidableEq H] (hold : B.number old = n) (hnew : B.number new = n)
    (hro : Rooted B known old) (hrn : Rooted B known new) :
    ∃ k, Parts B old new k ∧
      meet B known n old new = .ok (B.top (n - k) old, B.top (n - k) new) := by
  induction n generalizing old new with
  | zero =>
    have heq : old = new := (B.eq_genesis hold).trans (B.eq_genesis hnew).symm
    refine ⟨0, ⟨by omega, by omega, by rw [heq], fun i hi hio => by omega⟩, ?_⟩
    rw [meet, if_pos heq]
    rfl
  | succ n ih =>
    rw [meet]
    split
    next heq =>
      subst heq
      refine ⟨n + 1, ⟨hold.ge, hold.ge, rfl, fun i hi hio => by omega⟩, ?_⟩
      simp [BlockTree.top]
    next hne =>
      have hlto : n < B.number old := by omega
      have hltn : n < B.number new := by omega
      have hold' := B.number_of_parent hlto
      have hnew' := B.number_of_parent hltn
      obtain ⟨k, hparts, hmeet⟩ := ih (by omega) (by omega) (hro.parent hlto) (hrn.parent hltn)
      have hk := hparts.le_old
      refine ⟨k, hparts.child hold hnew hne, ?_⟩
      simp only [(hro.parent hlto).self, (hrn.parent hltn).self, hmeet, Bool.not_true,
        Bool.false_eq_true, if_false, Except.map]
      rw [show n + 1 - k = n - k + 1 by omega]
      rfl

/-- The dropped and the added blocks are what stands above the common block. -/
theorem chains_eq [DecidableEq H] (hro : Rooted B known old) (hrn : Rooted B known new) :
    ∃ k, Parts B old new k ∧
      chains B known old new = .ok (B.top (B.number old - k) old, B.top (B.number new - k) new) := by
  rw [chains]
  split
  next hlt =>
    have hle : B.number new ≤ B.number old := by omega
    obtain ⟨k, hparts, hmeet⟩ := meet_eq (B.number_ancestor hle) rfl (hro.ancestor hle) hrn
    refine ⟨k, hparts.longer hle, ?_⟩
    rw [stepBack_eq (by omega) hro, Nat.sub_sub_self hle]
    simp only [hmeet, Except.map, top_split hparts.le_new hle]
  next hge =>
    have hle : B.number old ≤ B.number new := by omega
    obtain ⟨k, hparts, hmeet⟩ := meet_eq rfl (B.number_ancestor hle) hro (hrn.ancestor hle)
    refine ⟨k, (hparts.symm.longer hle).symm, ?_⟩
    rw [stepBack_eq (by omega) hrn, Nat.sub_sub_self hle]
    simp only [hmeet, Except.map, top_split hparts.le_old hle]

end

/-! ## Writing the heads -/

section
variable {H Tx : Type} [DecidableEq H] [DecidableEq Tx] {B : Blocks H Tx} {s : BlockChain H Tx}
  {tx : Tx} {b c h : H} {n k : ℕ} {hs : List H}

section
variable (s : BlockChain H Tx)

theorem foldl_canonical (hs : List H) :
    (hs.foldl (writeHeadBlock B) s).canonical = s.canonical.writeAll B.toBlockTree hs := by
  induction hs generalizing s with
  | nil => rfl
  | cons h hs ih => exact ih (writeHeadBlock B s h)

theorem foldl_currentBlock (hs : List H) :
    (hs.foldl (writeHeadBlock B) s).currentBlock = hs.getLastD s.currentBlock := by
  induction hs generalizing s with
  | nil => rfl
  | cons h hs ih =>
    rw [foldl_cons, ih, getLastD_cons]
    rfl

theorem foldl_store (hs : List H) : (hs.foldl (writeHeadBlock B) s).known = s.known ∧
      (hs.foldl (writeHeadBlock B) s).td = s.td := by
  induction hs generalizing s with
  | nil => exact ⟨rfl, rfl⟩
  | cons h hs ih => exact ih (writeHeadBlock B s h)

theorem foldl_lookup_of_notMem (hnot : ∀ h ∈ hs, tx ∉ B.txs h) :
    (hs.foldl (writeHeadBlock B) s).lookup tx = s.lookup tx := by
  induction hs generalizing s with
  | nil => rfl
  | cons h hs ih =>
    rw [foldl_cons, ih _ fun x hx => hnot x (mem_cons_of_mem h hx)]
    exact if_neg (hnot h mem_cons_self)

/-- The one block of the list that has the transaction leaves its number. -/
theorem foldl_lookup_of_mem (hmem : h ∈ hs) (htx : tx ∈ B.txs h)
    (honly : ∀ x ∈ hs, tx ∈ B.txs x → x = h) :
    (hs.foldl (writeHeadBlock B) s).lookup tx = some (B.number h) := by
  induction hs generalizing s with
  | nil => cases hmem
  | cons x hs ih =>
    rw [foldl_cons]
    by_cases hrest : h ∈ hs
    · exact ih _ hrest fun y hy => honly y (mem_cons_of_mem x hy)
    obtain rfl : h = x := (mem_cons.mp hmem).resolve_right hrest
    rw [foldl_lookup_of_notMem]
    · exact if_pos htx
    · intro y hy hty
      exact hrest (honly y (mem_cons_of_mem h hy) hty ▸ hy)

end

end

/-! ## The lookups after a reorganisation -/

section
variable {H Tx : Type} {B : Blocks H Tx} {s : BlockChain H Tx} {tx : Tx} {b c h : H} {n k : ℕ}

theorem Stored.rooted (hst : Stored B s) (hh : s.known h = true) : Rooted B s.known h := by
  intro n hn
  exact B.ancestor_induction (fun x hlt hx => hst.closed x hx (B.ne_genesis hlt)) hh hn

theorem Stored.store [DecidableEq H] (hst : Stored B s) (hp : s.known (B.parent b) = true) (td : ℕ) :
    Stored B (store s b td) where
  genesis := by
    simp only [Canonical.store, update_apply]
    split
    next => rfl
    next => exact hst.genesis
  closed h hh hne := by
    simp only [Canonical.store, update_apply] at hh ⊢
    split at hh
    next heq =>
      split
      next => rfl
      next => rwa [heq]
    next =>
      split
      next => rfl
      next => exact hst.closed h hh hne
  td h := by
    simp only [Canonical.store, update_apply]
    split
    next => rfl
    next => exact hst.td h
  current := by
    simp only [Canonical.store, update_apply]
    split
    next => rfl
    next => exact hst.current

section
variable (hb : B.number b = B.number (B.parent b) + 1)
include hb

theorem ancestor_of_child : B.ancestor b (B.number (B.parent b)) = B.parent b := by
  rw [← B.ancestor_parent (by omega), B.ancestor_self]

/-- The winner itself is not among the blocks that `reorg` writes. -/
theorem tail_top :
    (B.top (B.number b - k) b).tail = B.top (B.number (B.parent b) - k) (B.parent b) := by
  cases hd : B.number b - k with
  | zero =>
    rw [show B.number (B.parent b) - k = 0 by omega]
    rfl
  | succ d =>
    rw [show B.number (B.parent b) - k = d by omega]
    rfl

/-- The blocks that `reorg` makes canonical. -/
theorem mem_added : h ∈ (B.top (B.number b - k) b).tail.reverse ↔
      ∃ m, k < m ∧ m < B.number b ∧ h = B.ancestor b m := by
  rw [tail_top hb, mem_reverse, BlockTree.mem_top (by omega)]
  constructor
  · rintro ⟨m, hm, hm', rfl⟩
    exact ⟨m, by omega, by omega, B.ancestor_parent (by omega)⟩
  · rintro ⟨m, hm, hm', rfl⟩
    exact ⟨m, by omega, by omega, (B.ancestor_parent hm').symm⟩

end

theorem Parts.below (hp : Parts B c b k) (hn : n ≤ k) : B.ancestor c n = B.ancestor b n :=
  B.ancestor_eq_of_le hn hp.le_old hp.le_new hp.common

/-- Outside the added blocks and the winner, a transaction of the new branch
stands below the common block. -/
theorem Parts.located_iff (hp : Parts B c b k) (hb : tx ∉ B.txs b)
    (hadded : ∀ m, k < m → m < B.number b → tx ∉ B.txs (B.ancestor b m)) :
    Located B b tx n ↔ n ≤ k ∧ tx ∈ B.txs (B.ancestor c n) := by
  have hk := hp.le_new
  constructor
  · rintro ⟨hn, htx⟩
    have hnk : n ≤ k := by
      by_contra hgt
      rcases Nat.eq_or_lt_of_le hn with rfl | hlt
      · rw [B.ancestor_self] at htx
        exact hb htx
      · exact hadded n (by omega) hlt htx
    rw [hp.below hnk]
    exact ⟨hnk, htx⟩
  · rintro ⟨hnk, htx⟩
    rw [hp.below hnk] at htx
    exact ⟨hnk.trans hk, htx⟩

theorem located_unique (hn : Located B h tx n) {m : ℕ} (hm : Located B h tx m) : n = m :=
  B.once h tx n m hn.1 hm.1 hn.2 hm.2

theorem located_iff_eq {m : ℕ} (hm : Located B h tx m) : some m = some n ↔ Located B h tx n := by
  rw [Option.some_inj]
  exact ⟨fun heq => heq ▸ hm, fun hn => located_unique hm hn⟩

/-- The winner on top of a canonical block below the head. -/
theorem write_follows_iff {canonical : Index H} (hf : canonical.Follows B.toBlockTree c)
    (hb : B.number b = B.number (B.parent b) + 1) (hle : B.number (B.parent b) ≤ B.number c)
    (hp : B.ancestor c (B.number (B.parent b)) = B.parent b) :
    (canonical.write (B.number b) b).Follows B.toBlockTree b ↔ B.number c ≤ B.number b := by
  have hup : (canonical.write (B.number b) b).UpTo B.toBlockTree b := by
    have hstart := hf.upTo.ancestor hle
    rw [hp] at hstart
    exact hstart.write ⟨rfl, hb⟩
  rw [Index.follows_iff]
  constructor
  · rintro ⟨-, habove⟩
    by_contra hgt
    have hnone := habove (B.number b + 1) (Nat.lt_succ_self _)
    rw [Index.write_hash, if_neg (by omega), hf.upTo _ (by omega)] at hnone
    cases hnone
  · intro hle'
    refine ⟨hup, ?_⟩
    intro n hn
    rw [Index.write_hash, if_neg (by omega), hf.above (by omega)]

/-- The transactions whose lookups are deleted. -/
theorem mem_useless [DecidableEq Tx] (hk : k ≤ B.number c) (hb : B.number b = B.number (B.parent b) + 1) :
    tx ∈ txDifference ((B.top (B.number c - k) c).flatMap B.txs)
        ((B.top (B.number b - k) b).tail.reverse.flatMap B.txs) ↔
      (∃ m, k < m ∧ m ≤ B.number c ∧ tx ∈ B.txs (B.ancestor c m)) ∧
        ¬ ∃ m, k < m ∧ m < B.number b ∧ tx ∈ B.txs (B.ancestor b m) := by
  simp only [txDifference, mem_filter, decide_eq_true_eq, mem_flatMap, mem_added hb,
    BlockTree.mem_top (Nat.sub_le (B.number c) k), Nat.sub_sub_self hk]
  simp only [← exists_and_right, @exists_comm H, and_assoc, exists_and_left, exists_eq_left]

end

section
variable {H Tx : Type} [DecidableEq H] [DecidableEq Tx] {B : Blocks H Tx} {s : BlockChain H Tx}
  {tx : Tx} {b c : H} {n k : ℕ}

/-- The lookups are those of the winner's branch, in every case. -/
theorem lookup_rewritten (hlookup : ∀ tx n, s.lookup tx = some n ↔ Located B c tx n)
    (hp : Parts B c b k) (hb : B.number b = B.number (B.parent b) + 1) (tx : Tx) (n : ℕ) :
    (writeHeadBlock B (rewrite B s (B.top (B.number c - k) c) (B.top (B.number b - k) b))
      b).lookup tx = some n ↔ Located B b tx n := by
  have huseless : tx ∈ _ ↔ _ := mem_useless hp.le_old hb
  simp only [writeHeadBlock, rewrite]
  by_cases hwinner : tx ∈ B.txs b
  · rw [if_pos hwinner]
    exact located_iff_eq ⟨le_rfl, by rwa [B.ancestor_self]⟩
  rw [if_neg hwinner]
  by_cases hadded : ∃ m, k < m ∧ m < B.number b ∧ tx ∈ B.txs (B.ancestor b m)
  · rw [if_neg fun h => (huseless.mp h).2 hadded]
    obtain ⟨m, hkm, hmb, hm⟩ := hadded
    have hloc : Located B b tx m := ⟨hmb.le, hm⟩
    have honly : ∀ x ∈ (B.top (B.number b - k) b).tail.reverse, tx ∈ B.txs x →
        x = B.ancestor b m := by
      intro x hx htx
      obtain ⟨i, -, hi, rfl⟩ := (mem_added hb).mp hx
      rw [located_unique ⟨hi.le, htx⟩ hloc]
    rw [foldl_lookup_of_mem s ((mem_added hb).mpr ⟨m, hkm, hmb, rfl⟩) hm honly,
      B.number_ancestor hmb.le]
    exact located_iff_eq hloc
  · have hnew : Located B b tx n ↔ n ≤ k ∧ tx ∈ B.txs (B.ancestor c n) :=
      hp.located_iff hwinner fun m hm hm' htx => hadded ⟨m, hm, hm', htx⟩
    rw [hnew]
    by_cases hdropped : ∃ m, k < m ∧ m ≤ B.number c ∧ tx ∈ B.txs (B.ancestor c m)
    · -- it is not below the common block as well
      rw [if_pos (huseless.mpr ⟨hdropped, hadded⟩)]
      obtain ⟨m, hkm, hmc, hm⟩ := hdropped
      simp only [reduceCtorEq, false_iff]
      rintro ⟨hnk, hn⟩
      have : n = m := B.once c tx n m (hnk.trans hp.le_old) hmc hn hm
      omega
    · have hnot : ∀ h ∈ (B.top (B.number b - k) b).tail.reverse, tx ∉ B.txs h := by
        intro h hh htx
        obtain ⟨m, hkm, hmb, rfl⟩ := (mem_added hb).mp hh
        exact hadded ⟨m, hkm, hmb, htx⟩
      rw [if_neg fun h => hdropped (huseless.mp h).1, foldl_lookup_of_notMem s hnot, hlookup]
      constructor
      · rintro ⟨hn, htx⟩
        refine ⟨?_, htx⟩
        by_contra hgt
        exact hdropped ⟨n, by omega, hn, htx⟩
      · rintro ⟨hn, htx⟩
        exact ⟨hn.trans hp.le_old, htx⟩

/-! ## The canonical hashes after a reorganisation -/

/-- When blocks below the winner are added, the head moves to its parent and
nothing is left above it. -/
theorem rewrite_canonical (hf : s.canonical.Follows B.toBlockTree c) (hp : Parts B c b k)
    (hb : B.number b = B.number (B.parent b) + 1) (hk : k < B.number (B.parent b)) :
    (rewrite B s (B.top (B.number c - k) c) (B.top (B.number b - k) b)).canonical.Follows
      B.toBlockTree (B.parent b) := by
  have hlink := BlockTree.linked_top (t := B.toBlockTree) (h := B.parent b)
    (d := B.number (B.parent b) - k) (by omega)
  rw [Nat.sub_sub_self hk.le] at hlink
  have hcommon : B.ancestor (B.parent b) k = B.ancestor c k := by
    rw [B.ancestor_parent (by omega), hp.common]
  have hup : (s.canonical.writeAll B.toBlockTree
      (B.top (B.number (B.parent b) - k) (B.parent b)).reverse).UpTo B.toBlockTree (B.parent b) := by
    have hstart : s.canonical.UpTo B.toBlockTree (B.ancestor (B.parent b) k) := by
      rw [hcommon]
      exact hf.upTo.ancestor hp.le_old
    have := hstart.writeAll hlink.1
    rwa [hlink.2] at this
  have hkeep : ∀ n, B.number (B.parent b) < n → (s.canonical.writeAll B.toBlockTree
      (B.top (B.number (B.parent b) - k) (B.parent b)).reverse).hash n = s.canonical.hash n := by
    intro n hn
    apply Index.writeAll_of_ne
    intro x hx
    have := (hlink.1.number_mem hx).2
    rw [hlink.2] at this
    omega
  simp only [rewrite, tail_top hb, foldl_canonical, foldl_currentBlock,
    BlockTree.getLastD_top (show B.number (B.parent b) - k ≠ 0 by omega)]
  rw [Index.follows_iff]
  constructor
  · intro n hn
    rw [Index.deleteUp_hash, if_neg (by omega)]
    exact hup n hn
  · intro n hn
    rw [Index.deleteUp_hash]
    split
    next => rfl
    next hnot =>
    rw [hkeep n hn]
    apply hf.above
    by_contra hle
    refine hnot ⟨hn, ?_⟩
    intro j hj hjn
    rw [hkeep j hj, hf.upTo j (by omega)]
    exact Option.some_ne_none _

/-- Otherwise the head stays where it was, and no canonical hash is deleted. -/
theorem rewrite_canonical_of_le (hf : s.canonical.Follows B.toBlockTree s.currentBlock)
    (hb : B.number b = B.number (B.parent b) + 1) (hk : B.number (B.parent b) ≤ k)
    (oldChain : List H) :
    (rewrite B s oldChain (B.top (B.number b - k) b)).canonical = s.canonical := by
  have hnil : (B.top (B.number b - k) b).tail = [] := by
    rw [tail_top hb, Nat.sub_eq_zero_of_le hk]
    rfl
  simp only [rewrite, hnil, reverse_nil, foldl_nil]
  rw [Index.deleteUp, dif_pos (hf.above (Nat.lt_succ_self _))]

/-! ## One block -/

/-- A new head among the stored blocks. -/
theorem Stored.writeHeadBlock (hst : Stored B s) {g : BlockChain H Tx} (hknown : g.known = s.known)
    (htd : g.td = s.td) (hb : s.known b = true) : Stored B (writeHeadBlock B g b) where
  genesis := by simpa [Canonical.writeHeadBlock, hknown] using hst.genesis
  closed := by simpa [Canonical.writeHeadBlock, hknown] using hst.closed
  td := by simpa [Canonical.writeHeadBlock, hknown, htd] using hst.td
  current := by simpa [Canonical.writeHeadBlock, hknown] using hb

/-- A block on top of the head. -/
theorem Indexed.onTop (hi : Indexed B s) (hb : B.number b = B.number (B.parent b) + 1)
    (htop : B.parent b = s.currentBlock) : Indexed B (writeHeadBlock B s b) where
  canonical := hi.canonical.write ⟨htop, htop ▸ hb⟩
  lookup tx n := by
    have hself := ancestor_of_child hb
    rw [htop] at hb hself
    have hparts : Parts B s.currentBlock b (B.number s.currentBlock) :=
      ⟨le_rfl, by omega, by rw [B.ancestor_self, hself], fun i hi hi' => by omega⟩
    simp only [writeHeadBlock]
    split
    next htx => exact located_iff_eq ⟨le_rfl, by rwa [B.ancestor_self]⟩
    next htx =>
      rw [hi.lookup, hparts.located_iff htx fun m hm hm' => by omega]
      rfl

/-- A block elsewhere. -/
theorem Indexed.reorg_iff (hi : Indexed B s) (hp : Parts B s.currentBlock b k)
    (hb : B.number b = B.number (B.parent b) + 1) :
    Indexed B (writeHeadBlock B (rewrite B s (B.top (B.number s.currentBlock - k) s.currentBlock)
        (B.top (B.number b - k) b)) b) ↔
      ¬ (s.canonical.hash (B.number (B.parent b)) = some (B.parent b) ∧
        B.number b < B.number s.currentBlock) := by
  have hlookup := lookup_rewritten hi.lookup hp hb
  have hself := ancestor_of_child hb
  have hhash := hi.canonical (B.number (B.parent b))
  rcases lt_or_ge k (B.number (B.parent b)) with hk | hk
  · have hindexed : Indexed B (writeHeadBlock B (rewrite B s
        (B.top (B.number s.currentBlock - k) s.currentBlock) (B.top (B.number b - k) b)) b) :=
      ⟨(rewrite_canonical hi.canonical hp hb hk).write ⟨rfl, hb⟩, hlookup⟩
    refine iff_of_true hindexed ?_
    rintro ⟨hcanon, hlt⟩
    rw [hcanon, if_pos (by omega), Option.some_inj] at hhash
    exact hp.apart _ hk (by omega) (by omega) (by rw [← hhash, hself])
  · have hle := hk.trans hp.le_old
    have hanc : B.ancestor s.currentBlock (B.number (B.parent b)) = B.parent b := by
      rw [hp.below hk, hself]
    rw [if_pos hle, hanc] at hhash
    have hcanonical := write_follows_iff hi.canonical hb hle hanc
    rw [← rewrite_canonical_of_le hi.canonical hb hk] at hcanonical
    constructor
    · rintro hindexed ⟨-, hlt⟩
      have := hcanonical.mp hindexed.canonical
      omega
    · intro hnot
      refine ⟨hcanonical.mpr ?_, hlookup⟩
      by_contra hgt
      exact hnot ⟨hhash, by omega⟩

/-- One call of `writeBlockWithState`. -/
theorem writeBlockWithState_indexed_iff (pref : Preference H) (hst : Stored B s)
    (hi : Indexed B s) (call : Call H) :
    Stored B (writeBlockWithState B pref s call.1 call.2).1 ∧
      (Indexed B (writeBlockWithState B pref s call.1 call.2).1 ↔ ¬ LeavesTail B pref s call) := by
  obtain ⟨b, coin⟩ := call
  rw [writeBlockWithState]
  split
  next hnone =>
    refine ⟨hst, iff_of_true hi ?_⟩
    rintro ⟨ptd, hne, hptd, -⟩
    rw [if_neg hne, hptd] at hnone
    cases hnone
  next ptd hsome =>
    have hne : B.number b ≠ 0 := by
      intro hzero
      rw [if_pos hzero] at hsome
      cases hsome
    rw [if_neg hne] at hsome
    have hp : s.known (B.parent b) = true := by rw [← hst.td, hsome]; rfl
    have hb := (B.number_of_parent (Nat.pos_of_ne_zero hne)).symm
    set td := B.difficulty b + ptd
    set s₁ := store s b td
    have hstored := hst.store hp td
    have hknown : s₁.known b = true := by simp [s₁, store]
    have hindexed : Indexed B s₁ := { hi with }
    have hleaves : LeavesTail B pref s (b, coin) ↔
        wins B pref coin ((s.td s.currentBlock).getD 0) td s.currentBlock b =
          true ∧ s.canonical.hash (B.number (B.parent b)) = some (B.parent b) ∧
            B.number b < B.number s.currentBlock := by
      constructor
      · rintro ⟨ptd', -, hptd, hrest⟩
        obtain rfl := Option.some.inj (hsome.symm.trans hptd)
        exact hrest
      · exact fun hrest => ⟨ptd, hne, hsome, hrest⟩
    rw [hleaves]
    dsimp only
    split
    next hwins =>
      split
      next htop =>
        refine ⟨hstored.writeHeadBlock rfl rfl hknown, iff_of_true (hindexed.onTop hb htop) ?_⟩
        rintro ⟨-, -, hlt⟩
        rw [← htop] at hlt
        omega
      next =>
        obtain ⟨k, hparts, hchains⟩ :=
          chains_eq (hstored.rooted hstored.current) (hstored.rooted hknown)
        have hreorg : reorg B s₁ s.currentBlock b = .ok (rewrite B s₁ _ _) :=
          congrArg (Except.map _) hchains
        have hsame : (rewrite B s₁ (B.top (B.number s.currentBlock - k) s.currentBlock)
          (B.top (B.number b - k) b)).known = _ ∧ _ := foldl_store s₁ _
        rw [hreorg]
        refine ⟨hstored.writeHeadBlock hsame.1 hsame.2 hknown, ?_⟩
        rw [and_iff_right hwins]
        exact hindexed.reorg_iff hparts hb
    next hwins =>
      refine ⟨hstored, iff_of_true hindexed ?_⟩
      exact fun hrest => hwins hrest.1

/-! ## Runs -/

/-- Blocks come in any order, with any outcome of the random choices. After each
of them the canonical hashes are the branch of the current block and the lookups
its transactions, exactly when no block wins below the head on top of a canonical
block. -/
theorem writeBlockWithState_consistent_iff (pref : Preference H) (hst : Stored B s)
    (hi : Indexed B s) (calls : List (Call H)) :
    (∀ pre, pre <+: calls → Indexed B (run B pref s pre)) ↔
      ∀ pre call, pre ++ [call] <+: calls → ¬ LeavesTail B pref (run B pref s pre) call :=
  Runs.foldl_prefixes_iff (Stored B) (fun _ => True)
    (fun _ call hst hi _ => writeBlockWithState_indexed_iff pref hst hi call) hst hi
    fun _ _ => trivial

end

section
variable {H Tx : Type} [DecidableEq H] (B : Blocks H Tx)

/-- A chain that has nothing but its genesis. -/
def BlockChain.fresh : BlockChain H Tx where
  known h := decide (h = B.genesis)
  td h := if h = B.genesis then some (B.difficulty B.genesis) else none
  canonical := .branch B.toBlockTree B.genesis
  lookup _ := none
  headBlockHash := B.genesis
  headHeaderHash := B.genesis
  headFastBlockHash := B.genesis
  currentBlock := B.genesis
  currentHeader := B.genesis
  currentFastBlock := B.genesis

theorem stored_fresh : Stored B (.fresh B) where
  genesis := by simp [BlockChain.fresh]
  closed h hh hne := absurd (by simpa [BlockChain.fresh] using hh) hne
  td h := by
    simp only [BlockChain.fresh]
    split
    next heq => simp [heq]
    next hne => simp [hne]
  current := by simp [BlockChain.fresh]

theorem indexed_fresh : Indexed B (.fresh B) where
  canonical := Index.branch_follows B.genesis
  lookup tx n := by
    simp only [BlockChain.fresh, reduceCtorEq, false_iff]
    rintro ⟨hn, htx⟩
    rw [B.number_genesis, Nat.le_zero] at hn
    rw [hn, B.eq_genesis (B.number_ancestor (Nat.zero_le _)), B.txs_genesis] at htx
    cases htx

end

/-- Two blocks in a row, and a third one next to the first. -/
def besideTree : BlockTree (Fin 4) where
  genesis := 0
  parent h := if h = 2 then 1 else 0
  number h := if h = 0 then 0 else if h = 2 then 2 else 1
  number_genesis := rfl
  number_parent := by decide

def besideTxs (h : Fin 4) : List (Fin 4) := if h = 0 then [] else [h]

theorem eq_of_mem_besideTxs : ∀ tx h, tx ∈ besideTxs h → h = tx := by decide

/-- The two in a row are sealed out of turn, the third one in turn. Each has a
transaction. -/
def beside : Blocks (Fin 4) (Fin 4) where
  toBlockTree := besideTree
  difficulty h := if h = 0 then 0 else if h = 3 then 2 else 1
  time h := h
  txs := besideTxs
  txs_genesis := rfl
  once h tx m n hm hn hmem hmem' := by
    rw [← besideTree.number_ancestor hm, ← besideTree.number_ancestor hn,
      eq_of_mem_besideTxs _ _ hmem, eq_of_mem_besideTxs _ _ hmem']

def noPreference : Preference (Fin 4) := ⟨fun _ => false, fun _ => false⟩

theorem writeBlockWithState_consistent_iff_row :
    (∀ pre, pre <+: [(1, false), (2, false)] →
        Indexed beside (run beside noPreference (.fresh beside) pre)) ↔
      ∀ pre call, pre ++ [call] <+: [(1, false), (2, false)] →
        ¬ LeavesTail beside noPreference (run beside noPreference (.fresh beside) pre) call :=
  writeBlockWithState_consistent_iff noPreference (stored_fresh beside) (indexed_fresh beside) _

/-- The block in turn wins with the same total difficulty and a lower number. The
second of the others stays canonical above it. -/
theorem lower_sibling_leaves_tail :
    (run beside noPreference (.fresh beside) [(1, false), (2, false), (3, false)]).currentBlock = 3 ∧
      beside.number 3 = 1 ∧
      (run beside noPreference (.fresh beside)
        [(1, false), (2, false), (3, false)]).canonical.hash 2 = some 2 ∧
      ¬ Indexed beside
        (run beside noPreference (.fresh beside) [(1, false), (2, false), (3, false)]) := by
  have hcurrent : (run beside noPreference (.fresh beside)
      [(1, false), (2, false), (3, false)]).currentBlock = 3 := by decide +kernel
  have hhash : (run beside noPreference (.fresh beside)
      [(1, false), (2, false), (3, false)]).canonical.hash 2 = some 2 := by decide +kernel
  refine ⟨hcurrent, rfl, hhash, ?_⟩
  intro hindexed
  have hnone := hindexed.canonical 2
  rw [hcurrent, hhash] at hnone
  exact absurd hnone (by decide)

end Dexit.Core.Canonical
