import Mathlib.Data.List.Sort
import Dexit.Go.Map
import Dexit.Parlia.Types

/-!
# The indexes of untrusted diff layers

Peers send diff layers of blocks; five maps keep them until their block is
imported, proved wrong or too old. `Indexed` says how the maps refer to each
other. It rests on a layer's hash being computed from its contents: a layer
that is there already is not registered again, so each one is blamed on a
single peer.
-/

namespace Dexit.Core

open Go List AList Map
open Parlia (Hash)

def maxDiffQueueDist : UInt64 := 2048
def maxDiffForkDist : UInt64 := 11
def maxDiffLimit : ℕ := 2048
def maxDiffLimitForBroadcast : ℕ := 128

/-- What the indexes read of a diff layer. -/
structure DiffLayer where
  blockHash : Hash
  number : UInt64
  diffHash : Hash
  deriving DecidableEq

structure DiffIndex where
  blockHashToDiffLayers : Map Hash (Map Hash DiffLayer) := ∅
  diffHashToBlockHash : Map Hash Hash := ∅
  diffHashToPeers : Map Hash (StructSet String) := ∅
  diffNumToBlockHashes : Map UInt64 (StructSet Hash) := ∅
  diffPeersToDiffHashes : Map String (StructSet Hash) := ∅

namespace DiffIndex

/-- The end of `HandleDiffLayer`: the layer goes into all five maps. -/
def register (s : DiffIndex) (diffLayer : DiffLayer) (pid : String) : DiffIndex where
  diffPeersToDiffHashes := s.diffPeersToDiffHashes.put pid diffLayer.diffHash ()
  diffNumToBlockHashes := s.diffNumToBlockHashes.put diffLayer.number diffLayer.blockHash ()
  diffHashToPeers := s.diffHashToPeers.put diffLayer.diffHash pid ()
  blockHashToDiffLayers :=
    s.blockHashToDiffLayers.put diffLayer.blockHash diffLayer.diffHash diffLayer
  diffHashToBlockHash := s.diffHashToBlockHash.insert diffLayer.diffHash diffLayer.blockHash

def handleDiffLayer (s : DiffIndex) (currentHeight : UInt64) (diffLayer : DiffLayer)
    (pid : String) (fulfilled : Bool) : DiffIndex :=
  let held := s.diffPeersToDiffHashes.inner pid
  if diffLayer.number > currentHeight ∧ diffLayer.number - currentHeight > maxDiffQueueDist then s
  else if diffLayer.number < currentHeight ∧ currentHeight - diffLayer.number > maxDiffForkDist then
    s
  else if s.diffHashToBlockHash.lookup diffLayer.diffHash = some diffLayer.blockHash then s
  else if !fulfilled ∧ held.keys.length > maxDiffLimitForBroadcast then s
  else if held.keys.length > maxDiffLimit then s
  else if diffLayer.diffHash ∈ held then s
  else s.register diffLayer pid

/-- The body of the second loop of `removeDiffLayers`. -/
def removeDiffLayer (s : DiffIndex) (invalidDiffHash : Hash) : DiffIndex :=
  let affectedBlockHash := (s.diffHashToBlockHash.lookup invalidDiffHash).getD 0
  { s with
    diffHashToPeers := s.diffHashToPeers.erase invalidDiffHash
    blockHashToDiffLayers := s.blockHashToDiffLayers.drop affectedBlockHash invalidDiffHash
    diffHashToBlockHash := s.diffHashToBlockHash.erase invalidDiffHash }

/-- Forgets everything that was sent by the peers who sent `diffHash`. -/
def removeDiffLayers (s : DiffIndex) (diffHash : Hash) : DiffIndex :=
  let pids := s.diffHashToPeers.inner diffHash
  let (peers, invalidDiffHashes) := s.diffPeersToDiffHashes.takeAll pids.keys
  invalidDiffHashes.keys.foldl removeDiffLayer { s with diffPeersToDiffHashes := peers }

/-- The numbers that the first loop of `pruneDiffLayer` reaches before it
breaks. Below height 11 the subtraction wraps and these are all of them. -/
def staleNumbers (s : DiffIndex) (currentHeight : UInt64) : List UInt64 :=
  (s.diffNumToBlockHashes.keys.insertionSort (· ≤ ·)).takeWhile
    (· < currentHeight - maxDiffForkDist)

/-- The body of the second loop of `pruneDiffLayer`. -/
def pruneBlock (acc : DiffIndex × StructSet Hash) (blockHash : Hash) : DiffIndex × StructSet Hash :=
  let diffHashes := (acc.1.blockHashToDiffLayers.inner blockHash).keys
  ({ acc.1 with
      diffHashToBlockHash := acc.1.diffHashToBlockHash.deleteAll diffHashes
      diffHashToPeers := acc.1.diffHashToPeers.deleteAll diffHashes
      blockHashToDiffLayers := acc.1.blockHashToDiffLayers.erase blockHash },
    acc.2.addAll diffHashes)

def pruneDiffLayer (s : DiffIndex) (currentHeight : UInt64) : DiffIndex :=
  let (numbers, staleBlockHashes) := s.diffNumToBlockHashes.takeAll (s.staleNumbers currentHeight)
  let (s, staleDiffHashes) :=
    staleBlockHashes.keys.foldl pruneBlock ({ s with diffNumToBlockHashes := numbers }, ∅)
  { s with
    diffPeersToDiffHashes := staleDiffHashes.keys.foldl Map.dropEverywhere s.diffPeersToDiffHashes }

/-- The part of the order that holds between the steps of the loops as well:
they change the peers' sets and the numbers before or after the other maps. -/
structure Linked (s : DiffIndex) : Prop where
  blocks : ∀ h b, s.diffHashToBlockHash.lookup h = some b ↔ h ∈ s.blockHashToDiffLayers.inner b
  layers_nonempty : s.blockHashToDiffLayers.NoneEmpty
  peers_nonempty : s.diffHashToPeers.NoneEmpty

/-- How the maps refer to each other. `registered` and `single` are what makes
the removal of a peer exact. -/
structure Indexed (s : DiffIndex) : Prop extends Linked s where
  peers : ∀ h p, p ∈ s.diffHashToPeers.inner h ↔ h ∈ s.diffPeersToDiffHashes.inner p
  sourced : ∀ h ∈ s.diffHashToBlockHash, ∃ p, p ∈ s.diffHashToPeers.inner h
  registered : ∀ h p, p ∈ s.diffHashToPeers.inner h → h ∈ s.diffHashToBlockHash
  single : ∀ h p q, p ∈ s.diffHashToPeers.inner h → q ∈ s.diffHashToPeers.inner h → p = q
  numbered : ∀ b h d, (s.blockHashToDiffLayers.inner b).lookup h = some d →
    d.diffHash = h ∧ d.blockHash = b ∧ b ∈ s.diffNumToBlockHashes.inner d.number
  numbers_nonempty : s.diffNumToBlockHashes.NoneEmpty
  hashes_nonempty : s.diffPeersToDiffHashes.NoneEmpty

theorem indexed_empty : Indexed {} where
  blocks h _ := ⟨nofun, fun hmem => absurd hmem (notMem_empty h)⟩
  peers h p := ⟨fun hmem => absurd hmem (notMem_empty p), fun hmem => absurd hmem (notMem_empty h)⟩
  sourced h hmem := absurd hmem (notMem_empty h)
  registered _ p hmem := absurd hmem (notMem_empty p)
  single _ p _ hmem := absurd hmem (notMem_empty p)
  numbered _ _ _ hd := nomatch hd
  layers_nonempty := Map.noneEmpty_empty
  peers_nonempty := Map.noneEmpty_empty
  numbers_nonempty := Map.noneEmpty_empty
  hashes_nonempty := Map.noneEmpty_empty

section
variable {s t u : DiffIndex} {D E : Hash → Prop}

/-! ### Registration -/

variable {d : DiffLayer} {n height : UInt64}

theorem Indexed.register (h : Indexed s) {pid : String}
    (hnew : d.diffHash ∉ s.diffHashToBlockHash) : Indexed (s.register d pid) where
  blocks k b := by
    have hold := h.blocks k b
    have hfresh : k = d.diffHash → s.diffHashToBlockHash.lookup k ≠ some b := by
      rintro rfl heq
      exact hnew (mem_iff_lookup.mpr ⟨b, heq⟩)
    simp only [DiffIndex.register, mem_put]
    by_cases hk : k = d.diffHash
    · subst hk
      rw [lookup_insert, ← hold]
      simp [hfresh rfl, eq_comm]
    · rw [lookup_insert_ne hk, hold]
      simp [hk]
  peers k p := by
    simp only [DiffIndex.register, mem_put, h.peers k p]
    tauto
  sourced k hk := by
    simp only [DiffIndex.register, mem_put] at hk ⊢
    obtain rfl | hk := (mem_insert _).mp hk
    · exact ⟨pid, .inl ⟨rfl, rfl⟩⟩
    · obtain ⟨p, hp⟩ := h.sourced k hk
      exact ⟨p, .inr hp⟩
  registered k p hp := by
    simp only [DiffIndex.register, mem_put, mem_insert] at hp ⊢
    exact hp.imp (·.1) (h.registered k p)
  single k p q hp hq := by
    simp only [DiffIndex.register, mem_put] at hp hq
    -- the new hash had no peer yet
    have hnone (r) (hr : r ∈ s.diffHashToPeers.inner k) : k ≠ d.diffHash := by
      rintro rfl
      exact hnew (h.registered _ r hr)
    rcases hp with ⟨hk, rfl⟩ | hp <;> rcases hq with ⟨hk', rfl⟩ | hq
    · rfl
    · exact absurd hk (hnone q hq)
    · exact absurd hk' (hnone p hp)
    · exact h.single k p q hp hq
  numbered b k e he := by
    simp only [DiffIndex.register, lookup_put, mem_put] at he ⊢
    obtain ⟨rfl, rfl, rfl⟩ | ⟨-, he⟩ := he
    · exact ⟨rfl, rfl, .inl ⟨rfl, rfl⟩⟩
    · obtain ⟨hk, hb, hmem⟩ := h.numbered b k e he
      exact ⟨hk, hb, .inr hmem⟩
  layers_nonempty := h.layers_nonempty.put
  peers_nonempty := h.peers_nonempty.put
  numbers_nonempty := h.numbers_nonempty.put
  hashes_nonempty := h.hashes_nonempty.put

/-! ### Removal -/

/-- `t` is `s` without the diff hashes in `D`, as far as the maps of blocks and
of peers by diff hash go. -/
structure Forgets (D : Hash → Prop) (s t : DiffIndex) : Prop where
  blockOf : ∀ h b, t.diffHashToBlockHash.lookup h = some b ↔
    s.diffHashToBlockHash.lookup h = some b ∧ ¬ D h
  layers : ∀ b h d, (t.blockHashToDiffLayers.inner b).lookup h = some d ↔
    (s.blockHashToDiffLayers.inner b).lookup h = some d ∧ ¬ D h
  peers : ∀ h p, p ∈ t.diffHashToPeers.inner h ↔ p ∈ s.diffHashToPeers.inner h ∧ ¬ D h
  layers_nonempty : t.blockHashToDiffLayers.NoneEmpty
  peers_nonempty : t.diffHashToPeers.NoneEmpty

theorem Forgets.mem_layers (hf : Forgets D s t) {b h : Hash} :
    h ∈ t.blockHashToDiffLayers.inner b ↔ h ∈ s.blockHashToDiffLayers.inner b ∧ ¬ D h := by
  simp only [mem_iff_lookup, hf.layers, exists_and_right]

theorem Forgets.nothing (h : Linked s) : Forgets (fun _ => False) s s where
  blockOf k b := by simp
  layers b k d := by simp
  peers k p := by simp
  layers_nonempty := h.layers_nonempty
  peers_nonempty := h.peers_nonempty

theorem Forgets.trans (hst : Forgets D s t) (htu : Forgets E t u) :
    Forgets (fun h => D h ∨ E h) s u where
  blockOf k b := by rw [htu.blockOf, hst.blockOf, not_or, and_assoc]
  layers b k d := by rw [htu.layers, hst.layers, not_or, and_assoc]
  peers k p := by rw [htu.peers, hst.peers, not_or, and_assoc]
  layers_nonempty := htu.layers_nonempty
  peers_nonempty := htu.peers_nonempty

theorem Forgets.congr (hf : Forgets D s t) (hDE : ∀ h, D h ↔ E h) : Forgets E s t := by
  have heq : D = E := funext fun h => propext (hDE h)
  exact heq ▸ hf

theorem Forgets.linked (h : Linked s) (hf : Forgets D s t) : Linked t where
  blocks k b := by rw [hf.blockOf, hf.mem_layers, h.blocks]
  layers_nonempty := hf.layers_nonempty
  peers_nonempty := hf.peers_nonempty

/-- Where the peers' own sets lose the same hashes and the numbers of the
layers that are left stay, the maps are in order again. -/
theorem Indexed.forget (h : Indexed s) (hf : Forgets D s t)
    (hashes : ∀ p k, k ∈ t.diffPeersToDiffHashes.inner p ↔
      k ∈ s.diffPeersToDiffHashes.inner p ∧ ¬ D k)
    (numbers : ∀ b k d, (t.blockHashToDiffLayers.inner b).lookup k = some d →
      b ∈ s.diffNumToBlockHashes.inner d.number → b ∈ t.diffNumToBlockHashes.inner d.number)
    (numbers_nonempty : t.diffNumToBlockHashes.NoneEmpty)
    (hashes_nonempty : t.diffPeersToDiffHashes.NoneEmpty) : Indexed t where
  toLinked := hf.linked h.toLinked
  peers k p := by rw [hf.peers, hashes, h.peers]
  sourced k hk := by
    obtain ⟨b, hb⟩ := mem_iff_lookup.mp hk
    obtain ⟨hb, hD⟩ := (hf.blockOf k b).mp hb
    obtain ⟨p, hp⟩ := h.sourced k (mem_iff_lookup.mpr ⟨b, hb⟩)
    exact ⟨p, (hf.peers k p).mpr ⟨hp, hD⟩⟩
  registered k p hp := by
    obtain ⟨hp, hD⟩ := (hf.peers k p).mp hp
    obtain ⟨b, hb⟩ := mem_iff_lookup.mp (h.registered k p hp)
    exact mem_iff_lookup.mpr ⟨b, (hf.blockOf k b).mpr ⟨hb, hD⟩⟩
  single k p q hp hq := h.single k p q ((hf.peers k p).mp hp).1 ((hf.peers k q).mp hq).1
  numbered b k d hd := by
    obtain ⟨hk, hb, hmem⟩ := h.numbered b k d ((hf.layers b k d).mp hd).1
    exact ⟨hk, hb, numbers b k d hd hmem⟩
  numbers_nonempty := numbers_nonempty
  hashes_nonempty := hashes_nonempty

theorem Linked.removeDiffLayer (h : Linked s) (k : Hash) :
    Forgets (fun k' => k' = k) s (s.removeDiffLayer k) where
  blockOf _ _ := Map.lookup_erase_some
  layers b k' d := by
    refine lookup_drop.trans (and_congr_right ?_)
    intro hd
    refine not_congr (and_iff_right_of_imp ?_)
    -- the affected block is the one that holds the layer
    rintro rfl
    rw [(h.blocks k' b).mpr (mem_iff_lookup.mpr ⟨d, hd⟩), Option.getD_some]
  peers _ _ := mem_inner_erase
  layers_nonempty := h.layers_nonempty.drop
  peers_nonempty := h.peers_nonempty.erase

theorem Linked.removeEach (h : Linked s) (ks : List Hash) :
    Forgets (fun k => k ∈ ks) s (ks.foldl DiffIndex.removeDiffLayer s) := by
  induction ks generalizing s with
  | nil => exact (Forgets.nothing h).congr (by simp)
  | cons k ks ih =>
    have hfirst := h.removeDiffLayer k
    refine (hfirst.trans (ih (hfirst.linked h))).congr ?_
    intro k'
    rw [mem_cons]

theorem removeEach_rest (s : DiffIndex) (ks : List Hash) :
    (ks.foldl removeDiffLayer s).diffPeersToDiffHashes = s.diffPeersToDiffHashes ∧
      (ks.foldl removeDiffLayer s).diffNumToBlockHashes = s.diffNumToBlockHashes := by
  induction ks generalizing s with
  | nil => exact ⟨rfl, rfl⟩
  | cons k ks ih => exact ih (s.removeDiffLayer k)

/-- The hashes that are removed together with `diffHash`. -/
def SentWith (s : DiffIndex) (diffHash k : Hash) : Prop :=
  ∃ p ∈ s.diffHashToPeers.inner diffHash, k ∈ s.diffPeersToDiffHashes.inner p

theorem Linked.removeDiffLayers (h : Linked s) (diffHash : Hash) :
    Forgets (s.SentWith diffHash) s (s.removeDiffLayers diffHash) ∧
      (s.removeDiffLayers diffHash).diffPeersToDiffHashes =
        s.diffPeersToDiffHashes.deleteAll (s.diffHashToPeers.inner diffHash).keys ∧
      (s.removeDiffLayers diffHash).diffNumToBlockHashes = s.diffNumToBlockHashes := by
  set taken := s.diffPeersToDiffHashes.takeAll (s.diffHashToPeers.inner diffHash).keys with htaken
  set start : DiffIndex := { s with diffPeersToDiffHashes := taken.1 } with hstart
  have hlinked : Linked start := { h with }
  have hloop := (hlinked.removeEach taken.2.keys).congr (E := s.SentWith diffHash) fun k => by
    rw [← AList.mem_keys, mem_takeAll]
    rfl
  obtain ⟨hpeers, hnums⟩ := removeEach_rest start taken.2.keys
  refine ⟨{ hloop with }, hpeers.trans takeAll_fst, hnums⟩

theorem Indexed.removeDiffLayers (h : Indexed s) (diffHash : Hash) :
    Indexed (s.removeDiffLayers diffHash) := by
  obtain ⟨hf, hpeers, hnums⟩ := h.toLinked.removeDiffLayers diffHash
  refine h.forget hf ?_ ?_ ?_ ?_
  · intro p k
    rw [hpeers, mem_inner_deleteAll]
    refine and_congr_right fun hk => not_congr ?_
    -- each hash has one peer, so it is collected with that peer or not at all
    constructor
    · intro hp
      exact ⟨p, hp, hk⟩
    · rintro ⟨q, hq, hkq⟩
      rw [h.single k p q ((h.peers k p).mpr hk) ((h.peers k q).mpr hkq)]
      exact hq
  · intro b k d _ hmem
    rw [hnums]
    exact hmem
  · rw [hnums]
    exact h.numbers_nonempty
  · rw [hpeers]
    exact h.hashes_nonempty.deleteAll

/-! ### Pruning -/

theorem mem_takeWhile_lt {l : List UInt64} (hsorted : l.Pairwise (· ≤ ·)) {limit : UInt64} :
    n ∈ l.takeWhile (· < limit) ↔ n ∈ l ∧ n < limit := by
  induction l with
  | nil => simp
  | cons m ms ih =>
    obtain ⟨hm, hms⟩ := pairwise_cons.mp hsorted
    by_cases hlt : m < limit
    · rw [takeWhile_cons_of_pos (by simpa using hlt), mem_cons, mem_cons, ih hms]
      constructor
      · rintro (rfl | ⟨hn, hnlt⟩)
        · exact ⟨.inl rfl, hlt⟩
        · exact ⟨.inr hn, hnlt⟩
      · rintro ⟨rfl | hn, hnlt⟩
        · exact .inl rfl
        · exact .inr ⟨hn, hnlt⟩
    · rw [takeWhile_cons_of_neg (by simpa using hlt)]
      refine iff_of_false (not_mem_nil) ?_
      rintro ⟨hn, hnlt⟩
      obtain rfl | hn := mem_cons.mp hn
      · exact hlt hnlt
      · exact hlt (Std.lt_of_le_of_lt (hm n hn) hnlt)

/-- The loop leaves no number below the limit behind. -/
theorem mem_staleNumbers :
    n ∈ s.staleNumbers height ↔ n ∈ s.diffNumToBlockHashes ∧ n < height - maxDiffForkDist := by
  unfold staleNumbers
  rw [mem_takeWhile_lt (pairwise_insertionSort _ _), mem_insertionSort, AList.mem_keys]

theorem Linked.pruneBlock (h : Linked s) (found : StructSet Hash) (b : Hash) :
    Forgets (fun k => k ∈ s.blockHashToDiffLayers.inner b) s
      (DiffIndex.pruneBlock (s, found) b).1 where
  blockOf _ _ := Map.lookup_deleteAll
  layers b' k d := by
    refine lookup_inner_erase.trans (and_congr_right ?_)
    intro hd
    have hb' := (h.blocks k b').mpr (mem_iff_lookup.mpr ⟨d, hd⟩)
    refine not_congr ?_
    rw [← h.blocks k b, hb', Option.some.injEq]
  peers _ _ := mem_inner_deleteAll
  layers_nonempty := h.layers_nonempty.erase
  peers_nonempty := h.peers_nonempty.deleteAll

theorem Linked.pruneEach (h : Linked s) (found : StructSet Hash) (bs : List Hash) :
    let out := bs.foldl DiffIndex.pruneBlock (s, found)
    Forgets (fun k => ∃ b ∈ bs, k ∈ s.blockHashToDiffLayers.inner b) s out.1 ∧
      ∀ k, k ∈ out.2 ↔ k ∈ found ∨ ∃ b ∈ bs, k ∈ s.blockHashToDiffLayers.inner b := by
  induction bs generalizing s found with
  | nil => exact ⟨(Forgets.nothing h).congr (by simp), fun k => by simp⟩
  | cons b bs ih =>
    have hfirst := h.pruneBlock found b
    have hrest := ih (hfirst.linked h) (DiffIndex.pruneBlock (s, found) b).2
    have hfound (k : Hash) : k ∈ (DiffIndex.pruneBlock (s, found) b).2 ↔
        k ∈ s.blockHashToDiffLayers.inner b ∨ k ∈ found := StructSet.mem_addAll
    have hsplit (k : Hash) : (∃ b' ∈ b :: bs, k ∈ s.blockHashToDiffLayers.inner b') ↔
        k ∈ s.blockHashToDiffLayers.inner b ∨ ∃ b' ∈ bs,
          k ∈ (DiffIndex.pruneBlock (s, found) b).1.blockHashToDiffLayers.inner b' := by
      simp only [hfirst.mem_layers, mem_cons, exists_eq_or_imp]
      by_cases hk : k ∈ s.blockHashToDiffLayers.inner b <;> simp [hk]
    refine ⟨(hfirst.trans hrest.1).congr fun k => (hsplit k).symm, ?_⟩
    intro k
    refine (hrest.2 k).trans ?_
    rw [hfound, hsplit, or_comm (b := k ∈ found), or_assoc]

theorem pruneEach_rest (s : DiffIndex) (found : StructSet Hash) (bs : List Hash) :
    let out := (bs.foldl pruneBlock (s, found)).1
    out.diffPeersToDiffHashes = s.diffPeersToDiffHashes ∧ out.diffNumToBlockHashes = s.diffNumToBlockHashes ∧
      out.blockHashToDiffLayers = s.blockHashToDiffLayers.deleteAll bs := by
  induction bs generalizing s found with
  | nil => exact ⟨rfl, rfl, rfl⟩
  | cons b bs ih => exact ih (pruneBlock (s, found) b).1 (pruneBlock (s, found) b).2

/-- A layer is stale when its block is registered under a number below the limit. -/
def Stale (s : DiffIndex) (height : UInt64) (k : Hash) : Prop :=
  ∃ n < height - maxDiffForkDist, ∃ b ∈ s.diffNumToBlockHashes.inner n,
    k ∈ s.blockHashToDiffLayers.inner b

variable {b k : Hash} {bs : List Hash} {found : StructSet Hash}

/-- Some number below the limit has the block. -/
def Outdated (s : DiffIndex) (height : UInt64) (b : Hash) : Prop :=
  ∃ n < height - maxDiffForkDist, b ∈ s.diffNumToBlockHashes.inner n

theorem mem_staleBlocks :
    b ∈ (s.diffNumToBlockHashes.takeAll (s.staleNumbers height)).2.keys ↔ s.Outdated height b := by
  rw [← AList.mem_keys, mem_takeAll]
  constructor
  · rintro ⟨n, hn, hb⟩
    exact ⟨n, (mem_staleNumbers.mp hn).2, hb⟩
  · rintro ⟨n, hn, hb⟩
    exact ⟨n, mem_staleNumbers.mpr ⟨mem_of_mem_inner hb, hn⟩, hb⟩

theorem pruneDiffLayer_numbers (s : DiffIndex) (height : UInt64) :
    (s.pruneDiffLayer height).diffNumToBlockHashes =
      s.diffNumToBlockHashes.deleteAll (s.staleNumbers height) :=
  (pruneEach_rest _ ∅ _).2.1.trans takeAll_fst

theorem Linked.pruneDiffLayer (h : Linked s) (height : UInt64) :
    Forgets (s.Stale height) s (s.pruneDiffLayer height) ∧
      (∀ p k, k ∈ (s.pruneDiffLayer height).diffPeersToDiffHashes.inner p ↔
        k ∈ s.diffPeersToDiffHashes.inner p ∧ ¬ s.Stale height k) ∧
      (s.pruneDiffLayer height).diffNumToBlockHashes =
        s.diffNumToBlockHashes.deleteAll (s.staleNumbers height) ∧
      (s.diffPeersToDiffHashes.NoneEmpty →
        (s.pruneDiffLayer height).diffPeersToDiffHashes.NoneEmpty) := by
  set taken := s.diffNumToBlockHashes.takeAll (s.staleNumbers height) with htaken
  set start : DiffIndex := { s with diffNumToBlockHashes := taken.1 } with hstart
  set out := taken.2.keys.foldl DiffIndex.pruneBlock (start, ∅) with hout
  have heq : s.pruneDiffLayer height = { out.1 with
      diffPeersToDiffHashes := out.2.keys.foldl dropEverywhere out.1.diffPeersToDiffHashes } :=
    rfl
  have hlinked : Linked start := { h with }
  have hloop := hlinked.pruneEach ∅ taken.2.keys
  have hpeers := (pruneEach_rest start ∅ taken.2.keys).1
  have hstale (k : Hash) : (∃ b ∈ taken.2.keys, k ∈ start.blockHashToDiffLayers.inner b) ↔
      s.Stale height k := by
    constructor
    · rintro ⟨b, hb, hk⟩
      obtain ⟨n, hn, hb⟩ := mem_staleBlocks.mp hb
      exact ⟨n, hn, b, hb, hk⟩
    · rintro ⟨n, hn, b, hb, hk⟩
      exact ⟨b, mem_staleBlocks.mpr ⟨n, hn, hb⟩, hk⟩
  have hfound (k : Hash) : k ∈ out.2.keys ↔ s.Stale height k := by
    rw [← hstale, ← AList.mem_keys, hloop.2]
    simp
  have hf := hloop.1.congr hstale
  rw [heq]
  refine ⟨{ hf with }, ?_, ?_, ?_⟩
  · intro p k
    refine mem_dropEach.trans ?_
    rw [hpeers, hfound]
  · exact pruneDiffLayer_numbers s height
  · intro hne
    refine Map.NoneEmpty.dropEach ?_
    rw [hpeers]
    exact hne

/-! ### What pruning keeps of any maps -/

/-- The diff hash is not in the maps by diff hash any more, and is to be dropped from the peers. -/
def Struck (k : Hash) (acc : DiffIndex × StructSet Hash) : Prop :=
  k ∉ acc.1.diffHashToBlockHash ∧ k ∉ acc.1.diffHashToPeers ∧ k ∈ acc.2

theorem pruneBlock_struck (b : Hash) (h : Struck k (s, found) ∨ k ∈ s.blockHashToDiffLayers.inner b) :
    Struck k (pruneBlock (s, found) b) := by
  unfold Struck pruneBlock at *
  simp only [mem_deleteAll, StructSet.mem_addAll, ← AList.mem_keys] at h ⊢
  tauto

theorem pruneEach_struck (h : Struck k (s, found) ∨ ∃ b ∈ bs, k ∈ s.blockHashToDiffLayers.inner b) :
    Struck k (bs.foldl pruneBlock (s, found)) := by
  induction bs generalizing s found with
  | nil => exact h.resolve_right (by simp)
  | cons b bs ih =>
    refine @ih (pruneBlock (s, found) b).1 (pruneBlock (s, found) b).2 ?_
    by_cases hk : k ∈ s.blockHashToDiffLayers.inner b
    · exact .inl (pruneBlock_struck b (.inr hk))
    rcases h with h | ⟨b', hb', hk'⟩
    · exact .inl (pruneBlock_struck b (.inl h))
    have hne : b' ≠ b := by
      rintro rfl
      exact hk hk'
    refine .inr ⟨b', (mem_cons.mp hb').resolve_left hne, ?_⟩
    exact mem_inner_erase.mpr ⟨hk', hne⟩

/-- None of the five maps has the layer. -/
structure Gone (s : DiffIndex) (b k : Hash) (n : UInt64) : Prop where
  layers : k ∉ s.blockHashToDiffLayers.inner b
  block : k ∉ s.diffHashToBlockHash
  peers : k ∉ s.diffHashToPeers
  number : n ∉ s.diffNumToBlockHashes
  sent : ∀ p, k ∉ s.diffPeersToDiffHashes.inner p

/-- Exactly the layers that are too old go. -/
def PrunesExactly (s : DiffIndex) (height : UInt64) : Prop :=
  ∀ b k d, (s.blockHashToDiffLayers.inner b).lookup k = some d →
    (height.toNat ≤ d.number.toNat + maxDiffForkDist.toNat →
      ((s.pruneDiffLayer height).blockHashToDiffLayers.inner b).lookup k = some d) ∧
    (d.number.toNat + maxDiffForkDist.toNat < height.toNat →
      (s.pruneDiffLayer height).Gone b k d.number)

theorem lookup_pruneDiffLayer :
    ((s.pruneDiffLayer height).blockHashToDiffLayers.inner b).lookup k = some d ↔
      (s.blockHashToDiffLayers.inner b).lookup k = some d ∧ ¬ s.Outdated height b := by
  rw [← mem_staleBlocks, ← lookup_inner_deleteAll, ← (pruneEach_rest { s with
    diffNumToBlockHashes := (s.diffNumToBlockHashes.takeAll (s.staleNumbers height)).1 } ∅ _).2.2]
  rfl

theorem gone_of_outdated (hd : (s.blockHashToDiffLayers.inner b).lookup k = some d)
    (hold : d.number.toNat + maxDiffForkDist.toNat < height.toNat) (hb : s.Outdated height b) :
    (s.pruneDiffLayer height).Gone b k d.number := by
  set taken := s.diffNumToBlockHashes.takeAll (s.staleNumbers height)
  have hstruck : Struck k (taken.2.keys.foldl pruneBlock ({ s with diffNumToBlockHashes := taken.1 }, ∅)) :=
    pruneEach_struck (.inr ⟨b, mem_staleBlocks.mpr hb, mem_iff_lookup.mpr ⟨d, hd⟩⟩)
  refine ⟨fun hmem => ?_, hstruck.1, hstruck.2.1, fun hmem => ?_, fun p hmem => ?_⟩
  · obtain ⟨e, he⟩ := mem_iff_lookup.mp hmem
    exact (lookup_pruneDiffLayer.mp he).2 hb
  · have hlt : d.number < height - maxDiffForkDist := by
      have hle : maxDiffForkDist ≤ height := UInt64.le_iff_toNat_le.mpr (by omega)
      rw [UInt64.lt_iff_toNat_lt, UInt64.toNat_sub_of_le _ _ hle]
      omega
    rw [pruneDiffLayer_numbers, mem_deleteAll, mem_staleNumbers] at hmem
    exact hmem.2 ⟨hmem.1, hlt⟩
  · exact (mem_dropEach.mp hmem).2 (mem_keys.mp hstruck.2.2)

/-- Pruning is exact where the blocks that a number below the limit has are those of the layers
that are too old. Below height 11 the limit wraps around, and a block may have been sent under two
numbers. -/
theorem pruneDiffLayer_exact_iff (s : DiffIndex) (height : UInt64) : s.PrunesExactly height ↔
    ∀ b k d, (s.blockHashToDiffLayers.inner b).lookup k = some d →
      (height.toNat ≤ d.number.toNat + maxDiffForkDist.toNat ↔ ¬ s.Outdated height b) := by
  constructor
  · intro h b k d hd
    obtain ⟨hkept, hgone⟩ := h b k d hd
    constructor
    · exact fun hnew => (lookup_pruneDiffLayer.mp (hkept hnew)).2
    · intro hb
      by_contra hold
      refine (hgone (not_le.mp hold)).layers (mem_iff_lookup.mpr ⟨d, ?_⟩)
      exact lookup_pruneDiffLayer.mpr ⟨hd, hb⟩
  · intro h b k d hd
    refine ⟨fun hnew => lookup_pruneDiffLayer.mpr ⟨hd, (h b k d hd).mp hnew⟩, fun hold => ?_⟩
    refine gone_of_outdated hd hold (not_not.mp fun hb => ?_)
    exact not_le.mpr hold ((h b k d hd).mpr hb)

/-- No layer that is left has its block under a number that was deleted. -/
theorem Forgets.number_ge (h : Indexed s) (hf : Forgets (s.Stale height) s t)
    {b k : Hash} (hd : (t.blockHashToDiffLayers.inner b).lookup k = some d) :
    ¬ d.number < height - maxDiffForkDist := by
  intro hlt
  obtain ⟨hd, hkept⟩ := (hf.layers b k d).mp hd
  exact hkept ⟨d.number, hlt, b, (h.numbered b k d hd).2.2, mem_iff_lookup.mpr ⟨d, hd⟩⟩

theorem Indexed.pruneDiffLayer (h : Indexed s) (height : UInt64) :
    Indexed (s.pruneDiffLayer height) := by
  obtain ⟨hf, hhashes, hnums, hne⟩ := h.toLinked.pruneDiffLayer height
  refine h.forget hf hhashes ?_ ?_ (hne h.hashes_nonempty)
  · intro b k d hd hmem
    rw [hnums]
    refine mem_inner_deleteAll.mpr ⟨hmem, ?_⟩
    intro hstale
    exact hf.number_ge h hd (mem_staleNumbers.mp hstale).2
  · rw [hnums]
    exact h.numbers_nonempty.deleteAll

/-! ### Runs -/

/-- A call, with the height of the chain where the call reads it. -/
inductive Call
  | handleDiffLayer (currentHeight : UInt64) (diffLayer : DiffLayer) (pid : String)
      (fulfilled : Bool)
  | removeDiffLayers (diffHash : Hash)
  | pruneDiffLayer (currentHeight : UInt64)

def exec (s : DiffIndex) : Call → DiffIndex
  | .handleDiffLayer currentHeight diffLayer pid fulfilled =>
    s.handleDiffLayer currentHeight diffLayer pid fulfilled
  | .removeDiffLayers diffHash => s.removeDiffLayers diffHash
  | .pruneDiffLayer currentHeight => s.pruneDiffLayer currentHeight

def run (calls : List Call) : DiffIndex := calls.foldl exec {}

/-- The layers that are handled have the block hash and number that `identify`
gives for their hash. -/
def Call.Identified (identify : Hash → Hash × UInt64) : Call → Prop
  | .handleDiffLayer _ d _ _ => identify d.diffHash = (d.blockHash, d.number)
  | _ => True

/-- The indexes are in order and hold identified layers only. -/
structure Sound (identify : Hash → Hash × UInt64) (s : DiffIndex) : Prop extends Indexed s where
  identified : ∀ b h d, (s.blockHashToDiffLayers.inner b).lookup h = some d →
    identify h = (b, d.number)

variable {identify : Hash → Hash × UInt64}

theorem Sound.forget (h : Sound identify s) (hf : Forgets D s t) (ht : Indexed t) :
    Sound identify t :=
  ⟨ht, fun b k d hd => h.identified b k d ((hf.layers b k d).mp hd).1⟩

theorem Sound.exec (h : Sound identify s) {call : Call} (hcall : call.Identified identify) :
    Sound identify (s.exec call) := by
  cases call with
  | handleDiffLayer height d pid fulfilled =>
    rw [DiffIndex.exec, handleDiffLayer]
    split_ifs with _ _ hnew <;> try exact h
    refine ⟨h.toIndexed.register ?_, ?_⟩
    · intro hmem
      obtain ⟨b, hb⟩ := mem_iff_lookup.mp hmem
      obtain ⟨d', hd'⟩ := mem_iff_lookup.mp ((h.blocks _ b).mp hb)
      have hsame := (h.identified b _ d' hd').symm.trans hcall
      rw [hb, (Prod.mk.inj hsame).1] at hnew
      exact hnew rfl
    · intro b k e he
      obtain ⟨rfl, rfl, rfl⟩ | ⟨-, he⟩ := lookup_put.mp he
      · exact hcall
      · exact h.identified b k e he
  | removeDiffLayers diffHash =>
    exact h.forget (h.toLinked.removeDiffLayers diffHash).1 (h.toIndexed.removeDiffLayers diffHash)
  | pruneDiffLayer height =>
    exact h.forget (h.toLinked.pruneDiffLayer height).1 (h.toIndexed.pruneDiffLayer height)

theorem Sound.run {calls : List Call} (hcalls : ∀ call ∈ calls, call.Identified identify) :
    Sound identify (DiffIndex.run calls) := by
  induction calls using reverseRecOn with
  | nil => exact ⟨indexed_empty, fun _ _ _ hd => nomatch hd⟩
  | append_singleton calls call ih =>
    have hlast := ih fun c hc => hcalls c (mem_append_left [call] hc)
    have hstep := hlast.exec (hcalls call (by simp))
    simpa [DiffIndex.run] using hstep

end

/-- After any sequence of calls the maps refer to each other in both directions,
every layer has a peer to blame and none escapes pruning. -/
theorem run_consistent (identify : Hash → Hash × UInt64) (calls : List Call)
    (hcalls : ∀ call ∈ calls, call.Identified identify) :
    let s := run calls
    (∀ h b, s.diffHashToBlockHash.lookup h = some b ↔ h ∈ s.blockHashToDiffLayers.inner b) ∧
    (∀ h p, p ∈ s.diffHashToPeers.inner h ↔ h ∈ s.diffPeersToDiffHashes.inner p) ∧
    (∀ h ∈ s.diffHashToBlockHash, ∃ p, p ∈ s.diffHashToPeers.inner h) ∧
    (s.blockHashToDiffLayers.NoneEmpty ∧ s.diffHashToPeers.NoneEmpty ∧
      s.diffNumToBlockHashes.NoneEmpty ∧ s.diffPeersToDiffHashes.NoneEmpty) ∧
    (∀ b h, h ∈ s.blockHashToDiffLayers.inner b → b ∈ s.diffNumToBlockHashes.inner (identify h).2) ∧
    ∀ height b h, h ∈ (s.pruneDiffLayer height).blockHashToDiffLayers.inner b →
      ¬ (identify h).2 < height - maxDiffForkDist := by
  have hs := Sound.run hcalls
  refine ⟨hs.blocks, hs.peers, hs.sourced,
    ⟨hs.layers_nonempty, hs.peers_nonempty, hs.numbers_nonempty, hs.hashes_nonempty⟩, ?_, ?_⟩
  · intro b h hmem
    obtain ⟨d, hd⟩ := mem_iff_lookup.mp hmem
    rw [hs.identified b h d hd]
    exact (hs.numbered b h d hd).2.2
  · intro height b h hmem
    obtain ⟨d, hd⟩ := mem_iff_lookup.mp hmem
    have hf := (hs.toLinked.pruneDiffLayer height).1
    rw [hs.identified b h d ((hf.layers b h d).mp hd).1]
    exact hf.number_ge hs.toIndexed hd

/-- Two layers of one block from two peers; the first proves wrong, and so goes
the other one that its peer sent. -/
def badPeer : List Call :=
  [.handleDiffLayer 100 ⟨7, 101, 1⟩ "bad" true, .handleDiffLayer 100 ⟨8, 102, 2⟩ "bad" false,
    .handleDiffLayer 100 ⟨7, 101, 3⟩ "good" false, .removeDiffLayers 1, .pruneDiffLayer 105]

theorem badPeer_consistent :
    (run badPeer).blockHashToDiffLayers.keys = [7] ∧
      (∃ p, p ∈ (run badPeer).diffHashToPeers.inner 3) ∧
      7 ∈ (run badPeer).diffNumToBlockHashes.inner 101 := by
  have h := run_consistent (fun h => if h = 2 then (8, 102) else (7, 101)) badPeer
    (by simp [badPeer, Call.Identified])
  exact ⟨by decide, h.2.2.1 3 (by decide), h.2.2.2.2.1 7 3 (by decide)⟩

/-- At height 5 the layer of block 3 goes; at height 100 a recent layer goes because its block hash
was also sent with a low number. -/
theorem recent_layers_pruned :
    ¬ (run [.handleDiffLayer 5 ⟨7, 3, 1⟩ "peer" true]).PrunesExactly 5 ∧
      ¬ (run [.handleDiffLayer 90 ⟨7, 80, 1⟩ "peer" true,
        .handleDiffLayer 100 ⟨7, 100, 2⟩ "peer" true]).PrunesExactly 100 := by
  constructor
  · intro h
    have hkept := (h 7 1 ⟨7, 3, 1⟩ (by decide)).1 (by decide)
    revert hkept
    decide
  · intro h
    have hkept := (h 7 2 ⟨7, 100, 2⟩ (by decide)).1 (by decide)
    revert hkept
    decide

end DiffIndex

end Dexit.Core
