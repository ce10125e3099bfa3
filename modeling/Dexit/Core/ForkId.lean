import Dexit.Go.Sort
import Dexit.Params.Config

/-!
# Fork identifiers

A node announces the checksum of the forks it has passed and the next one it
knows of. The other side keeps the checksums of all prefixes of its own forks
and looks for the announced one among them.
-/

namespace Dexit.ForkId

open Params List

abbrev Bytes := List UInt8

/-- `hash/crc32` of the standard library: the two entry points used here. -/
structure Crc32 where
  checksumIEEE : Bytes → UInt32
  update : UInt32 → Bytes → UInt32

def maxUint64 : ℕ := 2 ^ 64 - 1

/-- The big-endian bytes of a number, `width` of them. -/
def bigEndian (width n : ℕ) : Bytes :=
  (List.range width).reverse.map fun i => UInt8.ofNat (n >>> (8 * i))

/-- The fork identifier of EIP-2124. -/
structure ID where
  hash : Bytes
  next : ℕ
deriving Repr, DecidableEq

inductive Err
  | remoteStale
  | localIncompatibleOrStale
deriving Repr, DecidableEq

def checksumToBytes (hash : UInt32) : Bytes := bigEndian 4 hash.toNat

/-- The fork blocks of the configuration in rising order and without repetition. -/
def scheduledBlocks (config : ChainConfig) : List ℕ :=
  Go.compact (Go.exchangeSort (config.blocks.filterMap fun rule => rule.map uint64))

/-- The forks in block zero are the rules of the genesis and are skipped. -/
def gatherForks (config : ChainConfig) : List ℕ :=
  match scheduledBlocks config with
  | 0 :: forks => forks
  | forks => forks

section
variable (crc : Crc32) (config : ChainConfig) (genesis : Bytes)

def checksumUpdate (hash : UInt32) (fork : ℕ) : UInt32 := crc.update hash (bigEndian 8 fork)

/-- The loop of `NewID`: passed forks go into the checksum, the first one that
is not passed is the next. -/
def newIDFrom (head : ℕ) (hash : UInt32) : List ℕ → ID
  | [] => ⟨checksumToBytes hash, 0⟩
  | fork :: forks =>
    if fork ≤ head then newIDFrom head (checksumUpdate crc hash fork) forks
    else ⟨checksumToBytes hash, fork⟩

def newID (head : ℕ) : ID :=
  newIDFrom crc head (crc.checksumIEEE genesis) (gatherForks config)

/-- The checksums of the prefixes of the fork list; the first is the genesis. -/
def sums : List Bytes :=
  ((gatherForks config).scanl (checksumUpdate crc) (crc.checksumIEEE genesis)).map checksumToBytes

/-- The filter a node at `head` applies to a remote identifier; no error means
that it keeps the connection. -/
def newFilter (head : ℕ) (id : ID) : Option Err :=
  let sums := sums crc config genesis
  let forks := gatherForks config ++ [maxUint64]
  match forks.findIdx? (fun fork => ¬ head > fork) with
  | none => none
  | some i =>
    if sums[i]? = some id.hash then
      if id.next > 0 ∧ head ≥ id.next then some .localIncompatibleOrStale else none
    else
      match (List.range i).find? fun j => sums[j]? = some id.hash with
      | some j => if forks[j]? ≠ some id.next then some .remoteStale else none
      | none =>
        if (sums.drop (i + 1)).contains id.hash then none
        else some .localIncompatibleOrStale

end

theorem gatherForks_sorted (config : ChainConfig) : (gatherForks config).Pairwise (· < ·) := by
  have hs : (scheduledBlocks config).Pairwise (· < ·) :=
    Go.compact_sorted (Go.exchangeSort_sorted _)
  unfold gatherForks
  split
  next forks heq => rw [heq] at hs; exact (pairwise_cons.mp hs).2
  next => exact hs

section
variable {crc : Crc32} {config : ChainConfig} {genesis : Bytes}

/-- The index of the first fork above `b`. -/
def upcoming (forks : List ℕ) (b : ℕ) : ℕ := forks.findIdx fun fork => b < fork

theorem newIDFrom_eq (head : ℕ) (hash : UInt32) (forks : List ℕ) :
    newIDFrom crc head hash forks =
      ⟨checksumToBytes ((forks.take (upcoming forks head)).foldl (checksumUpdate crc) hash),
        forks[upcoming forks head]?.getD 0⟩ := by
  induction forks generalizing hash with
  | nil => rfl
  | cons fork forks ih =>
    unfold newIDFrom
    by_cases h : fork ≤ head
    · have hup : upcoming (fork :: forks) head = upcoming forks head + 1 := by
        simp [upcoming, findIdx_cons, not_lt.mpr h]
      rw [if_pos h, ih, hup]
      simp
    · have hup : upcoming (fork :: forks) head = 0 := by
        simp [upcoming, findIdx_cons, not_le.mp h]
      rw [if_neg h, hup]
      simp

/-- The announced checksum is the one at the index of the next fork. -/
theorem newID_hash (b : ℕ) :
    (sums crc config genesis)[upcoming (gatherForks config) b]? =
      some (newID crc config genesis b).hash := by
  have hle : upcoming (gatherForks config) b ≤ (gatherForks config).length := findIdx_le_length
  rw [newID, newIDFrom_eq, sums, getElem?_map, getElem?_scanl, if_pos hle]
  rfl

theorem newID_next (b : ℕ) :
    (newID crc config genesis b).next =
      (gatherForks config)[upcoming (gatherForks config) b]?.getD 0 := by
  rw [newID, newIDFrom_eq]

/-- Where the checksums differ, no other prefix has the announced one. -/
theorem sums_eq_hash (hd : (sums crc config genesis).Nodup) (b j : ℕ) :
    (sums crc config genesis)[j]? = some (newID crc config genesis b).hash ↔
      j = upcoming (gatherForks config) b := by
  constructor
  · intro h
    have hj : j < (sums crc config genesis).length := (List.getElem?_eq_some_iff.mp h).1
    exact (getElem?_inj hj hd).mp (h.trans (newID_hash b).symm)
  · rintro rfl
    exact newID_hash b

/-- The index of the first fork block that is not below `a`. -/
def unpassed (forks : List ℕ) (a : ℕ) : ℕ := forks.findIdx fun fork => a ≤ fork

theorem findIdx?_unpassed (forks : List ℕ) {a : ℕ} (ha : a ≤ maxUint64) :
    (forks ++ [maxUint64]).findIdx? (fun fork => ¬ a > fork) = some (unpassed forks a) := by
  induction forks with
  | nil => simp [unpassed, ha]
  | cons fork forks ih =>
    rw [cons_append, findIdx?_cons, ih]
    by_cases h : a ≤ fork <;> simp [unpassed, findIdx_cons, h]

theorem find?_range_eq (i k : ℕ) :
    (range i).find? (fun j => decide (j = k)) = if k < i then some k else none := by
  split
  next h => simp [find?_range_eq_some, h]; omega
  next h => simp; omega

/-- The rules of the filter, in terms of the two indices only: behind a remote
checksum of a subset or a superset the filter never rejects. -/
theorem newFilter_newID (hd : (sums crc config genesis).Nodup) {a : ℕ} (ha : a ≤ maxUint64)
    (b : ℕ) :
    newFilter crc config genesis a (newID crc config genesis b) = none ↔
      ¬ (unpassed (gatherForks config) a = upcoming (gatherForks config) b ∧
        0 < (newID crc config genesis b).next ∧ (newID crc config genesis b).next ≤ a) := by
  simp only [newFilter, findIdx?_unpassed _ ha, sums_eq_hash hd, find?_range_eq]
  set forks := gatherForks config
  have hi : unpassed forks a ≤ forks.length := findIdx_le_length
  rcases Nat.lt_trichotomy (upcoming forks b) (unpassed forks a) with h | h | h
  · -- the remote side is behind and announces the fork that follows its own
    have hk : upcoming forks b < forks.length := by omega
    have hnext : (forks ++ [maxUint64])[upcoming forks b]? =
        some (newID crc config genesis b).next := by
      rw [newID_next, getElem?_append_left hk, getElem?_eq_getElem hk]
      rfl
    simp [h, h.ne', hnext]
  · simp [h]
  · -- the remote side is ahead: its checksum is one of the later ones
    have hmem : (newID crc config genesis b).hash ∈
        (sums crc config genesis).drop (unpassed forks a + 1) := by
      rw [mem_iff_getElem?]
      refine ⟨upcoming forks b - (unpassed forks a + 1), ?_⟩
      rw [getElem?_drop, Nat.add_sub_cancel' h]
      exact newID_hash b
    simp [h.ne, not_lt.mpr h.le, hmem]

end

section
variable {forks : List ℕ} {a b : ℕ}

theorem lt_of_upcoming (h : upcoming forks b < forks.length) : b < forks[upcoming forks b] :=
  of_decide_eq_true (findIdx_getElem (w := h))

theorem le_of_lt_upcoming {j : ℕ} (hj : j < upcoming forks b) (hl : j < forks.length) :
    forks[j] ≤ b := by
  have := not_of_lt_findIdx hj
  simpa using this

theorem le_of_unpassed (h : unpassed forks a < forks.length) : a ≤ forks[unpassed forks a] :=
  of_decide_eq_true (findIdx_getElem (w := h))

theorem getElem_le (hs : forks.Pairwise (· < ·)) {i j : ℕ} (hij : i ≤ j) (hj : j < forks.length) :
    forks[i] ≤ forks[j] := by
  obtain rfl | hlt := Nat.eq_or_lt_of_le hij
  · exact le_rfl
  · exact (pairwise_iff_getElem.mp hs i j (by omega) hj hlt).le

/-- Local and remote node share a checksum although the local head has reached
the announced block exactly when that block is the local head and the next fork
after the remote head. -/
theorem reached_announced_iff (hs : forks.Pairwise (· < ·)) :
    (unpassed forks a = upcoming forks b ∧
      0 < forks[upcoming forks b]?.getD 0 ∧ forks[upcoming forks b]?.getD 0 ≤ a) ↔
    a ∈ forks ∧ b < a ∧ ∀ f ∈ forks, f ≤ b ∨ a ≤ f := by
  constructor
  · rintro ⟨heq, hpos, hle⟩
    have hk : upcoming forks b < forks.length := by
      by_contra hk
      rw [getElem?_eq_none (not_lt.mp hk)] at hpos
      exact absurd hpos (lt_irrefl 0)
    rw [getElem?_eq_getElem hk, Option.getD_some] at hle
    have ha : a = forks[upcoming forks b] := by
      have hge := le_of_unpassed (a := a) (heq ▸ hk)
      simp only [heq] at hge
      exact le_antisymm hge hle
    refine ⟨ha ▸ getElem_mem hk, ha ▸ lt_of_upcoming hk, ?_⟩
    intro f hf
    obtain ⟨j, hj, rfl⟩ := mem_iff_getElem.mp hf
    rcases lt_or_ge j (upcoming forks b) with hjk | hjk
    · exact Or.inl (le_of_lt_upcoming hjk hj)
    · exact Or.inr (ha ▸ getElem_le hs hjk hj)
  · rintro ⟨hmem, hlt, hgap⟩
    have hk : upcoming forks b < forks.length :=
      findIdx_lt_length_of_exists ⟨a, hmem, decide_eq_true hlt⟩
    have hbk := lt_of_upcoming hk
    have ha : forks[upcoming forks b] = a := by
      obtain ⟨j, hj, rfl⟩ := mem_iff_getElem.mp hmem
      have hjk : upcoming forks b ≤ j := by
        by_contra hjk
        exact absurd (le_of_lt_upcoming (not_le.mp hjk) hj) (not_le.mpr hlt)
      refine le_antisymm (getElem_le hs hjk hj) ?_
      exact (hgap _ (getElem_mem hk)).resolve_left (not_le.mpr hbk)
    rw [getElem?_eq_getElem hk, Option.getD_some, ha]
    refine ⟨?_, by omega, le_rfl⟩
    unfold unpassed
    rw [findIdx_eq hk]
    refine ⟨decide_eq_true ha.ge, ?_⟩
    intro j hj
    have hjb := le_of_lt_upcoming hj (hj.trans hk)
    exact decide_eq_false (by omega)

end

/-- A node accepts what a node of the same chain announces, with one exception:
its own head is a fork block, and that fork is the next one after the other head. -/
theorem newFilter_accepts_iff (crc : Crc32) (config : ChainConfig) (genesis : Bytes)
    (hd : (sums crc config genesis).Nodup) (a b : ℕ) (ha : a ≤ maxUint64) :
    newFilter crc config genesis a (newID crc config genesis b) = none ↔
      ¬ (a ∈ gatherForks config ∧ b < a ∧ ∀ f ∈ gatherForks config, f ≤ b ∨ a ≤ f) := by
  rw [newFilter_newID hd ha, newID_next, reached_announced_iff (gatherForks_sorted config)]

/-- One byte of the reflected CRC-32 of IEEE 802.3. -/
def ieeeByte (crc : UInt32) (byte : UInt8) : UInt32 :=
  (List.range 8).foldl (fun c _ => if c &&& 1 = 1 then (c >>> 1) ^^^ 0xEDB88320 else c >>> 1)
    (crc ^^^ byte.toUInt32)

def ieeeUpdate (crc : UInt32) (data : Bytes) : UInt32 :=
  ~~~ (data.foldl ieeeByte (~~~ crc))

/-- The checksum of the standard library. -/
def ieee : Crc32 := ⟨ieeeUpdate 0, ieeeUpdate⟩

/-- The hash of the main network's genesis block. -/
def mainnetGenesisHash : Bytes :=
  bigEndian 32 0xd4e56740f876aef8c010b86a40d5f56745a118d0906a34e69aec8c0db1cb8fa3

/-- The first two forks of the main network. -/
def twoForks : ChainConfig :=
  { frontier with homesteadBlock := some 1150000, daoForkBlock := some 1920000 }

example : newID ieee twoForks mainnetGenesisHash 1150000 =
    ⟨checksumToBytes 0x97c2c34c, 1920000⟩ := by
  decide +kernel

/-- One block behind within one fork, the peer is accepted. -/
theorem newFilter_accepts_within :
    newFilter ieee twoForks mainnetGenesisHash 1149999
      (newID ieee twoForks mainnetGenesisHash 1149998) = none :=
  (newFilter_accepts_iff ieee twoForks mainnetGenesisHash (by decide +kernel) 1149999 1149998
    (by decide)).mpr (by decide +kernel)

/-- The first Homestead block: the peer one block behind is turned away. -/
theorem newFilter_rejects_predecessor :
    (sums ieee twoForks mainnetGenesisHash).Nodup ∧
    newFilter ieee twoForks mainnetGenesisHash 1150000
      (newID ieee twoForks mainnetGenesisHash 1149999) = some .localIncompatibleOrStale := by
  decide +kernel

end Dexit.ForkId
