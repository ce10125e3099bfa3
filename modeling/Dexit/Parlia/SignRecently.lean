import Dexit.Parlia.RecentSigners
import Dexit.Parlia.Transparency

/-! The miner asks whether it may sign before it starts to work on a block. It
asks with the number of the head and the hash of the block before it. -/

namespace Dexit.Parlia

open Outcome List UInt64 Option

section
variable (crypto : Crypto) (config : ParliaConfig) (chain : HeaderReader) (rounds : ℕ)
  (store : Store) (val : Address)

/-- A signature of `val` that is not shifted out by block `number`. -/
def mustWait (snap : Snapshot) (number : UInt64) (val : Address) : Bool :=
  signedWithin snap val fun seen limit => decide (number < limit) || decide (number - limit < seen)

/-- The result and the error on a snapshot. -/
def answer (snap : Snapshot) (number : UInt64) (val : Address) : Option (Bool × Option Err) :=
  if val ∉ snap.validators.1 then some (true, some .errUnauthorizedValidator)
  else if mustWait snap number val then some (true, none)
  else some (false, none)

def signRecently (parent : Header) : Option (Bool × Option Err) :=
  match snapshot crypto config chain rounds store parent.number64 parent.parentHash [] with
  | none => none
  | some (.error e, _) => some (true, some e)
  | some (.ok snap, _) => answer snap (parent.number64 + 1) val

/-- `Seal` up to the signature; a chain without a period pauses on empty blocks. -/
def sealNext (header : Header) (transactions : ℕ) : Option (Except Err Sealing) :=
  if header.number64 = 0 then some (.error .errUnknownBlock)
  else if config.period = 0 ∧ transactions = 0 then some (.ok .paused)
  else
    match snapshot crypto config chain rounds store (header.number64 - 1) header.parentHash [] with
    | none => none
    | some (.error e, _) => some (.error e)
    | some (.ok snap, _) => some (sealCheck snap header.number64 val)

end

/-- What `signRecently` says is what `Seal` does. -/
def Agrees (asked : Option (Bool × Option Err)) (sealed : Option (Except Err Sealing)) : Prop :=
  (asked = some (false, none) →
    sealed ≠ some (.error .errUnauthorizedValidator) ∧ sealed ≠ some (.ok .waits)) ∧
  (asked = some (true, none) →
    sealed = some (.error .errUnauthorizedValidator) ∨ sealed = some (.ok .waits))

variable {snap : Snapshot}

theorem mustWait_iff {number : UInt64} {val : Address}
    (hbelow : ∀ k ∈ snap.recents, k.toNat < number.toNat) :
    mustWait snap number val = true ↔ Counts snap number val := by
  rw [← seal_counts_iff hbelow, mustWait, signedWithin_iff]
  simp only [Bool.or_eq_true, decide_eq_true_eq]

/-! ## What the parent block changes -/

/-- The snapshot before the parent block gives another answer for the block
after it: `val` sealed the parent and is not alone, or the parent changed the
validators and `val` is not among them any more, or a signature of `val` counts
again because the window has grown, or no longer because it has shrunk. -/
def Misjudged (crypto : Crypto) (old new : Snapshot) (parent : Header) (number : UInt64)
    (val : Address) : Prop :=
  (ecrecover crypto parent = .ok val ∧ 2 ≤ new.validators.1.card) ∨
  (val ∉ new.validators.1 ∧ ¬ Counts old number val) ∨
  (∃ k, old.recents.lookup k = some val ∧ number.toNat = k.toNat + old.limit ∧
    number.toNat < k.toNat + new.limit) ∨
  (val ∈ new.validators.1 ∧ ∃ k, old.recents.lookup k = some val ∧
    number.toNat < k.toNat + old.limit ∧ k.toNat + new.limit ≤ number.toNat)

section
variable {crypto : Crypto} {config : ParliaConfig} {chain : ChainReader} {parents : List Header}
  {blocks : List Applied} {old new : Snapshot} {parent : Header} {number : UInt64} {val : Address}

theorem two_le_limit {s : Snapshot} : 2 ≤ s.limit ↔ 2 ≤ s.validators.1.card := by
  unfold Snapshot.limit
  omega

section
variable (hold : Recorded crypto blocks old)
  (later : parent.number64 ≠ 0)
  (ok : old.apply crypto config chain parents [parent] = .ok new)
  (hnumber : number.toNat = new.number.toNat + 1)
include hold later ok hnumber

/-- Who has to wait after the parent block. -/
theorem counts_after : Counts new number val ↔
      (ecrecover crypto parent = .ok val ∧ 2 ≤ new.validators.1.card) ∨
      ∃ k, old.recents.lookup k = some val ∧ number.toNat ≤ k.toNat + old.limit ∧
        number.toNat < k.toNat + new.limit := by
  obtain ⟨_, signer, hsigner, _, hlookup⟩ := hold.step later ok
  rw [hsigner, ← two_le_limit]
  constructor
  · rintro ⟨k, hk, hlt⟩
    obtain ⟨rfl, rfl⟩ | ⟨hk, hcount, _⟩ := (hlookup k val).mp hk
    · exact .inl ⟨rfl, by omega⟩
    · exact .inr ⟨k, hk, by omega, hlt⟩
  · rintro (⟨hval, htwo⟩ | ⟨k, hk, hcount, hlt⟩)
    · cases hval
      exact ⟨new.number, (hlookup _ _).mpr (.inl ⟨rfl, rfl⟩), by omega⟩
    · exact ⟨k, (hlookup k val).mpr (.inr ⟨hk, by omega, by omega⟩), hlt⟩

/-- Nobody who just signed had to wait before. -/
theorem signer_free (hval : ecrecover crypto parent = .ok val) : ¬ Counts old number val := by
  obtain ⟨_, signer, hsigner, hfree, _⟩ := hold.step later ok
  rw [hsigner] at hval
  cases hval
  rintro ⟨k, hk, hlt⟩
  exact hfree ⟨k, hk, by omega⟩

theorem misjudged_iff : Misjudged crypto old new parent number val ↔
      ((¬ Counts old number val ∧ (val ∉ new.validators.1 ∨ Counts new number val)) ∨
        (Counts old number val ∧ val ∈ new.validators.1 ∧ ¬ Counts new number val)) := by
  rw [counts_after hold later ok hnumber]
  constructor
  · rintro (hsigned | ⟨hout, hno⟩ | ⟨k, hk, heq, hlt⟩ | ⟨hin, k, hk, hcount, hpast⟩)
    · exact .inl ⟨signer_free hold later ok hnumber hsigned.1, .inr (.inl hsigned)⟩
    · exact .inl ⟨hno, .inl hout⟩
    · refine .inl ⟨?_, .inr (.inr ⟨k, hk, heq.le, hlt⟩)⟩
      rintro ⟨l, hl, hcount⟩
      obtain rfl := hold.once k l val hk hl
      omega
    · refine .inr ⟨⟨k, hk, hcount⟩, hin, ?_⟩
      rintro (⟨hval, _⟩ | ⟨l, hl, _, hlt⟩)
      · exact signer_free hold later ok hnumber hval ⟨k, hk, hcount⟩
      · obtain rfl := hold.once k l val hk hl
        omega
  · rintro (⟨hno, hout | hsigned | ⟨k, hk, hle, hlt⟩⟩ | ⟨⟨k, hk, hcount⟩, hin, hno⟩)
    · exact .inr (.inl ⟨hout, hno⟩)
    · exact .inl hsigned
    · have heq : number.toNat = k.toNat + old.limit := by
        apply le_antisymm hle
        by_contra hlt'
        exact hno ⟨k, hk, not_le.mp hlt'⟩
      exact .inr (.inr (.inl ⟨k, hk, heq, hlt⟩))
    · refine .inr (.inr (.inr ⟨hin, k, hk, hcount, ?_⟩))
      by_contra hlt
      exact hno (.inr ⟨k, hk, Nat.le_of_lt hcount, not_le.mp hlt⟩)

end

end

theorem agrees_iff {asked : Option (Bool × Option Err)} {old new : Snapshot} {number : UInt64}
    {val : Address} (hasked : asked = answer old number val)
    (hold : ∀ k ∈ old.recents, k.toNat < number.toNat)
    (hnew : ∀ k ∈ new.recents, k.toNat < number.toNat) :
    Agrees asked (some (sealCheck new number val)) ↔ ¬ (val ∈ old.validators.1 ∧
      ((¬ Counts old number val ∧ (val ∉ new.validators.1 ∨ Counts new number val)) ∨
        (Counts old number val ∧ val ∈ new.validators.1 ∧ ¬ Counts new number val))) := by
  have hseal : sealCheck new number val =
      if val ∉ new.validators.1 then .error .errUnauthorizedValidator
      else if mustWait new number val then .ok .waits else .ok .signs := rfl
  rw [hasked, hseal, ← mustWait_iff hold, ← mustWait_iff hnew, answer, Agrees]
  by_cases hin : val ∈ old.validators.1 <;> by_cases hout : val ∈ new.validators.1 <;>
    cases mustWait old number val <;> cases mustWait new number val <;> simp [hin, hout]

/-! ## The node -/

/-- A node whose head is the tip of the chain. A header that is found by its
hash is the right one, whatever number it was asked for with. Nothing is stored
for the parent that the genesis block names. -/
structure Head (crypto : Crypto) (config : ParliaConfig) extends View crypto config where
  all_known : known = chain.tip
  next_lt : chain.tip + 1 < 2 ^ 64
  cached : ∀ n ≤ chain.tip, ∀ number header,
    database.getHeader (chain.hash n) number = some header → header = chain.header n
  rootless : store.find 0 (chain.header 0).parentHash = none

namespace Head
open HeaderChain
variable {crypto : Crypto} {config : ParliaConfig} (h : Head crypto config) {m n : ℕ}

/-- Asked for with the number of the block after it, the snapshot of block `m`
is found all the same: a stored one is found by its hash, and so are the
headers above it, if they are in the header cache. -/
def Stale (m : ℕ) : Prop :=
  ∃ j ≤ m, (h.store.find (UInt64.ofNat (j + 1)) (h.chain.hash j)).isSome ∧
    ∀ i, j < i → i ≤ m → (h.database.getHeader (h.chain.hash i) (UInt64.ofNat (i + 1))).isSome

theorem stale_zero : h.Stale 0 ↔ (h.store.find 1 (h.chain.hash 0)).isSome := by
  constructor
  · rintro ⟨j, hj, hfind, _⟩
    rwa [Nat.le_zero.mp hj] at hfind
  · intro hfind
    exact ⟨0, le_rfl, hfind, fun i hlo hhi => absurd hlo (Nat.not_lt_of_le hhi)⟩

theorem stale_succ : h.Stale (m + 1) ↔
    (h.store.find (ofNat (m + 2)) (h.chain.hash (m + 1))).isSome ∨
      (h.database.getHeader (h.chain.hash (m + 1)) (ofNat (m + 2))).isSome ∧ h.Stale m := by
  constructor
  · rintro ⟨j, hj, hfind, hheaders⟩
    obtain rfl | hlt := Nat.eq_or_lt_of_le hj
    · exact .inl hfind
    · exact .inr ⟨hheaders (m + 1) hlt le_rfl, j, Nat.le_of_lt_succ hlt, hfind,
        fun i hlo hhi => hheaders i hlo (Nat.le_succ_of_le hhi)⟩
  · rintro (hfind | ⟨hheader, j, hj, hfind, hheaders⟩)
    · exact ⟨m + 1, le_rfl, hfind, fun i hlo hhi => absurd hlo (Nat.not_lt_of_le hhi)⟩
    refine ⟨j, Nat.le_succ_of_le hj, hfind, ?_⟩
    intro i hlo hhi
    obtain rfl | hlt := Nat.eq_or_lt_of_le hhi
    · exact hheader
    · exact hheaders i hlo (Nat.le_of_lt_succ hlt)

/-- What is stored for a block of the chain is its snapshot. -/
theorem find_valid {number : UInt64} (hm : m ≤ h.chain.tip)
    (hfind : h.store.find number (h.chain.hash m) = some snap) :
    h.chain.fromGenesis config m = some (.ok snap) := by
  apply h.valid m hm
  unfold Store.find at hfind
  split at hfind
  next hrecent =>
    cases hfind
    exact .inl hrecent
  · split at hfind
    · exact .inr hfind
    · cases hfind

/-- Applying the headers above a stored snapshot gives the snapshot of a later
block. -/
theorem apply_stored {j : ℕ} (hjm : j ≤ m) (hm : m ≤ h.chain.tip)
    (hsnap : h.chain.fromGenesis config j = some (.ok snap)) :
    snap.apply crypto config h.database.toChainReader [] (h.chain.between j m) =
      (h.chain.replay config m).map (h.chain.label m) := by
  obtain ⟨t, hreplay, rfl⟩ := (fromGenesis_ok (hjm.trans hm)).mp hsnap
  rw [apply_between t hjm hm, replay_append hjm, hreplay, ok_bind]
  congr 1
  apply foldlM_congr
  intro s header hheader
  obtain ⟨n, _, hn, rfl⟩ := of_mem_between hheader
  have hknown := h.all_known
  have hkept : ¬ (max h.known h.chain.tip + 1 < n ∧
      s.Switches crypto config (h.chain.header n)) := by
    rintro ⟨hout, _⟩
    omega
  have hsame := applyHeader_same h.database le_rfl (hn.trans hm) hkept
  rwa [between_nil (by omega)] at hsame

theorem toNat_next (hn : n ≤ h.chain.tip + 1) : (ofNat n).toNat = n :=
  toNat_ofNat_of_lt' (hn.trans_lt h.next_lt)

theorem ofNat_next_ne_zero (hn : n ≤ h.chain.tip) : ofNat (n + 1) ≠ 0 := by
  intro hzero
  have hnat := h.toNat_next (Nat.succ_le_succ hn)
  rw [hzero] at hnat
  cases hnat

section
variable (extra : ℕ) (hm : m ≤ h.chain.tip)
include extra hm

/-- The walk back from block `m` under the number of the block after it ends at
a stored snapshot. -/
theorem walkBack_stale (hstale : h.Stale m)
    (headers : List Header) : ∃ j ≤ m, ∃ snap, h.chain.fromGenesis config j = some (.ok snap) ∧
      walkBack crypto h.database.toHeaderReader (m + 2 + extra) h.store (ofNat (m + 1))
        (h.chain.hash m) [] headers =
          some (.ok ⟨snap, h.chain.between j m ++ headers, []⟩, h.store) := by
  induction m generalizing headers with
  | zero =>
    obtain ⟨snap, hfind⟩ := isSome_iff_exists.mp (h.stale_zero.mp hstale)
    refine ⟨0, le_rfl, snap, h.find_valid hm hfind, ?_⟩
    have hrounds : 0 + 2 + extra = 1 + extra + 1 := by omega
    have hone : ofNat (0 + 1) = 1 := rfl
    rw [hrounds, walkBack, hone, hfind, between_nil le_rfl, nil_append]
  | succ m ih =>
    have hrounds : m + 1 + 2 + extra = m + 2 + extra + 1 := by omega
    rw [hrounds, walkBack]
    cases hfind : h.store.find (ofNat (m + 1 + 1)) (h.chain.hash (m + 1)) with
    | some snap =>
      refine ⟨m + 1, le_rfl, snap, h.find_valid hm hfind, ?_⟩
      rw [between_nil le_rfl, nil_append]
    | none =>
      obtain hsome | ⟨hheader, hstale⟩ := h.stale_succ.mp hstale
      · rw [hfind] at hsome
        cases hsome
      obtain ⟨header, hheader⟩ := isSome_iff_exists.mp hheader
      obtain rfl := h.cached (m + 1) hm _ _ hheader
      obtain ⟨j, hj, snap, hsnap, hwalk⟩ := ih (by omega) hstale (h.chain.header (m + 1) :: headers)
      refine ⟨j, Nat.le_succ_of_le hj, snap, hsnap, ?_⟩
      have hne := h.ofNat_next_ne_zero hm
      have hpick : pickHeader crypto h.database.toHeaderReader (ofNat (m + 1 + 1))
          (h.chain.hash (m + 1)) [] = some (h.chain.header (m + 1), []) := by
        simp only [pickHeader, getLast?_nil, hheader, map_some]
      have hparent : (h.chain.header (m + 1)).parentHash = h.chain.hash m := h.chain.linked m hm
      simp only [hne, ↓reduceIte, hpick, ofNat_succ_sub_one, hparent, hwalk]
      rw [between_concat hj, append_assoc, singleton_append]

/-- Otherwise it ends without a header, or at the genesis block with one header
too many. -/
theorem walkBack_lost (hlost : ¬ h.Stale m) (headers : List Header) :
    let walked := walkBack crypto h.database.toHeaderReader (m + 2 + extra) h.store
      (ofNat (m + 1)) (h.chain.hash m) [] headers
    (∃ e store', walked = some (.error e, store')) ∨
      ∃ snap rest store', snap.number = 0 ∧
        walked = some (.ok ⟨snap, h.chain.header 0 :: rest, []⟩, store') := by
  dsimp only
  have hnone {k : ℕ} (hk : k ≤ h.chain.tip) : (if ofNat (k + 1) = 0 then
      h.database.getHeaderByNumber (ofNat (k + 1)) else none) = none :=
    if_neg (h.ofNat_next_ne_zero hk)
  have hpick {k : ℕ} (hk : k ≤ h.chain.tip) :
      pickHeader crypto h.database.toHeaderReader (ofNat (k + 1)) (h.chain.hash k) [] =
        if (h.database.getHeader (h.chain.hash k) (ofNat (k + 1))).isSome then
          some (h.chain.header k, []) else none := by
    simp only [pickHeader, getLast?_nil]
    cases hget : h.database.getHeader (h.chain.hash k) (ofNat (k + 1)) with
    | none => rfl
    | some header =>
      obtain rfl := h.cached k hk _ _ hget
      rfl
  induction m generalizing headers with
  | zero =>
    have hfind : h.store.find (ofNat (0 + 1)) (h.chain.hash 0) = none :=
      not_isSome_iff_eq_none.mp (mt h.stale_zero.mpr hlost)
    have hrounds : 0 + 2 + extra = extra + 1 + 1 := by omega
    rw [hrounds, walkBack]
    simp only [hfind, hnone hm, hpick hm]
    split
    · left
      exact ⟨_, _, rfl⟩
    next header rest hheader =>
    split at hheader
    · cases hheader
      rw [ofNat_succ_sub_one, walkBack]
      have hzero : ofNat 0 = 0 := rfl
      simp only [hzero, h.rootless, ↓reduceIte, h.database.genesis]
      cases hinit : initialSnapshot crypto 0 (h.chain.header 0) with
      | error e => exact .inl ⟨_, _, rfl⟩
      | ok snap =>
        right
        refine ⟨snap, _, _, ?_, rfl⟩
        rw [← label_initialSnapshot hinit]
        rfl
    · cases hheader
  | succ m ih =>
    rw [h.stale_succ, not_or, not_and] at hlost
    have hfind := not_isSome_iff_eq_none.mp hlost.1
    have hrounds : m + 1 + 2 + extra = m + 2 + extra + 1 := by omega
    have hparent := h.chain.linked m hm
    rw [hrounds, walkBack]
    simp only [hfind, hnone hm, hpick hm]
    split
    · left
      exact ⟨_, _, rfl⟩
    next header rest hheader =>
    split at hheader
    next hsome =>
      cases hheader
      rw [ofNat_succ_sub_one, hparent]
      exact ih (by omega) (hlost.2 hsome) _
    · cases hheader

/-! ## What the two find -/

end

theorem snapshot_head (extra : ℕ) : ∃ store',
    snapshot crypto config h.database.toHeaderReader (h.chain.tip + 1 + extra) h.store
      (ofNat h.chain.tip) (h.chain.hash h.chain.tip) [] =
        some ((h.chain.replay config h.chain.tip).map (h.chain.label h.chain.tip), store') := by
  have hknown := h.all_known
  obtain ⟨store', hsnap⟩ := snapshot_between config h.database h.store extra le_rfl
  have hnewest := h.toView.newest_le_tip
  have hbase : h.chain.base h.store (h.chain.newest h.store h.chain.tip) =
    (h.chain.replay config h.toView.newest).map (h.chain.label h.toView.newest) := h.toView.base_eq
  have hnone : h.chain.between h.known (h.chain.newest h.store h.chain.tip) = [] :=
    between_nil (hnewest.trans hknown.ge)
  rw [between_nil hknown.ge, hbase, hnone] at hsnap
  refine ⟨store', hsnap.trans ?_⟩
  cases hreplay : h.chain.replay config h.toView.newest with
  | error e =>
    rw [replay_append hnewest, hreplay]
    rfl
  | ok t =>
    have hstored := (fromGenesis_ok hnewest).mpr ⟨t, hreplay, rfl⟩
    have happly := h.apply_stored hnewest le_rfl hstored
    exact congrArg (fun r => some (r, store')) happly

/-! ## The question and the answer -/

/-- The snapshot of the block before the head is found, `val` is a validator in
it, and it gives the wrong answer. -/
def Misled (val : Address) (new : Snapshot) : Prop :=
  ∃ m old, h.chain.tip = m + 1 ∧ h.Stale m ∧ h.chain.fromGenesis config m = some (.ok old) ∧
    val ∈ old.validators.1 ∧
      Misjudged crypto old new (h.chain.header (m + 1)) (UInt64.ofNat (h.chain.tip + 1)) val

section
variable (extra : ℕ) (val : Address)
include extra val

theorem signRecently_stale {old : Snapshot} (htip : h.chain.tip = m + 1) (hstale : h.Stale m)
    (hold : h.chain.fromGenesis config m = some (.ok old)) :
    signRecently crypto config h.database.toHeaderReader (h.chain.tip + 1 + extra) h.store val
      (h.chain.header h.chain.tip) = answer old (ofNat (h.chain.tip + 1)) val := by
  have hm : m ≤ h.chain.tip := by omega
  have hparent : (h.chain.header (m + 1)).parentHash = h.chain.hash m := h.chain.linked m htip.ge
  obtain ⟨j, hj, snap, hsnap, hwalk⟩ := h.walkBack_stale extra hm hstale []
  rw [fromGenesis_eq hm, some_inj] at hold
  unfold signRecently snapshot
  rw [htip, number64_eq htip.ge, hparent, hwalk, append_nil]
  simp only [h.apply_stored hj hm hsnap, hold, ofNat_add (m + 1) 1]
  by_cases hdue : old.number % checkpointInterval = 0 ∧ h.chain.between j m ≠ []
  · simp only [if_pos hdue]
    rfl
  · simp only [if_neg hdue]
    rfl

theorem signRecently_lost (hm : m + 1 ≤ h.chain.tip) (hlost : ¬ h.Stale m) :
    ∃ e, signRecently crypto config h.database.toHeaderReader (m + 2 + extra) h.store val
      (h.chain.header (m + 1)) = some (true, some e) := by
  have hparent : (h.chain.header (m + 1)).parentHash = h.chain.hash m := h.chain.linked m hm
  unfold signRecently
  rw [number64_eq hm, hparent]
  unfold snapshot
  obtain ⟨e, store', hwalk⟩ | ⟨snap, rest, store', hnumber, hwalk⟩ :=
    h.walkBack_lost extra (Nat.le_of_succ_le hm) hlost []
  · rw [hwalk]
    exact ⟨_, rfl⟩
  rw [hwalk]
  cases happly : snap.apply crypto config h.database.toChainReader [] (h.chain.header 0 :: rest)
    with
  | error e =>
    simp only [happly]
    exact ⟨_, rfl⟩
  | ok t =>
    have hone := (Snapshot.apply_ok.mp happly).2.1
    rw [hnumber, number64_eq (Nat.zero_le _)] at hone
    cases hone

/-- For the genesis block the number is zero, which is right. -/
theorem signRecently_root {new : Snapshot} (htip : h.chain.tip = 0)
    (hnew : h.chain.fromGenesis config h.chain.tip = some (.ok new)) :
    signRecently crypto config h.database.toHeaderReader (h.chain.tip + 1 + extra) h.store val
      (h.chain.header h.chain.tip) = answer new (ofNat (h.chain.tip + 1)) val := by
  rw [htip, fromGenesis_eq (Nat.zero_le _), replay_zero, some_inj] at hnew
  have hrounds : 0 + 1 + extra = extra + 1 := by omega
  have hzero : ofNat 0 = 0 := rfl
  unfold signRecently snapshot
  rw [htip, hrounds, number64_eq (Nat.zero_le _), hzero, walkBack]
  simp only [h.rootless, ↓reduceIte, h.database.genesis, hnew, Snapshot.apply, ne_eq,
    not_true_eq_false, and_false]
  rfl

end

theorem fromGenesis_below {s : Snapshot} (hn : n ≤ h.chain.tip)
    (hs : h.chain.fromGenesis config n = some (.ok s)) :
    ∀ k ∈ s.recents, k.toNat < (ofNat (h.chain.tip + 1)).toNat := by
  intro k hk
  have hle := (reachable_window (fromGenesis_reachable hn hs) k hk).1
  obtain ⟨t, _, rfl⟩ := (fromGenesis_ok hn).mp hs
  have hnumber : (h.chain.label n t).number.toNat = n := h.toNat_next (Nat.le_succ_of_le hn)
  rw [h.toNat_next le_rfl]
  omega

/-- The miner is told the truth about the next block unless it is misled. -/
theorem signRecently_agrees_iff {new : Snapshot} {child : Header} {transactions : ℕ}
    (hnew : h.chain.fromGenesis config h.chain.tip = some (.ok new))
    (hnumber : child.number = h.chain.tip + 1)
    (hparent : child.parentHash = h.chain.hash h.chain.tip)
    (hbusy : ¬ (config.period = 0 ∧ transactions = 0)) (val : Address) (extra : ℕ) :
    Agrees (signRecently crypto config h.database.toHeaderReader (h.chain.tip + 1 + extra) h.store
        val (h.chain.header h.chain.tip))
      (sealNext crypto config h.database.toHeaderReader (h.chain.tip + 1 + extra) h.store val child
        transactions) ↔ ¬ h.Misled val new := by
  have hnum : child.number64 = ofNat (h.chain.tip + 1) := by rw [Header.number64, hnumber]
  obtain ⟨store', hsnap⟩ := h.snapshot_head extra
  rw [sealNext, hnum, if_neg (h.ofNat_next_ne_zero le_rfl), if_neg hbusy, ofNat_succ_sub_one, hparent,
    hsnap, some_inj.mp ((fromGenesis_eq le_rfl).symm.trans hnew)]
  have hbelow := h.fromGenesis_below le_rfl hnew
  obtain htip | ⟨m, htip⟩ : h.chain.tip = 0 ∨ ∃ m, h.chain.tip = m + 1 := by
    cases h.chain.tip with
    | zero => exact .inl rfl
    | succ m => exact .inr ⟨m, rfl⟩
  · -- at the genesis block both look at the same snapshot
    have hroot := h.signRecently_root extra val htip hnew
    have hmisled : ¬ h.Misled val new := by
      rintro ⟨m, _, hm, _⟩
      omega
    refine iff_of_true ((agrees_iff hroot hbelow hbelow).mpr ?_) hmisled
    rintro ⟨_, ⟨hno, hout | hcount⟩ | ⟨hcount, _, hno⟩⟩
    · contradiction
    · exact hno hcount
    · exact hno hcount
  · have hm : m + 1 ≤ h.chain.tip := htip.ge
    by_cases hstale : h.Stale m
    · obtain ⟨old, hold, happly⟩ := fromGenesis_succ hm (htip ▸ hnew)
      have hasked := h.signRecently_stale extra val htip hstale hold
      have hbefore := h.fromGenesis_below (Nat.le_of_succ_le hm) hold
      obtain ⟨blocks, hgrown⟩ :=
        reachable_iff_grown.mp (fromGenesis_reachable (Nat.le_of_succ_le hm) hold)
      have hlater : (h.chain.header (m + 1)).number64 ≠ 0 := by
        rw [number64_eq hm]
        exact ofNat_succ_ne_zero hm
      have hnext : (ofNat (h.chain.tip + 1)).toNat = new.number.toNat + 1 := by
        obtain ⟨t, _, rfl⟩ := (fromGenesis_ok le_rfl).mp hnew
        rw [h.toNat_next le_rfl]
        exact congrArg (· + 1) (h.toNat_next (Nat.le_succ _)).symm
      rw [agrees_iff hasked hbefore hbelow, ← misjudged_iff hgrown.recorded hlater happly hnext]
      refine not_congr ⟨fun hval => ⟨m, old, htip, hstale, hold, hval.1, hval.2⟩, ?_⟩
      rintro ⟨m', old', hm', _, hold', hval, hwrong⟩
      obtain rfl : m' = m := by omega
      rw [hold] at hold'
      cases hold'
      exact ⟨hval, hwrong⟩
    · obtain ⟨e, hlost⟩ := h.signRecently_lost extra val htip.ge hstale
      have hmisled : ¬ h.Misled val new := by
        rintro ⟨m', _, hm', hstale', _⟩
        obtain rfl : m' = m := by omega
        exact hstale hstale'
      refine iff_of_true ?_ hmisled
      rw [htip, hlost]
      constructor <;> intro hanswer <;> cases hanswer

end Head

/-! ## The head is block 2, sealed by validator 2 -/

theorem fourChain_hash_inj {m n : ℕ} (hm : m ≤ 2) (hn : n ≤ 2)
    (h : fourChain.hash m = fourChain.hash n) : m = n := by
  have hhash {k : ℕ} (hk : k ≤ 2) : (fourChain.hash k).toNat = k := by
    have hnumber : fourChain.hash k = BitVec.ofNat 256 (fourChain.header k).number := rfl
    rw [hnumber, fourChain.numbered k hk, BitVec.toNat_ofNat]
    exact Nat.mod_eq_of_lt (by omega)
  rw [← hhash hm, h, hhash hn]

/-- The snapshot of block 1 is in memory: block 2 was verified with it. -/
def fourHead : Head plainCrypto plainConfig where
  chain := fourChain
  known := 2
  known_le := le_rfl
  database := fourChain.complete
  store :=
    { recentSnaps := fun hash =>
        if hash = fourChain.hash 1 then
          (fourChain.fromGenesis plainConfig 1).bind Except.toOption
        else none }
  valid n hn snap hstored := by
    obtain hrecent | hdisk := hstored
    · simp only at hrecent
      split at hrecent
      next hhash =>
        obtain rfl := fourChain_hash_inj hn (by decide) hhash
        obtain ⟨r, hr, hsnap⟩ := Option.bind_eq_some_iff.mp hrecent
        cases r with
        | error e => cases hsnap
        | ok t =>
          cases hsnap
          exact hr
      · cases hrecent
    · cases hdisk
  all_known := rfl
  next_lt := by decide
  cached n hn number header hfound := by
    simp only [HeaderChain.complete] at hfound
    split at hfound
    next hnumber =>
      cases hfound
      rw [fourChain_hash_inj hn hnumber.1 hnumber.2]
    · cases hfound
  rootless := by decide +kernel

/-- Validator 1 has sealed block 1 and is told to wait, as it has to. -/
theorem fourHead_waits : ∃ new, fourChain.fromGenesis plainConfig 2 = some (.ok new) ∧
    ¬ fourHead.Misled 1 new := by
  have hok : (fourChain.fromGenesis plainConfig 2).map (fun r => r.map fun _ => ()) =
      some (.ok ()) := by decide +kernel
  obtain ⟨r, hnew, hr⟩ := map_eq_some_iff.mp hok
  cases r with
  | error e => cases hr
  | ok new =>
    refine ⟨new, hnew, ?_⟩
    have hagrees : Agrees
        (signRecently plainCrypto plainConfig fourHead.database.toHeaderReader 3 fourHead.store 1
          (fourChain.header 2))
        (sealNext plainCrypto plainConfig fourHead.database.toHeaderReader 3 fourHead.store 1
          (blockBy 1 3 2) 0) ↔ ¬ fourHead.Misled 1 new :=
      fourHead.signRecently_agrees_iff hnew rfl rfl (by decide) 1 0
    refine hagrees.mp ?_
    have hasked : signRecently plainCrypto plainConfig fourHead.database.toHeaderReader 3
      fourHead.store 1 (fourChain.header 2) = some (true, none) := by decide +kernel
    have hseal : sealNext plainCrypto plainConfig fourHead.database.toHeaderReader 3
      fourHead.store 1 (blockBy 1 3 2) 0 = some (.ok .waits) := by decide +kernel
    exact ⟨fun h => absurd (hasked.symm.trans h) (by decide), fun _ => .inr hseal⟩

/-- Validator 2 has just sealed the head. It is told to go on, and then waits. -/
theorem fourHead_misled :
    signRecently plainCrypto plainConfig fourHead.database.toHeaderReader 3 fourHead.store 2
      (fourChain.header 2) = some (false, none) ∧
    sealNext plainCrypto plainConfig fourHead.database.toHeaderReader 3 fourHead.store 2
      (blockBy 2 3 2) 0 = some (.ok .waits) := by
  decide +kernel

end Dexit.Parlia
