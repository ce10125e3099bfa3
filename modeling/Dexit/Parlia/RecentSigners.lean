import Dexit.Parlia.Signers

/-! Which blocks the recent signers of a snapshot are taken from. -/

namespace Dexit.Parlia

open Go Outcome List UInt64 AList Snapshot

/-- A header that was applied, and the snapshot after it. -/
structure Applied where
  header : Header
  after : Snapshot

/-- Block `k` of a history; block zero is the genesis block and is not in it. -/
def blockAt (blocks : List Applied) : ℕ → Option Applied
  | 0 => none
  | k + 1 => blocks[k]?

/-- A snapshot and the blocks it was reached by, one call of `apply` for each. -/
inductive Grown (crypto : Crypto) (config : ParliaConfig) : List Applied → Snapshot → Prop
  | genesis (hash : Hash) (validators : Slice Address) :
      Grown crypto config [] (newSnapshot 0 hash validators)
  | block {blocks : List Applied} {s t : Snapshot} {header : Header} (chain : ChainReader)
      (parents : List Header) (from_ : Grown crypto config blocks s)
      (later : header.number64 ≠ 0)
      (ok : s.apply crypto config chain parents [header] = .ok t) :
      Grown crypto config (blocks ++ [⟨header, t⟩]) t

/-- `signer` sealed block `k`. -/
def SignedBy (crypto : Crypto) (blocks : List Applied) (k : ℕ) (signer : Address) : Prop :=
  ∃ b, blockAt blocks k = some b ∧ ecrecover crypto b.header = .ok signer

/-- There are `n` validators now, and there were after each of the last `m` blocks. -/
def SteadySize (blocks : List Applied) (s : Snapshot) (n m : ℕ) : Prop :=
  s.validators.1.card = n ∧
    ∀ k b, blockAt blocks k = some b → s.number.toNat < k + m → b.after.validators.1.card = n

section
variable {crypto : Crypto} {config : ParliaConfig} {chain : ChainReader} {parents : List Header}
  {s t : Snapshot} {header : Header} {top : UInt64} {blocks : List Applied} {i k : ℕ} {v : Address}
  {b : Applied}

/-! ## One header -/

theorem changeValidators_lookup {number : UInt64} (hw : InWindow s.recents number s.limit)
    (newVals : KeySet Address) {k : UInt64} :
    (s.changeValidators number newVals).recents.lookup k = some v ↔
      s.recents.lookup k = some v ∧
        number.toNat < k.toNat + (s.changeValidators number newVals).limit := by
  have hnew : (s.changeValidators number newVals).limit = newVals.1.card / 2 + 1 := rfl
  have hrec : (s.changeValidators number newVals).recents =
    eraseDown s.recents (number - ofNat (newVals.1.card / 2 + 1))
      (s.limit - (newVals.1.card / 2 + 1)) := rfl
  rw [hnew, hrec]
  have hmem : k ∈ eraseDown s.recents (number - ofNat (newVals.1.card / 2 + 1))
      (s.limit - (newVals.1.card / 2 + 1)) ↔ _ := hw.mem_narrow (Nat.le_of_lt s.limit_lt)
  constructor
  · intro h
    have hk := lookup_isSome.mp (Option.isSome_of_eq_some h)
    rw [lookup_eraseDown hk] at h
    exact ⟨h, (hmem.mp hk).2⟩
  · rintro ⟨h, hlt⟩
    have hk := hmem.mpr ⟨mem_of_lookup h, hlt⟩
    rw [lookup_eraseDown hk]
    exact h

/-- What one header does to the recent signers: it adds its own, who must not be
among those that still count, and the others stay while they count both before
and after a change of validators. -/
theorem applyHeader_recents (hw : InWindow s.recents top s.limit)
    (hnum : header.number64.toNat = top.toNat + 1)
    (h : s.applyHeader crypto config chain parents header = .ok t) :
    ∃ signer, ecrecover crypto header = .ok signer ∧ ¬ Counts s header.number64 signer ∧
      ∀ k v, t.recents.lookup k = some v ↔ k = header.number64 ∧ v = signer ∨
        s.recents.lookup k = some v ∧ header.number64.toNat < k.toNat + s.limit ∧
          header.number64.toNat < k.toNat + t.limit := by
  rw [applyHeader_eq] at h
  obtain ⟨_, hsigner, h⟩ := bind_ok.mp h
  obtain ⟨signer, hrecover, _, hnot, rfl⟩ := recordSigner_ok hsigner
  obtain ⟨u, hchange, h⟩ := bind_ok.mp h
  have hfree : ¬ Counts s header.number64 signer := by
    rw [← recent_shift_iff hw hnum, ← signedRecently_iff, hnot]
    exact Bool.false_ne_true
  refine ⟨signer, hrecover, hfree, ?_⟩
  -- the recent signers before a change of validators
  have hrecorded {k : UInt64} {v : Address} :
      ((s.shift header.number64).recents.insert header.number64 signer).lookup k = some v ↔
        k = header.number64 ∧ v = signer ∨
          s.recents.lookup k = some v ∧ header.number64.toNat < k.toNat + s.limit := by
    by_cases hk : k = header.number64
    · subst hk
      rw [lookup_insert, Option.some_inj, eq_comm]
      constructor
      · exact fun h => .inl ⟨rfl, h⟩
      · rintro (⟨_, h⟩ | ⟨h, _⟩)
        · exact h
        · have := (hw _ (mem_of_lookup h)).1
          omega
    · rw [lookup_insert_ne hk]
      constructor
      · intro h
        have hmem := mem_of_lookup h
        rw [lookup_shift hmem] at h
        exact .inr ⟨h, ((mem_shift_recents hw hnum).mp hmem).2⟩
      · rintro (⟨h, _⟩ | ⟨h, hlt⟩)
        · exact absurd h hk
        · rw [lookup_shift ((mem_shift_recents hw hnum).mpr ⟨mem_of_lookup h, hlt⟩)]
          exact h
  obtain ⟨_, rfl⟩ := recordFork_ok h
  intro k v
  obtain rfl | ⟨newVals, rfl⟩ := epochChange_ok hchange
  · exact hrecorded.trans (or_congr_right (and_congr_right fun _ => (and_self_iff).symm))
  refine (changeValidators_lookup (recorded_window hw hnum signer) newVals).trans ?_
  rw [hrecorded]
  constructor
  · rintro ⟨h | ⟨h, hlt⟩, hnew⟩
    · exact .inl h
    · exact .inr ⟨h, hlt, hnew⟩
  · rintro (h | ⟨h, hlt, hnew⟩)
    · refine ⟨.inl h, ?_⟩
      rw [h.1]
      exact Nat.lt_add_of_pos_right (limit_pos _)
    · exact ⟨.inr ⟨h, hlt⟩, hnew⟩

/-- The fork hashes are those of the last blocks, one for each validator, and
the newest is there even when no validator is left. -/
theorem applyHeader_forks (hw : InWindow s.recentForkHashes top (max s.validators.1.card 1))
    (hnum : header.number64.toNat = top.toNat + 1)
    (h : s.applyHeader crypto config chain parents header = .ok t) :
    InWindow t.recentForkHashes header.number64 (max t.validators.1.card 1) := by
  rw [applyHeader_eq] at h
  obtain ⟨_, hsigner, h⟩ := bind_ok.mp h
  obtain ⟨signer, _, hin, _, rfl⟩ := recordSigner_ok hsigner
  obtain ⟨u, hchange, h⟩ := bind_ok.mp h
  have hpos : 0 < s.validators.1.card := Finset.card_pos.mpr ⟨signer, hin⟩
  have hcard := toNat_ofNat_of_lt' (lt_trans s.validators.2 (by decide))
  rw [Nat.max_eq_left hpos] at hw
  have hshift : InWindow (s.shift header.number64).recentForkHashes header.number64
      s.validators.1.card := by
    have hforks : (s.shift header.number64).recentForkHashes =
      if ofNat s.validators.1.card ≤ header.number64 then
        s.recentForkHashes.erase (header.number64 - ofNat s.validators.1.card)
      else s.recentForkHashes := rfl
    intro k hk
    rw [hforks] at hk
    split at hk
    next hfull =>
      rw [le_iff_toNat_le, hcard] at hfull
      obtain ⟨hk, hlt⟩ := (hw.drop_oldest hnum hfull).mp hk
      have := hw k hk
      exact ⟨by omega, hlt⟩
    next hfull =>
      rw [le_iff_toNat_le, hcard] at hfull
      have := hw k hk
      omega
  unfold recordFork at h
  split at h
  · cases h
  cases h
  apply InWindow.insert (lt_of_lt_of_le Nat.one_pos (le_max_right ..))
  intro k hk
  obtain rfl | ⟨newVals, rfl⟩ := epochChange_ok hchange
  · have := hshift k hk
    exact ⟨this.1, lt_of_lt_of_le this.2 (Nat.add_le_add_left (le_max_left ..) _)⟩
  · have := InWindow.narrow hshift k hk
    exact ⟨this.1, lt_of_lt_of_le this.2 (Nat.add_le_add_left (le_max_left ..) _)⟩

/-! ## Histories -/

theorem blockAt_concat :
    blockAt (blocks ++ [b]) k = if k = blocks.length + 1 then some b else blockAt blocks k := by
  cases k with
  | zero => rfl
  | succ k =>
    simp only [blockAt, Nat.add_right_cancel_iff]
    split
    next hk =>
      rw [hk, getElem?_concat_length]
    next hk =>
    rcases Nat.lt_or_gt_of_ne hk with hlt | hgt
    · exact getElem?_append_left hlt
    · rw [getElem?_eq_none (by rw [length_append, length_singleton]; omega),
        getElem?_eq_none hgt.le]

theorem blockAt_le (h : blockAt blocks k = some b) : 0 < k ∧ k ≤ blocks.length := by
  cases k with
  | zero => cases h
  | succ k => exact ⟨Nat.succ_pos k, (List.getElem?_eq_some_iff.mp h).1⟩

theorem blockAt_old {c : Applied} (h : blockAt blocks k = some b) :
    blockAt (blocks ++ [c]) k = some b := by
  have := (blockAt_le h).2
  rw [blockAt_concat, if_neg (by omega), h]

theorem SignedBy.old (h : SignedBy crypto blocks k v) : SignedBy crypto (blocks ++ [b]) k v := by
  obtain ⟨c, hc, hv⟩ := h
  exact ⟨c, blockAt_old hc, hv⟩

theorem signedBy_concat :
    SignedBy crypto (blocks ++ [b]) k v ↔
      k = blocks.length + 1 ∧ ecrecover crypto b.header = .ok v ∨ SignedBy crypto blocks k v := by
  constructor
  · rintro ⟨c, hc, hv⟩
    rw [blockAt_concat] at hc
    split at hc
    next hk =>
      cases hc
      exact .inl ⟨hk, hv⟩
    · exact .inr ⟨c, hc, hv⟩
  · rintro (⟨rfl, hv⟩ | h)
    · exact ⟨b, by rw [blockAt_concat, if_pos rfl], hv⟩
    · exact h.old

/-- What every history keeps. -/
structure Recorded (crypto : Crypto) (blocks : List Applied) (s : Snapshot) : Prop where
  numbered : s.number.toNat = blocks.length
  window : InWindow s.recents s.number s.limit
  forks : InWindow s.recentForkHashes s.number (max s.validators.1.card 1)
  signed : ∀ k v, s.recents.lookup k = some v → SignedBy crypto blocks k.toNat v
  once : ∀ k l v, s.recents.lookup k = some v → s.recents.lookup l = some v → k = l
  sealed : ∀ k, 0 < k → k ≤ blocks.length → ∃ v, SignedBy crypto blocks k v
  last : ∀ b, blockAt blocks blocks.length = some b → b.after = s

section
variable (h : Recorded crypto blocks s)
  (later : header.number64 ≠ 0)
  (ok : s.apply crypto config chain parents [header] = .ok t)
include h later ok

/-- The next block of a history. -/
theorem Recorded.step : t.number.toNat = blocks.length + 1 ∧
      ∃ signer, ecrecover crypto header = .ok signer ∧ ¬ Counts s t.number signer ∧
        ∀ k v, t.recents.lookup k = some v ↔ k = t.number ∧ v = signer ∨
          s.recents.lookup k = some v ∧ t.number.toNat < k.toNat + s.limit ∧
            t.number.toNat < k.toNat + t.limit := by
  obtain ⟨hnum, _, u, hu, rfl⟩ := apply_single.mp ok
  have hnat := toNat_succ hnum later
  obtain ⟨signer, hrecover, hfree, hlookup⟩ := applyHeader_recents h.window hnat hu
  have hnumber : (u.moveTo (s.number + 1) (crypto.hash header)).number = header.number64 :=
    hnum.symm
  rw [hnumber, hnat, h.numbered]
  rw [hnat, h.numbered] at hlookup
  exact ⟨rfl, signer, hrecover, hfree, hlookup⟩

theorem Recorded.block : Recorded crypto (blocks ++ [⟨header, t⟩]) t := by
  obtain ⟨hnumbered, signer, hrecover, hfree, hlookup⟩ := h.step later ok
  obtain ⟨hnum, _, u, hu, rfl⟩ := apply_single.mp ok
  have hnat := toNat_succ hnum later
  have hw := applyHeader_window h.window hnum later hu
  have hforks := applyHeader_forks h.forks hnat hu
  rw [hnum] at hw hforks
  refine ⟨?_, hw, hforks, ?_, ?_, ?_, ?_⟩
  · rw [length_append, length_singleton]
    exact hnumbered
  · intro k v hk
    obtain ⟨rfl, rfl⟩ | ⟨hk, _, _⟩ := (hlookup k v).mp hk
    · exact signedBy_concat.mpr (.inl ⟨hnumbered, hrecover⟩)
    · exact (h.signed k v hk).old
  · intro k l v hk hl
    obtain ⟨rfl, rfl⟩ | ⟨hk, hklt, _⟩ := (hlookup k v).mp hk
    · obtain ⟨rfl, _⟩ | ⟨hl, hllt, _⟩ := (hlookup l _).mp hl
      · rfl
      · exact absurd ⟨l, hl, hllt⟩ hfree
    · obtain ⟨rfl, rfl⟩ | ⟨hl, _, _⟩ := (hlookup l v).mp hl
      · exact absurd ⟨k, hk, hklt⟩ hfree
      · exact h.once k l v hk hl
  · intro k hpos hle
    rw [length_append, length_singleton] at hle
    obtain rfl | hlt := Nat.eq_or_lt_of_le hle
    · exact ⟨signer, signedBy_concat.mpr (.inl ⟨rfl, hrecover⟩)⟩
    · obtain ⟨v, hv⟩ := h.sealed k hpos (Nat.le_of_lt_succ hlt)
      exact ⟨v, hv.old⟩
  · intro b hb
    rw [length_append, length_singleton, blockAt_concat, if_pos rfl] at hb
    cases hb
    rfl

end

section
variable (h : Grown crypto config blocks s)
include h

theorem Grown.recorded : Recorded crypto blocks s := by
  induction h with
  | genesis hash validators =>
    exact {
      numbered := rfl
      window := inWindow_empty
      forks := inWindow_empty
      signed := fun _ _ h => nomatch h
      once := fun _ _ _ h => nomatch h
      sealed := fun _ hpos hle => absurd hpos (Nat.not_lt_of_le hle)
      last := fun _ h => nomatch h }
  | block chain parents _ later ok ih => exact ih.block later ok

theorem Grown.reachable : Reachable crypto config s := by
  induction h with
  | genesis hash validators => exact .genesis hash validators
  | block chain parents _ later ok ih =>
    exact .apply chain parents _ ih (fun h hh => mem_singleton.mp hh ▸ later) ok

theorem Grown.apply {headers : List Header} (later : ∀ h ∈ headers, h.number64 ≠ 0)
    (ok : s.apply crypto config chain parents headers = .ok t) :
    ∃ blocks, Grown crypto config blocks t := by
  induction headers generalizing blocks s with
  | nil => cases ok; exact ⟨blocks, h⟩
  | cons first rest ih =>
    obtain ⟨u, hfirst, hrest⟩ := apply_cons ok
    exact ih (.block chain parents h (later first mem_cons_self) hfirst)
      (fun h hh => later h (mem_cons_of_mem _ hh)) hrest

end

/-- However the headers were batched, the snapshots of a chain are those with a
history. -/
theorem reachable_iff_grown :
    Reachable crypto config s ↔ ∃ blocks, Grown crypto config blocks s := by
  constructor
  · intro h
    induction h with
    | genesis hash validators => exact ⟨_, .genesis hash validators⟩
    | apply chain parents headers _ later ok ih =>
      obtain ⟨blocks, hgrown⟩ := ih
      exact hgrown.apply later ok
  · rintro ⟨blocks, h⟩
    exact h.reachable

theorem SignedBy.le (h : SignedBy crypto blocks k v) : 0 < k ∧ k ≤ blocks.length := by
  obtain ⟨b, hb, _⟩ := h
  exact blockAt_le hb

/-- The last block of a history left the snapshot behind. -/
theorem Recorded.blockAt_last (h : Recorded crypto blocks s) (hpos : 0 < blocks.length) :
    ∃ header, blockAt blocks blocks.length = some ⟨header, s⟩ := by
  obtain ⟨_, b, hb, _⟩ := h.sealed _ hpos le_rfl
  have hafter := h.last b hb
  subst hafter
  exact ⟨b.header, hb⟩

theorem Recorded.toNat_ofNat (h : Recorded crypto blocks s) (hi : i ≤ blocks.length) :
    (ofNat i).toNat = i := by
  rw [← h.numbered] at hi
  exact toNat_ofNat_of_lt' (hi.trans_lt s.number.toNat_lt)

section
variable (h : Grown crypto config blocks s)
include h

/-- A signer stays recorded while every snapshot since then is wide enough. -/
theorem Grown.kept (hi : SignedBy crypto blocks i v)
    (hsize : ∀ j b, i ≤ j → blockAt blocks j = some b → blocks.length < i + b.after.limit) :
    s.recents.lookup (ofNat i) = some v := by
  induction h with
  | genesis => exact absurd hi.le.1 (Nat.not_lt_of_le hi.le.2)
  | @block blocks s t header chain parents hfrom later ok ih =>
    have hrec := hfrom.recorded
    obtain ⟨hnumbered, signer, hrecover, _, hlookup⟩ := hrec.step later ok
    rw [hlookup]
    have hlast := hsize (blocks.length + 1) ⟨header, t⟩
      (by simpa using hi.le.2) (by rw [blockAt_concat, if_pos rfl])
    rw [length_append, length_singleton] at hlast
    obtain ⟨rfl, hv⟩ | hold := signedBy_concat.mp hi
    · left
      rw [hrecover] at hv
      cases hv
      rw [← hnumbered, UInt64.ofNat_toNat]
      exact ⟨rfl, rfl⟩
    · right
      have hle := hold.le
      have hsize' {j : ℕ} {b : Applied} (hij : i ≤ j) (hb : blockAt blocks j = some b) :
          blocks.length + 1 < i + b.after.limit := by
        have := hsize j b hij (blockAt_old hb)
        rwa [length_append, length_singleton] at this
      obtain ⟨header', hprev⟩ := hrec.blockAt_last (by omega)
      have hprev := hsize' hle.2 hprev
      rw [hrec.toNat_ofNat hle.2, hnumbered]
      refine ⟨ih hold ?_, hprev, hlast⟩
      intro j b hij hb
      exact Nat.lt_of_succ_lt (hsize' hij hb)

/-- Two signers differ if the first still counted at the block of the second. -/
theorem Grown.signers_differ {j : ℕ} {w : Address}
    (hij : i < j) (hi : SignedBy crypto blocks i v) (hj : SignedBy crypto blocks j w)
    (hsize : ∀ l b, i ≤ l → l < j → blockAt blocks l = some b → j < i + b.after.limit) :
    v ≠ w := by
  induction h with
  | genesis => exact absurd hi.le.1 (Nat.not_lt_of_le hi.le.2)
  | @block blocks s t header chain parents hfrom later ok ih =>
    have hi' : SignedBy crypto blocks i v := by
      obtain ⟨rfl, _⟩ | hold := signedBy_concat.mp hi
      · have := hj.le.2
        rw [length_append, length_singleton] at this
        omega
      · exact hold
    have hsize' {l : ℕ} {b : Applied} (hil : i ≤ l) (hlj : l < j)
        (hb : blockAt blocks l = some b) : j < i + b.after.limit :=
      hsize l b hil hlj (blockAt_old hb)
    obtain ⟨rfl, hw⟩ | hold := signedBy_concat.mp hj
    · have hrec := hfrom.recorded
      obtain ⟨hnumbered, signer, hrecover, hfree, _⟩ := hrec.step later ok
      rw [hrecover] at hw
      cases hw
      rintro rfl
      have hle := hi'.le
      obtain ⟨header', hprev⟩ := hrec.blockAt_last (by omega)
      have hlimit := hsize' hle.2 (Nat.lt_succ_self _) hprev
      refine hfree ⟨ofNat i, hfrom.kept hi' ?_, ?_⟩
      · intro l b hil hb
        exact Nat.lt_of_succ_lt (hsize' hil (Nat.lt_succ_of_le (blockAt_le hb).2) hb)
      · rw [hrec.toNat_ofNat hle.2, hnumbered]
        exact hlimit
    · exact ih hi' hold fun l b hil hlj hb => hsize' hil hlj hb

/-- The size of the validator set does not change: the last half of a round is
recorded, no more and no less. -/
theorem Grown.mem_recents_iff {n m : ℕ} (hnm : n ≤ m)
    (hsteady : SteadySize blocks s n m) {k : UInt64} : k ∈ s.recents ↔
      s.number.toNat < k.toNat + min s.number.toNat (n / 2 + 1) ∧ k.toNat ≤ s.number.toNat := by
  have hrec := h.recorded
  obtain ⟨hnow, hbefore⟩ := hsteady
  have hlimit : s.limit = n / 2 + 1 := by rw [limit, hnow]
  constructor
  · intro hk
    obtain ⟨v, hv⟩ := Option.isSome_iff_exists.mp (lookup_isSome.mpr hk)
    have hpos := (hrec.signed k v hv).le
    have hwin := hrec.window k hk
    omega
  · rintro ⟨hlow, hhigh⟩
    rw [hrec.numbered] at hlow hhigh hbefore
    obtain ⟨v, hv⟩ := hrec.sealed k.toNat (by omega) hhigh
    have hkept := h.kept hv ?_
    · rw [UInt64.ofNat_toNat] at hkept
      exact mem_of_lookup hkept
    · intro j b hkj hb
      have hj := (blockAt_le hb).2
      have hcard : b.after.validators.1.card = n := by
        obtain rfl | hlt := Nat.eq_or_lt_of_le hj
        · rw [hrec.last b hb, hnow]
        · exact hbefore j b hb (by omega)
      rw [limit, hcard]
      omega

end

/-- In every snapshot of a chain: the recent signers are the signers of blocks
in the window; nobody is among them twice; the fork hashes are in theirs, which
has room for the newest even without validators; and while the size of the
validator set does not change, the window is full and blocks in it have
different signers. -/
theorem recentSigners_window (h : Grown crypto config blocks s) :
    (∀ k v, s.recents.lookup k = some v →
      (s.number.toNat < k.toNat + (s.validators.1.card / 2 + 1) ∧ k.toNat ≤ s.number.toNat) ∧
        SignedBy crypto blocks k.toNat v) ∧
    (∀ k l v, s.recents.lookup k = some v → s.recents.lookup l = some v → k = l) ∧
    (∀ k ∈ s.recentForkHashes, s.number.toNat < k.toNat + max s.validators.1.card 1 ∧
      k.toNat ≤ s.number.toNat) ∧
    (∀ n m, n ≤ m → SteadySize blocks s n m →
      (∀ k, k ∈ s.recents ↔ s.number.toNat < k.toNat + min s.number.toNat (n / 2 + 1) ∧
        k.toNat ≤ s.number.toNat) ∧
      ∀ i j v w, s.number.toNat < i + m → i < j → j < i + (n / 2 + 1) →
        SignedBy crypto blocks i v → SignedBy crypto blocks j w → v ≠ w) := by
  have hrec := h.recorded
  refine ⟨?_, hrec.once, ?_, ?_⟩
  · intro k v hk
    exact ⟨(hrec.window k (mem_of_lookup hk)).symm, hrec.signed k v hk⟩
  · intro k hk
    exact (hrec.forks k hk).symm
  · intro n m hnm hsteady
    refine ⟨fun k => h.mem_recents_iff hnm hsteady, ?_⟩
    intro i j v w hi hij hj hv hw
    refine h.signers_differ hij hv hw ?_
    intro l b hil _ hb
    rw [limit, hsteady.2 l b hb (by omega)]
    exact hj

end

/-- A chain with the genesis block and the first one. -/
def fourReader : ChainReader :=
  ⟨fun _ number => if number = 0 then some fourGenesis else some (blockBy 1 1 0)⟩

/-- The snapshot after one more block. -/
def afterNext (s : Snapshot) (header : Header) : Snapshot :=
  (s.apply plainCrypto plainConfig fourReader [] [header]).toOption.getD s

theorem Grown.next {blocks : List Applied} {s : Snapshot} (h : Grown plainCrypto plainConfig blocks s)
    {header : Header} (later : header.number64 ≠ 0)
    (ok : (s.apply plainCrypto plainConfig fourReader [] [header]).toOption.isSome = true) :
    Grown plainCrypto plainConfig (blocks ++ [⟨header, afterNext s header⟩]) (afterNext s header) := by
  refine .block fourReader [] h later ?_
  rw [afterNext]
  cases hs : s.apply plainCrypto plainConfig fourReader [] [header] with
  | error e =>
    rw [hs] at ok
    cases ok
  | ok t => rfl

/-- The snapshot after three blocks, by the first three of four validators. -/
def afterThird : Snapshot := afterNext (afterNext afterFirst (blockBy 2 2 1)) (blockBy 3 3 2)

def threeBlocks : List Applied :=
  [⟨blockBy 1 1 0, afterFirst⟩, ⟨blockBy 2 2 1, afterNext afterFirst (blockBy 2 2 1)⟩,
    ⟨blockBy 3 3 2, afterThird⟩]

theorem threeBlocks_grown : Grown plainCrypto plainConfig threeBlocks afterThird := by
  have hfirst : Grown plainCrypto plainConfig [⟨blockBy 1 1 0, afterFirst⟩] afterFirst :=
    .block fourReader [] (.genesis 0 ⟨[1, 2, 3, 4], by decide⟩) (by decide) rfl
  exact (hfirst.next (by decide) (by decide +kernel)).next (by decide) (by decide +kernel)

theorem threeBlocks_steady : SteadySize threeBlocks afterThird 4 4 := by
  refine ⟨by decide +kernel, ?_⟩
  intro k b hb _
  have hall : ∀ b ∈ threeBlocks, b.after.validators.1.card = 4 := by decide +kernel
  cases k with
  | zero => cases hb
  | succ k => exact hall b (mem_of_getElem? hb)

/-- The window holds all three blocks, which have different signers. -/
theorem threeBlocks_window :
    (∀ k, k ∈ afterThird.recents ↔ 3 < k.toNat + 3 ∧ k.toNat ≤ 3) ∧
      ∀ i j v w, 3 < i + 4 → i < j → j < i + 3 → SignedBy plainCrypto threeBlocks i v →
        SignedBy plainCrypto threeBlocks j w → v ≠ w := by
  have hnumber : afterThird.number.toNat = 3 := by decide +kernel
  have hwindow := (recentSigners_window threeBlocks_grown).2.2.2 4 4 le_rfl threeBlocks_steady
  rwa [hnumber] at hwindow

/-- A whole epoch sealed by the only validator; its last block announces no
validators at all. -/
def loneEpoch : List Header :=
  (List.range 200).map fun n => blockBy 1 (n + 1) (BitVec.ofNat 256 n)

/-- The change of validators takes effect at once, and the fork hash of that
block is kept although there is no validator left to count blocks with. -/
theorem loneEpoch_forks : ∃ blocks s k, Grown plainCrypto plainConfig blocks s ∧
    k ∈ s.recentForkHashes ∧ ¬ s.number.toNat < k.toNat + s.validators.1.card := by
  have happly : ((newSnapshot 0 0 ⟨[1], by decide⟩).apply plainCrypto plainConfig noChain []
      loneEpoch).toOption.map (fun s => (s.number, s.validators.1.card, s.recentForkHashes.keys)) =
        some (200, 0, [200]) := by
    decide +kernel
  generalize hs : apply _ _ _ _ _ _ = result at happly
  obtain e | s := result
  · cases happly
  simp only [Except.toOption, Option.map_some, Option.some_inj, Prod.mk.injEq] at happly
  obtain ⟨hnumber, hcard, hkeys⟩ := happly
  have hlater : ∀ h ∈ loneEpoch, h.number64 ≠ 0 := by decide +kernel
  obtain ⟨blocks, hgrown⟩ := (Grown.genesis 0 ⟨[1], by decide⟩).apply hlater hs
  refine ⟨blocks, s, 200, hgrown, ?_, ?_⟩
  · rw [AList.mem_keys, hkeys]
    exact mem_singleton.mpr rfl
  · rw [hnumber, hcard]
    exact lt_irrefl 200

end Dexit.Parlia
