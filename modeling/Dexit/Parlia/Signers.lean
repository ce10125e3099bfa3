import Dexit.Parlia.Seal

/-! The three checks agree on who may sign, but for the first blocks. -/

namespace Dexit.Parlia

open Go Outcome List UInt64 Snapshot

/-- A snapshot of a chain: headers are applied to the snapshot of the genesis
block, and block zero is never applied again. -/
inductive Reachable (crypto : Crypto) (config : ParliaConfig) : Snapshot → Prop
  | genesis (hash : Hash) (validators : Slice Address) :
      Reachable crypto config (newSnapshot 0 hash validators)
  | apply {s t : Snapshot} (chain : ChainReader) (parents headers : List Header)
      (from_ : Reachable crypto config s) (later : ∀ h ∈ headers, h.number64 ≠ 0)
      (ok : s.apply crypto config chain parents headers = .ok t) : Reachable crypto config t

section
variable {crypto : Crypto} {config : ParliaConfig} {chain : ChainReader} {parents : List Header}
  {s t : Snapshot} {header : Header} {val : Address} {top : UInt64} {k number : UInt64}

theorem toNat_succ (hnum : number = top + 1) (hne : number ≠ 0) : number.toNat = top.toNat + 1 := by
  have htop := top.toNat_lt
  have hlt : top.toNat + 1 < 2 ^ 64 := by
    by_contra hwrap
    apply hne
    apply UInt64.toNat_inj.mp
    rw [hnum, UInt64.toNat_add]
    have hone : (1 : UInt64).toNat = 1 := rfl
    have hzero : (0 : UInt64).toNat = 0 := rfl
    omega
  rw [hnum, UInt64.toNat_add]
  have hone : (1 : UInt64).toNat = 1 := rfl
  omega

/-- What is left of the recent signers when block `number` comes in. -/
theorem mem_shift_recents (hw : InWindow s.recents top s.limit)
    (hnum : number.toNat = top.toNat + 1) :
    k ∈ (s.shift number).recents ↔ k ∈ s.recents ∧ number.toNat < k.toNat + s.limit := by
  have hrec : (s.shift number).recents = if ofNat s.limit ≤ number then
    s.recents.erase (number - ofNat s.limit) else s.recents := rfl
  rw [hrec]
  by_cases hfull : s.limit ≤ number.toNat
  · rw [if_pos (ofNat_limit_le.mpr hfull)]
    exact hw.drop_oldest hnum hfull
  · rw [if_neg (mt ofNat_limit_le.mp hfull)]
    exact ⟨fun h => ⟨h, by omega⟩, fun h => h.1⟩

theorem Snapshot.limit_pos (s : Snapshot) : 0 < s.limit := Nat.succ_pos _

theorem recorded_window (hw : InWindow s.recents top s.limit)
    (hnum : number.toNat = top.toNat + 1) (signer : Address) :
    InWindow ((s.shift number).recents.insert number signer) number s.limit := by
  apply InWindow.insert s.limit_pos
  intro k hk
  obtain ⟨hk, hlt⟩ := (mem_shift_recents hw hnum).mp hk
  have := hw k hk
  exact ⟨by omega, hlt⟩

/-- One header keeps the recent signers in the window. -/
theorem applyHeader_window (hw : InWindow s.recents top s.limit)
    (hnum : header.number64 = top + 1) (hne : header.number64 ≠ 0)
    (h : s.applyHeader crypto config chain parents header = .ok t) :
    InWindow t.recents header.number64 t.limit := by
  have hnat := toNat_succ hnum hne
  rw [applyHeader_eq] at h
  obtain ⟨_, hsigner, h⟩ := bind_ok.mp h
  obtain ⟨signer, _, _, _, rfl⟩ := recordSigner_ok hsigner
  obtain ⟨u, hu, h⟩ := bind_ok.mp h
  have hwin := recorded_window hw hnat signer
  obtain ⟨_, rfl⟩ := recordFork_ok h
  obtain rfl | ⟨newVals, rfl⟩ := epochChange_ok hu
  · exact hwin
  · exact hwin.narrow

theorem ofNat_succ (n : ℕ) : ofNat (n + 1) = ofNat n + 1 := by
  exact ofNat_add n 1

/-- A list of headers that follow each other keeps them there too. -/
theorem foldlM_window {headers : List Header} (hw : InWindow s.recents top s.limit)
    (hcont : Snapshot.checkContiguous crypto headers = .ok ())
    (hfirst : ∀ h ∈ headers.head?, h.number64 = top + 1) (hne : ∀ h ∈ headers, h.number64 ≠ 0)
    (h : headers.foldlM (Snapshot.applyHeader crypto config chain parents) s = .ok t) :
    InWindow t.recents (top + ofNat headers.length) t.limit := by
  induction headers generalizing s top with
  | nil =>
    simp only [foldlM_nil, pure_ok] at h
    subst h
    have htop : top + UInt64.ofNat ([] : List Header).length = top := UInt64.add_zero top
    rw [htop]
    exact hw
  | cons a rest ih =>
    rw [foldlM_cons, bind_ok] at h
    obtain ⟨u, hu, h⟩ := h
    have hnum := hfirst a rfl
    have hwin := applyHeader_window hw hnum (hne a mem_cons_self) hu
    have hcont' : checkContiguous crypto rest = .ok () ∧
        ∀ h ∈ rest.head?, h.number64 = a.number64 + 1 := by
      cases rest with
      | nil => exact ⟨rfl, by simp⟩
      | cons b rest =>
        obtain ⟨hb, _, hcont⟩ := checkContiguous_cons hcont
        refine ⟨hcont, ?_⟩
        rintro h ⟨⟩
        exact hb
    have hend := ih hwin hcont'.1 hcont'.2 (fun h hh => hne h (mem_cons_of_mem _ hh)) h
    have htop : top + ofNat (a :: rest).length = a.number64 + ofNat rest.length := by
      rw [length_cons, ofNat_succ, hnum, UInt64.add_assoc, UInt64.add_comm 1]
    rw [htop]
    exact hend

/-- In every snapshot of a chain the recent signers are those of the last
blocks that still count. -/
theorem reachable_window (h : Reachable crypto config s) : InWindow s.recents s.number s.limit := by
  induction h with
  | genesis hash validators => exact inWindow_empty
  | apply chain parents headers _ later ok ih =>
    cases headers with
    | nil =>
      cases ok
      exact ih
    | cons first rest =>
      obtain ⟨hcont, hnum, _, snap, hfold, rfl⟩ := apply_ok.mp ok
      have hwin := foldlM_window ih hcont (by rintro h ⟨⟩; exact hnum) later hfold
      exact hwin

/-- A signature of `val` that still counts at block `number`. -/
def Counts (s : Snapshot) (number : UInt64) (val : Address) : Prop :=
  ∃ k, s.recents.lookup k = some val ∧ number.toNat < k.toNat + s.limit

theorem mem_of_lookup (h : s.recents.lookup k = some val) : k ∈ s.recents :=
  AList.lookup_isSome.mp (by rw [h]; rfl)

theorem lookup_shift (h : k ∈ (s.shift number).recents) :
    (s.shift number).recents.lookup k = s.recents.lookup k := by
  have hrec : (s.shift number).recents = if ofNat s.limit ≤ number then
    s.recents.erase (number - ofNat s.limit) else s.recents := rfl
  rw [hrec] at h ⊢
  split at h
  next hfull =>
    rw [if_pos hfull]
    exact AList.lookup_erase_ne (AList.mem_erase.mp h).1
  next hfull =>
    rw [if_neg hfull]

section
variable {number : UInt64} (hw : InWindow s.recents top s.limit)
  (hnum : number.toNat = top.toNat + 1)
include hw hnum

theorem recent_shift_iff : Recent (s.shift number) val ↔ Counts s number val := by
  constructor
  · rintro ⟨k, hk⟩
    have hmem := mem_of_lookup hk
    rw [lookup_shift hmem] at hk
    exact ⟨k, hk, ((mem_shift_recents hw hnum).mp hmem).2⟩
  · rintro ⟨k, hk, hlt⟩
    have hmem := (mem_shift_recents hw hnum).mpr ⟨mem_of_lookup hk, hlt⟩
    exact ⟨k, (lookup_shift hmem).trans hk⟩

end

section
variable {number : UInt64} (hbelow : ∀ k ∈ s.recents, k.toNat < number.toNat)
include hbelow

/-- The window as the verifier computes it: below the limit the subtraction
wraps, and no signature counts. -/
theorem sub_limit_lt_iff {k : UInt64} (hk : k ∈ s.recents) :
    number - ofNat s.limit < k ↔ s.limit ≤ number.toNat ∧ number.toNat < k.toNat + s.limit := by
  have hin := hbelow k hk
  have hlim := s.limit_lt
  rw [lt_iff_toNat_lt]
  by_cases hfull : s.limit ≤ number.toNat
  · rw [toNat_sub_of_le hfull]
    omega
  · have hwrap := toNat_sub_of_lt (a := number) (n := s.limit) (by omega) (by omega)
    omega

theorem verify_counts_iff :
    (∃ k, s.recents.lookup k = some val ∧ number - ofNat s.limit < k) ↔
      s.limit ≤ number.toNat ∧ Counts s number val := by
  constructor
  · rintro ⟨k, hk, hlt⟩
    obtain ⟨hfull, hlt⟩ := (sub_limit_lt_iff hbelow (mem_of_lookup hk)).mp hlt
    exact ⟨hfull, k, hk, hlt⟩
  · rintro ⟨hfull, k, hk, hlt⟩
    exact ⟨k, hk, (sub_limit_lt_iff hbelow (mem_of_lookup hk)).mpr ⟨hfull, hlt⟩⟩

theorem seal_counts_iff :
    (∃ k, s.recents.lookup k = some val ∧ (number < ofNat s.limit ∨ number - ofNat s.limit < k)) ↔
      Counts s number val := by
  have hlim : number < ofNat s.limit ↔ number.toNat < s.limit := by
    rw [lt_iff_toNat_lt, s.ofNat_limit]
  rw [hlim]
  constructor
  · rintro ⟨k, hk, hlt⟩
    refine ⟨k, hk, ?_⟩
    obtain hlt | hlt := hlt
    · omega
    · exact ((sub_limit_lt_iff hbelow (mem_of_lookup hk)).mp hlt).2
  · rintro ⟨k, hk, hlt⟩
    refine ⟨k, hk, ?_⟩
    by_cases hfull : s.limit ≤ number.toNat
    · exact Or.inr ((sub_limit_lt_iff hbelow (mem_of_lookup hk)).mpr ⟨hfull, hlt⟩)
    · exact Or.inl (not_le.mp hfull)

end

/-- Below the limit every recent signature counts. -/
theorem counts_early_iff (h : number.toNat < s.limit) : Counts s number val ↔ Recent s val := by
  constructor
  · rintro ⟨k, hk, _⟩
    exact ⟨k, hk⟩
  · rintro ⟨k, hk⟩
    exact ⟨k, hk, by omega⟩

/-- The three checks agree on a block of a chain exactly when it is not one of
the first blocks signed by somebody who has signed before. -/
theorem signers_agree_iff {fakeDiff : Bool} (hs : Reachable crypto config s)
    (hnum : header.number64 = s.number + 1) (hpos : header.number64 ≠ 0)
    (hparent : header.parentHash = s.hash)
    (hsigned : ecrecover crypto header = .ok header.coinbase) :
    ((Passes (verifySeal crypto fakeDiff s header) ↔
        Passes (s.apply crypto config chain parents [header])) ∧
      (Passes (verifySeal crypto fakeDiff s header) ↔
        sealCheck s header.number64 header.coinbase = .ok .signs)) ↔
      ¬ (header.number64.toNat < s.limit ∧ header.coinbase ∈ s.validators.1 ∧
        Recent s header.coinbase) := by
  have hw := reachable_window hs
  have hnat := toNat_succ hnum hpos
  have hbelow : ∀ k ∈ s.recents, k.toNat < header.number64.toNat := by
    intro k hk
    have := (hw k hk).1
    omega
  rw [verifySeal_passes hpos hsigned, apply_passes hnum hparent hsigned, sealCheck_signs,
    recent_shift_iff hw hnat, verify_counts_iff hbelow, seal_counts_iff hbelow]
  by_cases hfull : s.limit ≤ header.number64.toNat
  · simp only [hfull, true_and, and_self, not_lt.mpr hfull, false_and, not_false_eq_true]
  · have hlt := not_le.mp hfull
    rw [counts_early_iff hlt]
    tauto

end

/-- A seal that spells out its signer in its last byte. -/
def plainCrypto : Crypto where
  hash h := BitVec.ofNat 256 h.number
  sealHash h := BitVec.ofNat 256 h.number
  recover _ signature := some (bytesToAddress (signature.drop 64))

def plainConfig : ParliaConfig where
  period := 3
  epoch := 200
  epoch_ne := by decide

def noChain : ChainReader := ⟨fun _ _ => none⟩

/-- The block after `parent`, sealed by `signer`. -/
def blockBy (signer : UInt8) (number : ℕ) (parent : Hash) : Header where
  parentHash := parent
  coinbase := bytesToAddress [signer]
  difficulty := diffNoTurn
  number := number
  gasLimit := 30000000
  gasUsed := 0
  time := 0
  extra := ⟨List.replicate 96 0 ++ [signer], by simp [maxLen]⟩

/-- The genesis block with validators 1 to 4. -/
def fourGenesis : Header where
  parentHash := 0
  coinbase := 0
  difficulty := diffNoTurn
  number := 0
  gasLimit := 30000000
  gasUsed := 0
  time := 0
  extra := ⟨List.replicate 32 0 ++ [1, 2, 3, 4].flatMap addressToBytes ++ List.replicate 65 0, by
    simp [maxLen, addressToBytes, validatorBytesLength]⟩

def fourValidators : Snapshot := newSnapshot 0 0 ⟨[1, 2, 3, 4], by decide⟩

/-- The snapshot after validator 1 has signed the first block. -/
def afterFirst : Snapshot where
  number := 1
  hash := 1
  validators := fourValidators.validators
  recents := AList.singleton 1 1
  recentForkHashes := AList.singleton 1 "00000000"

theorem afterFirst_reachable : Reachable plainCrypto plainConfig afterFirst := by
  refine .apply noChain [] [blockBy 1 1 0] (.genesis 0 ⟨[1, 2, 3, 4], by decide⟩) ?_ ?_
  · intro h hh
    rw [mem_singleton.mp hh]
    decide
  · rfl

theorem afterFirst_signed {k : UInt64} {val : Address}
    (h : afterFirst.recents.lookup k = some val) : k = 1 ∧ val = 1 := by
  have hmem := AList.mem_lookup_iff.mp h
  cases mem_singleton.mp hmem
  exact ⟨rfl, rfl⟩

/-- A different validator signs the second block. -/
theorem signers_agree_second :
    (Passes (verifySeal plainCrypto false afterFirst (blockBy 2 2 1)) ↔
        Passes (afterFirst.apply plainCrypto plainConfig noChain [] [blockBy 2 2 1])) ∧
      (Passes (verifySeal plainCrypto false afterFirst (blockBy 2 2 1)) ↔
        sealCheck afterFirst 2 2 = .ok .signs) := by
  apply (signers_agree_iff afterFirst_reachable (by rfl) (by decide) (by rfl) (by rfl)).mpr
  rintro ⟨_, _, k, hk⟩
  have hval : (blockBy 2 2 1).coinbase = 1 := (afterFirst_signed hk).2
  revert hval
  decide

/-- Validator 1 signs the second block as well: the seal verifies, but the
header cannot be applied and validator 1 itself would wait. -/
theorem signs_twice_splits :
    let header := blockBy 1 2 1
    Reachable plainCrypto plainConfig afterFirst ∧
      header.number64 = afterFirst.number + 1 ∧ header.parentHash = afterFirst.hash ∧
      ecrecover plainCrypto header = .ok header.coinbase ∧
      Passes (verifySeal plainCrypto false afterFirst header) ∧
      ¬ Passes (afterFirst.apply plainCrypto plainConfig noChain [] [header]) ∧
      sealCheck afterFirst header.number64 header.coinbase = .ok .waits := by
  refine ⟨afterFirst_reachable, rfl, rfl, rfl, ?_, ?_, rfl⟩
  · apply (verifySeal_passes (by decide) rfl).mpr
    refine ⟨by decide, ?_⟩
    rintro ⟨k, hk, hlt⟩
    rw [(afterFirst_signed hk).1] at hlt
    revert hlt
    decide
  · have hno : afterFirst.apply plainCrypto plainConfig noChain [] [blockBy 1 2 1] =
        .error .errRecentlySigned := by rfl
    rw [hno]
    exact fun h => h.2 rfl

end Dexit.Parlia
