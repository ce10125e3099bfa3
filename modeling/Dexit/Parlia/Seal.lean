import Dexit.Parlia.Applying

/-! Who may sign a block. The rule is written three times: when headers are
applied to a snapshot, when a seal is verified, and when a block is sealed. -/

namespace Dexit.Parlia

open Go Outcome UInt64 Snapshot

/-- A recent signature of `val` that counts, given its block and the limit. -/
def signedWithin (snap : Snapshot) (val : Address) (counts : UInt64 → UInt64 → Bool) : Bool :=
  snap.recents.entries.any fun e =>
    decide (e.2 = val) && counts e.1 (UInt64.ofNat snap.limit)

/-- `verifySeal` on the snapshot of the parent block. -/
def verifySeal (crypto : Crypto) (fakeDiff : Bool) (snap : Snapshot) (header : Header) :
    Except Err Unit := do
  let number := header.number64
  if number = 0 then .error .errUnknownBlock
  else do
    let signer ← ecrecover crypto header
    if signer ≠ header.coinbase then .error .errCoinBaseMisMatch
    else if signer ∉ snap.validators.1 then .error .errUnauthorizedValidator
    else if signedWithin snap signer fun seen limit => decide (number - limit < seen) then
      .error .errRecentlySigned
    else if fakeDiff then pure ()
    else do
      let inturn ← snap.inturn signer
      if inturn ∧ header.difficulty ≠ diffInTurn then .error .errWrongDifficulty
      else if ¬ inturn ∧ header.difficulty ≠ diffNoTurn then .error .errWrongDifficulty
      else pure ()

/-- What `Seal` does once it knows the snapshot of the parent block. -/
inductive Sealing
  | paused
  | waits
  | signs
  deriving DecidableEq, Repr

/-- The checks of `Seal` on its own address. -/
def sealCheck (snap : Snapshot) (number : UInt64) (val : Address) : Except Err Sealing :=
  if val ∉ snap.validators.1 then .error .errUnauthorizedValidator
  else if signedWithin snap val fun seen limit =>
      decide (number < limit) || decide (number - limit < seen) then .ok .waits
  else .ok .signs

/-! ## What the checks come to -/

/-- Neither of the two errors about who signs. -/
def Passes {α : Type} (r : Except Err α) : Prop :=
  r ≠ .error .errUnauthorizedValidator ∧ r ≠ .error .errRecentlySigned

/-- `val` is among the recent signers. -/
def Recent (snap : Snapshot) (val : Address) : Prop := ∃ k, snap.recents.lookup k = some val

section
variable {crypto : Crypto} {config : ParliaConfig} {chain : ChainReader} {parents : List Header}
  {s t : Snapshot} {header : Header} {val : Address}

theorem signedRecently_iff : s.signedRecently val = true ↔ Recent s val := by
  simp only [signedRecently, List.any_eq_true, decide_eq_true_eq, Recent]
  constructor
  · rintro ⟨⟨k, v⟩, hmem, rfl⟩
    exact ⟨k, AList.mem_lookup_iff.mpr hmem⟩
  · rintro ⟨k, hk⟩
    exact ⟨⟨k, val⟩, AList.mem_lookup_iff.mp hk, rfl⟩

theorem signedWithin_iff {counts : UInt64 → UInt64 → Bool} :
    signedWithin s val counts = true ↔
      ∃ k, s.recents.lookup k = some val ∧ counts k (ofNat s.limit) = true := by
  simp only [signedWithin, List.any_eq_true, Bool.and_eq_true, decide_eq_true_eq]
  constructor
  · rintro ⟨⟨k, v⟩, hmem, rfl, hc⟩
    exact ⟨k, AList.mem_lookup_iff.mpr hmem, hc⟩
  · rintro ⟨k, hk, hc⟩
    exact ⟨⟨k, val⟩, AList.mem_lookup_iff.mp hk, rfl, hc⟩

theorem Snapshot.limit_lt (s : Snapshot) : s.limit < 2 ^ 63 := by
  have := s.validators.2
  unfold limit
  unfold maxLen at this
  omega

theorem Snapshot.ofNat_limit (s : Snapshot) : (ofNat s.limit).toNat = s.limit := by
  have := s.limit_lt
  exact toNat_ofNat_of_lt' (lt_trans this (by decide))

theorem Snapshot.ofNat_limit_le {s : Snapshot} {number : UInt64} :
    ofNat s.limit ≤ number ↔ s.limit ≤ number.toNat := by
  rw [le_iff_toNat_le, s.ofNat_limit]

/-! ## Errors of the other steps -/

theorem passes_ok {α : Type} (a : α) : Passes (.ok a) := ⟨nofun, nofun⟩

theorem passes_error {α : Type} {e : Err} : Passes (.error e : Except Err α) ↔
    e ≠ .errUnauthorizedValidator ∧ e ≠ .errRecentlySigned := by
  simp only [Passes, ne_eq, Except.error.injEq]

theorem passes_bind {α β : Type} {x : Except Err α} {f : α → Except Err β} :
    Passes (x >>= f) ↔ Passes x ∧ ∀ a, x = .ok a → Passes (f a) := by
  cases x with
  | error e =>
    rw [error_bind, passes_error, passes_error]
    exact ⟨fun h => ⟨h, nofun⟩, fun h => h.1⟩
  | ok a =>
    constructor
    · intro h
      refine ⟨passes_ok a, ?_⟩
      rintro b ⟨⟩
      exact h
    · rintro ⟨_, h⟩
      exact h a rfl

theorem parseValidators_passes (bytes : Slice UInt8) : Passes (parseValidators bytes) := by
  unfold parseValidators
  split
  · exact passes_error.mpr ⟨nofun, nofun⟩
  · exact passes_ok _

/-- Changing the validator set fails for other reasons only. -/
theorem epochChange_passes (s : Snapshot) (header : Header) :
    Passes (s.epochChange crypto config chain parents header) := by
  unfold epochChange
  simp only
  split
  · split
    · exact passes_error.mpr ⟨nofun, nofun⟩
    · split
      · exact passes_error.mpr ⟨nofun, nofun⟩
      · exact passes_bind.mpr ⟨parseValidators_passes _, fun _ _ => passes_ok _⟩
  · exact passes_ok _

theorem supposeValidator_passes (s : Snapshot) : Passes s.supposeValidator := by
  unfold supposeValidator
  split
  · exact passes_error.mpr ⟨nofun, nofun⟩
  · exact passes_ok _

/-! ## The three checks -/

theorem applyHeader_passes (hsign : ecrecover crypto header = .ok val) :
    Passes (s.applyHeader crypto config chain parents header) ↔
      val ∈ s.validators.1 ∧ ¬ Recent (s.shift header.number64) val := by
  unfold applyHeader
  rw [hsign, ok_bind]
  have hval : (s.shift header.number64).validators = s.validators := rfl
  rw [hval]
  by_cases hin : val ∈ s.validators.1
  · rw [if_neg (not_not.mpr hin)]
    by_cases hrec : Recent (s.shift header.number64) val
    · rw [if_pos (signedRecently_iff.mpr hrec)]
      exact ⟨fun h => absurd rfl h.2, fun h => absurd hrec h.2⟩
    rw [if_neg (mt signedRecently_iff.mp hrec)]
    refine iff_of_true (passes_bind.mpr ⟨epochChange_passes _ _, ?_⟩) ⟨hin, hrec⟩
    intro a _
    split
    · exact passes_error.mpr ⟨nofun, nofun⟩
    · exact passes_ok _
  · rw [if_pos hin]
    exact ⟨fun h => absurd rfl h.1, fun h => absurd h.1 hin⟩

theorem apply_passes (hnum : header.number64 = s.number + 1) (hparent : header.parentHash = s.hash)
    (hsign : ecrecover crypto header = .ok val) :
    Passes (s.apply crypto config chain parents [header]) ↔
      val ∈ s.validators.1 ∧ ¬ Recent (s.shift header.number64) val := by
  have hone : Passes (s.applyHeader crypto config chain parents header) ↔ _ :=
    applyHeader_passes hsign
  rw [← hone]
  unfold apply
  simp only [checkContiguous, ok_bind, hnum, hparent, ne_eq, not_true_eq_false, ↓reduceIte,
    List.foldlM_cons, List.foldlM_nil]
  constructor
  · intro h
    exact (passes_bind.mp (passes_bind.mp h).1).1
  · intro h
    exact passes_bind.mpr ⟨passes_bind.mpr ⟨h, fun _ _ => passes_ok _⟩, fun _ _ => passes_ok _⟩

theorem verifySeal_passes {fakeDiff : Bool} (hpos : header.number64 ≠ 0)
    (hsign : ecrecover crypto header = .ok header.coinbase) :
    Passes (verifySeal crypto fakeDiff s header) ↔ header.coinbase ∈ s.validators.1 ∧
      ¬ ∃ k, s.recents.lookup k = some header.coinbase ∧ header.number64 - ofNat s.limit < k := by
  unfold verifySeal
  rw [if_neg hpos, hsign, ok_bind, if_neg (not_not.mpr rfl)]
  by_cases hin : header.coinbase ∈ s.validators.1
  · rw [if_neg (not_not.mpr hin)]
    have hrec : signedWithin s header.coinbase
        (fun seen limit => decide (header.number64 - limit < seen)) = true ↔ _ := signedWithin_iff
    simp only [decide_eq_true_eq] at hrec
    rw [← hrec]
    split
    next hw =>
      exact ⟨fun h => absurd rfl h.2, fun h => absurd hw h.2⟩
    next hw =>
    refine iff_of_true ?_ ⟨hin, hw⟩
    split
    · exact passes_ok _
    refine passes_bind.mpr ⟨passes_bind.mpr ⟨supposeValidator_passes s, fun _ _ => passes_ok _⟩, ?_⟩
    intro inturn _
    split
    · exact passes_error.mpr ⟨nofun, nofun⟩
    · split
      · exact passes_error.mpr ⟨nofun, nofun⟩
      · exact passes_ok _
  · rw [if_pos hin]
    exact ⟨fun h => absurd rfl h.1, fun h => absurd h.1 hin⟩

theorem sealCheck_signs {number : UInt64} :
    sealCheck s number val = .ok .signs ↔ val ∈ s.validators.1 ∧
      ¬ ∃ k, s.recents.lookup k = some val ∧
        (number < ofNat s.limit ∨ number - ofNat s.limit < k) := by
  unfold sealCheck
  have hrec : signedWithin s val (fun seen limit =>
      decide (number < limit) || decide (number - limit < seen)) = true ↔ _ := signedWithin_iff
  simp only [Bool.or_eq_true, decide_eq_true_eq] at hrec
  rw [← hrec]
  by_cases hin : val ∈ s.validators.1
  · rw [if_neg (not_not.mpr hin)]
    split
    next hw =>
      exact ⟨nofun, fun h => absurd hw h.2⟩
    next hw =>
      exact iff_of_true rfl ⟨hin, hw⟩
  · rw [if_pos hin]
    exact ⟨nofun, fun h => absurd h.1 hin⟩

end

end Dexit.Parlia
