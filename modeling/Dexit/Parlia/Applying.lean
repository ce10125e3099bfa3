import Dexit.Parlia.Snapshot

/-! The loop body of `apply` in three steps, and what each of them does. -/

namespace Dexit.Parlia

open Outcome List UInt64

namespace Snapshot
variable (crypto : Crypto) (config : ParliaConfig)

/-- The loop body of `apply` up to the change of validators: the signer is
checked and recorded. -/
def recordSigner (s : Snapshot) (header : Header) : Except Err Snapshot := do
  let s := s.shift header.number64
  let validator ← ecrecover crypto header
  if validator ∉ s.validators.1 then .error .errUnauthorizedValidator
  else if s.signedRecently validator then .error .errRecentlySigned
  else pure { s with recents := s.recents.insert header.number64 validator }

/-- The rest of it. -/
def recordFork (s : Snapshot) (header : Header) : Except Err Snapshot :=
  match header.extra.sub (extraVanity - nextForkHashSize) extraVanity with
  | none => .error .panic
  | some forkHash =>
    .ok { s with
      recentForkHashes :=
        s.recentForkHashes.insert header.number64 (encodeToString forkHash.1) }

/-- The validator set is due to change at this header. -/
def ChangesAt (s : Snapshot) (header : Header) : Prop :=
  0 < header.number64 ∧ header.number64 % config.epoch = UInt64.ofNat (s.validators.1.card / 2)

/-- It changes, if the header that announced the new set can be found: that is
an earlier one, since there is more than one validator. -/
def Switches (s : Snapshot) (header : Header) : Prop :=
  (∃ t, s.recordSigner crypto header = .ok t) ∧ s.ChangesAt config header ∧
    s.validators.1.card / 2 ≠ 0

/-- The same snapshot under another block. -/
def moveTo (s : Snapshot) (number : UInt64) (hash : Hash) : Snapshot :=
  { s with number := number, hash := hash }

variable {crypto config} {chain chain' : ChainReader} {parents parents' : List Header}
  {s t : Snapshot} {header : Header} {rest : List Header}

theorem applyHeader_eq : s.applyHeader crypto config chain parents header =
    s.recordSigner crypto header >>= fun s =>
      s.epochChange crypto config chain parents header >>= fun s => s.recordFork header := by
  unfold applyHeader recordSigner
  cases ecrecover crypto header with
  | error e => rfl
  | ok signer =>
    simp only [ok_bind]
    split
    · rfl
    · split <;> rfl

theorem recordSigner_ok (h : s.recordSigner crypto header = .ok t) :
    ∃ signer, ecrecover crypto header = .ok signer ∧ signer ∈ s.validators.1 ∧
      (s.shift header.number64).signedRecently signer = false ∧
      t = { s.shift header.number64 with
        recents := (s.shift header.number64).recents.insert header.number64 signer } := by
  unfold recordSigner at h
  obtain ⟨signer, hrecover, h⟩ := bind_ok.mp h
  split at h
  · cases h
  next hin =>
    split at h
    · cases h
    next hnot =>
      cases h
      exact ⟨signer, hrecover, not_not.mp hin, Bool.eq_false_of_not_eq_true hnot, rfl⟩

theorem recordSigner_validators (h : s.recordSigner crypto header = .ok t) :
    t.validators = s.validators := by
  obtain ⟨_, _, _, _, rfl⟩ := recordSigner_ok h
  rfl

theorem recordFork_ok (h : s.recordFork header = .ok t) :
    ∃ recentForkHashes, t = { s with recentForkHashes := recentForkHashes } := by
  unfold recordFork at h
  split at h
  · cases h
  · cases h
    exact ⟨_, rfl⟩

theorem epochChange_idle (h : ¬ s.ChangesAt config header) :
    s.epochChange crypto config chain parents header = .ok s :=
  if_neg h

theorem epochChange_due (h : s.ChangesAt config header) :
    s.epochChange crypto config chain parents header =
      match findAncientHeader crypto chain parents (s.validators.1.card / 2) header with
      | none => .error .errUnknownAncestor
      | some checkpointHeader =>
        match checkpointHeader.extra.sub extraVanity
            (checkpointHeader.extra.1.length - extraSeal) with
        | none => .error .panic
        | some validatorBytes => parseValidators validatorBytes >>= fun newValArr =>
          .ok (s.changeValidators header.number64 newValArr.toKeySet) := by
  exact if_pos h

/-- Whatever headers it finds, the change leaves the set as it is or puts
another one in its place. -/
theorem epochChange_ok (h : s.epochChange crypto config chain parents header = .ok t) :
    t = s ∨ ∃ newVals, t = s.changeValidators header.number64 newVals := by
  by_cases hdue : s.ChangesAt config header
  · rw [epochChange_due hdue] at h
    split at h
    · cases h
    split at h
    · cases h
    · obtain ⟨newValArr, _, h⟩ := bind_ok.mp h
      cases h
      exact Or.inr ⟨_, rfl⟩
  · rw [epochChange_idle hdue] at h
    cases h
    exact Or.inl rfl

/-- The headers around it matter only where the validator set changes. -/
theorem applyHeader_congr (h : s.Switches crypto config header →
      findAncientHeader crypto chain parents (s.validators.1.card / 2) header =
        findAncientHeader crypto chain' parents' (s.validators.1.card / 2) header) :
    s.applyHeader crypto config chain parents header =
      s.applyHeader crypto config chain' parents' header := by
  rw [applyHeader_eq, applyHeader_eq]
  cases hsigner : s.recordSigner crypto header with
  | error e => rfl
  | ok t =>
    have hvals := recordSigner_validators hsigner
    rw [ok_bind, ok_bind]
    by_cases hdue : t.ChangesAt config header
    · rw [epochChange_due hdue, epochChange_due hdue]
      simp only [ChangesAt, hvals] at hdue ⊢
      by_cases hhalf : s.validators.1.card / 2 = 0
      · simp only [hhalf, findAncientHeader]
      · rw [h ⟨⟨t, hsigner⟩, hdue, hhalf⟩]
    · rw [epochChange_idle hdue, epochChange_idle hdue]

/-- A change of validators whose ancestor is not found. -/
theorem applyHeader_blind (h : s.Switches crypto config header)
    (hnone : findAncientHeader crypto chain parents (s.validators.1.card / 2) header = none) :
    s.applyHeader crypto config chain parents header = .error .errUnknownAncestor := by
  obtain ⟨⟨t, hsigner⟩, hdue, _⟩ := h
  have hvals := recordSigner_validators hsigner
  rw [ChangesAt, ← hvals] at hdue
  rw [applyHeader_eq, hsigner, ok_bind, epochChange_due hdue]
  simp only [hvals, hnone, error_bind]

theorem ecrecover_known : ecrecover crypto header ≠ .error .errUnknownAncestor := by
  unfold ecrecover
  split
  · nofun
  · simp only
    split <;> nofun

theorem recordSigner_known : s.recordSigner crypto header ≠ .error .errUnknownAncestor := by
  unfold recordSigner
  rw [Ne, bind_error]
  rintro (h | ⟨signer, _, h⟩)
  · exact ecrecover_known h
  · split at h
    · cases h
    · split at h <;> cases h

/-- Where the ancestor is found, nothing else reports it missing. -/
theorem applyHeader_known (h : s.ChangesAt config header →
      findAncientHeader crypto chain parents (s.validators.1.card / 2) header ≠ none) :
    s.applyHeader crypto config chain parents header ≠ .error .errUnknownAncestor := by
  rw [applyHeader_eq, Ne, bind_error]
  rintro (herr | ⟨t, hsigner, herr⟩)
  · exact recordSigner_known herr
  have hvals := recordSigner_validators hsigner
  obtain herr | ⟨u, _, herr⟩ := bind_error.mp herr
  · by_cases hdue : t.ChangesAt config header
    · rw [epochChange_due hdue] at herr
      rw [ChangesAt, hvals] at hdue
      rw [hvals] at herr
      split at herr
      next hnone =>
        exact h hdue hnone
      split at herr
      · cases herr
      · obtain herr | ⟨_, _, herr⟩ := bind_error.mp herr
        · unfold parseValidators at herr
          split at herr <;> cases herr
        · cases herr
    · rw [epochChange_idle hdue] at herr
      cases herr
  · unfold recordFork at herr
    split at herr <;> cases herr

/-! ## A batch of headers -/

theorem checkContiguous_cons {a b : Header}
    (h : checkContiguous crypto (a :: b :: rest) = .ok ()) : b.number64 = a.number64 + 1 ∧
      b.parentHash = crypto.hash a ∧ checkContiguous crypto (b :: rest) = .ok () := by
  simp only [checkContiguous] at h
  split at h
  · cases h
  next hnum =>
    split at h
    · cases h
    next hparent => exact ⟨not_not.mp hnum, not_not.mp hparent, h⟩

theorem applyHeader_number (h : s.applyHeader crypto config chain parents header = .ok t) :
    t.number = s.number := by
  rw [applyHeader_eq] at h
  obtain ⟨_, hsigner, h⟩ := bind_ok.mp h
  obtain ⟨_, _, _, _, rfl⟩ := recordSigner_ok hsigner
  obtain ⟨_, hchange, h⟩ := bind_ok.mp h
  obtain ⟨_, rfl⟩ := recordFork_ok h
  obtain rfl | ⟨_, rfl⟩ := epochChange_ok hchange <;> rfl

theorem foldlM_number {headers : List Header}
    (h : headers.foldlM (applyHeader crypto config chain parents) s = .ok t) :
    t.number = s.number := by
  induction headers generalizing s with
  | nil => cases h; rfl
  | cons a rest ih =>
    obtain ⟨u, hu, h⟩ := bind_ok.mp h
    exact (ih h).trans (applyHeader_number hu)

theorem apply_ok {first : Header} :
    s.apply crypto config chain parents (first :: rest) = .ok t ↔
      checkContiguous crypto (first :: rest) = .ok () ∧ first.number64 = s.number + 1 ∧
        first.parentHash = s.hash ∧
        ∃ u, (first :: rest).foldlM (applyHeader crypto config chain parents) s = .ok u ∧
          t = u.moveTo (s.number + ofNat (first :: rest).length)
            (crypto.hash (rest.getLast?.getD first)) := by
  unfold apply
  cases hcont : checkContiguous crypto (first :: rest) with
  | error e =>
    simp only [hcont, error_bind]
    simp
  | ok _ =>
    simp only [hcont, ok_bind, true_and]
    by_cases hnum : first.number64 = s.number + 1
    · by_cases hparent : first.parentHash = s.hash
      · rw [if_neg (not_not.mpr hnum), if_neg (not_not.mpr hparent)]
        simp only [bind_ok, pure_ok, hnum, hparent, true_and]
        refine exists_congr fun u => and_congr_right fun hu => ?_
        rw [← foldlM_number hu, eq_comm]
        rfl
      · rw [if_neg (not_not.mpr hnum), if_pos hparent]
        simp [hparent]
    · simp [hnum]

theorem apply_single : s.apply crypto config chain parents [header] = .ok t ↔
    header.number64 = s.number + 1 ∧ header.parentHash = s.hash ∧
      ∃ u, s.applyHeader crypto config chain parents header = .ok u ∧
        t = u.moveTo (s.number + 1) (crypto.hash header) := by
  have hfold : [header].foldlM (applyHeader crypto config chain parents) s =
      s.applyHeader crypto config chain parents header := by
    exact bind_pure _
  rw [apply_ok, hfold]
  exact and_iff_right rfl

/-! The number and the hash of a snapshot are not looked at. -/

section
variable (s) (number : UInt64) (hash : Hash)

theorem recordSigner_moveTo : (s.moveTo number hash).recordSigner crypto header =
    (s.recordSigner crypto header).map (·.moveTo number hash) := by
  unfold recordSigner
  cases ecrecover crypto header with
  | error e => rfl
  | ok signer =>
    have hvals : ((s.moveTo number hash).shift header.number64).validators =
      (s.shift header.number64).validators := rfl
    have hrecent : ((s.moveTo number hash).shift header.number64).signedRecently signer =
      (s.shift header.number64).signedRecently signer := rfl
    simp only [ok_bind, hvals, hrecent]
    split
    · rfl
    · split <;> rfl

theorem epochChange_moveTo :
    (s.moveTo number hash).epochChange crypto config chain parents header =
      (s.epochChange crypto config chain parents header).map (·.moveTo number hash) := by
  by_cases hdue : s.ChangesAt config header
  · have hmoved : (s.moveTo number hash).ChangesAt config header := hdue
    rw [epochChange_due hdue, epochChange_due hmoved]
    have hvals : (s.moveTo number hash).validators = s.validators := rfl
    rw [hvals]
    split
    · rfl
    · split
      · rfl
      next bytes _ =>
        cases parseValidators bytes <;> rfl
  · have hmoved : ¬ (s.moveTo number hash).ChangesAt config header := hdue
    rw [epochChange_idle hdue, epochChange_idle hmoved]
    rfl

theorem applyHeader_moveTo :
    (s.moveTo number hash).applyHeader crypto config chain parents header =
      (s.applyHeader crypto config chain parents header).map (·.moveTo number hash) := by
  rw [applyHeader_eq, applyHeader_eq, recordSigner_moveTo]
  cases s.recordSigner crypto header with
  | error e => rfl
  | ok t =>
    simp only [Except.map, ok_bind, epochChange_moveTo]
    cases t.epochChange crypto config chain parents header with
    | error e => rfl
    | ok u =>
      simp only [ok_bind, recordFork]
      split <;> rfl

theorem foldlM_moveTo (headers : List Header) :
    headers.foldlM (applyHeader crypto config chain parents) (s.moveTo number hash) =
      (headers.foldlM (applyHeader crypto config chain parents) s).map (·.moveTo number hash) := by
  induction headers generalizing s with
  | nil => rfl
  | cons a rest ih =>
    rw [foldlM_cons, foldlM_cons, applyHeader_moveTo]
    cases s.applyHeader crypto config chain parents a with
    | error e => rfl
    | ok t => exact ih t

end

/-- A batch is applied header by header. -/
theorem apply_cons {first : Header}
    (h : s.apply crypto config chain parents (first :: rest) = .ok t) :
    ∃ u, s.apply crypto config chain parents [first] = .ok u ∧
      u.apply crypto config chain parents rest = .ok t := by
  cases rest with
  | nil => exact ⟨t, h, rfl⟩
  | cons second rest =>
    obtain ⟨hcont, hnum, hparent, snap, hfold, rfl⟩ := apply_ok.mp h
    obtain ⟨hsecond, hlinked, hcont⟩ := checkContiguous_cons hcont
    obtain ⟨u, hu, hfold⟩ := bind_ok.mp hfold
    refine ⟨_, apply_single.mpr ⟨hnum, hparent, u, hu, rfl⟩, ?_⟩
    rw [hnum] at hsecond
    refine apply_ok.mpr ⟨hcont, hsecond, hlinked,
      snap.moveTo (s.number + 1) (crypto.hash first), ?_, ?_⟩
    · rw [foldlM_moveTo, hfold]
      rfl
    · have hnumber : s.number + ofNat (first :: second :: rest).length =
          s.number + 1 + ofNat (second :: rest).length := by
        rw [length_cons, UInt64.ofNat_add, UInt64.add_assoc, UInt64.add_comm 1]
        rfl
      have hlast : (second :: rest).getLast?.getD first = rest.getLast?.getD second := by
        rw [getLast?_cons, Option.getD_some]
      rw [hnumber, hlast]
      rfl

theorem switches_moveTo {number : UInt64} {hash : Hash} :
    (s.moveTo number hash).Switches crypto config header ↔ s.Switches crypto config header := by
  unfold Switches
  rw [recordSigner_moveTo]
  cases s.recordSigner crypto header with
  | error e => exact Iff.rfl
  | ok t => exact and_congr_left fun _ => iff_of_true ⟨_, rfl⟩ ⟨_, rfl⟩

end Snapshot

end Dexit.Parlia
