import Dexit.Staking.Election

/-! The two values governance may change, and the re-election each change causes. -/

namespace Dexit.Staking

open Solidity Outcome List

/-- The `while (true)` loop of a minimum-stake update: members below the new
minimum leave, lowest first, until three are left. Each round but the last
vacates a seat, so one round more than there are seats is enough fuel. -/
def dropBelowMinimum : Nat → State → Result State
  | 0, _ => .error .outOfGas
  | fuel + 1, s => do
    let (_, _, lowValidator) ← lowestCoinsInHighestValidator s
    if s.highestValidators.length ≤ 3 then pure s
    else if getCoins s lowValidator < s.minimumStakeAmount then
      dropBelowMinimum fuel
        { s with highestValidators := removeFromHighestValidatorList s lowValidator }
    else pure s

/-- At most `n` electable validators at or above the minimum are seated; the
first round that finds none ends the loop. -/
def fillAboveMinimum : Nat → State → State
  | 0, s => s
  | n + 1, s =>
    let (_, _, highestValidatorAddress) := highestCoinsInCurrentValidatorsNotInTopValidator s
    if s.minimumStakeAmount ≤ getCoins s highestValidatorAddress ∧ highestValidatorAddress ≠ 0 then
      fillAboveMinimum n
        { s with highestValidators := s.highestValidators ++ [highestValidatorAddress] }
    else s

/-- `n` times the member with the fewest coins is asked to leave. -/
def dropLowest : Nat → State → Result State
  | 0, s => pure s
  | n + 1, s => do
    let (_, _, lowValidator) ← lowestCoinsInHighestValidator s
    dropLowest n { s with highestValidators := removeFromHighestValidatorList s lowValidator }

/-- `n` rounds that each seat the best electable validator, if there is one. -/
def fillSeats : Nat → State → State
  | 0, s => s
  | n + 1, s =>
    let (_, _, highestValidatorAddress) := highestCoinsInCurrentValidatorsNotInTopValidator s
    if highestValidatorAddress ≠ 0 then
      fillSeats n { s with highestValidators := s.highestValidators ++ [highestValidatorAddress] }
    else fillSeats n s

def updateMinimumStakeAmount (s : State) (variable_value : Nat) : Result State := do
  let s := { s with minimumStakeAmount := variable_value }
  let s ← dropBelowMinimum (s.highestValidators.length + 1) s
  if s.highestValidators.length < s.maxValidators then
    pure (fillAboveMinimum (s.maxValidators - s.highestValidators.length) s)
  else pure s

/-- Lowering the bound first empties as many seats as it takes away. -/
def emptySeats (s : State) (variable_value : Nat) : Result State :=
  if variable_value < s.preMaxValidators then dropLowest (s.maxValidators - variable_value) s
  else pure s

def updateMaxValidators (s : State) (variable_value : Nat) : Result State := do
  let s := { s with preMaxValidators := s.maxValidators }
  let s ← emptySeats s variable_value
  let s := { s with maxValidators := variable_value }
  if s.highestValidators.length < s.maxValidators then
    pure (fillSeats (s.maxValidators - s.highestValidators.length) s)
  else pure s

/-- The removals an update begins with. -/
def removals (s : State) (variable_name : String) (variable_value : Nat) : Result State :=
  if variable_name = "minimumStakeAmount" then
    dropBelowMinimum (s.highestValidators.length + 1) { s with minimumStakeAmount := variable_value }
  else if variable_name = "maxValidators" then
    emptySeats { s with preMaxValidators := s.maxValidators } variable_value
  else pure s

/-- Names are compared by hash in the source; any other name changes nothing. -/
def updateVotingValues (s : State) (env : Env) (variable_name : String) (variable_value : Nat) :
    Result State := do
  nonPayable env
  require (env.sender = GOV_HUB_ADDR) "the message sender must be governance contract"
  if variable_name = "minimumStakeAmount" then updateMinimumStakeAmount s variable_value
  else if variable_name = "maxValidators" then updateMaxValidators s variable_value
  else pure s

/-! ## What a successful call did -/

section Outcomes
variable {s t : State} {env : Env} {value : Nat}

/-- Members leave until three are left, and the last three stay. -/
def Leaves (old kept : List Address) : Prop := ∀ cap fit, Reseat 3 cap fit old kept

theorem Leaves.refl (old : List Address) : Leaves old old := fun _ _ => .refl

variable {kept old : List Address} {fuel : Nat}

theorem Leaves.remove (s : State) (a : Address)
    (h : Leaves (removeFromHighestValidatorList s a) kept) : Leaves s.highestValidators kept :=
  fun cap fit => (removeFromHighest_reseat s a cap fit).trans (h cap fit)

theorem Leaves.length_le (h : Leaves old kept) : kept.length ≤ old.length :=
  (h old.length fun _ => True).length_le le_rfl

theorem Leaves.nodup (h : Leaves old kept) (hold : old.Nodup) :
    kept.Nodup :=
  (h 0 fun _ => False).nodup hold

theorem Leaves.three_le {seats : List Address} (h : Leaves old kept)
    (hstay : kept <+: seats) : min 3 old.length ≤ seats.length :=
  (h 0 fun _ => False).floor_le.trans hstay.length_le

theorem dropBelowMinimum_ok (h : dropBelowMinimum fuel s = .ok t) :
    ∃ kept, t = { s with highestValidators := kept } ∧ Leaves s.highestValidators kept ∧
      (kept.length ≤ 3 ∨ ∀ a ∈ kept, s.minimumStakeAmount ≤ getCoins s a) := by
  induction fuel generalizing s with
  | zero => cases h
  | succ n ih =>
    simp only [dropBelowMinimum, bind_ok] at h
    obtain ⟨⟨low, i, a⟩, hlow, h⟩ := h
    obtain ⟨_, hcoins, hall⟩ := lowest_spec hlow
    simp only at h
    split at h
    next hfew =>
      cases h
      exact ⟨_, rfl, .refl _, .inl hfew⟩
    · split at h
      · obtain ⟨kept, rfl, hkept, hend⟩ := ih h
        exact ⟨kept, rfl, hkept.remove, hend⟩
      next hmin =>
      cases h
      refine ⟨_, rfl, .refl _, .inr fun b hb => ?_⟩
      have := hall b hb
      omega

/-- Every round but the last removes a member, so the loop ends. -/
theorem dropBelowMinimum_returns (hne : s.highestValidators ≠ [])
    (hfuel : s.highestValidators.length < fuel) : ∃ t, dropBelowMinimum fuel s = .ok t := by
  induction fuel generalizing s with
  | zero => omega
  | succ n ih =>
    obtain ⟨⟨low, i, a⟩, hlow⟩ := lowest_returns.mpr hne
    simp only [dropBelowMinimum, hlow, ok_bind]
    split
    · exact ⟨_, rfl⟩
    split
    · have hmem := mem_of_getElem? (lowest_spec hlow).1
      have hlen := removeFromHighest_length hmem (by omega)
      exact ih ((removeFromHighest_reseat s a 0 fun _ => False).ne_nil (by decide) hne) (by simp only; omega)
    · exact ⟨_, rfl⟩

theorem dropLowest_ok {n : Nat} (h : dropLowest n s = .ok t) :
    ∃ kept, t = { s with highestValidators := kept } ∧ Leaves s.highestValidators kept ∧
      kept.length ≤ max 3 (s.highestValidators.length - n) := by
  induction n generalizing s with
  | zero =>
    simp only [dropLowest, pure_ok] at h
    exact ⟨_, h.symm, .refl _, by omega⟩
  | succ n ih =>
    simp only [dropLowest, bind_ok] at h
    obtain ⟨⟨low, i, a⟩, hlow, h⟩ := h
    obtain ⟨kept, rfl, hkept, hlen⟩ := ih h
    refine ⟨kept, rfl, hkept.remove, ?_⟩
    simp only at hlen
    by_cases h3 : 3 < s.highestValidators.length
    · have hmem := mem_of_getElem? (lowest_spec hlow).1
      have := removeFromHighest_length hmem h3
      omega
    · have : removeFromHighestValidatorList s a = s.highestValidators := by
        unfold removeFromHighestValidatorList
        rw [if_pos (by omega)]
      rw [this] at hlen
      omega

theorem dropLowest_returns (n : Nat) (hne : s.highestValidators ≠ []) :
    ∃ t, dropLowest n s = .ok t := by
  induction n generalizing s with
  | zero => exact ⟨_, rfl⟩
  | succ n ih =>
    obtain ⟨⟨low, i, a⟩, hlow⟩ := lowest_returns.mpr hne
    simp only [dropLowest, hlow, ok_bind]
    exact ih ((removeFromHighest_reseat s a 0 fun _ => False).ne_nil (by decide) hne)

/-- Newcomers follow the members, who stay. -/
def Joins (s : State) (fit : Address → Prop) (t : State) : Prop :=
  ∃ seats, t = { s with highestValidators := seats } ∧ s.highestValidators <+: seats ∧
    Reseat 3 s.maxValidators fit s.highestValidators seats

theorem Joins.refl (s : State) (fit : Address → Prop) : Joins s fit s :=
  ⟨_, rfl, prefix_refl _, .refl⟩

theorem Joins.push {fit : Address → Prop} {high idx : Nat} {a : Address}
    (hh : highestCoinsInCurrentValidatorsNotInTopValidator s = (high, idx, a)) (ha : a ≠ 0)
    (hroom : s.highestValidators.length < s.maxValidators) (hfit : Fit s a → fit a)
    (h : Joins { s with highestValidators := s.highestValidators ++ [a] } fit t) :
    Joins s fit t := by
  obtain ⟨hnew, ok⟩ := highest_fit hh ha
  obtain ⟨seats, rfl, hstay, hseats⟩ := h
  exact ⟨seats, rfl, (prefix_append _ _).trans hstay,
    (Reseat.refl.push a hnew hroom (hfit ok)).trans hseats⟩

theorem fillAboveMinimum_joins (n : Nat) (hn : s.highestValidators.length + n ≤ s.maxValidators) :
    Joins s (fun a => Fit s a ∧ s.minimumStakeAmount ≤ getCoins s a) (fillAboveMinimum n s) := by
  induction n generalizing s with
  | zero => exact .refl _ _
  | succ n ih =>
    rcases hh : highestCoinsInCurrentValidatorsNotInTopValidator s with ⟨high, idx, a⟩
    simp only [fillAboveMinimum, hh]
    split
    next hc =>
      apply Joins.push hh hc.2 (by omega) fun ok => ⟨ok, hc.1⟩
      exact ih (by simp only [length_append, length_singleton]; omega)
    · exact .refl _ _

theorem fillSeats_joins (n : Nat) (hn : s.highestValidators.length + n ≤ s.maxValidators) :
    Joins s (Fit s) (fillSeats n s) := by
  induction n generalizing s with
  | zero => exact .refl _ _
  | succ n ih =>
    rcases hh : highestCoinsInCurrentValidatorsNotInTopValidator s with ⟨high, idx, a⟩
    simp only [fillSeats, hh]
    split
    next ha =>
      apply Joins.push hh ha (by omega) id
      exact ih (by simp only [length_append, length_singleton]; omega)
    · exact ih (by omega)

theorem updateMinimumStakeAmount_ok (h : updateMinimumStakeAmount s value = .ok t) :
    ∃ seats, t = { s with minimumStakeAmount := value, highestValidators := seats } ∧
      ∃ kept, removals s "minimumStakeAmount" value =
          .ok { s with minimumStakeAmount := value, highestValidators := kept } ∧
        Leaves s.highestValidators kept ∧ kept <+: seats ∧
        (kept.length ≤ 3 ∨ ∀ a ∈ kept, value ≤ getCoins s a) ∧
        Reseat 3 s.maxValidators (fun a => Fit { s with minimumStakeAmount := value } a ∧
          value ≤ getCoins s a) kept seats := by
  simp only [updateMinimumStakeAmount, bind_ok] at h
  obtain ⟨u, hu, h⟩ := h
  obtain ⟨kept, rfl, hkept, hend⟩ := dropBelowMinimum_ok hu
  split at h
  next hlt =>
    simp only [pure_ok] at h
    obtain ⟨seats, e, hstay, hseats⟩ := fillAboveMinimum_joins (s.maxValidators - kept.length)
      (s := { s with minimumStakeAmount := value, highestValidators := kept })
      (by simp only at hlt ⊢; omega)
    rw [← h, e]
    exact ⟨seats, rfl, kept, hu, hkept, hstay, hend, hseats⟩
  · cases h
    exact ⟨kept, rfl, kept, hu, hkept, prefix_refl _, hend, .refl⟩

theorem emptySeats_ok (h : emptySeats s value = .ok t)
    (hpre : s.preMaxValidators = s.maxValidators) :
    ∃ kept, t = { s with highestValidators := kept } ∧ Leaves s.highestValidators kept ∧
      (s.highestValidators.length ≤ s.maxValidators → 3 ≤ value → kept.length ≤ value) := by
  unfold emptySeats at h
  split at h
  · obtain ⟨kept, rfl, hkept, hlen⟩ := dropLowest_ok h
    exact ⟨kept, rfl, hkept, fun _ _ => by omega⟩
  · cases h
    exact ⟨_, rfl, .refl _, fun hle _ => by omega⟩

theorem updateMaxValidators_ok (h : updateMaxValidators s value = .ok t) :
    ∃ kept seats pre, t = { s with
        maxValidators := value
        preMaxValidators := pre
        highestValidators := seats } ∧
      Leaves s.highestValidators kept ∧ kept <+: seats ∧
      (s.highestValidators.length ≤ s.maxValidators → 3 ≤ value → kept.length ≤ value) ∧
      Reseat 3 value (Fit s) kept seats ∧ removals s "maxValidators" value =
        .ok { s with preMaxValidators := pre, highestValidators := kept } := by
  simp only [updateMaxValidators, bind_ok] at h
  obtain ⟨u, hu, h⟩ := h
  obtain ⟨kept, rfl, hkept, hlen⟩ := emptySeats_ok hu rfl
  split at h
  next hlt =>
    simp only [pure_ok] at h
    obtain ⟨seats, e, hstay, hseats⟩ := fillSeats_joins (value - kept.length)
      (s := { s with
        preMaxValidators := s.maxValidators
        maxValidators := value
        highestValidators := kept }) (by simp only at hlt ⊢; omega)
    rw [← h, e]
    exact ⟨kept, seats, _, rfl, hkept, hstay, hlen, hseats, hu⟩
  · cases h
    exact ⟨kept, kept, _, rfl, hkept, prefix_refl _, hlen, .refl, hu⟩

theorem updateVotingValues_ok {name : String} (h : updateVotingValues s env name value = .ok t) :
    t = s ∨ name = "minimumStakeAmount" ∧ updateMinimumStakeAmount s value = .ok t ∨
      name = "maxValidators" ∧ updateMaxValidators s value = .ok t := by
  simp only [updateVotingValues, nonPayable, bind_ok, guardWith_ok, require_ok] at h
  obtain ⟨_, _, _, _, h⟩ := h
  split at h
  · exact .inr (.inl ⟨‹_›, h⟩)
  · split at h
    · exact .inr (.inr ⟨‹_›, h⟩)
    · cases h
      exact .inl rfl

theorem updateMinimumStakeAmount_returns (value : Nat) (hne : s.highestValidators ≠ []) :
    ∃ t, updateMinimumStakeAmount s value = .ok t := by
  obtain ⟨u, hu⟩ := dropBelowMinimum_returns (s := { s with minimumStakeAmount := value }) hne
    (Nat.lt_succ_self _)
  simp only [updateMinimumStakeAmount, hu, ok_bind]
  split <;> exact ⟨_, rfl⟩

theorem updateMaxValidators_returns (value : Nat) (hne : s.highestValidators ≠ []) :
    ∃ t, updateMaxValidators s value = .ok t := by
  obtain ⟨u, hu⟩ : ∃ u, emptySeats { s with preMaxValidators := s.maxValidators } value = .ok u := by
    unfold emptySeats
    split
    · exact dropLowest_returns _ hne
    · exact ⟨_, rfl⟩
  simp only [updateMaxValidators, hu, ok_bind]
  split <;> exact ⟨_, rfl⟩

end Outcomes

end Dexit.Staking
