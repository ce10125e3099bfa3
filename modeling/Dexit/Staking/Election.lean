import Dexit.Solidity.Roster
import Dexit.Staking.State

/-! The two validator lists: who is active, who is on top, and how a seat on the
top list is filled, handed over or vacated. -/

namespace Dexit.Staking

open Solidity Outcome List
open Function (update)

variable (s : State)

def isActiveValidator (who : Address) : Bool :=
  s.currentValidators.contains who

def isTopValidator (who : Address) : Bool :=
  s.highestValidators.contains who

def getCoins (val : Address) : Nat :=
  (s.validatorInfo val).coins

/-- The loop of `lowestCoinsInHighestValidator` from slot `j` on, with the
lowest coins, index and address seen so far. -/
def lowestFrom (s : State) : List Address → Nat → Nat × Nat × Address → Nat × Nat × Address
  | [], _, low => low
  | a :: rest, j, low =>
    if getCoins s a < low.1 then lowestFrom s rest (j + 1) (getCoins s a, j, a)
    else lowestFrom s rest (j + 1) low

/-- Reading `highestValidators[0]` of an empty list panics. -/
def lowestCoinsInHighestValidator : Result (Nat × Nat × Address) :=
  match s.highestValidators with
  | [] => .error .outOfBounds
  | a :: rest => .ok (lowestFrom s rest 1 (getCoins s a, 0, a))

/-- What `highestCoinsInCurrentValidatorsNotInTopValidator` asks of a candidate
besides beating the best one so far. -/
def electable (a : Address) : Bool :=
  !isTopValidator s a && decide ((s.validatorInfo a).status = .Staked) &&
    decide (s.minimumStakeAmount ≤ (s.validatorInfo a).amount)

def highestFrom (s : State) : List Address → Nat → Nat × Nat × Address → Nat × Nat × Address
  | [], _, high => high
  | a :: rest, k, high =>
    if high.1 < getCoins s a ∧ electable s a = true then
      highestFrom s rest (k + 1) (getCoins s a, k, a)
    else highestFrom s rest (k + 1) high

/-- The zero address stands for "nobody". -/
def highestCoinsInCurrentValidatorsNotInTopValidator : Nat × Nat × Address :=
  highestFrom s s.currentValidators 0 (0, 0, 0)

/-- The top list never shrinks below three. -/
def removeFromHighestValidatorList (val : Address) : List Address :=
  if s.highestValidators.length ≤ 3 then s.highestValidators
  else swapRemoveFirst val s.highestValidators

/-- The last active validator stays listed. -/
def removeFromCurrentValidatorList (val : Address) : List Address :=
  if s.currentValidators.length ≤ 1 then s.currentValidators
  else swapRemoveFirst val s.currentValidators

def removeFromPunishValidator (val : Address) : List Address :=
  swapRemoveFirst val s.punishValidator

/-- A validator whose coins grew takes a free seat, or the seat of the member
with the fewest coins if it now has more and `mayReplace`. -/
def seat (v : Address) (mayReplace : Bool) : Result (List Address) :=
  if s.highestValidators.length < s.maxValidators ∧ isTopValidator s v = false then
    pure (s.highestValidators ++ [v])
  else if s.maxValidators ≤ s.highestValidators.length ∧ isTopValidator s v = false ∧
      mayReplace = true then do
    let (lowCoin, lowIdx, _) ← lowestCoinsInHighestValidator s
    if lowCoin < getCoins s v then store s.highestValidators lowIdx v
    else pure s.highestValidators
  else pure s.highestValidators

/-- A free seat goes to the best electable validator with at least `floor` coins. -/
def promoteHighest (floor : Nat) : List Address :=
  let (highCoin, _, addValAddress) := highestCoinsInCurrentValidatorsNotInTopValidator s
  if s.highestValidators.length < s.maxValidators ∧ addValAddress ≠ 0 ∧ floor ≤ highCoin then
    s.highestValidators ++ [addValAddress]
  else s.highestValidators

/-- The lowest seat goes to the best electable validator if that has more coins. -/
def replaceLowest : Result (List Address) := do
  let (lowestCoin, lowIdx, _) ← lowestCoinsInHighestValidator s
  let (highCoins, _, highValidator) := highestCoinsInCurrentValidatorsNotInTopValidator s
  if lowestCoin < highCoins ∧ highValidator ≠ 0 then
    store s.highestValidators lowIdx highValidator
  else pure s.highestValidators

/-! ## What the two scans return -/

section Scans
variable {s : State} {a : Address}

theorem lowestFrom_spec (xs : List Address) (j : Nat) (low : Nat × Nat × Address)
    (all : List Address) (hdrop : all.drop j = xs) (hlow : all[low.2.1]? = some low.2.2)
    (hc : low.1 = getCoins s low.2.2) :
    let r := lowestFrom s xs j low
    all[r.2.1]? = some r.2.2 ∧ r.1 = getCoins s r.2.2 ∧ r.1 ≤ low.1 ∧
      ∀ a ∈ xs, r.1 ≤ getCoins s a := by
  induction xs generalizing j low with
  | nil => exact ⟨hlow, hc, le_rfl, by simp⟩
  | cons a rest ih =>
    have hj : all[j]? = some a := by
      have := congrArg head? hdrop
      simpa using this
    have hrest : all.drop (j + 1) = rest := by
      have := congrArg tail hdrop
      simpa [tail_drop] using this
    simp only [lowestFrom]
    split
    next hlt =>
      obtain ⟨h1, h2, h3, h4⟩ := ih (j + 1) (getCoins s a, j, a) hrest hj rfl
      exact ⟨h1, h2, le_trans h3 hlt.le, forall_mem_cons.mpr ⟨h3, h4⟩⟩
    next hge =>
      obtain ⟨h1, h2, h3, h4⟩ := ih (j + 1) low hrest hlow hc
      have hle := le_trans h3 (not_lt.mp hge)
      exact ⟨h1, h2, h3, forall_mem_cons.mpr ⟨hle, h4⟩⟩

/-- The scan finds a member with the fewest coins and its slot. -/
theorem lowest_spec {low idx : Nat} (h : lowestCoinsInHighestValidator s = .ok (low, idx, a)) :
    s.highestValidators[idx]? = some a ∧ low = getCoins s a ∧
      ∀ b ∈ s.highestValidators, low ≤ getCoins s b := by
  unfold lowestCoinsInHighestValidator at h
  split at h
  · cases h
  next b rest hs =>
  injection h with h
  obtain ⟨h1, h2, h3, h4⟩ :=
    lowestFrom_spec (s := s) rest 1 (getCoins s b, 0, b) (b :: rest) rfl rfl rfl
  rw [h] at h1 h2 h3 h4
  rw [hs]
  exact ⟨h1, h2, forall_mem_cons.mpr ⟨h3, h4⟩⟩

theorem lowest_returns :
    (∃ r, lowestCoinsInHighestValidator s = .ok r) ↔ s.highestValidators ≠ [] := by
  unfold lowestCoinsInHighestValidator
  split <;> simp_all

/-- Whoever is found was a candidate and beats the starting value. -/
theorem highestFrom_spec (xs : List Address) (k : Nat) (high : Nat × Nat × Address) :
    let best := highestFrom s xs k high
    best = high ∧ (∀ a ∈ xs, electable s a = true → getCoins s a ≤ high.1) ∨
    (best.2.2 ∈ xs ∧ electable s best.2.2 = true ∧ best.1 = getCoins s best.2.2 ∧
      high.1 < best.1 ∧ ∀ a ∈ xs, electable s a = true → getCoins s a ≤ best.1) := by
  induction xs generalizing k high with
  | nil => exact Or.inl ⟨rfl, by simp⟩
  | cons a rest ih =>
    simp only [highestFrom]
    split
    next hc =>
      right
      obtain ⟨e, hmax⟩ | ⟨hm, he, hg, hlt, hmax⟩ := ih (k + 1) (getCoins s a, k, a)
      · rw [e]
        exact ⟨mem_cons_self, hc.2, rfl, hc.1, forall_mem_cons.mpr ⟨fun _ => le_rfl, hmax⟩⟩
      · exact ⟨mem_cons_of_mem _ hm, he, hg, lt_trans hc.1 hlt,
          forall_mem_cons.mpr ⟨fun _ => Nat.le_of_lt hlt, hmax⟩⟩
    next hc =>
      have hle (hel : electable s a = true) : getCoins s a ≤ high.1 := by
        by_contra hgt
        exact hc ⟨by omega, hel⟩
      obtain ⟨e, hmax⟩ | ⟨hm, he, hg, hlt, hmax⟩ := ih (k + 1) high
      · exact .inl ⟨e, forall_mem_cons.mpr ⟨hle, hmax⟩⟩
      · exact .inr ⟨mem_cons_of_mem _ hm, he, hg, hlt,
          forall_mem_cons.mpr ⟨fun hel => (hle hel).trans hlt.le, hmax⟩⟩

/-- The address returned is nobody, or an active electable validator with a
positive number of coins. -/
theorem highest_spec {high idx : Nat}
    (h : highestCoinsInCurrentValidatorsNotInTopValidator s = (high, idx, a)) (ha : a ≠ 0) :
    a ∈ s.currentValidators ∧ electable s a = true ∧ high = getCoins s a ∧ 0 < high := by
  unfold highestCoinsInCurrentValidatorsNotInTopValidator at h
  obtain ⟨e, _⟩ | ⟨hm, he, hg, hlt, _⟩ := highestFrom_spec (s := s) s.currentValidators 0 (0, 0, 0)
  · rw [h] at e
    exact absurd (congrArg (fun r => r.2.2) e) ha
  · rw [h] at hm he hg hlt
    exact ⟨hm, he, hg, hlt⟩

theorem electable_iff : electable s a = true ↔
    a ∉ s.highestValidators ∧ (s.validatorInfo a).status = .Staked ∧
      s.minimumStakeAmount ≤ (s.validatorInfo a).amount := by
  simp [electable, isTopValidator, and_assoc]

end Scans

/-! ## What an election may do to the top list -/

/-- Who an election may seat. -/
def Fit (s : State) (a : Address) : Prop :=
  a ∈ s.currentValidators ∧ (s.validatorInfo a).status = .Staked ∧
    s.minimumStakeAmount ≤ (s.validatorInfo a).amount

section Elections
variable {s : State} {a v : Address} {seats : List Address}

/-- Fitness looks at the status and the own stake of a validator only. -/
theorem Fit.of_update {t : State} {b : Address} {v : Validator} (h : Fit t b)
    (hv : t.validatorInfo = update s.validatorInfo a v) (hst : v.status = (s.validatorInfo a).status)
    (ha : v.amount = (s.validatorInfo a).amount) (hc : t.currentValidators = s.currentValidators)
    (hm : t.minimumStakeAmount = s.minimumStakeAmount) : Fit s b := by
  obtain ⟨hcur, hstaked, hmin⟩ := h
  rw [hc] at hcur
  rw [hv] at hstaked hmin
  rw [hm] at hmin
  by_cases hb : b = a
  · subst hb
    rw [Function.update_self] at hstaked hmin
    exact ⟨hcur, hst ▸ hstaked, ha ▸ hmin⟩
  · rw [Function.update_of_ne hb] at hstaked hmin
    exact ⟨hcur, hstaked, hmin⟩

theorem highest_fit {high idx : Nat}
    (h : highestCoinsInCurrentValidatorsNotInTopValidator s = (high, idx, a)) (ha : a ≠ 0) :
    a ∉ s.highestValidators ∧ Fit s a := by
  obtain ⟨hcur, hel, _, _⟩ := highest_spec h ha
  obtain ⟨hnew, hst, hmin⟩ := electable_iff.mp hel
  exact ⟨hnew, hcur, hst, hmin⟩

theorem seat_reseat {mayReplace : Bool} (h : seat s v mayReplace = .ok seats) :
    Reseat 3 s.maxValidators (· = v) s.highestValidators seats := by
  unfold seat at h
  split at h
  next hroom =>
    cases h
    have hnew : v ∉ s.highestValidators := by simpa [isTopValidator] using hroom.2
    exact Reseat.refl.push v hnew hroom.1 rfl
  · split at h
    next hfull =>
      have hnew : v ∉ s.highestValidators := by simpa [isTopValidator] using hfull.2.1
      simp only [bind_ok] at h
      obtain ⟨⟨low, idx, a⟩, _, h⟩ := h
      split at h
      · obtain ⟨_, rfl⟩ := store_ok.mp h
        exact Reseat.refl.replace idx v hnew rfl
      · cases h
        exact .refl
    · cases h
      exact .refl

theorem promoteHighest_reseat (s : State) (floor : Nat) :
    Reseat 3 s.maxValidators (Fit s) s.highestValidators (promoteHighest s floor) := by
  unfold promoteHighest
  rcases hh : highestCoinsInCurrentValidatorsNotInTopValidator s with ⟨high, idx, a⟩
  simp only
  split
  next h =>
    obtain ⟨hnew, hfit⟩ := highest_fit hh h.2.1
    exact Reseat.refl.push a hnew h.1 hfit
  · exact .refl

theorem notMem_promoteHighest {a : Address} {floor : Nat} (hout : a ∉ s.highestValidators)
    (hst : (s.validatorInfo a).status ≠ .Staked) : a ∉ promoteHighest s floor := by
  intro ha
  obtain hold | hfit := (promoteHighest_reseat s floor).mem ha
  · exact hout hold
  · exact hst hfit.2.1

/-- Whoever takes the lowest seat has coins. -/
theorem replaceLowest_reseat_coins (h : replaceLowest s = .ok seats) :
    Reseat 3 s.maxValidators (fun b => Fit s b ∧ 0 < getCoins s b) s.highestValidators seats := by
  simp only [replaceLowest, bind_ok] at h
  obtain ⟨⟨low, i, b⟩, _, h⟩ := h
  rcases hh : highestCoinsInCurrentValidatorsNotInTopValidator s with ⟨high, idx, a⟩
  simp only [hh] at h
  split at h
  next hc =>
    obtain ⟨hnew, hfit⟩ := highest_fit hh hc.2
    obtain ⟨_, _, hcoins, hpos⟩ := highest_spec hh hc.2
    obtain ⟨_, rfl⟩ := store_ok.mp h
    exact Reseat.refl.replace i a hnew ⟨hfit, hcoins ▸ hpos⟩
  · cases h
    exact .refl

theorem replaceLowest_reseat (h : replaceLowest s = .ok seats) :
    Reseat 3 s.maxValidators (Fit s) s.highestValidators seats :=
  (replaceLowest_reseat_coins h).mono fun _ hb => hb.1

/-- The slot of the lowest member is a slot. -/
theorem store_lowest {low idx : Nat}
    (h : lowestCoinsInHighestValidator s = .ok (low, idx, a)) (v : Address) :
    ∃ seats, store s.highestValidators idx v = .ok seats := by
  obtain ⟨hidx, _⟩ := lowest_spec h
  obtain ⟨hlt, _⟩ := List.getElem?_eq_some_iff.mp hidx
  exact ⟨_, store_ok.mpr ⟨hlt, rfl⟩⟩

theorem lowest_error {e : Revert} (h : lowestCoinsInHighestValidator s = .error e) :
    e = .outOfBounds := by
  unfold lowestCoinsInHighestValidator at h
  split at h
  · cases h; rfl
  · cases h

theorem replaceLowest_error {e : Revert} (h : replaceLowest s = .error e) : e = .outOfBounds := by
  simp only [replaceLowest, bind_error] at h
  obtain h | ⟨_, _, h⟩ := h
  · exact lowest_error h
  · split at h
    · exact (store_error.mp h).2.symm
    · exact absurd h pure_error

/-- Handing over the lowest seat panics exactly when there is none. -/
theorem replaceLowest_returns :
    (∃ seats, replaceLowest s = .ok seats) ↔ s.highestValidators ≠ [] := by
  rw [replaceLowest, bind_returns, ← lowest_returns]
  refine exists_congr fun ⟨low, idx, a⟩ => and_iff_left_of_imp fun hlow => ?_
  dsimp only
  split
  · exact store_lowest hlow _
  · exact ⟨_, rfl⟩

/-- Seating somebody panics exactly when there is no seat and none is free. -/
theorem seat_returns :
    (∃ seats, seat s v true = .ok seats) ↔ s.highestValidators ≠ [] ∨ 0 < s.maxValidators := by
  constructor
  · rintro ⟨seats, h⟩
    by_contra hno
    obtain ⟨hnil, hmax⟩ := not_or.mp hno
    have hnil := not_not.mp hnil
    have hmax := Nat.eq_zero_of_not_pos hmax
    simp [seat, isTopValidator, lowestCoinsInHighestValidator, hnil, hmax] at h
  · intro h
    unfold seat
    split
    · exact ⟨_, rfl⟩
    next hroom =>
    split
    next hfull =>
      have hne : s.highestValidators ≠ [] := by
        obtain h | h := h
        · exact h
        · exact ne_nil_of_length_pos (by omega)
      obtain ⟨⟨low, idx, a⟩, hlow⟩ := lowest_returns.mpr hne
      rw [hlow, ok_bind]
      simp only
      split
      · exact store_lowest hlow _
      · exact ⟨_, rfl⟩
    · exact ⟨_, rfl⟩

theorem removeFromHighest_reseat (s : State) (v : Address) (cap : Nat) (fit : Address → Prop) :
    Reseat 3 cap fit s.highestValidators (removeFromHighestValidatorList s v) := by
  unfold removeFromHighestValidatorList
  split
  · exact .refl
  · exact Reseat.refl.vacate v (by omega)

theorem removeFromHighest_length (h : v ∈ s.highestValidators)
    (hlen : 3 < s.highestValidators.length) :
    (removeFromHighestValidatorList s v).length + 1 = s.highestValidators.length := by
  unfold removeFromHighestValidatorList
  rw [if_neg (by omega)]
  exact swapRemoveFirst_length h

/-- Where somebody may be seated, somebody is. -/
theorem seat_ne_nil (h : seat s v true = .ok seats) : seats ≠ [] := by
  by_cases hnil : s.highestValidators = []
  · have hmax : 0 < s.maxValidators := (seat_returns.mp ⟨seats, h⟩).resolve_left (not_not.mpr hnil)
    have hfirst : seat s v true = .ok [v] := by
      simp [seat, isTopValidator, hnil, hmax, pure, Except.pure]
    rw [h] at hfirst
    cases hfirst
    simp
  · exact (seat_reseat h).ne_nil (by decide) hnil

theorem mem_of_mem_removeFromCurrent
    (h : a ∈ removeFromCurrentValidatorList s v) : a ∈ s.currentValidators := by
  unfold removeFromCurrentValidatorList at h
  split at h
  · exact h
  · exact mem_of_mem_swapRemoveFirst h

theorem mem_removeFromCurrent_of_ne (h : a ∈ s.currentValidators) (ha : a ≠ v) :
    a ∈ removeFromCurrentValidatorList s v := by
  unfold removeFromCurrentValidatorList
  split
  · exact h
  · exact mem_swapRemoveFirst_of_ne h ha

end Elections

end Dexit.Staking
