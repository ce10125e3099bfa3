import Dexit.Staking.Election

/-! Staking, unstaking and withdrawing, for validators and for delegators. -/

namespace Dexit.Staking

open Solidity Outcome List
open Function
variable (s : State)

/-- The two branches of `stakeValidator` that record the stake. A staker in
neither branch has paid, and nothing is recorded. -/
def creditStake (staker : Address) (stakeamount : Nat) : Result State :=
  let valInfo := s.validatorInfo staker
  let stakeInfo := s.stakingInfo staker staker
  if valInfo.amount = 0 ∧ valInfo.status = .NotExist then do
    require (s.minimumStakeAmount ≤ stakeamount) "Stake more than minimum stake amount"
    let amount ← add valInfo.amount stakeamount
    let coins ← add valInfo.coins stakeamount
    pure (s.setValidator staker { valInfo with validator := staker, amount := amount, coins := coins })
  else if 0 < valInfo.amount ∧ (valInfo.status = .Staked ∨ valInfo.status = .Unstaked) then do
    require (100 ≤ stakeamount) "Stake atleast 100 DXT"
    let amount ← add valInfo.amount stakeamount
    let coins ← add valInfo.coins stakeamount
    require (s.minimumStakeAmount ≤ amount) "Insufficient staking by Validator"
    pure ((s.setValidator staker { valInfo with amount := amount, coins := coins }).setStaking
      staker staker { stakeInfo with unstakeBlock := 0 })
  else pure s

/-- The staker becomes `Staked` and active. -/
def activate (staker : Address) : State :=
  let s := s.setValidator staker { s.validatorInfo staker with status := .Staked }
  if isActiveValidator s staker then s
  else { s with currentValidators := s.currentValidators ++ [staker] }

def stakeValidator (env : Env) : Result State := do
  nonZeroAddress env
  let s := s.receive env
  let staker := env.sender
  let stakeamount := env.value
  require (0 < stakeamount) "Can't Stake 0 DXT"
  require ((s.validatorInfo staker).status ≠ .Jailed) "Validator Jailed"
  let s ← creditStake s staker stakeamount
  let highest ← seat s staker (decide ((s.validatorInfo staker).status ≠ .Jailed))
  let s := activate { s with highestValidators := highest } staker
  let s := { s with highestValidators := promoteHighest s s.minimumStakeAmount }
  let total ← add s.totalDXTStake stakeamount
  pure { s with totalDXTStake := total }

/-- A first delegation enters the delegator list, a further one cancels an
unstaking in progress. -/
def enlist (staker validator : Address) : State :=
  let valInfo := s.validatorInfo validator
  let stakeInfo := s.stakingInfo staker validator
  if stakeInfo.amount = 0 then
    (s.setStaking staker validator { stakeInfo with
      delegatorAddress := staker
      index := valInfo.delegators.length }).setValidator validator
        { valInfo with delegators := valInfo.delegators ++ [staker] }
  else s.setStaking staker validator { stakeInfo with unstakeBlock := 0 }

def stakeDelegator (env : Env) (validator : Address) : Result State := do
  nonZeroAddress env
  let s := s.receive env
  let staker := env.sender
  let stakeamount := env.value
  require (validator ≠ staker) "Validator can not delegate"
  require (0 < stakeamount) "Can't stake 0 DXT"
  require (isActiveValidator s validator = true) "Validator Not Exist"
  require ((s.validatorInfo validator).status = .Staked) "Validator Not Staked"
  require (s.minimumStakeAmount ≤ (s.validatorInfo validator).amount)
    "Insufficient staking by Validator"
  let s := enlist s staker validator
  let coins ← add (s.validatorInfo validator).coins stakeamount
  let s := s.setValidator validator { s.validatorInfo validator with coins := coins }
  let amount ← add (s.stakingInfo staker validator).amount stakeamount
  let s := s.setStaking staker validator { s.stakingInfo staker validator with amount := amount }
  let highest ← seat s validator true
  let total ← add s.totalDXTStake stakeamount
  pure { s with highestValidators := highest, totalDXTStake := total }

def unstakeValidator (env : Env) : Result State := do
  nonPayable env
  nonZeroAddress env
  let staker := env.sender
  let valInfo := s.validatorInfo staker
  let stakeInfo := s.stakingInfo staker staker
  require (valInfo.status = .Staked) "Validator Should Staked"
  require (stakeInfo.unstakeBlock = 0) "Already in Unstaking Status"
  require (0 < valInfo.amount) "Don't have any stake"
  require (3 < s.highestValidators.length ∧ isActiveValidator s staker = true)
    "Can't Unstake, Validators list underflow"
  let s := s.setStaking staker staker { stakeInfo with unstakeBlock := env.number }
  let s := { s with highestValidators := removeFromHighestValidatorList s staker }
  let s := s.setValidator staker { valInfo with status := .Unstaked }
  pure { s with highestValidators := promoteHighest s 0 }

def unstakeDelegators (env : Env) (validator : Address) : Result State := do
  nonPayable env
  nonZeroAddress env
  let delegator := env.sender
  let stakeInfo := s.stakingInfo delegator validator
  require (stakeInfo.unstakeBlock = 0) "Already in unstaking status"
  require (0 < stakeInfo.amount) "don't have any stake"
  pure (s.setStaking delegator validator { stakeInfo with unstakeBlock := env.number })

/-- Status after `updateBalance` is left of a validator's own stake: enough to
stay, or nothing and no income either. -/
def statusAfterWithdrawal (income updateBalance : Nat) : Result Status :=
  if s.minimumStakeAmount ≤ updateBalance then pure .Staked
  else if updateBalance = 0 ∧ income = 0 then pure .NotExist
  else .error (.require "Claim collected rewards and withdraw all at once")

/-- The seats after a validator's withdrawal. Unlike `replaceLowest` this also
fills a free seat. -/
def reseatAfterWithdrawal : Result (List Address) := do
  let (lowestCoin, lowIdx, _) ← lowestCoinsInHighestValidator s
  let (highCoins, _, highValidator) := highestCoinsInCurrentValidatorsNotInTopValidator s
  if lowestCoin < highCoins ∧ s.maxValidators ≤ s.highestValidators.length ∧ highValidator ≠ 0 then
    store s.highestValidators lowIdx highValidator
  else if s.highestValidators.length < s.maxValidators ∧ highValidator ≠ 0 ∧
      (s.validatorInfo highValidator).status ≠ .Jailed then
    pure (s.highestValidators ++ [highValidator])
  else pure s.highestValidators

/-- An emptied validator leaves the list of active validators. -/
def retire (staker : Address) : State :=
  let valInfo := s.validatorInfo staker
  if valInfo.amount = 0 ∧ valInfo.coins = 0 ∧ valInfo.income = 0 then
    let s := s.setValidator staker { valInfo with status := .NotExist }
    { s with currentValidators := removeFromCurrentValidatorList s staker }
  else s

def withdrawValidatorStaking (env : Env) (amount : Nat) : Result State := do
  nonPayable env
  nonZeroAddress env
  nonReentrant s fun s => do
    let staker := env.sender
    let valInfo := s.validatorInfo staker
    let stakeInfo := s.stakingInfo staker staker
    require (amount ≤ valInfo.amount) "Can't Withdraw More Than Stake Amount"
    require (stakeInfo.unstakeBlock ≠ 0) "Unstake First"
    let unlock ← add stakeInfo.unstakeBlock STAKING_LOCK_PERIOD
    require (unlock ≤ env.number) "Staking haven't unlocked yet"
    let updateBalance ← sub valInfo.amount amount
    let coins ← sub valInfo.coins amount
    let status ← statusAfterWithdrawal s valInfo.income updateBalance
    let s := s.setValidator staker
      { valInfo with amount := updateBalance, coins := coins, status := status }
    let s := retire s staker
    let s := s.setStaking staker staker { stakeInfo with unstakeBlock := 0 }
    let s ← transfer s env staker amount
    let highest ← reseatAfterWithdrawal s
    let total ← sub s.totalDXTStake amount
    pure { s with highestValidators := highest, totalDXTStake := total }

/-- A delegation that has become empty leaves the delegator list: the last
delegator takes its slot and learns its new index. -/
def delist (staker validator : Address) : Result State := do
  let stakeInfo := s.stakingInfo staker validator
  let valInfo := s.validatorInfo validator
  if stakeInfo.amount = 0 then do
    let last ← sub valInfo.delegators.length 1
    if stakeInfo.index ≠ last then do
      let moved ← index valInfo.delegators last
      let delegators ← store valInfo.delegators stakeInfo.index moved
      let s := s.setValidator validator { valInfo with delegators := delegators.dropLast }
      pure (s.setStaking moved validator
        { s.stakingInfo moved validator with index := stakeInfo.index })
    else pure (s.setValidator validator { valInfo with delegators := valInfo.delegators.dropLast })
  else pure s

/-- A validator left without coins leaves the list of active validators. -/
def closeIfEmpty (validator : Address) : State :=
  if (s.validatorInfo validator).coins = 0 then
    { s with currentValidators := removeFromCurrentValidatorList s validator }.setValidator
      validator { s.validatorInfo validator with status := .NotExist }
  else s

def withdrawDelegatorStaking (env : Env) (validator : Address) (amount : Nat) :
    Result State := do
  nonPayable env
  nonZeroAddress env
  nonReentrant s fun s => do
    let staker := env.sender
    let stakeInfo := s.stakingInfo staker validator
    let valInfo := s.validatorInfo validator
    require (amount ≤ stakeInfo.amount) "Can't Withdraw More Than Stake Amount"
    require (stakeInfo.unstakeBlock ≠ 0) "Unstake First"
    let unlock ← add stakeInfo.unstakeBlock STAKING_LOCK_PERIOD
    require (unlock ≤ env.number) "Staking haven't unlocked yet"
    let left ← sub stakeInfo.amount amount
    let coins ← sub valInfo.coins amount
    let s := s.setStaking staker validator { stakeInfo with amount := left, unstakeBlock := 0 }
    let s := s.setValidator validator { valInfo with coins := coins }
    let s ← delist s staker validator
    let highest ← replaceLowest s
    let s := closeIfEmpty { s with highestValidators := highest } validator
    let s ← transfer s env staker amount
    let total ← sub s.totalDXTStake amount
    pure { s with totalDXTStake := total }

/-! ## What a successful call did -/

section Outcomes
variable {s t : State} {env : Env} {a v validator : Address} {amount income left : Nat}

theorem creditStake_ok {c : State} {x : Nat} (h : creditStake s a x = .ok c) :
    let old := s.validatorInfo a
    ∃ v S, c = { s with validatorInfo := update s.validatorInfo a v, stakingInfo := S } ∧
      ((old.amount = 0 ∧ old.status = .NotExist ∧ s.minimumStakeAmount ≤ x ∧ S = s.stakingInfo ∧
          v = { old with
            validator := a
            amount := old.amount + x
            coins := old.coins + x }) ∨
        (0 < old.amount ∧ (old.status = .Staked ∨ old.status = .Unstaked) ∧
          100 ≤ x ∧ s.minimumStakeAmount ≤ old.amount + x ∧
          S = set₂ s.stakingInfo a a { s.stakingInfo a a with unstakeBlock := 0 } ∧
          v = { old with
            amount := old.amount + x
            coins := old.coins + x }) ∨
        (¬ (old.amount = 0 ∧ old.status = .NotExist) ∧ ¬ (0 < old.amount ∧
            (old.status = .Staked ∨ old.status = .Unstaked)) ∧
          S = s.stakingInfo ∧ v = old)) := by
  unfold creditStake at h
  simp only [State.setValidator, State.setStaking] at h
  split at h
  next fresh =>
    simp only [bind_ok, require_ok, add_ok, pure_ok] at h
    obtain ⟨_, hmin, _, ⟨_, rfl⟩, _, ⟨_, rfl⟩, rfl⟩ := h
    exact ⟨_, _, rfl, .inl ⟨fresh.1, fresh.2, hmin, rfl, rfl⟩⟩
  next old =>
    split at h
    next more =>
      simp only [bind_ok, require_ok, add_ok, pure_ok] at h
      obtain ⟨_, h100, _, ⟨_, rfl⟩, _, ⟨_, rfl⟩, _, hmin, rfl⟩ := h
      exact ⟨_, _, rfl, .inr (.inl ⟨more.1, more.2, h100, hmin, rfl, rfl⟩)⟩
    next none =>
      cases h
      exact ⟨_, _, by rw [update_eq_self], .inr (.inr ⟨old, none, rfl, rfl⟩)⟩

/-- The list of active validators with `a` on it. -/
def enrolled (current : List Address) (a : Address) : List Address :=
  if a ∈ current then current else current ++ [a]

theorem mem_enrolled {current : List Address} {b : Address} :
    b ∈ enrolled current a ↔ b ∈ current ∨ b = a := by
  unfold enrolled
  split
  next ha =>
    exact ⟨.inl, fun h => h.elim id (fun e => e ▸ ha)⟩
  · rw [mem_append, mem_singleton]

theorem activate_eq (s : State) (a : Address) :
    activate s a = { s with
      validatorInfo := update s.validatorInfo a { s.validatorInfo a with status := .Staked }
      currentValidators := enrolled s.currentValidators a } := by
  unfold activate enrolled
  simp only [State.setValidator, isActiveValidator, contains_iff_mem]
  split <;> rfl

theorem stakeValidator_ok (h : stakeValidator s env = .ok t) :
    env.sender ≠ 0 ∧ 0 < env.value ∧ (s.validatorInfo env.sender).status ≠ .Jailed ∧
    ∃ c seats, creditStake (s.receive env) env.sender env.value = .ok c ∧
      seat c env.sender (decide ((c.validatorInfo env.sender).status ≠ .Jailed)) = .ok seats ∧
      let a := activate { c with highestValidators := seats } env.sender
      t = { a with
        highestValidators := promoteHighest a a.minimumStakeAmount
        totalDXTStake := a.totalDXTStake + env.value } := by
  simp only [stakeValidator, nonZeroAddress, bind_ok, require_ok, add_ok, pure_ok] at h
  obtain ⟨_, hzero, _, hpos, _, hjail, c, hc, seats, hseats, _, ⟨_, rfl⟩, rfl⟩ := h
  exact ⟨hzero, hpos, hjail, c, seats, hc, hseats, rfl⟩

/-- A delegation after a further stake, in slot `slot` if it is the first one. -/
def Delegator.topUp (x : Delegator) (staker : Address) (slot value : Nat) : Delegator :=
  if x.amount = 0 then
    { x with delegatorAddress := staker, index := slot, amount := x.amount + value }
  else { x with unstakeBlock := 0, amount := x.amount + value }

theorem enlist_eq (s : State) (d v : Address) :
    enlist s d v = { s with
      stakingInfo := set₂ s.stakingInfo d v
        ((s.stakingInfo d v).topUp d (s.validatorInfo v).delegators.length 0)
      validatorInfo := update s.validatorInfo v { s.validatorInfo v with
        delegators := if (s.stakingInfo d v).amount = 0 then (s.validatorInfo v).delegators ++ [d]
          else (s.validatorInfo v).delegators } } := by
  unfold enlist Delegator.topUp
  simp only [State.setStaking, State.setValidator, add_zero]
  split
  · rfl
  · rw [update_eq_self]

theorem stakeDelegator_ok (h : stakeDelegator s env validator = .ok t) :
    let v := s.validatorInfo validator
    let d := s.stakingInfo env.sender validator
    env.sender ≠ 0 ∧ validator ≠ env.sender ∧ 0 < env.value ∧
    validator ∈ s.currentValidators ∧ v.status = .Staked ∧
    s.minimumStakeAmount ≤ v.amount ∧
    ∃ seats,
      let c := { s with
        balance := s.balance + env.value
        stakingInfo := set₂ s.stakingInfo env.sender validator (d.topUp env.sender
            v.delegators.length env.value)
        validatorInfo := update s.validatorInfo validator { v with
          coins := v.coins + env.value
          delegators := if d.amount = 0 then
              v.delegators ++ [env.sender]
            else v.delegators } }
      seat c validator true = .ok seats ∧
      t = { c with
        highestValidators := seats
        totalDXTStake := c.totalDXTStake + env.value } := by
  simp only [stakeDelegator, nonZeroAddress, bind_ok, require_ok, add_ok, pure_ok,
    isActiveValidator, contains_iff_mem] at h
  obtain ⟨_, hzero, _, hself, _, hpos, _, hact, _, hst, _, hmin, _, ⟨_, rfl⟩, _, ⟨_, rfl⟩,
    seats, hseats, _, ⟨_, rfl⟩, rfl⟩ := h
  have hx : { (s.stakingInfo env.sender validator).topUp env.sender
        (s.validatorInfo validator).delegators.length 0 with
      amount := ((s.stakingInfo env.sender validator).topUp env.sender
        (s.validatorInfo validator).delegators.length 0).amount + env.value } =
      (s.stakingInfo env.sender validator).topUp env.sender
        (s.validatorInfo validator).delegators.length env.value := by
    unfold Delegator.topUp
    split <;> rfl
  refine ⟨hzero, hself, hpos, hact, hst, hmin, seats, ?_⟩
  simp only [enlist_eq, State.receive, State.setStaking, State.setValidator, set₂_self, set₂_idem,
    update_self, update_idem, hx] at hseats ⊢
  exact ⟨hseats, trivial⟩

theorem unstakeValidator_ok (h : unstakeValidator s env = .ok t) :
    (s.validatorInfo env.sender).status = .Staked ∧
    0 < (s.validatorInfo env.sender).amount ∧ 3 < s.highestValidators.length ∧
    ∃ u, u = { s with
        stakingInfo := set₂ s.stakingInfo env.sender env.sender
          { s.stakingInfo env.sender env.sender with unstakeBlock := env.number }
        highestValidators := swapRemoveFirst env.sender s.highestValidators
        validatorInfo := update s.validatorInfo env.sender
          { s.validatorInfo env.sender with status := .Unstaked } } ∧
      t = { u with highestValidators := promoteHighest u 0 } := by
  simp only [unstakeValidator, nonPayable, nonZeroAddress, bind_ok, require_ok, guardWith_ok,
    pure_ok] at h
  obtain ⟨_, _, _, _, _, hst, _, _, _, hpos, _, ⟨hlen, _⟩, rfl⟩ := h
  have hnot : ¬ s.highestValidators.length ≤ 3 := by omega
  refine ⟨hst, hpos, hlen, _, rfl, ?_⟩
  simp only [State.setStaking, State.setValidator, removeFromHighestValidatorList, hnot, ↓reduceIte]

theorem unstakeDelegators_ok (h : unstakeDelegators s env validator = .ok t) :
    (s.stakingInfo env.sender validator).unstakeBlock = 0 ∧
    0 < (s.stakingInfo env.sender validator).amount ∧
    t = { s with
      stakingInfo := set₂ s.stakingInfo env.sender validator
        { s.stakingInfo env.sender validator with unstakeBlock := env.number } } := by
  simp only [unstakeDelegators, nonPayable, nonZeroAddress, bind_ok, require_ok, guardWith_ok,
    pure_ok] at h
  obtain ⟨_, _, _, _, _, hub, _, hpos, rfl⟩ := h
  exact ⟨hub, hpos, rfl⟩

theorem statusAfterWithdrawal_ok {st : Status} (h : statusAfterWithdrawal s income left = .ok st) :
    st = .Staked ∧ s.minimumStakeAmount ≤ left ∨
    st = .NotExist ∧ left < s.minimumStakeAmount ∧ left = 0 ∧ income = 0 := by
  unfold statusAfterWithdrawal at h
  split at h
  next enough =>
    cases h
    exact .inl ⟨rfl, enough⟩
  next few =>
    split at h
    next none =>
      cases h
      exact .inr ⟨rfl, by omega, none.1, none.2⟩
    · cases h

theorem statusAfterWithdrawal_returns :
    (∃ st, statusAfterWithdrawal s income left = .ok st) ↔
      s.minimumStakeAmount ≤ left ∨ left = 0 ∧ income = 0 := by
  constructor
  · rintro ⟨st, h⟩
    obtain ⟨_, enough⟩ | ⟨_, _, none⟩ := statusAfterWithdrawal_ok h
    · exact .inl enough
    · exact .inr none
  · intro h
    unfold statusAfterWithdrawal
    split
    · exact ⟨_, rfl⟩
    next few =>
      rw [if_pos (h.resolve_left few)]
      exact ⟨_, rfl⟩

variable {seats : List Address} {e : Revert}

/-- Whoever is electable is not jailed, so that a free seat is filled as in a promotion. -/
theorem reseatAfterWithdrawal_eq (s : State) : reseatAfterWithdrawal s =
    if s.maxValidators ≤ s.highestValidators.length then replaceLowest s
    else lowestCoinsInHighestValidator s >>= fun _ => pure (promoteHighest s 0) := by
  unfold reseatAfterWithdrawal replaceLowest promoteHighest
  rcases hh : highestCoinsInCurrentValidatorsNotInTopValidator s with ⟨high, idx, a⟩
  by_cases hfull : s.maxValidators ≤ s.highestValidators.length
  · simp [hfull, hfull.not_gt]
  · have hstaked (ha : a ≠ 0) : (s.validatorInfo a).status ≠ .Jailed := by
      simp [(highest_fit hh ha).2.2.1]
    simp only [hfull, not_le.mp hfull, and_iff_left_of_imp hstaked, apply_ite pure, true_and,
      false_and, and_false, Nat.zero_le, and_true, if_false]

theorem reseatAfterWithdrawal_reseat (h : reseatAfterWithdrawal s = .ok seats) :
    Reseat 3 s.maxValidators (Fit s) s.highestValidators seats := by
  rw [reseatAfterWithdrawal_eq] at h
  split at h
  · exact replaceLowest_reseat h
  · simp only [bind_ok, pure_ok] at h
    obtain ⟨_, _, rfl⟩ := h
    exact promoteHighest_reseat s 0

theorem reseatAfterWithdrawal_returns :
    (∃ seats, reseatAfterWithdrawal s = .ok seats) ↔ s.highestValidators ≠ [] := by
  rw [reseatAfterWithdrawal_eq]
  split
  · exact replaceLowest_returns
  · simp only [bind_returns, pure_ok, exists_eq', and_true, lowest_returns]

theorem reseatAfterWithdrawal_error (h : reseatAfterWithdrawal s = .error e) :
    e = .outOfBounds := by
  rw [reseatAfterWithdrawal_eq] at h
  split at h
  · exact replaceLowest_error h
  · simp only [bind_error, pure_error, and_false, exists_false, or_false] at h
    exact lowest_error h

theorem statusAfterWithdrawal_error (h : statusAfterWithdrawal s income left = .error e) :
    e = .require "Claim collected rewards and withdraw all at once" := by
  unfold statusAfterWithdrawal at h
  split at h
  · exact absurd h pure_error
  · split at h
    · exact absurd h pure_error
    · cases h; rfl

/-- A validator's record after it withdrew part of its own stake. -/
def Validator.withdraw (v : Validator) (amount : Nat) (status : Status) : Validator :=
  { v with amount := v.amount - amount, coins := v.coins - amount, status := status }

/-- Nothing is staked with the validator and nothing is owed to it. -/
def Validator.Emptied (v : Validator) : Prop :=
  v.amount = 0 ∧ v.coins = 0 ∧ v.income = 0

/-- What a validator needs to withdraw `amount` of its own stake. -/
structure ValidatorMayWithdraw (s : State) (env : Env) (amount : Nat) : Prop where
  pays : env.value = 0
  sender : env.sender ≠ 0
  guard : s.reentrancyStatus ≠ ENTERED
  stake : amount ≤ (s.validatorInfo env.sender).amount
  waiting : (s.stakingInfo env.sender env.sender).unstakeBlock ≠ 0
  word : (s.stakingInfo env.sender env.sender).unstakeBlock + STAKING_LOCK_PERIOD < wordSize
  elapsed : (s.stakingInfo env.sender env.sender).unstakeBlock + STAKING_LOCK_PERIOD ≤ env.number
  coins : amount ≤ (s.validatorInfo env.sender).coins
  left : s.minimumStakeAmount ≤ (s.validatorInfo env.sender).amount - amount ∨
    (s.validatorInfo env.sender).amount - amount = 0 ∧ (s.validatorInfo env.sender).income = 0
  balance : amount ≤ s.balance
  accepts : env.accepts env.sender = true
  seats : s.highestValidators ≠ []
  total : amount ≤ s.totalDXTStake

theorem retire_fields (s : State) (a : Address) :
    (retire s a).balance = s.balance ∧ (retire s a).highestValidators = s.highestValidators ∧
      (retire s a).totalDXTStake = s.totalDXTStake := by
  simp only [retire]
  split <;> exact ⟨rfl, rfl, rfl⟩

theorem withdrawValidatorStaking_returns :
    (∃ t, withdrawValidatorStaking s env amount = .ok t) ↔ ValidatorMayWithdraw s env amount := by
  simp only [withdrawValidatorStaking, nonPayable, nonZeroAddress, bind_returns, guardWith_ok,
    require_ok, nonReentrant_returns, add_ok, sub_ok, transfer_ok, pure_ok, exists_const,
    and_assoc, exists_and_left, exists_and_right, exists_eq_left', exists_eq', and_true,
    State.setStaking, State.setValidator, retire_fields, reseatAfterWithdrawal_returns,
    statusAfterWithdrawal_returns]
  constructor
  · rintro ⟨hpay, hzero, hguard, hle, hub, hword, hlock, _, hcoins, _, hleft, hbal, hacc, hne, htot⟩
    exact ⟨hpay, hzero, hguard, hle, hub, hword, hlock, hcoins, hleft, hbal, hacc, hne, htot⟩
  · intro h
    exact ⟨h.pays, h.sender, h.guard, h.stake, h.waiting, h.word, h.elapsed, h.stake, h.coins,
      trivial, h.left, h.balance, h.accepts, h.seats, h.total⟩

theorem withdrawValidatorStaking_ok (h : withdrawValidatorStaking s env amount = .ok t) :
    let old := s.validatorInfo env.sender
    let d := s.stakingInfo env.sender env.sender
    ValidatorMayWithdraw s env amount ∧
    ∃ status v C seats, statusAfterWithdrawal s old.income (old.amount - amount) = .ok status ∧
      ((old.withdraw amount status).Emptied ∧ v = old.withdraw amount .NotExist ∧
          C = removeFromCurrentValidatorList s env.sender ∨
        ¬ (old.withdraw amount status).Emptied ∧
          v = old.withdraw amount status ∧ C = s.currentValidators) ∧
      let u := { s with
        reentrancyStatus := ENTERED
        validatorInfo := update s.validatorInfo env.sender v
        currentValidators := C
        stakingInfo := set₂ s.stakingInfo env.sender env.sender { d with unstakeBlock := 0 }
        balance := s.balance - amount
        payouts := s.payouts ++ [(env.sender, amount)] }
      reseatAfterWithdrawal u = .ok seats ∧
      t = { u with
        highestValidators := seats
        totalDXTStake := s.totalDXTStake - amount
        reentrancyStatus := NOT_ENTERED } := by
  have may := withdrawValidatorStaking_returns.mp ⟨t, h⟩
  simp only [withdrawValidatorStaking, nonPayable, nonZeroAddress, bind_ok, guardWith_ok,
    require_ok, nonReentrant_ok, add_ok, sub_ok, transfer_ok, pure_ok] at h
  obtain ⟨_, _, _, _, _, u, ⟨_, _, _, _, _, ⟨_, rfl⟩, _, _, _, ⟨_, rfl⟩, _, ⟨_, rfl⟩,
    status, hstatus, w, ⟨_, _, rfl⟩, seats, hseats, _, ⟨_, rfl⟩, rfl⟩, rfl⟩ := h
  simp only [retire, State.setValidator, update_self, update_idem] at hseats ⊢
  by_cases hempty : (s.validatorInfo env.sender).amount - amount = 0 ∧
      (s.validatorInfo env.sender).coins - amount = 0 ∧ (s.validatorInfo env.sender).income = 0
  · simp only [if_pos hempty, State.setStaking] at hseats ⊢
    exact ⟨may, status, _, _, seats, hstatus, .inl ⟨hempty, rfl, rfl⟩, hseats, rfl⟩
  · simp only [if_neg hempty, State.setStaking] at hseats ⊢
    exact ⟨may, status, _, _, seats, hstatus, .inr ⟨hempty, rfl, rfl⟩, hseats, rfl⟩

/-- Two subtractions of a validator's withdrawal can underflow: from the coins
and from the total. -/
theorem withdrawValidatorStaking_underflow
    (h : withdrawValidatorStaking s env amount = .error .underflow) :
    amount ≤ (s.validatorInfo env.sender).amount ∧
      ((s.validatorInfo env.sender).coins < amount ∨ s.totalDXTStake < amount) := by
  simp only [withdrawValidatorStaking, nonPayable, nonZeroAddress, bind_error, guardWith_error,
    guardWith_ok, require_error, require_ok, nonReentrant_error, add_error, add_ok, sub_error,
    sub_ok, transfer_error, transfer_ok, pure_error, reduceCtorEq, and_false, false_or, or_false,
    and_true, exists_const, and_assoc, exists_and_left, exists_eq_left', State.setStaking,
    State.setValidator, retire_fields] at h
  obtain ⟨_, _, _, hle, _, _, _, h⟩ := h
  refine ⟨hle, ?_⟩
  obtain hlt | ⟨_, hcoins | ⟨_, hstatus | ⟨_, _, _, _, hseats | ⟨_, _, htotal⟩⟩⟩⟩ := h
  · omega
  · exact .inl hcoins
  · cases statusAfterWithdrawal_error hstatus
  · cases reseatAfterWithdrawal_error hseats
  · exact .inr htotal

/-- Slot `index` of the delegator list is freed, whoever sits there. -/
theorem delist_ok (h : delist s a v = .ok t) :
    let d := s.stakingInfo a v
    let delegators := (s.validatorInfo v).delegators
    d.amount ≠ 0 ∧ t = s ∨
    d.amount = 0 ∧ d.index < delegators.length ∧ ∃ moved, delegators[delegators.length - 1]? =
          some moved ∧
        t = { s with
          validatorInfo := update s.validatorInfo v { s.validatorInfo v with
            delegators := swapRemove delegators d.index }
          stakingInfo :=
            if d.index = delegators.length - 1 then
              s.stakingInfo
            else set₂ s.stakingInfo moved v
              { s.stakingInfo moved v with index := d.index } } := by
  simp only [delist] at h
  split at h
  next hzero =>
    right
    simp only [bind_ok, sub_ok] at h
    obtain ⟨_, ⟨hlen, rfl⟩, h⟩ := h
    split at h
    next hne =>
      simp only [bind_ok, index_ok, store_ok, State.setValidator, State.setStaking, pure_ok] at h
      obtain ⟨moved, hmoved, _, ⟨hidx, rfl⟩, rfl⟩ := h
      refine ⟨hzero, hidx, moved, hmoved, ?_⟩
      simp only [swapRemove, getLast?_eq_getElem?, hmoved, if_pos hne, if_neg hne]
    next heq =>
      simp only [State.setValidator, pure_ok] at h
      subst h
      have heq' : (s.stakingInfo a v).index = (s.validatorInfo v).delegators.length - 1 := by
        simpa using heq
      have hin : (s.validatorInfo v).delegators.length - 1 <
          (s.validatorInfo v).delegators.length := by omega
      refine ⟨hzero, by omega, _, getElem?_eq_getElem hin, ?_⟩
      simp only [swapRemove, getLast?_eq_getElem?, getElem?_eq_getElem hin, heq', ne_eq,
        not_true_eq_false, ↓reduceIte]
  next hpos =>
    cases h
    exact .inl ⟨hpos, rfl⟩

/-- The ledger entries a delegator's withdrawal writes before any list changes. -/
def debitDelegation (s : State) (staker validator : Address) (amount : Nat) : State :=
  { s with
    stakingInfo := set₂ s.stakingInfo staker validator { s.stakingInfo staker validator with
      amount := (s.stakingInfo staker validator).amount - amount
      unstakeBlock := 0 }
    validatorInfo := update s.validatorInfo validator { s.validatorInfo validator with
      coins := (s.validatorInfo validator).coins - amount } }

/-- Delegator list and delegations after `a` withdrew `amount` from `v`: an
emptied delegation frees slot `index`, whoever sits there, for the last
delegator. -/
def Delisted (s : State) (a v : Address) (amount : Nat) (D : List Address)
    (S : Address → Address → Delegator) : Prop :=
  let S₀ := (debitDelegation s a v amount).stakingInfo
  (s.stakingInfo a v).amount - amount ≠ 0 ∧ D = (s.validatorInfo v).delegators ∧ S = S₀ ∨
    (s.stakingInfo a v).amount - amount = 0 ∧
      (s.stakingInfo a v).index < (s.validatorInfo v).delegators.length ∧
      D = swapRemove (s.validatorInfo v).delegators (s.stakingInfo a v).index ∧
      ∃ moved, (s.validatorInfo v).delegators[(s.validatorInfo v).delegators.length - 1]? =
          some moved ∧
        S = if (s.stakingInfo a v).index = (s.validatorInfo v).delegators.length - 1 then S₀
          else set₂ S₀ moved v { S₀ moved v with index := (s.stakingInfo a v).index }

theorem delist_debit_ok {u : State} (h : delist (debitDelegation s a v amount) a v = .ok u) :
    ∃ D S, Delisted s a v amount D S ∧ u = { s with
        validatorInfo := update s.validatorInfo v { s.validatorInfo v with
          coins := (s.validatorInfo v).coins - amount
          delegators := D }
        stakingInfo := S } := by
  obtain ⟨hne, rfl⟩ | ⟨hz, hlt, moved, hmoved, rfl⟩ := delist_ok h
  · simp only [debitDelegation, set₂_self] at hne
    exact ⟨_, _, .inl ⟨hne, rfl, rfl⟩, rfl⟩
  · simp only [debitDelegation, set₂_self, update_self] at hz hlt hmoved
    refine ⟨_, _, .inr ⟨hz, hlt, rfl, moved, hmoved, rfl⟩, ?_⟩
    simp only [debitDelegation, set₂_self, update_self, update_idem]

theorem delist_fields (h : delist s a v = .ok t) :
    t.highestValidators = s.highestValidators ∧ t.balance = s.balance ∧
      t.totalDXTStake = s.totalDXTStake := by
  obtain ⟨_, rfl⟩ | ⟨_, _, _, _, rfl⟩ := delist_ok h <;> exact ⟨rfl, rfl, rfl⟩

/-- Only an emptied delegation is looked for in the list. -/
theorem delist_returns : (∃ u, delist s a v = .ok u) ↔
    ((s.stakingInfo a v).amount = 0 →
      (s.stakingInfo a v).index < (s.validatorInfo v).delegators.length) := by
  constructor
  · rintro ⟨u, h⟩ hz
    obtain ⟨hne, _⟩ | ⟨_, hlt, _⟩ := delist_ok h
    · exact absurd hz hne
    · exact hlt
  · intro hlt
    by_cases hz : (s.stakingInfo a v).amount = 0
    · have hlt := hlt hz
      have hlast : (s.validatorInfo v).delegators.length - 1 <
          (s.validatorInfo v).delegators.length := by omega
      simp only [delist, if_pos hz]
      rw [sub_ok.mpr ⟨by omega, rfl⟩, ok_bind]
      split
      · rw [index_ok.mpr (getElem?_eq_getElem hlast), ok_bind, store_ok.mpr ⟨hlt, rfl⟩, ok_bind]
        exact ⟨_, rfl⟩
      · exact ⟨_, rfl⟩
    · simp only [delist, if_neg hz]
      exact ⟨_, rfl⟩

/-- A validator's record and its delegations once `amount` is withdrawn from it,
before the seats are looked at. -/
def debited (s : State) (v : Address) (amount : Nat) (D : List Address)
    (S : Address → Address → Delegator) : State :=
  { s with
    reentrancyStatus := ENTERED
    validatorInfo := update s.validatorInfo v { s.validatorInfo v with
      coins := (s.validatorInfo v).coins - amount
      delegators := D }
    stakingInfo := S }

/-- What a delegator needs to withdraw `amount` of its stake with `v`. -/
structure DelegatorMayWithdraw (s : State) (env : Env) (v : Address) (amount : Nat) : Prop where
  pays : env.value = 0
  sender : env.sender ≠ 0
  guard : s.reentrancyStatus ≠ ENTERED
  stake : amount ≤ (s.stakingInfo env.sender v).amount
  waiting : (s.stakingInfo env.sender v).unstakeBlock ≠ 0
  word : (s.stakingInfo env.sender v).unstakeBlock + STAKING_LOCK_PERIOD < wordSize
  elapsed : (s.stakingInfo env.sender v).unstakeBlock + STAKING_LOCK_PERIOD ≤ env.number
  coins : amount ≤ (s.validatorInfo v).coins
  listed : (s.stakingInfo env.sender v).amount - amount = 0 →
    (s.stakingInfo env.sender v).index < (s.validatorInfo v).delegators.length
  seats : s.highestValidators ≠ []
  balance : amount ≤ s.balance
  accepts : env.accepts env.sender = true
  total : amount ≤ s.totalDXTStake

theorem closeIfEmpty_fields (s : State) (v : Address) :
    (closeIfEmpty s v).balance = s.balance ∧
      (closeIfEmpty s v).totalDXTStake = s.totalDXTStake := by
  unfold closeIfEmpty
  split <;> exact ⟨rfl, rfl⟩

theorem withdrawDelegatorStaking_returns :
    (∃ t, withdrawDelegatorStaking s env v amount = .ok t) ↔
      DelegatorMayWithdraw s env v amount := by
  simp only [withdrawDelegatorStaking, nonPayable, nonZeroAddress, bind_returns, guardWith_ok,
    require_ok, nonReentrant_returns, add_ok, sub_ok, transfer_ok, pure_ok, exists_const,
    and_assoc, exists_and_left, exists_and_right, exists_eq_left', exists_eq', and_true,
    closeIfEmpty_fields, replaceLowest_returns]
  constructor
  · rintro ⟨hpay, hzero, hguard, hle, hub, hword, hlock, _, hcoins, u, hu, hne, hbal, hacc, htot⟩
    have hlist := delist_returns.mp ⟨u, hu⟩
    obtain ⟨hh, hb, ht⟩ := delist_fields hu
    rw [hh] at hne
    rw [hb] at hbal
    rw [ht] at htot
    simp only [State.setStaking, State.setValidator, set₂_self, update_self] at hlist
    exact ⟨hpay, hzero, hguard, hle, hub, hword, hlock, hcoins, hlist, hne, hbal, hacc, htot⟩
  · intro h
    refine ⟨h.pays, h.sender, h.guard, h.stake, h.waiting, h.word, h.elapsed, h.stake, h.coins, ?_⟩
    have hdelist : ∃ u, delist (debitDelegation { s with reentrancyStatus := ENTERED } env.sender v
        amount) env.sender v = .ok u := by
      rw [delist_returns]
      simp only [debitDelegation, set₂_self, update_self]
      exact h.listed
    obtain ⟨u, hu⟩ := hdelist
    obtain ⟨hh, hb, ht⟩ := delist_fields hu
    refine ⟨u, hu, ?_⟩
    rw [hh, hb, ht]
    exact ⟨h.seats, h.balance, h.accepts, h.total⟩

theorem withdrawDelegatorStaking_ok (h : withdrawDelegatorStaking s env validator amount = .ok t) :
    let v := s.validatorInfo validator
    DelegatorMayWithdraw s env validator amount ∧
    ∃ D S status C seats, Delisted s env.sender validator amount D S ∧
      replaceLowest (debited s validator amount D S) = .ok seats ∧
      (v.coins - amount = 0 ∧ status = .NotExist ∧ C = removeFromCurrentValidatorList s validator ∨
        v.coins - amount ≠ 0 ∧ status = v.status ∧ C = s.currentValidators) ∧
      t = { s with
        balance := s.balance - amount
        payouts := s.payouts ++ [(env.sender, amount)]
        validatorInfo := update s.validatorInfo validator { v with
          coins := v.coins - amount
          delegators := D
          status := status }
        stakingInfo := S
        currentValidators := C
        highestValidators := seats
        totalDXTStake := s.totalDXTStake - amount
        reentrancyStatus := NOT_ENTERED } := by
  have may := withdrawDelegatorStaking_returns.mp ⟨t, h⟩
  simp only [withdrawDelegatorStaking, nonPayable, nonZeroAddress, bind_ok, guardWith_ok,
    require_ok, nonReentrant_ok, add_ok, sub_ok, transfer_ok, pure_ok] at h
  obtain ⟨_, _, _, _, _, w, ⟨_, _, _, _, _, ⟨_, rfl⟩, _, _, _, ⟨_, rfl⟩, _, ⟨_, rfl⟩, u, hu, seats,
    hseats, _, ⟨_, _, rfl⟩, _, ⟨_, rfl⟩, rfl⟩, rfl⟩ := h
  obtain ⟨D, S, hDS, rfl⟩ := delist_debit_ok (s := { s with reentrancyStatus := ENTERED }) hu
  simp only [closeIfEmpty, State.setValidator, update_self, update_idem]
  by_cases hempty : (s.validatorInfo validator).coins - amount = 0
  · simp only [if_pos hempty]
    exact ⟨may, D, S, _, _, seats, hDS, hseats, .inl ⟨hempty, rfl, rfl⟩, rfl⟩
  · simp only [if_neg hempty]
    exact ⟨may, D, S, _, _, seats, hDS, hseats, .inr ⟨hempty, rfl, rfl⟩, rfl⟩

theorem delist_underflow (h : delist s a v = .error .underflow) :
    (s.stakingInfo a v).amount = 0 ∧ (s.validatorInfo v).delegators = [] := by
  simp only [delist] at h
  split at h
  next hz =>
    simp only [bind_error, sub_error, sub_ok, and_true] at h
    obtain hlen | ⟨_, ⟨_, rfl⟩, h⟩ := h
    · exact ⟨hz, length_eq_zero_iff.mp (by omega)⟩
    · split at h
      · simp only [bind_error, index_error, store_error, pure_error, reduceCtorEq, and_false,
          exists_false, or_false] at h
      · exact absurd h pure_error
  · exact absurd h pure_error

theorem withdrawDelegatorStaking_underflow
    (h : withdrawDelegatorStaking s env v amount = .error .underflow) :
    amount ≤ (s.stakingInfo env.sender v).amount ∧
      ((s.validatorInfo v).coins < amount ∨ s.totalDXTStake < amount ∨
        (s.stakingInfo env.sender v).amount = amount ∧ (s.validatorInfo v).delegators = []) := by
  simp only [withdrawDelegatorStaking, nonPayable, nonZeroAddress, bind_error, guardWith_error,
    guardWith_ok, require_error, require_ok, nonReentrant_error, add_error, add_ok, sub_error,
    sub_ok, transfer_error, transfer_ok, pure_error, reduceCtorEq, and_false, false_or, or_false,
    and_true, exists_const, and_assoc, exists_and_left, exists_eq_left', closeIfEmpty_fields] at h
  obtain ⟨_, _, _, hle, _, _, _, h⟩ := h
  refine ⟨hle, ?_⟩
  obtain hlt | ⟨_, hcoins | ⟨_, hlist | ⟨u, hu, hseats | ⟨_, _, _, _, htotal⟩⟩⟩⟩ := h
  · omega
  · exact .inl hcoins
  · obtain ⟨hz, hnil⟩ := delist_underflow hlist
    simp only [State.setStaking, State.setValidator, set₂_self, update_self] at hz hnil
    exact .inr (.inr ⟨by omega, hnil⟩)
  · cases replaceLowest_error hseats
  · have hsame : u.totalDXTStake = s.totalDXTStake := (delist_fields hu).2.2
    exact .inr (.inl (hsame ▸ htotal))

end Outcomes

end Dexit.Staking
