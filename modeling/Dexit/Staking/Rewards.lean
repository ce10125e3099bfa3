import Dexit.Solidity.ProRata
import Dexit.Staking.Election

/-! Block rewards: the owner register, the deposit that splits a reward, and the
three ways of claiming. -/

namespace Dexit.Staking

open Solidity Outcome Register
open Function (update)

/-! ## RewardRegister -/

namespace Register

def onlyValidatorContract (sender : Address) : Result Unit :=
  require (sender = VALIDATOR_CONTRACT_ADDR) "the message sender must be validatorSet contract"

def init (r : Register) : Result Register := do
  require (r.alreadyInit = false) "the contract already init"
  pure { r with alreadyInit := true }

def registerContract (r : Register) (env : Env) (contractAddr rewardAddr : Address) :
    Result Register := do
  nonPayable env
  require (contractAddr ≠ 0 ∧ rewardAddr ≠ 0) "0x0 found"
  require (r.rewardAddresses contractAddr = 0) "Already registered"
  require (env.isContract contractAddr = true) "contractAddr isn't contract"
  require (r.contractsRecord contractAddr = env.sender) "Only deployer can register"
  pure { r with
    rewardAddresses := update r.rewardAddresses contractAddr rewardAddr
    rewardAmountOwner := update r.rewardAmountOwner rewardAddr 0 }

def pushContractRecord (r : Register) (sender contAddr owner : Address) : Result Register := do
  onlyValidatorContract sender
  pure { r with contractsRecord := update r.contractsRecord contAddr owner }

/-- The reward addresses of the registered contracts in the list, one for each
occurrence. -/
def checkEligible (r : Register) (sender : Address) (contractAddr : List Address) :
    Result (Register × List Address) := do
  onlyValidatorContract sender
  let owners := (contractAddr.map r.rewardAddresses).filter (fun owner => decide (owner ≠ 0))
  pure ({ r with eligibleOwners := owners }, owners)

/-- The loop of `distributeRewardToOwners`. -/
def creditOwners (rewardPerOwner : Nat) :
    List Address → (Address → Nat) → Result (Address → Nat)
  | [], amounts => pure amounts
  | owner :: rest, amounts => do
    let amount ← add (amounts owner) rewardPerOwner
    creditOwners rewardPerOwner rest (update amounts owner amount)

def distributeRewardToOwners (r : Register) (sender : Address) (rewardOwners : Nat) :
    Result Register := do
  onlyValidatorContract sender
  let rewardPerOwner ← div rewardOwners r.eligibleOwners.length
  let amounts ← creditOwners rewardPerOwner r.eligibleOwners r.rewardAmountOwner
  pure { r with rewardAmountOwner := amounts }

def transferRewardOwner (r : Register) (sender : Address) (env : Env) (owner : Address) :
    Result (Register × Nat) := do
  onlyValidatorContract sender
  require (owner ≠ 0) "Zero Address"
  require (0 < r.rewardAmountOwner owner) "Nothing to claim or Not Registered "
  let reward := r.rewardAmountOwner owner
  let oldClaimTime := r.rewardClaimRecordsOwners owner
  let claimed : Register := { r with
    rewardClaimRecordsOwners := update r.rewardClaimRecordsOwners owner env.number
    rewardAmountOwner := update r.rewardAmountOwner owner 0 }
  if oldClaimTime = 0 then pure (claimed, reward)
  else do
    let endTime ← add oldClaimTime REWARD_CLAIMING_PERIOD
    require (endTime ≤ env.number) "Claim after 24 hours"
    pure (claimed, reward)

end Register

/-! ## Deposit -/

variable (s : State)

/-- The first loop of `deposit`: delegators that are not unstaking are eligible,
the stake of the others is taken off the coins. -/
def scanDelegators (s : State) (valAddr : Address) :
    List Address → List Address → Nat → Result (List Address × Nat)
  | [], elegibleDel, updatedCoins => pure (elegibleDel, updatedCoins)
  | curr :: rest, elegibleDel, updatedCoins =>
    let stakeInfo := s.stakingInfo curr valAddr
    if stakeInfo.unstakeBlock = 0 then
      scanDelegators s valAddr rest (elegibleDel ++ [curr]) updatedCoins
    else do
      let updatedCoins ← sub updatedCoins stakeInfo.amount
      scanDelegators s valAddr rest elegibleDel updatedCoins

/-- The loop of `distributeRewardToDelegators`. -/
def creditDelegators (rewardAmount : Nat) (validator : Address) (totalCoins : Nat) :
    List Address → (Address → Address → Delegator) → Result (Address → Address → Delegator)
  | [], staking => pure staking
  | currentAddr :: rest, staking => do
    let stakeInfo := staking currentAddr validator
    let scaled ← mul stakeInfo.amount SHARE_SCALE
    let percentageToTransfer ← div scaled totalCoins
    let product ← mul rewardAmount percentageToTransfer
    let rewardDelegatorAmount ← div product SHARE_SCALE
    let income ← add stakeInfo.income rewardDelegatorAmount
    let totalIncome ← add stakeInfo.totalIncome rewardDelegatorAmount
    creditDelegators rewardAmount validator totalCoins rest (set₂ staking currentAddr validator
        { stakeInfo with income := income, totalIncome := totalIncome })

def distributeRewardToDelegators (rewardAmount : Nat) (validator : Address)
    (totalCoins : Nat) : Result State :=
  if (s.validatorInfo validator).delegators.length = 0 then pure s
  else do
    let staking ← creditDelegators rewardAmount validator totalCoins s.elegibleDel s.stakingInfo
    pure { s with stakingInfo := staking }

/-- The burnt part of a deposit goes to the burn address; the rest is returned. -/
def burn (env : Env) (value : Nat) : Result (State × Nat) := do
  let product ← mul value s.burnRatio
  let toBurn ← div product BURN_RATIO_SCALE
  if 0 < toBurn then do
    let s ← transfer s env BURN_ADDRESS toBurn
    let value ← sub value toBurn
    pure (s, value)
  else pure (s, value)

/-- Owners of called contracts share 45/99 of the value; the rest is returned. -/
def rewardOwners (contractArray : List Address) (value : Nat) :
    Result (State × Nat) := do
  let (register, owners) ← s.register.checkEligible VALIDATOR_CONTRACT_ADDR contractArray
  let s := { s with register := register }
  if 0 < owners.length then do
    let product ← mul value 45
    let share ← div product 99
    let register ← s.register.distributeRewardToOwners VALIDATOR_CONTRACT_ADDR share
    let value ← sub value share
    pure ({ s with register := register }, value)
  else pure (s, value)

/-- What is left goes to the validator and its eligible delegators in
proportion to their stakes. -/
def splitReward (valAddr : Address) (updatedCoins value : Nat) : Result State := do
  let valInfo := s.validatorInfo valAddr
  let scaled ← mul valInfo.amount SHARE_SCALE
  let percentageToTransfer ← div scaled updatedCoins
  let product ← mul value percentageToTransfer
  let rewardAmount ← div product SHARE_SCALE
  let income ← add valInfo.income rewardAmount
  let totalIncome ← add valInfo.totalIncome rewardAmount
  let s := s.setValidator valAddr { valInfo with income := income, totalIncome := totalIncome }
  let remainingDelegatorRewardAmount ← sub value rewardAmount
  let totalCoinsByDelegators ← sub updatedCoins valInfo.amount
  distributeRewardToDelegators s remainingDelegatorRewardAmount valAddr totalCoinsByDelegators

def deposit (s : State) (env : Env) (valAddr : Address) (contractArray : List Address) :
    Result State := do
  require (env.sender = env.coinbase) "the message sender must be the block producer"
  require (s.alreadyInit = true) "the contract not init yet"
  nonZeroAddress env
  require (0 < env.value) "deposit value is zero"
  nonReentrant (s.receive env) fun s => do
    require (valAddr ≠ 0) "Zero address"
    let valInfo := s.validatorInfo valAddr
    let (s, value) ← burn s env env.value
    if valInfo.validator = 0 then pure s
    else do
      let (s, value) ← rewardOwners s contractArray value
      if valInfo.status = .Jailed ∨ valInfo.status = .Unstaked then pure s
      else do
        let (elegibleDel, updatedCoins) ← scanDelegators s valAddr valInfo.delegators [] valInfo.coins
        splitReward { s with elegibleDel := elegibleDel } valAddr updatedCoins value

/-! ## Claims -/

/-- A claim is allowed the first time and then once in `REWARD_CLAIMING_PERIOD`. -/
def claimWindow (oldClaimTime : Nat) (env : Env) : Result Unit :=
  if oldClaimTime = 0 then pure ()
  else do
    let endTime ← add oldClaimTime REWARD_CLAIMING_PERIOD
    require (endTime ≤ env.number) "Claim after 24 hours"

/-- The emptied validator keeps its status here: the source compares it with
`NotExist` where the other withdrawals assign it. -/
def claimValidatorReward (env : Env) : Result State := do
  nonPayable env
  nonZeroAddress env
  nonReentrant s fun s => do
    let staker := env.sender
    let valInfo := s.validatorInfo staker
    require (valInfo.status ≠ .NotExist ∧ valInfo.status ≠ .Jailed) ""
    require (0 < valInfo.income) "No incomes yet."
    claimWindow (s.rewardClaimRecordsValidator staker) env
    let s ← transfer s env staker valInfo.income
    let s := { s with
      rewardClaimRecordsValidator := update s.rewardClaimRecordsValidator staker env.number }
    let s := s.setValidator staker { valInfo with income := 0 }
    if valInfo.amount = 0 ∧ valInfo.coins = 0 then
      pure { s with currentValidators := removeFromCurrentValidatorList s staker }
    else pure s

def claimDelegatorReward (env : Env) (validator : Address) : Result State := do
  nonPayable env
  nonZeroAddress env
  nonReentrant s fun s => do
    let delegator := env.sender
    let stakeInfo := s.stakingInfo delegator validator
    require (0 < stakeInfo.income) "No incomes yet."
    claimWindow (s.rewardClaimRecordsDelegator delegator) env
    let s ← transfer s env delegator stakeInfo.income
    let s := { s with
      rewardClaimRecordsDelegator := update s.rewardClaimRecordsDelegator delegator env.number }
    pure (s.setStaking delegator validator { stakeInfo with income := 0 })

def claimOwnerReward (env : Env) : Result State := do
  nonPayable env
  nonZeroAddress env
  nonReentrant s fun s => do
    let (register, reward) ← s.register.transferRewardOwner VALIDATOR_CONTRACT_ADDR env env.sender
    transfer { s with register := register } env env.sender reward

def pushContractOwner (env : Env) (contAddr owner : Address) : Result State := do
  nonPayable env
  require (env.sender = env.coinbase) "the message sender must be the block producer"
  let register ← s.register.pushContractRecord VALIDATOR_CONTRACT_ADDR contAddr owner
  pure { s with register := register }

/-! ## What a successful call did -/

section Outcomes
variable {s t : State} {env : Env} {value : Nat} {contracts : List Address} {v : Address}
  {S S' : Address → Address → Delegator}

variable {rest pot whole : Nat} {xs : List Address}

theorem burn_ok (h : burn s env value = .ok (t, rest)) :
    ∃ toBurn p, toBurn = value * s.burnRatio / BURN_RATIO_SCALE ∧ toBurn ≤ value ∧
      rest = value - toBurn ∧
      t = { s with balance := s.balance - toBurn, payouts := p } := by
  simp only [burn, bind_ok, mul_ok, div_ok] at h
  obtain ⟨_, ⟨_, rfl⟩, _, ⟨_, rfl⟩, h⟩ := h
  split at h
  · simp only [bind_ok, transfer_ok, sub_ok, pure_ok, Prod.mk.injEq] at h
    obtain ⟨_, ⟨_, _, rfl⟩, _, ⟨hle, rfl⟩, rfl, rfl⟩ := h
    exact ⟨_, _, rfl, hle, rfl, rfl⟩
  next hzero =>
    have hz := Nat.eq_zero_of_not_pos hzero
    obtain ⟨rfl, rfl⟩ := h
    exact ⟨0, s.payouts, hz.symm, Nat.zero_le _, rfl, rfl⟩

theorem rewardOwners_ok (h : rewardOwners s contracts value = .ok (t, rest)) :
    ∃ owners share amounts, share ≤ value ∧ rest = value - share ∧
      Register.creditOwners (share / owners.length) owners
        s.register.rewardAmountOwner = .ok amounts ∧
      t = { s with register := { s.register with
        eligibleOwners := owners
        rewardAmountOwner := amounts } } := by
  simp only [rewardOwners, checkEligible, onlyValidatorContract, bind_ok,
    require_ok, pure_ok] at h
  obtain ⟨_, ⟨_, _, rfl⟩, h⟩ := h
  simp only at h
  split at h
  · simp only [distributeRewardToOwners, onlyValidatorContract, bind_ok,
      require_ok, mul_ok, div_ok, sub_ok, pure_ok, Prod.mk.injEq] at h
    obtain ⟨_, _, share, ⟨_, _⟩, _, ⟨_, _, _, ⟨_, rfl⟩, amounts, hcredit, rfl⟩, _,
      ⟨hle, rfl⟩, rfl, rfl⟩ := h
    exact ⟨_, share, amounts, hle, rfl, hcredit, rfl⟩
  next hlen =>
    obtain ⟨rfl, rfl⟩ := h
    have hnil := List.eq_nil_of_length_eq_zero (Nat.eq_zero_of_not_pos hlen)
    exact ⟨_, 0, _, Nat.zero_le _, rfl, by rw [hnil]; rfl, rfl⟩

/-- Stake of the delegators in the list that are unstaking. -/
def unstaking (s : State) (v : Address) (xs : List Address) : Nat :=
  ((xs.filter fun d => decide ((s.stakingInfo d v).unstakeBlock ≠ 0)).map
    fun d => (s.stakingInfo d v).amount).sum

/-- The scan returns exactly when the coins cover the stakes taken off. -/
theorem scanDelegators_ok {el : List Address} {coins : Nat}
    {r : List Address × Nat} :
    scanDelegators s v xs el coins = .ok r ↔ unstaking s v xs ≤ coins ∧
      (el ++ xs.filter fun d => decide ((s.stakingInfo d v).unstakeBlock = 0),
        coins - unstaking s v xs) = r := by
  induction xs generalizing el coins with
  | nil => simp [scanDelegators, unstaking]
  | cons d rest ih =>
    simp only [scanDelegators]
    by_cases hd : (s.stakingInfo d v).unstakeBlock = 0
    · rw [if_pos hd, ih]
      simp [unstaking, hd]
    have hu : unstaking s v (d :: rest) = (s.stakingInfo d v).amount + unstaking s v rest := by
      simp [unstaking, hd]
    simp only [bind_ok, sub_ok, ih, hu, List.filter_cons, hd, decide_false, Bool.false_eq_true,
      ↓reduceIte]
    constructor
    · rintro ⟨_, ⟨hle, rfl⟩, hrest, rfl⟩
      exact ⟨by omega, by rw [Nat.sub_sub]⟩
    · rintro ⟨hle, rfl⟩
      exact ⟨_, ⟨by omega, rfl⟩, by omega, by rw [Nat.sub_sub]⟩

/-- A validator's record after a reward. -/
def Validator.earn (x : Validator) (reward : Nat) : Validator :=
  { x with income := x.income + reward, totalIncome := x.totalIncome + reward }

/-- A delegation after a reward. -/
def Delegator.earn (x : Delegator) (reward : Nat) : Delegator :=
  { x with income := x.income + reward, totalIncome := x.totalIncome + reward }

/-- One round of the loop over the delegators. -/
theorem creditDelegators_cons {x : Address} {rest : List Address}
    (h : creditDelegators pot v whole (x :: rest) S = .ok S') :
    creditDelegators pot v whole rest
      (set₂ S x v ((S x v).earn (share SHARE_SCALE whole pot (S x v).amount))) = .ok S' := by
  simp only [creditDelegators, bind_ok, mul_ok, div_ok, add_ok] at h
  obtain ⟨_, ⟨_, rfl⟩, _, ⟨_, rfl⟩, _, ⟨_, rfl⟩, _, ⟨_, rfl⟩, _, ⟨_, rfl⟩, _, ⟨_, rfl⟩, h⟩ := h
  exact h

theorem set₂_earn_stake (S : Address → Address → Delegator) (x v : Address) (r : Nat)
    (d w : Address) : (set₂ S x v ((S x v).earn r) d w).stake = (S d w).stake := by
  rw [set₂_apply]
  split
  next e =>
    rw [e.1, e.2]
    rfl
  · rfl

/-- The loop over the delegators moves rewards only. -/
theorem creditDelegators_stake (h : creditDelegators pot v whole xs S = .ok S')
    (d w : Address) : (S' d w).stake = (S d w).stake := by
  induction xs generalizing S with
  | nil =>
    simp only [creditDelegators, pure_ok] at h
    rw [h]
  | cons x rest ih => rw [ih (creditDelegators_cons h), set₂_earn_stake]

theorem splitReward_ok {updatedCoins : Nat} (h : splitReward s v updatedCoins value = .ok t) :
    ∃ reward staking,
      reward = share SHARE_SCALE updatedCoins value (s.validatorInfo v).amount ∧
      reward ≤ value ∧
      ((s.validatorInfo v).delegators = [] ∧ staking = s.stakingInfo ∨
        creditDelegators (value - reward) v (updatedCoins - (s.validatorInfo v).amount)
          s.elegibleDel s.stakingInfo = .ok staking) ∧
      t = { s with
        validatorInfo := update s.validatorInfo v ((s.validatorInfo v).earn reward)
        stakingInfo := staking } := by
  simp only [splitReward, bind_ok, mul_ok, div_ok, add_ok, sub_ok, distributeRewardToDelegators,
    State.setValidator, Function.update_self] at h
  obtain ⟨_, ⟨_, rfl⟩, _, ⟨_, rfl⟩, _, ⟨_, rfl⟩, _, ⟨_, rfl⟩, _, ⟨_, rfl⟩, _, ⟨_, rfl⟩, _,
    ⟨hle, rfl⟩, _, ⟨_, rfl⟩, h⟩ := h
  split at h
  next hnil =>
    cases h
    exact ⟨_, _, rfl, hle, .inl ⟨List.length_eq_zero_iff.mp hnil, rfl⟩, rfl⟩
  · simp only [bind_ok, pure_ok] at h
    obtain ⟨staking, hstaking, rfl⟩ := h
    exact ⟨_, staking, rfl, hle, .inr hstaking, rfl⟩

section
variable (h : deposit s env v contracts = .ok t)
include h

theorem deposit_ok : ∃ b rest u,
      burn { s.receive env with reentrancyStatus := ENTERED } env env.value = .ok (b, rest) ∧
      ((s.validatorInfo v).validator = 0 ∧ u = b ∨
        (s.validatorInfo v).validator ≠ 0 ∧ ∃ o left, rewardOwners b contracts rest = .ok (o, left) ∧
        ((s.validatorInfo v).status ≠ .Staked ∧ u = o ∨ ∃ el coins,
          scanDelegators o v (s.validatorInfo v).delegators [] (s.validatorInfo v).coins =
            .ok (el, coins) ∧
          splitReward { o with elegibleDel := el } v coins left = .ok u)) ∧
      t = { u with reentrancyStatus := NOT_ENTERED } := by
  simp only [deposit, nonZeroAddress, bind_ok, require_ok, nonReentrant_ok] at h
  obtain ⟨_, _, _, _, _, _, _, _, _, u, ⟨_, _, ⟨b, rest⟩, hb, h⟩, rfl⟩ := h
  refine ⟨b, rest, u, hb, ?_, rfl⟩
  split at h
  next hnone =>
    cases h
    exact .inl ⟨hnone, rfl⟩
  next hsome =>
    simp only [bind_ok] at h
    obtain ⟨⟨o, left⟩, ho, h⟩ := h
    refine .inr ⟨hsome, o, left, ho, ?_⟩
    split at h
    next hidle =>
      cases h
      refine .inl ⟨?_, rfl⟩
      intro hst
      obtain hjailed | hunstaked := hidle
      · cases hst.symm.trans hjailed
      · cases hst.symm.trans hunstaked
    · right
      simp only [bind_ok] at h
      obtain ⟨⟨el, coins⟩, hscan, h⟩ := h
      exact ⟨el, coins, hscan, h⟩

/-- Whatever its branch, a deposit writes rewards and what it has computed them from. -/
theorem deposit_eq : ∃ B p owners amounts el info staking, t = { s with
      balance := B
      payouts := p
      register := { s.register with eligibleOwners := owners, rewardAmountOwner := amounts }
      elegibleDel := el
      validatorInfo := info
      stakingInfo := staking
      reentrancyStatus := NOT_ENTERED } ∧
    (∃ reward, info = update s.validatorInfo v ((s.validatorInfo v).earn reward)) ∧
    (∃ per xs, Register.creditOwners per xs s.register.rewardAmountOwner = .ok amounts) ∧
    ∃ pot whole xs, creditDelegators pot v whole xs s.stakingInfo = .ok staking := by
  have hnone := (Function.update_eq_self v s.validatorInfo).symm
  obtain ⟨b, rest, u, hb, hu, rfl⟩ := deposit_ok h
  obtain ⟨_, _, _, _, _, rfl⟩ := burn_ok hb
  obtain ⟨_, rfl⟩ | ⟨_, o, left, ho, hu⟩ := hu
  · exact ⟨_, _, _, _, _, _, _, rfl, ⟨0, hnone⟩, ⟨0, [], rfl⟩, 0, 0, [], rfl⟩
  obtain ⟨_, _, amounts, _, _, hcredit, rfl⟩ := rewardOwners_ok ho
  obtain ⟨_, rfl⟩ | ⟨el, coins, _, hsplit⟩ := hu
  · exact ⟨_, _, _, _, _, _, _, rfl, ⟨0, hnone⟩, ⟨_, _, hcredit⟩, 0, 0, [], rfl⟩
  obtain ⟨reward, staking, _, _, hstaking, rfl⟩ := splitReward_ok hsplit
  refine ⟨_, _, _, _, _, _, staking, rfl, ⟨reward, rfl⟩, ⟨_, _, hcredit⟩, ?_⟩
  obtain ⟨_, rfl⟩ | hstaking := hstaking
  · exact ⟨0, 0, [], rfl⟩
  · exact ⟨_, _, _, hstaking⟩

/-- A deposit moves rewards only. -/
theorem deposit_stakes : SameStakes s t ∧ t.currentValidators = s.currentValidators := by
  obtain ⟨_, _, _, _, _, _, _, rfl, ⟨reward, rfl⟩, _, _, _, _, hstaking⟩ := deposit_eq h
  refine ⟨⟨?_, ?_, rfl, rfl, rfl, rfl⟩, rfl⟩
  · exact update_field Validator.stake (by rfl)
  · exact creditDelegators_stake hstaking

/-- A deposit registers nobody. -/
theorem deposit_contractsRecord : t.register.contractsRecord = s.register.contractsRecord := by
  obtain ⟨_, _, _, _, _, _, _, rfl, _⟩ := deposit_eq h
  rfl

end

theorem claimValidatorReward_ok (h : claimValidatorReward s env = .ok t) :
    ∃ p R C, ((s.validatorInfo env.sender).amount = 0 ∧ (s.validatorInfo env.sender).coins = 0 ∧
          C = removeFromCurrentValidatorList s env.sender ∨ C = s.currentValidators) ∧
      t = { s with
        balance := s.balance - (s.validatorInfo env.sender).income
        payouts := p
        rewardClaimRecordsValidator := R
        validatorInfo := update s.validatorInfo env.sender
          { s.validatorInfo env.sender with income := 0 }
        currentValidators := C
        reentrancyStatus := NOT_ENTERED } := by
  simp only [claimValidatorReward, nonPayable, nonZeroAddress, bind_ok, require_ok, guardWith_ok,
    nonReentrant_ok, transfer_ok] at h
  obtain ⟨_, _, _, _, _, u, ⟨_, _, _, _, _, _, _, ⟨_, _, rfl⟩, h⟩, rfl⟩ := h
  split at h
  next hempty =>
    cases h
    exact ⟨_, _, _, .inl ⟨hempty.1, hempty.2, rfl⟩, rfl⟩
  · cases h
    exact ⟨_, _, _, .inr rfl, rfl⟩

theorem claimDelegatorReward_ok (h : claimDelegatorReward s env v = .ok t) :
    ∃ p R, t = { s with
      balance := s.balance - (s.stakingInfo env.sender v).income
      payouts := p
      rewardClaimRecordsDelegator := R
      stakingInfo := set₂ s.stakingInfo env.sender v { s.stakingInfo env.sender v with income := 0 }
      reentrancyStatus := NOT_ENTERED } := by
  simp only [claimDelegatorReward, nonPayable, nonZeroAddress, bind_ok, require_ok, guardWith_ok,
    nonReentrant_ok, transfer_ok, pure_ok] at h
  obtain ⟨_, _, _, _, _, u, ⟨_, _, _, _, _, ⟨_, _, rfl⟩, rfl⟩, rfl⟩ := h
  exact ⟨_, _, rfl⟩

theorem claimOwnerReward_ok (h : claimOwnerReward s env = .ok t) :
    ∃ R, t = { s with
      balance := s.balance - s.register.rewardAmountOwner env.sender
      payouts := s.payouts ++ [(env.sender, s.register.rewardAmountOwner env.sender)]
      register := { s.register with
        rewardClaimRecordsOwners := R
        rewardAmountOwner := update s.register.rewardAmountOwner env.sender 0 }
      reentrancyStatus := NOT_ENTERED } := by
  simp only [claimOwnerReward, nonPayable, nonZeroAddress, bind_ok, require_ok, guardWith_ok,
    nonReentrant_ok, transferRewardOwner, onlyValidatorContract] at h
  obtain ⟨_, _, _, _, _, u, ⟨⟨r, x⟩, ⟨_, _, _, _, _, _, h⟩, htr⟩, rfl⟩ := h
  have hr : r = { s.register with
        rewardClaimRecordsOwners := update s.register.rewardClaimRecordsOwners env.sender env.number
        rewardAmountOwner := update s.register.rewardAmountOwner env.sender 0 } ∧
      x = s.register.rewardAmountOwner env.sender := by
    split at h
    · simp only [pure_ok, Prod.mk.injEq] at h
      exact ⟨h.1.symm, h.2.symm⟩
    · simp only [bind_ok, add_ok, require_ok, pure_ok, Prod.mk.injEq] at h
      obtain ⟨_, _, _, _, hr, hx⟩ := h
      exact ⟨hr.symm, hx.symm⟩
  obtain ⟨rfl, rfl⟩ := hr
  obtain ⟨_, _, rfl⟩ := transfer_ok.mp htr
  exact ⟨_, rfl⟩

theorem pushContractOwner_ok {c o : Address} :
    pushContractOwner s env c o = .ok t ↔ env.value = 0 ∧ env.sender = env.coinbase ∧
      { s with register := { s.register with
        contractsRecord := update s.register.contractsRecord c o } } = t := by
  simp only [pushContractOwner, nonPayable, pushContractRecord,
    onlyValidatorContract, bind_ok, require_ok, guardWith_ok, pure_ok, exists_const,
    true_and, exists_eq_left']

end Outcomes

end Dexit.Staking
