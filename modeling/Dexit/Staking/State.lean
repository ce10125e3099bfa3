import Dexit.Chain
import Dexit.Solidity.Checked
import Dexit.Solidity.Mapping

/-! Storage of `BSCValidatorSet` and of the `RewardRegister` it calls, and the
environment an external call sees. -/

namespace Dexit.Staking

open Solidity Outcome
open Function (update)

inductive Status where
  | NotExist
  | Staked
  | Unstaked
  | Jailed
  deriving DecidableEq, Repr

structure Validator where
  validator : Address := 0
  status : Status := .NotExist
  amount : Nat := 0
  coins : Nat := 0
  income : Nat := 0
  totalIncome : Nat := 0
  delegators : List Address := []
  deriving DecidableEq, Repr

structure Delegator where
  delegatorAddress : Address := 0
  amount : Nat := 0
  unstakeBlock : Nat := 0
  index : Nat := 0
  income : Nat := 0
  totalIncome : Nat := 0
  deriving DecidableEq, Repr

structure PunishRecord where
  missedBlockCounter : Nat := 0
  index : Nat := 0
  jailedTime : Nat := 0
  isPunished : Bool := false
  deriving DecidableEq, Repr

/-- Storage of the contract at `CROSS_CHAIN_CONTRACT_ADDR`. -/
structure Register where
  alreadyInit : Bool := false
  rewardAddresses : Address → Address := fun _ => 0
  rewardAmountOwner : Address → Nat := fun _ => 0
  rewardClaimRecordsOwners : Address → Nat := fun _ => 0
  eligibleOwners : List Address := []
  contractsRecord : Address → Address := fun _ => 0

def ether : Nat := 10 ^ 18

def MISDEMEANOR_THRESHOLD : Nat := 50
def FELONY_THRESHOLD : Nat := 150
def BURN_RATIO_SCALE : Nat := 100
def INIT_BURN_RATIO : Nat := 1
def MINIMUM_STAKE_AMOUNT : Nat := 10000 * ether
def MAXIMUM_VALIDATORS : Nat := 5
def STAKING_LOCK_PERIOD : Nat := 403200
def UNJAILING_PERIOD : Nat := 8 * 3600
def REWARD_CLAIMING_PERIOD : Nat := 28800

/-- Fixed-point scale of the reward shares. -/
def SHARE_SCALE : Nat := 10000000000

/-- `ReentrancyGuard`'s two values of `_status`. -/
def NOT_ENTERED : Nat := 1
def ENTERED : Nat := 2

/-- Everything the contract reads or writes. `balance` is its native balance and
`payouts` the native transfers it has made, oldest first; storage proper starts
with `alreadyInit`. -/
structure State where
  balance : Nat := 0
  payouts : List (Address × Nat) := []
  register : Register := {}
  alreadyInit : Bool := false
  reentrancyStatus : Nat := 0
  misdemeanorThreshold : Nat := 0
  felonyThreshold : Nat := 0
  burnRatio : Nat := 0
  burnRatioInitialized : Bool := false
  validatorInfo : Address → Validator := fun _ => {}
  stakingInfo : Address → Address → Delegator := fun _ _ => {}
  rewardClaimRecordsValidator : Address → Nat := fun _ => 0
  rewardClaimRecordsDelegator : Address → Nat := fun _ => 0
  currentValidators : List Address := []
  highestValidators : List Address := []
  elegibleDel : List Address := []
  totalDXTStake : Nat := 0
  punishRecord : Address → PunishRecord := fun _ => {}
  punishValidator : List Address := []
  minimumStakeAmount : Nat := 0
  maxValidators : Nat := 0
  preMaxValidators : Nat := 0

/-- What a call sees of its sender, its value and its block. `accepts` tells
which accounts take a native transfer with the 2300 gas stipend, `isContract`
which accounts have code. Nobody has deployed code at the burn address. -/
structure Env where
  sender : Address
  value : Nat := 0
  coinbase : Address := 0
  number : Nat := 0
  timestamp : Nat := 0
  accepts : Address → Bool := fun _ => true
  isContract : Address → Bool := fun _ => false
  burn_accepts : accepts BURN_ADDRESS = true := by rfl

namespace State

def setValidator (s : State) (a : Address) (v : Validator) : State :=
  { s with validatorInfo := update s.validatorInfo a v }

/-- `stakingInfo[d][v] = x`. -/
def setStaking (s : State) (d v : Address) (x : Delegator) : State :=
  { s with stakingInfo := set₂ s.stakingInfo d v x }

def setPunish (s : State) (a : Address) (p : PunishRecord) : State :=
  { s with punishRecord := update s.punishRecord a p }

/-- The value of a payable call is credited before its body runs. -/
def receive (s : State) (env : Env) : State :=
  { s with balance := s.balance + env.value }

end State

def nonPayable (env : Env) : Result Unit := guardWith (env.value = 0) .nonPayable

def nonZeroAddress (env : Env) : Result Unit := require (env.sender ≠ 0) "Zero Address"

/-- `payable(recipient).transfer(amount)`. -/
def transfer (s : State) (env : Env) (recipient : Address) (amount : Nat) : Result State := do
  guardWith (amount ≤ s.balance ∧ env.accepts recipient = true) .transferFailed
  pure { s with balance := s.balance - amount, payouts := s.payouts ++ [(recipient, amount)] }

/-- Runs `body` with the reentrancy guard raised and lowers it afterwards. -/
def nonReentrant (s : State) (body : State → Result State) : Result State := do
  require (s.reentrancyStatus ≠ ENTERED) "ReentrancyGuard: reentrant call"
  let s ← body { s with reentrancyStatus := ENTERED }
  pure { s with reentrancyStatus := NOT_ENTERED }

def init (s : State) (env : Env) : Result State := do
  nonPayable env
  require (s.alreadyInit = false) "the contract already init"
  pure { s with
    burnRatio := INIT_BURN_RATIO
    burnRatioInitialized := true
    minimumStakeAmount := MINIMUM_STAKE_AMOUNT
    maxValidators := MAXIMUM_VALIDATORS
    alreadyInit := true
    misdemeanorThreshold := MISDEMEANOR_THRESHOLD
    felonyThreshold := FELONY_THRESHOLD }

/-- The state after `init()` on empty storage. -/
def postInit : State where
  burnRatio := INIT_BURN_RATIO
  burnRatioInitialized := true
  minimumStakeAmount := MINIMUM_STAKE_AMOUNT
  maxValidators := MAXIMUM_VALIDATORS
  alreadyInit := true
  misdemeanorThreshold := MISDEMEANOR_THRESHOLD
  felonyThreshold := FELONY_THRESHOLD

theorem init_empty {env : Env} (h : env.value = 0) : init {} env = .ok postInit := by
  rw [init, nonPayable, h]
  rfl

def getValidators (s : State) : List Address := s.highestValidators

variable {s : State} {body : State → Result State}

variable {env : Env} {recipient : Address} {x : Nat} {e : Revert}

theorem transfer_ok {t : State} :
    transfer s env recipient x = .ok t ↔ x ≤ s.balance ∧ env.accepts recipient = true ∧
      { s with balance := s.balance - x, payouts := s.payouts ++ [(recipient, x)] } = t := by
  simp only [transfer, bind_ok, guardWith_ok, pure_ok, exists_const, and_assoc]

theorem nonReentrant_ok {t : State} :
    nonReentrant s body = .ok t ↔ s.reentrancyStatus ≠ ENTERED ∧
      ∃ u, body { s with reentrancyStatus := ENTERED } = .ok u ∧
        { u with reentrancyStatus := NOT_ENTERED } = t := by
  simp only [nonReentrant, bind_ok, require_ok, pure_ok, exists_const]

theorem nonReentrant_returns :
    (∃ t, nonReentrant s body = .ok t) ↔ s.reentrancyStatus ≠ ENTERED ∧
      ∃ u, body { s with reentrancyStatus := ENTERED } = .ok u := by
  simp only [nonReentrant, bind_returns, require_ok, pure_ok, exists_const, exists_eq', and_true]

theorem nonReentrant_error :
    nonReentrant s body = .error e ↔
      s.reentrancyStatus = ENTERED ∧ .require "ReentrancyGuard: reentrant call" = e ∨
      s.reentrancyStatus ≠ ENTERED ∧ body { s with reentrancyStatus := ENTERED } = .error e := by
  simp only [nonReentrant, bind_error, require_error, require_ok, pure_error, and_false,
    exists_false, or_false, exists_const, not_not, ne_eq]

theorem transfer_error :
    transfer s env recipient x = .error e ↔
      ¬ (x ≤ s.balance ∧ env.accepts recipient = true) ∧ .transferFailed = e := by
  simp only [transfer, bind_error, guardWith_error, pure_error, and_false, exists_false, or_false]

/-- A validator's record without its rewards. -/
def Validator.stake (v : Validator) : Validator := { v with income := 0, totalIncome := 0 }

/-- A delegation without its rewards. -/
def Delegator.stake (d : Delegator) : Delegator := { d with income := 0, totalIncome := 0 }

theorem Delegator.amount_eq_of_stake {x y : Delegator} (h : x.stake = y.stake) :
    x.amount = y.amount := by
  have := congrArg Delegator.amount h
  exact this

/-- Rewards may have moved; who has staked what with whom has not. -/
structure SameStakes (s t : State) : Prop where
  validators : ∀ a, (t.validatorInfo a).stake = (s.validatorInfo a).stake
  delegations : ∀ d v, (t.stakingInfo d v).stake = (s.stakingInfo d v).stake
  total : t.totalDXTStake = s.totalDXTStake
  highest : t.highestValidators = s.highestValidators
  minimum : t.minimumStakeAmount = s.minimumStakeAmount
  maximum : t.maxValidators = s.maxValidators

namespace SameStakes

variable {s t u : State}

section Fields
variable (h : SameStakes s t)
include h

theorem amount (a : Address) : (t.validatorInfo a).amount = (s.validatorInfo a).amount := by
  have := congrArg Validator.amount (h.validators a)
  exact this

theorem coins (a : Address) : (t.validatorInfo a).coins = (s.validatorInfo a).coins := by
  have := congrArg Validator.coins (h.validators a)
  exact this

theorem status (a : Address) : (t.validatorInfo a).status = (s.validatorInfo a).status := by
  have := congrArg Validator.status (h.validators a)
  exact this

theorem delegators (a : Address) :
    (t.validatorInfo a).delegators = (s.validatorInfo a).delegators := by
  have := congrArg Validator.delegators (h.validators a)
  exact this

theorem delegated (d v : Address) : (t.stakingInfo d v).amount = (s.stakingInfo d v).amount :=
  Delegator.amount_eq_of_stake (h.delegations d v)

theorem index (d v : Address) : (t.stakingInfo d v).index = (s.stakingInfo d v).index := by
  have := congrArg Delegator.index (h.delegations d v)
  exact this

theorem unstakeBlock (d v : Address) :
    (t.stakingInfo d v).unstakeBlock = (s.stakingInfo d v).unstakeBlock := by
  have := congrArg Delegator.unstakeBlock (h.delegations d v)
  exact this

end Fields

end SameStakes

/-- What a validator has earned, unclaimed and in all. -/
def Validator.rewards (v : Validator) : Nat × Nat := (v.income, v.totalIncome)

def Delegator.rewards (d : Delegator) : Nat × Nat := (d.income, d.totalIncome)

/-- Stakes may have moved; what anybody has earned has not. -/
structure SameRewards (s t : State) : Prop where
  validators : ∀ a, (t.validatorInfo a).rewards = (s.validatorInfo a).rewards
  delegators : ∀ d v, (t.stakingInfo d v).rewards = (s.stakingInfo d v).rewards
  owners : t.register.rewardAmountOwner = s.register.rewardAmountOwner

end Dexit.Staking
