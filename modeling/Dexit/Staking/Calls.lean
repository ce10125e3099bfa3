import Dexit.Solidity.Run
import Dexit.Staking.Governance
import Dexit.Staking.Rewards
import Dexit.Staking.Slashing
import Dexit.Staking.Stake

/-! The external calls of the two contracts as one machine. -/

namespace Dexit.Staking

open Solidity Outcome
open Function (update)

inductive Call where
  | stakeValidator
  | stakeDelegator (validator : Address)
  | unstakeValidator
  | unstakeDelegators (validator : Address)
  | withdrawValidatorStaking (amount : Nat)
  | withdrawDelegatorStaking (validator : Address) (amount : Nat)
  | deposit (valAddr : Address) (contractArray : List Address)
  | claimValidatorReward
  | claimDelegatorReward (validator : Address)
  | claimOwnerReward
  | pushContractOwner (contAddr owner : Address)
  | registerContract (contractAddr rewardAddr : Address)
  | punish (validator : Address)
  | unJailed
  | updateVotingValues (variable_name : String) (variable_value : Nat)
  deriving DecidableEq, Repr

/-- A call with the environment it is made in. -/
structure Message where
  env : Env
  call : Call

def registerContract (s : State) (env : Env) (contractAddr rewardAddr : Address) :
    Result State := do
  let register ← s.register.registerContract env contractAddr rewardAddr
  pure { s with register := register }

theorem registerContract_ok {s t : State} {env : Env} {c r : Address}
    (h : registerContract s env c r = .ok t) :
    t = { s with register := { s.register with
      rewardAddresses := update s.register.rewardAddresses c r
      rewardAmountOwner := update s.register.rewardAmountOwner r 0 } } := by
  simp only [registerContract, Register.registerContract, nonPayable, bind_ok, guardWith_ok,
    require_ok, pure_ok] at h
  obtain ⟨_, ⟨_, _, _, _, _, _, _, _, _, _, rfl⟩, rfl⟩ := h
  rfl

def exec (s : State) (m : Message) : Result State :=
  match m.call with
  | .stakeValidator => stakeValidator s m.env
  | .stakeDelegator validator => stakeDelegator s m.env validator
  | .unstakeValidator => unstakeValidator s m.env
  | .unstakeDelegators validator => unstakeDelegators s m.env validator
  | .withdrawValidatorStaking amount => withdrawValidatorStaking s m.env amount
  | .withdrawDelegatorStaking validator amount => withdrawDelegatorStaking s m.env validator amount
  | .deposit valAddr contractArray => deposit s m.env valAddr contractArray
  | .claimValidatorReward => claimValidatorReward s m.env
  | .claimDelegatorReward validator => claimDelegatorReward s m.env validator
  | .claimOwnerReward => claimOwnerReward s m.env
  | .pushContractOwner contAddr owner => pushContractOwner s m.env contAddr owner
  | .registerContract contractAddr rewardAddr => registerContract s m.env contractAddr rewardAddr
  | .punish validator => punish s m.env validator
  | .unJailed => unJailed s m.env
  | .updateVotingValues variable_name variable_value =>
    updateVotingValues s m.env variable_name variable_value

/-! ## What a successful call may do -/

/-- The calls by which validators and delegators move their own stake. -/
def Call.movesStake : Call → Bool
  | .stakeValidator | .stakeDelegator _ | .unstakeValidator | .unstakeDelegators _
  | .withdrawValidatorStaking _ | .withdrawDelegatorStaking _ _ | .unJailed => true
  | _ => false

/-- A successful call is about rewards and contract owners only, or it is one of
those that move a stake, a status, a seat or a bound. -/
inductive Effect (s t : State) (m : Message) : Prop
  | rewards (quiet : m.call.movesStake = false) (same : SameStakes s t)
      (listed : ∀ b ∈ t.currentValidators, b ∈ s.currentValidators)
      (kept : ∀ b ∈ s.currentValidators, 0 < (s.validatorInfo b).amount → b ∈ t.currentValidators)
  | stakeValidator (call : m.call = .stakeValidator) (h : stakeValidator s m.env = .ok t)
  | stakeDelegator (v : Address) (call : m.call = .stakeDelegator v)
      (h : stakeDelegator s m.env v = .ok t)
  | unstakeValidator (call : m.call = .unstakeValidator) (h : unstakeValidator s m.env = .ok t)
  | unstakeDelegators (v : Address) (call : m.call = .unstakeDelegators v)
      (h : unstakeDelegators s m.env v = .ok t)
  | withdrawValidatorStaking (x : Nat) (call : m.call = .withdrawValidatorStaking x)
      (h : withdrawValidatorStaking s m.env x = .ok t)
  | withdrawDelegatorStaking (v : Address) (x : Nat) (call : m.call = .withdrawDelegatorStaking v x)
      (h : withdrawDelegatorStaking s m.env v x = .ok t)
  | felony (v : Address) (call : m.call = .punish v) (due : Felony s v) (P : Address → PunishRecord)
      (L : List Address) (h : felony { s with punishRecord := P, punishValidator := L } m.env v
        (s.validatorInfo v).income = .ok t)
  | unJailed (call : m.call = .unJailed) (h : unJailed s m.env = .ok t)
  | minimum (value : Nat) (call : m.call = .updateVotingValues "minimumStakeAmount" value)
      (h : updateMinimumStakeAmount s value = .ok t)
  | maximum (value : Nat) (call : m.call = .updateVotingValues "maxValidators" value)
      (h : updateMaxValidators s value = .ok t)

section Effects
variable {s t : State} {m : Message} {env : Env}

/-- Nothing that the stakes depend on was written. -/
theorem Effect.of_fields (quiet : m.call.movesStake = false)
    (hv : t.validatorInfo = s.validatorInfo)
    (hS : t.stakingInfo = s.stakingInfo) (hT : t.totalDXTStake = s.totalDXTStake)
    (hh : t.highestValidators = s.highestValidators)
    (hC : t.currentValidators = s.currentValidators)
    (hm : t.minimumStakeAmount = s.minimumStakeAmount) (hM : t.maxValidators = s.maxValidators) :
    Effect s t m := by
  refine .rewards quiet ⟨?_, ?_, hT, hh, hm, hM⟩ ?_ ?_
  · intro a; rw [hv]
  · intro d v; rw [hS]
  · intro b hb; rwa [hC] at hb
  · intro b hb _; rwa [hC]

theorem exec_effect (h : exec s m = .ok t) : Effect s t m := by
  obtain ⟨env, call⟩ := m
  cases call with
  | stakeValidator => exact .stakeValidator rfl h
  | stakeDelegator v => exact .stakeDelegator v rfl h
  | unstakeValidator => exact .unstakeValidator rfl h
  | unstakeDelegators v => exact .unstakeDelegators v rfl h
  | withdrawValidatorStaking x => exact .withdrawValidatorStaking x rfl h
  | withdrawDelegatorStaking v x => exact .withdrawDelegatorStaking v x rfl h
  | deposit v contracts =>
    obtain ⟨same, hC⟩ := deposit_stakes h
    refine .rewards rfl same ?_ ?_
    · intro b hb; rwa [hC] at hb
    · intro b hb _; rwa [hC]
  | claimValidatorReward =>
    obtain ⟨p, R, C, hC, rfl⟩ := claimValidatorReward_ok h
    refine .rewards rfl ⟨update_field Validator.stake (by rfl), fun _ _ => rfl, rfl, rfl, rfl, rfl⟩
      ?_ ?_ <;> obtain ⟨hz, _, rfl⟩ | rfl := hC
    · exact fun b hb => mem_of_mem_removeFromCurrent hb
    · exact fun b hb => hb
    · intro b hb hpos
      refine mem_removeFromCurrent_of_ne hb ?_
      rintro rfl
      omega
    · exact fun b hb _ => hb
  | claimDelegatorReward v =>
    obtain ⟨p, R, rfl⟩ := claimDelegatorReward_ok h
    refine .rewards rfl ⟨fun _ => rfl, ?_, rfl, rfl, rfl, rfl⟩ (fun b hb => hb) (fun b hb _ => hb)
    exact set₂_field Delegator.stake (by rfl)
  | claimOwnerReward =>
    obtain ⟨R, rfl⟩ := claimOwnerReward_ok h
    exact .of_fields rfl rfl rfl rfl rfl rfl rfl rfl
  | pushContractOwner c o =>
    obtain ⟨_, _, rfl⟩ := pushContractOwner_ok.mp h
    exact .of_fields rfl rfl rfl rfl rfl rfl rfl rfl
  | registerContract c r =>
    obtain rfl := registerContract_ok h
    exact .of_fields rfl rfl rfl rfl rfl rfl rfl rfl
  | punish v =>
    obtain ⟨P, L, _, ⟨_, rfl⟩ | ⟨hfel, hf⟩ | ⟨_, hm⟩⟩ := punish_ok h
    · exact .of_fields rfl rfl rfl rfl rfl rfl rfl rfl
    · exact .felony v rfl hfel P L hf
    · obtain ⟨_, rfl⟩ := misdemeanor_ok hm
      refine .rewards rfl ⟨?_, fun _ _ => rfl, rfl, rfl, rfl, rfl⟩ (fun b hb => hb) (fun b hb _ => hb)
      intro a
      exact update_field Validator.stake (by rfl) a
  | unJailed => exact .unJailed rfl h
  | updateVotingValues name value =>
    obtain rfl | ⟨rfl, hmin⟩ | ⟨rfl, hmax⟩ := updateVotingValues_ok h
    · exact .of_fields rfl rfl rfl rfl rfl rfl rfl rfl
    · exact .minimum value rfl hmin
    · exact .maximum value rfl hmax

end Effects

/-! Calls that concrete runs are made of. -/

def Message.stake (a : Address) (value : Nat) : Message :=
  ⟨{ sender := a, value := value }, .stakeValidator⟩

/-- Each of them stakes the minimum. -/
def Message.stakes (as : List Address) : List Message :=
  as.map fun a => .stake a MINIMUM_STAKE_AMOUNT

def Message.slash (a : Address) : Message :=
  ⟨{ sender := SLASH_CONTRACT_ADDR, timestamp := 1000 }, .punish a⟩

def Message.leaveJail (a : Address) : Message :=
  ⟨{ sender := a, value := 2000 * ether, timestamp := 1000 + UNJAILING_PERIOD }, .unJailed⟩

end Dexit.Staking
