import Dexit.Staking.Solvency

/-! The rewards of contract owners: who takes them, and the registration that
wipes them out. -/

namespace Dexit.Staking

open Solidity Outcome
open Function

/-- What a deployer needs to register a reward address for its contract. The
reward address may be anybody's. -/
structure MayRegister (r : Register) (env : Env) (contractAddr rewardAddr : Address) : Prop where
  pays : env.value = 0
  nonzero : contractAddr ≠ 0 ∧ rewardAddr ≠ 0
  fresh : r.rewardAddresses contractAddr = 0
  code : env.isContract contractAddr = true
  deployer : r.contractsRecord contractAddr = env.sender

/-- What falls to an owner in this call is taken by that owner, and paid out in
full. -/
def TakenByOwner (s : State) (m : Message) : Prop :=
  ∀ a, (step exec s m).register.rewardAmountOwner a < s.register.rewardAmountOwner a →
    (∃ t, exec s m = .ok t) ∧ m.call = .claimOwnerReward ∧ m.env.sender = a ∧
      (step exec s m).register.rewardAmountOwner a = 0 ∧
      (step exec s m).payouts = s.payouts ++ [(a, s.register.rewardAmountOwner a)]

/-- A contract is registered for an address that has rewards to claim. -/
def RegistersOver (s : State) (m : Message) : Prop :=
  ∃ c r, m.call = .registerContract c r ∧ MayRegister s.register m.env c r ∧
    0 < s.register.rewardAmountOwner r

section Owners
variable {s t : State} {m : Message} {env : Env}

theorem registerContract_returns {c r : Address} :
    (∃ t, registerContract s env c r = .ok t) ↔ MayRegister s.register env c r := by
  simp only [registerContract, Register.registerContract, nonPayable, guardWith_ok, require_ok,
    pure_ok, exists_const, bind_ok]
  constructor
  · rintro ⟨_, _, ⟨hpay, hnz, hfresh, hcode, hdep, _⟩, _⟩
    exact ⟨hpay, hnz, hfresh, hcode, hdep⟩
  · intro h
    exact ⟨_, _, ⟨h.pays, h.nonzero, h.fresh, h.code, h.deployer, rfl⟩, rfl⟩

theorem creditOwners_le {per : Nat} {xs : List Address} {amounts amounts' : Address → Nat}
    (h : Register.creditOwners per xs amounts = .ok amounts') (a : Address) :
    amounts a ≤ amounts' a := by
  induction xs generalizing amounts with
  | nil =>
    simp only [Register.creditOwners, pure_ok] at h
    subst h
    exact le_rfl
  | cons x rest ih =>
    simp only [Register.creditOwners, bind_ok, add_ok] at h
    obtain ⟨_, ⟨_, rfl⟩, h⟩ := h
    refine le_trans ?_ (ih h)
    by_cases ha : a = x
    · subst ha
      rw [update_self]
      exact Nat.le_add_right _ _
    · rw [update_of_ne ha]

/-- What a call may take from the rewards of `a`. -/
theorem exec_owners (h : exec s m = .ok t) (a : Address) :
    s.register.rewardAmountOwner a ≤ t.register.rewardAmountOwner a ∨
    (m.call = .claimOwnerReward ∧ m.env.sender = a ∧ t.register.rewardAmountOwner a = 0 ∧
      t.payouts = s.payouts ++ [(a, s.register.rewardAmountOwner a)]) ∨
    ∃ c, m.call = .registerContract c a := by
  obtain ⟨env, call⟩ := m
  cases call with
  | deposit v contracts =>
    obtain ⟨_, _, _, _, _, _, _, rfl, _, ⟨_, _, hcredit⟩, _⟩ := deposit_eq h
    exact .inl (creditOwners_le hcredit a)
  | claimValidatorReward =>
    obtain ⟨p, R, C, _, rfl⟩ := claimValidatorReward_ok h
    exact .inl le_rfl
  | claimDelegatorReward v =>
    obtain ⟨p, R, rfl⟩ := claimDelegatorReward_ok h
    exact .inl le_rfl
  | claimOwnerReward =>
    obtain ⟨R, rfl⟩ := claimOwnerReward_ok h
    by_cases ha : a = env.sender
    · subst ha
      exact .inr (.inl ⟨rfl, rfl, by simp only [update_self], rfl⟩)
    · left
      simp only [update_of_ne ha]
      exact le_rfl
  | registerContract c r =>
    by_cases ha : r = a
    · subst ha
      exact .inr (.inr ⟨c, rfl⟩)
    · obtain rfl := registerContract_ok h
      left
      simp only [update_of_ne (Ne.symm ha)]
      exact le_rfl
  | punish v =>
    left
    obtain ⟨P, L, _, ⟨_, rfl⟩ | ⟨_, hf⟩ | ⟨_, hm⟩⟩ := punish_ok h
    · exact le_rfl
    · obtain ⟨u, rfl, _, rfl⟩ := felony_ok hf
      exact le_rfl
    · obtain ⟨_, rfl⟩ := misdemeanor_ok hm
      exact le_rfl
  | _ =>
    left
    rw [(exec_secured h rfl).1.owners]

theorem takenByOwner_iff : TakenByOwner s m ↔ ¬ RegistersOver s m := by
  constructor
  · rintro htaken ⟨c, r, hcall, may, hpos⟩
    obtain ⟨t, ht⟩ := registerContract_returns.mpr may
    have hexec : exec s m = .ok t := by
      simp only [exec, hcall, ht]
    have hfall : (step exec s m).register.rewardAmountOwner r < s.register.rewardAmountOwner r := by
      rw [step_ok hexec]
      obtain rfl := registerContract_ok ht
      simpa only [update_self] using hpos
    obtain ⟨_, hclaim, _⟩ := htaken r hfall
    rw [hcall] at hclaim
    cases hclaim
  · intro hno a hfall
    obtain e | h := step_cases exec s m
    · rw [e] at hfall
      exact absurd hfall (lt_irrefl _)
    obtain hle | ⟨hcall, hsender, hz, hpaid⟩ | ⟨c, hcall⟩ := exec_owners h a
    · omega
    · exact ⟨⟨_, h⟩, hcall, hsender, hz, hpaid⟩
    · refine absurd ⟨c, a, hcall, ?_, by omega⟩ hno
      simp only [exec, hcall] at h
      exact registerContract_returns.mp ⟨_, h⟩

/-- Owner rewards are only taken by their owner, at every call of a run, exactly
when no contract is registered over unclaimed rewards in it. -/
theorem owner_rewards_iff (calls : List Message) :
    Along exec TakenByOwner postInit calls ↔
      Along exec (fun s m => ¬ RegistersOver s m) postInit calls :=
  along_congr (J := fun _ => True) (fun _ _ _ _ _ _ => trivial) (fun _ _ _ _ => takenByOwner_iff)
    trivial

/-- Address 70 owns the reward address of contract 50 and has earned 180. The
deployer of contract 51, somebody else, registers it for address 70 too. -/
def earnedOwner : List Message :=
  [.stake 1 MINIMUM_STAKE_AMOUNT, ⟨{ sender := 1, coinbase := 1 }, .pushContractOwner 50 60⟩,
    ⟨{ sender := 60, isContract := fun a => a == 50 }, .registerContract 50 70⟩,
    ⟨{ sender := 1, coinbase := 1, value := 400 }, .deposit 1 [50]⟩,
    ⟨{ sender := 1, coinbase := 1 }, .pushContractOwner 51 61⟩]

def registersOverEarned : Message :=
  ⟨{ sender := 61, isContract := fun a => a == 51 }, .registerContract 51 70⟩

theorem earnedOwner_wiped :
    (run exec postInit earnedOwner).register.rewardAmountOwner 70 = 180 ∧
      (step exec (run exec postInit earnedOwner)
        registersOverEarned).register.rewardAmountOwner 70 = 0 ∧
      ¬ Along exec TakenByOwner postInit (earnedOwner ++ [registersOverEarned]) := by
  have hbefore : (run exec postInit earnedOwner).register.rewardAmountOwner 70 = 180 := by
    decide +kernel
  have hafter : (step exec (run exec postInit earnedOwner)
      registersOverEarned).register.rewardAmountOwner 70 = 0 := by
    decide +kernel
  refine ⟨hbefore, hafter, ?_⟩
  intro h
  obtain ⟨_, htaken, _⟩ := along_append.mp h
  obtain ⟨_, hcall, _⟩ := htaken 70 (by rw [hbefore, hafter]; decide)
  cases hcall

end Owners

end Dexit.Staking
