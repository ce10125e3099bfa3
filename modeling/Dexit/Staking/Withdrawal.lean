import Dexit.Staking.Accounts
import Dexit.Staking.ActiveSet
import Dexit.Staking.Solvency

/-! A delegator that has waited out the lock gets its stake back: the runs in
which the withdrawal cannot fail. -/

namespace Dexit.Staking

open Solidity List

/-- The call by which the sender takes all of its stake with `v`. -/
def withdrawAll (s : State) (env : Env) (v : Address) : Message :=
  ⟨env, .withdrawDelegatorStaking v (s.stakingInfo env.sender v).amount⟩

/-- Every delegator whose stake has been in unstaking for the lock period can
withdraw it, and is paid exactly that. The sender takes native transfers. -/
def Withdrawable (s : State) : Prop :=
  ∀ (env : Env) (v : Address), env.value = 0 → env.number < wordSize →
    env.accepts env.sender = true → 0 < (s.stakingInfo env.sender v).amount →
    (s.stakingInfo env.sender v).unstakeBlock ≠ 0 →
    (s.stakingInfo env.sender v).unstakeBlock + STAKING_LOCK_PERIOD ≤ env.number →
      ∃ t, exec s (withdrawAll s env v) = .ok t ∧
        t.payouts = s.payouts ++ [(env.sender, (s.stakingInfo env.sender v).amount)] ∧
        t.balance + (s.stakingInfo env.sender v).amount = s.balance

/-- Where there is a delegation somebody is seated, and its owner is an account. -/
def Delegated (s : State) : Prop :=
  ∀ d v, 0 < (s.stakingInfo d v).amount → d ≠ 0 ∧ s.highestValidators ≠ []

section
variable {s t : State} {m : Message}

/-- The top list never becomes empty again. -/
theorem exec_seated (h : exec s m = .ok t) (hne : s.highestValidators ≠ []) :
    t.highestValidators ≠ [] := by
  cases exec_seats h with
  | reseat _ _ hseats => exact hseats.ne_nil (by decide) hne
  | again _ _ hseats =>
    rw [hseats]
    exact append_ne_nil_of_left_ne_nil hne _
  | resize _ _ _ _ hleave _ hseats => exact hseats.ne_nil (by decide) (hleave.ne_nil (by decide) hne)

/-- Once one is elected, no run leaves the chain without a validator. -/
theorem seated_for_good {before : List Message}
    (h : (run exec postInit before).highestValidators ≠ []) (after : List Message) :
    (run exec postInit (before ++ after)).highestValidators ≠ [] := by
  rw [run_append]
  exact run_preserves (P := (·.highestValidators ≠ [])) (fun _ _ _ hs ht => exec_seated ht hs) h after

theorem seated_alone : (run exec postInit ([.stake 1 MINIMUM_STAKE_AMOUNT] ++
    [⟨{ sender := 1 }, .unstakeValidator⟩])).highestValidators ≠ [] :=
  seated_for_good (by decide +kernel) _

/-- A delegation only grows when its owner delegates. -/
theorem exec_delegated_amount (hp : Pending s) (h : exec s m = .ok t) (d v : Address) :
    (t.stakingInfo d v).amount ≤ (s.stakingInfo d v).amount ∨
      m.call = .stakeDelegator v ∧ m.env.sender = d := by
  obtain ⟨hl, _⟩ := exec_ledger hp h
  have hamt : (t.stakingInfo d v).amount = ((ledger s).apply (ledgerOp s m)).delegated d v :=
    congrFun (congrFun (congrArg Ledger.delegated hl) d) v
  have hsame : (ledger s).delegated d v = (s.stakingInfo d v).amount := rfl
  obtain ⟨env, call⟩ := m
  rw [hamt]
  cases call with
  | stakeDelegator w =>
    by_cases hdv : d = env.sender ∧ v = w
    · exact Or.inr ⟨by rw [hdv.2], hdv.1.symm⟩
    · left
      simp only [ledgerOp, Ledger.apply, set₂_apply, if_neg hdv]
      exact hsame.le
  | withdrawDelegatorStaking w x =>
    left
    simp only [ledgerOp]
    rw [Ledger.undelegate_delegated, set₂_apply]
    split
    next hdv =>
      rw [hdv.1, hdv.2]
      exact Nat.sub_le _ _
    · exact hsame.le
  | stakeValidator =>
    left
    simp only [ledgerOp]
    split <;> exact hsame.le
  | _ => exact Or.inl hsame.le

theorem exec_delegated (hp : Pending s) (hd : Delegated s) (h : exec s m = .ok t) :
    Delegated t := by
  intro d v hpos
  obtain hle | ⟨hcall, rfl⟩ := exec_delegated_amount hp h d v
  · obtain ⟨hzero, hne⟩ := hd d v (by omega)
    exact ⟨hzero, exec_seated h hne⟩
  · simp only [exec, hcall] at h
    obtain ⟨hzero, _, _, _, _, _, seats, hseats, rfl⟩ := stakeDelegator_ok h
    exact ⟨hzero, seat_ne_nil hseats⟩

/-- What a delegator's withdrawal rests on. -/
structure Honours (s : State) : Prop where
  sound : Sound s
  covers : TotalCovers s
  indexed : DelegatorsIndexed s
  solvent : Solvent s
  delegated : Delegated s
  guard : s.reentrancyStatus ≠ ENTERED

theorem Honours.withdrawable (h : Honours s) : Withdrawable s := by
  intro env v hpay hword haccepts hstake hwait hover
  obtain ⟨hzero, hseats⟩ := h.delegated env.sender v hstake
  have hcoins := h.sound.delegated_le_coins env.sender v
  have htotal := h.covers.coins_le v
  have hlisted := ((h.indexed v).2.1 env.sender).mpr hstake
  have hslot := (h.indexed v).2.2 env.sender hlisted
  obtain ⟨hlt, _⟩ := List.getElem?_eq_some_iff.mp hslot
  have hbalance : (s.stakingInfo env.sender v).amount ≤ s.balance := by
    have hone := le_sum (fun a => (s.validatorInfo a).coins) v
    have hsol := h.solvent
    unfold Solvent liabilities at hsol
    omega
  have may : DelegatorMayWithdraw s env v (s.stakingInfo env.sender v).amount :=
    ⟨hpay, hzero, h.guard, le_rfl, hwait, by omega, hover, hcoins, fun _ => hlt, hseats,
      hbalance, haccepts, by omega⟩
  obtain ⟨t, ht⟩ := withdrawDelegatorStaking_returns.mpr may
  refine ⟨t, ht, ?_⟩
  obtain ⟨_, D, S, status, C, seats, _, _, _, rfl⟩ := withdrawDelegatorStaking_ok ht
  exact ⟨rfl, Nat.sub_add_cancel hbalance⟩

theorem honours_postInit : Honours postInit where
  sound := sound_postInit
  covers := totalCovers_run []
  indexed := (delegatorsIndexed_iff_complete sound_postInit).mpr (Ledger.empty_complete Address)
  solvent := blank_postInit.solvent
  delegated := by
    intro d v hpos
    exact absurd hpos (lt_irrefl 0)
  guard := by decide

/-- No delegator's stake is stuck in any state of a run in which no validator
withdraws from itself and no punishment credits more than it takes. -/
theorem delegations_withdrawable {calls : List Message}
    (hself : Along exec (fun s m => ¬ WithdrawsFromItself s m) postInit calls)
    (hmint : Along exec (fun s m => ¬ Mints s m) postInit calls) :
    Throughout exec Withdrawable postInit calls := by
  have all : Throughout exec Honours postInit calls := by
    refine throughout_of_preserved ?_ honours_postInit (hself.and hmint)
    rintro s m t hh ⟨hself, hmint⟩ h
    exact
      { sound := exec_sound hh.sound h
        covers := exec_totalCovers hh.sound hh.covers h
        indexed := (exec_indexed_iff hh.sound hh.indexed h).mpr hself
        solvent := exec_solvent hh.sound hmint hh.solvent h
        delegated := exec_delegated hh.sound.pending hh.delegated h
        guard := (exec_setup h).1.guard_down hh.guard }
  exact all.mono fun s hs => hs.withdrawable

/-- Delegator 9 delegates to validator 1 and unstakes. -/
def waitingDelegator : List Message :=
  [.stake 1 MINIMUM_STAKE_AMOUNT, ⟨{ sender := 9, value := 7 }, .stakeDelegator 1⟩,
    ⟨{ sender := 9, number := 10 }, .unstakeDelegators 1⟩]

theorem waitingDelegator_withdraws :
    Along exec (fun s m => ¬ WithdrawsFromItself s m) postInit waitingDelegator ∧
      Along exec (fun s m => ¬ Mints s m) postInit waitingDelegator ∧
      ((run exec postInit waitingDelegator).stakingInfo 9 1).unstakeBlock = 10 ∧
      Throughout exec Withdrawable postInit waitingDelegator := by
  have hself : Along exec (fun s m => ¬ WithdrawsFromItself s m) postInit waitingDelegator := by
    refine ⟨?_, ?_, ?_, trivial⟩ <;>
      · intro h
        cases h.1
  have hmint : Along exec (fun s m => ¬ Mints s m) postInit waitingDelegator := by
    refine ⟨?_, ?_, ?_, trivial⟩ <;>
      · rintro ⟨v, hv, _⟩
        cases hv
  exact ⟨hself, hmint, by decide +kernel, delegations_withdrawable hself hmint⟩

/-- After validator 1 has withdrawn from itself its only delegator is no longer
listed. The delegator unstakes and waits out the lock. -/
def stuckDelegator : List Message :=
  selfWithdrawal ++ [⟨{ sender := 9, number := 500000 }, .unstakeDelegators 1⟩]

theorem stuckDelegator_not_withdrawable : ¬ Withdrawable (run exec postInit stuckDelegator) := by
  intro h
  have hstake : ((run exec postInit stuckDelegator).stakingInfo 9 1).amount = 7 := by
    decide +kernel
  have hwait : ((run exec postInit stuckDelegator).stakingInfo 9 1).unstakeBlock = 500000 := by
    decide +kernel
  have hfails : (exec (run exec postInit stuckDelegator)
      ⟨{ sender := 9, number := 500000 + STAKING_LOCK_PERIOD },
        .withdrawDelegatorStaking 1 7⟩).isOk = false := by
    decide +kernel
  obtain ⟨t, ht, _⟩ := h { sender := 9, number := 500000 + STAKING_LOCK_PERIOD } 1 rfl
    (by decide) rfl (by rw [hstake]; decide) (by rw [hwait]; decide) (by rw [hwait])
  simp only [withdrawAll, hstake] at ht
  rw [ht] at hfails
  cases hfails

end

end Dexit.Staking
