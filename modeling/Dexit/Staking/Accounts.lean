import Dexit.Staking.Bookkeeping

/-! Promises of the books: the coins of a validator are the stakes with it, in
every run; the delegator lists agree with the delegations and the total with
the coins, each in exactly the runs that its theorem names. -/

namespace Dexit.Staking

open Solidity Outcome

section
variable {s t : State} {m : Message}

/-! ## Coins -/

/-- A stake that is not recorded still raises the total, so the total covers
the coins. -/
def TotalCovers (s : State) : Prop :=
  ∑ v, (s.validatorInfo v).coins ≤ s.totalDXTStake

theorem exec_totalCovers (hs : Sound s) (hc : TotalCovers s) (h : exec s m = .ok t) :
    TotalCovers t := by
  have hdrift := exec_drift hs.pending h
  unfold TotalCovers at hc ⊢
  omega

theorem totalCovers_run (calls : List Message) : TotalCovers (run exec postInit calls) := by
  have hboth : Sound (run exec postInit calls) ∧ TotalCovers (run exec postInit calls) := by
    refine run_preserves (P := fun s => Sound s ∧ TotalCovers s) ?_ ?_ calls
    · rintro s m t ⟨hs, hc⟩ h
      exact ⟨exec_sound hs h, exec_totalCovers hs hc h⟩
    · exact ⟨sound_postInit, by simp [TotalCovers, postInit]⟩
  exact hboth.2

theorem TotalCovers.coins_le (h : TotalCovers s) (v : Address) :
    (s.validatorInfo v).coins ≤ s.totalDXTStake :=
  le_trans (le_sum (fun a => (s.validatorInfo a).coins) v) h

/-- A delegation is part of the coins of its validator. -/
theorem Sound.delegated_le_coins (hs : Sound s) (d v : Address) :
    (s.stakingInfo d v).amount ≤ (s.validatorInfo v).coins := by
  have hb := hs.coins_eq v
  have hd := le_sum (fun d => (s.stakingInfo d v).amount) d
  omega

/-- In every state of every run the coins of a validator are its own stake and
its delegations; so no withdrawal underflows where it takes the amount from the
coins or from the total. The one subtraction left is that of the last slot of
an empty delegator list. -/
theorem coins_backed (calls : List Message) :
    let s := run exec postInit calls
    (∀ v, (s.validatorInfo v).coins =
      (s.validatorInfo v).amount + ∑ d, (s.stakingInfo d v).amount) ∧
    (∀ v x, x ≤ (s.validatorInfo v).amount →
      sub (s.validatorInfo v).coins x = .ok ((s.validatorInfo v).coins - x) ∧
        sub s.totalDXTStake x = .ok (s.totalDXTStake - x)) ∧
    (∀ d v x, x ≤ (s.stakingInfo d v).amount →
      sub (s.validatorInfo v).coins x = .ok ((s.validatorInfo v).coins - x) ∧
        sub s.totalDXTStake x = .ok (s.totalDXTStake - x)) ∧
    (∀ env x, withdrawValidatorStaking s env x ≠ .error .underflow) ∧
    ∀ env v x, withdrawDelegatorStaking s env v x = .error .underflow →
      (s.stakingInfo env.sender v).amount = x ∧ (s.validatorInfo v).delegators = [] := by
  intro s
  have hs : Sound s := sound_run calls
  have hc : TotalCovers s := totalCovers_run calls
  have covered (v : Address) {x : Nat} (hx : x ≤ (s.validatorInfo v).coins) :
      sub (s.validatorInfo v).coins x = .ok ((s.validatorInfo v).coins - x) ∧
        sub s.totalDXTStake x = .ok (s.totalDXTStake - x) := by
    have htotal := hc.coins_le v
    exact ⟨sub_ok.mpr ⟨hx, rfl⟩, sub_ok.mpr ⟨by omega, rfl⟩⟩
  refine ⟨hs.coins_eq, ?_, ?_, ?_, ?_⟩
  · intro v x hx
    exact covered v (hx.trans (hs.amount_le_coins v))
  · intro d v x hx
    exact covered v (hx.trans (hs.delegated_le_coins d v))
  · intro env x h
    obtain ⟨hx, hlt⟩ := withdrawValidatorStaking_underflow h
    have hcoins := hs.amount_le_coins env.sender
    have htotal := hc.coins_le env.sender
    omega
  · intro env v x h
    obtain ⟨hx, hlt⟩ := withdrawDelegatorStaking_underflow h
    have hcoins := hs.delegated_le_coins env.sender v
    have htotal := hc.coins_le v
    obtain hlt | hlt | hlast := hlt
    · omega
    · omega
    · exact hlast

/-! ## Delegator lists -/

/-- The list of delegators of every validator holds each address with a stake
once, at the slot the delegation remembers. -/
def DelegatorsIndexed (s : State) : Prop :=
  ∀ v, (s.validatorInfo v).delegators.Nodup ∧
    (∀ d, d ∈ (s.validatorInfo v).delegators ↔ 0 < (s.stakingInfo d v).amount) ∧
    ∀ d ∈ (s.validatorInfo v).delegators,
      (s.validatorInfo v).delegators[(s.stakingInfo d v).index]? = some d

/-- A validator withdraws an empty delegation from itself when the waiting time
of its own stake, which is kept there, is over. It has never been listed: its
index is that of some delegator. -/
def WithdrawsFromItself (s : State) (m : Message) : Prop :=
  let stakeInfo := s.stakingInfo m.env.sender m.env.sender
  m.call = .withdrawDelegatorStaking m.env.sender 0 ∧ m.env.value = 0 ∧ m.env.sender ≠ 0 ∧
    s.reentrancyStatus ≠ ENTERED ∧ stakeInfo.unstakeBlock ≠ 0 ∧
    stakeInfo.unstakeBlock + STAKING_LOCK_PERIOD < wordSize ∧
    stakeInfo.unstakeBlock + STAKING_LOCK_PERIOD ≤ m.env.number ∧
    stakeInfo.index < (s.validatorInfo m.env.sender).delegators.length ∧
    s.highestValidators ≠ [] ∧ m.env.accepts m.env.sender = true

theorem delegatorsIndexed_iff_complete (hs : Sound s) :
    DelegatorsIndexed s ↔ (ledger s).Complete := by
  constructor
  · intro h v d hd
    exact ((h v).2.1 d).mpr hd
  · intro h v
    refine ⟨hs.valid.nodup v, fun d => ⟨hs.valid.listed v d, h v d⟩, ?_⟩
    intro d hd
    obtain ⟨i, hi, hid⟩ := List.getElem_of_mem hd
    have hat := List.getElem?_eq_some_iff.mpr ⟨hi, hid⟩
    have hpos : (s.stakingInfo d v).index = i := hs.valid.position v d i hat
    rw [hpos]
    exact hat

/-- These are the withdrawals from oneself that go through. -/
theorem withdrawsFromItself_iff (hs : Sound s) : WithdrawsFromItself s m ↔
    (∃ x, m.call = .withdrawDelegatorStaking m.env.sender x) ∧ ∃ t, exec s m = .ok t := by
  obtain ⟨env, call⟩ := m
  have hself : (s.stakingInfo env.sender env.sender).amount = 0 := hs.valid.self env.sender
  constructor
  · rintro ⟨hcall, hpay, hzero, hguard, hub, hword, hnum, hlt, hne, hacc⟩
    simp only at hcall
    subst hcall
    exact ⟨⟨0, rfl⟩, withdrawDelegatorStaking_returns.mpr ⟨hpay, hzero, hguard, Nat.zero_le _, hub,
      hword, hnum, Nat.zero_le _, fun _ => hlt, hne, Nat.zero_le _, hacc, Nat.zero_le _⟩⟩
  · rintro ⟨⟨x, hcall⟩, h⟩
    simp only at hcall
    subst hcall
    have hw := withdrawDelegatorStaking_returns.mp h
    have hle : x ≤ (s.stakingInfo env.sender env.sender).amount := hw.stake
    obtain rfl : x = 0 := by omega
    exact ⟨rfl, hw.pays, hw.sender, hw.guard, hw.waiting, hw.word, hw.elapsed,
      hw.listed (by omega), hw.seats, hw.accepts⟩

/-- One call keeps the lists complete exactly when it is not a validator's
withdrawal from itself. -/
theorem exec_indexed_iff (hs : Sound s) (hi : DelegatorsIndexed s) (h : exec s m = .ok t) :
    DelegatorsIndexed t ↔ ¬ WithdrawsFromItself s m := by
  obtain ⟨hl, hallowed⟩ := exec_ledger hs.pending h
  have hc := (delegatorsIndexed_iff_complete hs).mp hi
  rw [delegatorsIndexed_iff_complete (exec_sound hs h), hl,
    Ledger.apply_complete_iff hs.valid hc hallowed, withdrawsFromItself_iff hs]
  constructor
  · rintro hno ⟨⟨x, hx⟩, _⟩
    apply hno m.env.sender x
    simp only [ledgerOp, hx]
  · intro hno v x hop
    refine hno ⟨⟨x, ?_⟩, t, h⟩
    obtain ⟨env, call⟩ := m
    cases call with
    | withdrawDelegatorStaking w y =>
      simp only [ledgerOp, Ledger.Op.undelegate.injEq] at hop
      obtain ⟨h1, h2, h3⟩ := hop
      simp only [h1, h2, h3]
    | stakeValidator =>
      simp only [ledgerOp] at hop
      split at hop <;> cases hop
    | _ => cases hop

/-- The delegator lists are right in every state of a run exactly when no
validator withdraws from itself in it. -/
theorem delegators_indexed_iff (calls : List Message) :
    Throughout exec DelegatorsIndexed postInit calls ↔
      Along exec (fun s m => ¬ WithdrawsFromItself s m) postInit calls := by
  have start : DelegatorsIndexed postInit :=
    (delegatorsIndexed_iff_complete sound_postInit).mpr (Ledger.empty_complete Address)
  apply throughout_iff_along (J := Sound) (A := fun _ _ => True)
  · intro s m t hs _ h
    exact exec_sound hs h
  · intro s m t hs _ hi h
    exact exec_indexed_iff hs hi h
  · intro s m e hs he hself
    obtain ⟨_, t, ht⟩ := (withdrawsFromItself_iff hs).mp hself
    rw [he] at ht
    cases ht
  · exact sound_postInit
  · exact start
  · exact along_true exec postInit calls

/-- Validator 1 has one delegator, unstakes, waits, and withdraws nothing from
itself as if it were a delegator. -/
def selfWithdrawal : List Message :=
  Message.stakes [1, 2, 3, 4] ++
    [⟨{ sender := 9, value := 7 }, .stakeDelegator 1⟩,
    ⟨{ sender := 1, number := 10 }, .unstakeValidator⟩,
    ⟨{ sender := 1, number := 10 + STAKING_LOCK_PERIOD }, .withdrawDelegatorStaking 1 0⟩]

theorem selfWithdrawal_drops_delegator :
    ¬ DelegatorsIndexed (run exec postInit selfWithdrawal) := by
  intro h
  have hstake : 0 < ((run exec postInit selfWithdrawal).stakingInfo 9 1).amount := by
    decide +kernel
  have hlist : 9 ∉ ((run exec postInit selfWithdrawal).validatorInfo 1).delegators := by
    decide +kernel
  exact hlist (((h 1).2.1 9).mpr hstake)

/-! ## The total -/

def TotalBacked (s : State) : Prop :=
  s.totalDXTStake = ∑ v, (s.validatorInfo v).coins

/-- A stake that goes through raises the stake its sender can withdraw by what
it paid. -/
def Credits (s : State) (m : Message) : Prop :=
  ∀ t, exec s m = .ok t → (m.call = .stakeValidator →
      (t.validatorInfo m.env.sender).amount = (s.validatorInfo m.env.sender).amount + m.env.value) ∧
    ∀ v, m.call = .stakeDelegator v →
      (t.stakingInfo m.env.sender v).amount = (s.stakingInfo m.env.sender v).amount + m.env.value

/-- A validator that is not jailed pays a stake that neither branch records,
and there is a seat to take or to compare with. -/
def StakesUncredited (s : State) (m : Message) : Prop :=
  m.call = .stakeValidator ∧ Uncredited s m.env.sender ∧ m.env.sender ≠ 0 ∧ 0 < m.env.value ∧
    (s.validatorInfo m.env.sender).status ≠ .Jailed ∧
    (s.highestValidators ≠ [] ∨ 0 < s.maxValidators) ∧
    s.totalDXTStake + m.env.value < wordSize

instance (s : State) (m : Message) : Decidable (StakesUncredited s m) :=
  inferInstanceAs (Decidable (_ ∧ _))

/-- These are the stakes without a record that go through. -/
theorem stakesUncredited_iff : StakesUncredited s m ↔
    m.call = .stakeValidator ∧ Uncredited s m.env.sender ∧ ∃ t, exec s m = .ok t := by
  obtain ⟨env, call⟩ := m
  by_cases hcall : call = .stakeValidator
  · subst hcall
    refine and_congr_right fun _ => and_congr_right fun hu => ?_
    have hcredit : creditStake (s.receive env) env.sender env.value = .ok (s.receive env) :=
      (if_neg hu.1).trans ((if_neg hu.2).trans rfl)
    have hseat : (∃ seats, seat (s.receive env) env.sender true = .ok seats) ↔
      s.highestValidators ≠ [] ∨ 0 < s.maxValidators := seat_returns
    have htotal (seats : List Address) : (activate { s.receive env with
        highestValidators := seats } env.sender).totalDXTStake = s.totalDXTStake := by
      rw [activate_eq]
      rfl
    have hmay (hjail : (s.validatorInfo env.sender).status ≠ .Jailed) :
        decide (((s.receive env).validatorInfo env.sender).status ≠ .Jailed) = true :=
      decide_eq_true hjail
    simp only [exec, stakeValidator, nonZeroAddress, bind_ok, require_ok, add_ok, pure_ok]
    constructor
    · rintro ⟨hzero, hpos, hjail, hroom, hword⟩
      obtain ⟨seats, hseats⟩ := hseat.mpr hroom
      refine ⟨_, (), hzero, (), hpos, (), hjail, _, hcredit, seats, ?_, _, ⟨?_, rfl⟩, rfl⟩
      · rw [hmay hjail]
        exact hseats
      · simp only [htotal]
        exact hword
    · rintro ⟨t, _, hzero, _, hpos, _, hjail, c, hc, seats, hseats, _, ⟨hword, rfl⟩, _⟩
      obtain rfl : s.receive env = c := by
        rw [hcredit] at hc
        cases hc
        rfl
      rw [hmay hjail] at hseats
      simp only [htotal] at hword
      exact ⟨hzero, hpos, hjail, hseat.mp ⟨seats, hseats⟩, hword⟩
  · constructor <;> exact fun h => absurd h.1 hcall

theorem forfeited_eq_zero_iff (h : exec s m = .ok t) (ha : (ledger s).Allowed (ledgerOp s m)) :
    (ledgerOp s m).forfeited = 0 ↔ ¬ StakesUncredited s m := by
  rw [stakesUncredited_iff]
  obtain ⟨env, call⟩ := m
  cases call with
  | stakeValidator =>
    by_cases hu : Uncredited s env.sender
    · simp only [ledgerOp, if_pos hu, Ledger.Op.forfeited, Ledger.Allowed] at ha ⊢
      constructor
      · intro hz
        omega
      · intro hno
        exact absurd ⟨trivial, hu, t, h⟩ hno
    · simp only [ledgerOp, if_neg hu, Ledger.Op.forfeited, true_iff]
      exact fun hs => hu hs.2.1
  | _ =>
    simp only [ledgerOp, Ledger.Op.forfeited, true_iff]
    exact fun hs => absurd hs.1 (by simp)

theorem exec_total_iff (hs : Sound s) (hb : TotalBacked s) (h : exec s m = .ok t) :
    TotalBacked t ↔ ¬ StakesUncredited s m := by
  have hdrift := exec_drift hs.pending h
  rw [← forfeited_eq_zero_iff h (exec_ledger hs.pending h).2]
  unfold TotalBacked at hb ⊢
  omega

theorem credits_iff (hs : Sound s) : Credits s m ↔ ¬ StakesUncredited s m := by
  rw [stakesUncredited_iff]
  obtain ⟨env, call⟩ := m
  constructor
  · rintro hc ⟨hcall, hu, t, ht⟩
    obtain ⟨hl, ha⟩ := exec_ledger hs.pending ht
    subst hcall
    have hrise := (hc t ht).1 rfl
    simp only [ledgerOp, if_pos hu, Ledger.Allowed] at hl ha
    have hsame : (t.validatorInfo env.sender).amount = (s.validatorInfo env.sender).amount :=
      congrFun (congrArg Ledger.amount hl) env.sender
    simp only at hrise
    omega
  · intro hno t ht
    obtain ⟨hl, _⟩ := exec_ledger hs.pending ht
    constructor
    · intro hcall
      subst hcall
      have hu : ¬ Uncredited s env.sender := fun hu => hno ⟨rfl, hu, t, ht⟩
      simp only [ledgerOp, if_neg hu] at hl
      have hamt := congrFun (congrArg Ledger.amount hl) env.sender
      simpa only [ledger, Ledger.apply, Function.update_self] using hamt
    · intro v hcall
      subst hcall
      have hamt := congrFun (congrFun (congrArg Ledger.delegated hl) env.sender) v
      simpa only [ledger, ledgerOp, Ledger.apply, set₂_self] using hamt

/-- The total is the sum of the coins and every stake is credited, in every
state and at every call of a run, exactly when no validator stakes uncredited
in it. -/
theorem stakes_accounted_iff (calls : List Message) :
    Throughout exec TotalBacked postInit calls ∧ Along exec Credits postInit calls ↔
      Along exec (fun s m => ¬ StakesUncredited s m) postInit calls := by
  have total : Throughout exec TotalBacked postInit calls ↔
      Along exec (fun s m => ¬ StakesUncredited s m) postInit calls := by
    apply throughout_iff_along (J := Sound) (A := fun _ _ => True)
    · intro s m t hs _ h
      exact exec_sound hs h
    · intro s m t hs _ hb h
      exact exec_total_iff hs hb h
    · intro s m e _ he hno
      obtain ⟨_, _, t, ht⟩ := stakesUncredited_iff.mp hno
      rw [he] at ht
      cases ht
    · exact sound_postInit
    · simp [TotalBacked, postInit]
    · exact along_true exec postInit calls
  have credit : Along exec Credits postInit calls ↔
      Along exec (fun s m => ¬ StakesUncredited s m) postInit calls :=
    along_congr (fun s m _ t hs h => exec_sound hs h) (fun s m _ hs => credits_iff hs) sound_postInit
  rw [total, credit, and_self]

theorem uncredited_stake_lost {calls : List Message}
    (h : StakesUncredited (run exec postInit calls) m) :
    ¬ Throughout exec TotalBacked postInit (calls ++ [m]) ∧
      ¬ Along exec Credits postInit (calls ++ [m]) := by
  have hsound := sound_run calls
  obtain ⟨_, _, t, ht⟩ := stakesUncredited_iff.mp h
  constructor
  · intro hT
    obtain ⟨hb, hrest⟩ := throughout_append hT
    have hend := throughout_last hrest
    rw [run_single, step_ok ht] at hend
    exact (exec_total_iff hsound hb ht).mp hend h
  · intro hA
    obtain ⟨_, hc, _⟩ := along_append.mp hA
    exact (credits_iff hsound).mp hc h

/-- Address 7 has never staked; it is jailed for missed blocks and pays its way
out, which makes it `Staked` with no stake. -/
def jailedStranger : List Message :=
  Message.stakes [1, 2] ++ List.replicate FELONY_THRESHOLD (.slash 7) ++ [.leaveJail 7]

/-- Its five units raise the total and nobody's stake. -/
theorem jailedStranger_stake_lost :
    ¬ Throughout exec TotalBacked postInit (jailedStranger ++ [.stake 7 5]) ∧
      ¬ Along exec Credits postInit (jailedStranger ++ [.stake 7 5]) :=
  uncredited_stake_lost (by decide +kernel)

end

end Dexit.Staking
