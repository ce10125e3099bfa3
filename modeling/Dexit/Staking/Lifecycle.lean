import Dexit.Staking.Bookkeeping

/-! The life of a stake: what one call may do to the status of a validator and
to the waiting time of a stake, and what follows over whole runs for leaving
jail and for the unstaking lock. -/

namespace Dexit.Staking

open Solidity
open Function

/-! ## One call -/

/-- What a call may do to the status of `a`. -/
inductive StatusChange (s t : State) (m : Message) (a : Address) : Prop
  | same (h : (t.validatorInfo a).status = (s.validatorInfo a).status)
  | staked (call : m.call = .stakeValidator) (sender : m.env.sender = a)
      (was : (s.validatorInfo a).status ≠ .Jailed) (now : (t.validatorInfo a).status = .Staked)
  | unstaked (call : m.call = .unstakeValidator) (sender : m.env.sender = a)
      (was : (s.validatorInfo a).status = .Staked) (now : (t.validatorInfo a).status = .Unstaked)
  | withdrew (x : Nat) (call : m.call = .withdrawValidatorStaking x) (sender : m.env.sender = a)
      (now : (t.validatorInfo a).status = .Staked ∨
        (t.validatorInfo a).status = .NotExist ∧ x = (s.validatorInfo a).amount)
  | closed (x : Nat) (call : m.call = .withdrawDelegatorStaking a x)
      (empty : x = (s.validatorInfo a).coins) (now : (t.validatorInfo a).status = .NotExist)
  | jailed (call : m.call = .punish a) (felony : Felony s a)
      (now : (t.validatorInfo a).status = .Jailed)
  | released (call : m.call = .unJailed) (sender : m.env.sender = a) (may : MayLeaveJail s m.env)
      (now : (t.validatorInfo a).status = .Staked)

section Changes
variable {s t : State} {m : Message} {env : Env} {x : Nat} {v : Address}

theorem withdrawValidatorStaking_status (h : withdrawValidatorStaking s env x = .ok t)
    (a : Address) : StatusChange s t ⟨env, .withdrawValidatorStaking x⟩ a := by
  obtain ⟨may, status, v, C, seats, hstatus, hv, _, rfl⟩ := withdrawValidatorStaking_ok h
  have hle := may.stake
  by_cases ha : a = env.sender
  · subst ha
    refine .withdrew x rfl rfl ?_
    simp only [update_self]
    obtain ⟨hempty, rfl, _⟩ | ⟨_, rfl, _⟩ := hv
    · have hz := hempty.1
      simp only [Validator.withdraw] at hz ⊢
      exact .inr ⟨trivial, by omega⟩
    · obtain ⟨rfl, _⟩ | ⟨rfl, _, hz, _⟩ := statusAfterWithdrawal_ok hstatus
      · exact .inl rfl
      · exact .inr ⟨rfl, by omega⟩
  · refine .same ?_
    simp only [update_of_ne ha]

theorem status_update (info : Address → Validator) (a : Address) (status : Status) (b : Address) :
    (update info a { info a with status := status } b).status =
      if b = a then status else (info b).status := by
  split
  next hb =>
    rw [hb, update_self]
  next hb =>
    rw [update_of_ne hb]

theorem exec_status (h : exec s m = .ok t) (a : Address) : StatusChange s t m a := by
  obtain ⟨env, call⟩ := m
  cases exec_effect h with
  | rewards _ same _ _ => exact .same (same.status a)
  | stakeValidator hcall h =>
    cases hcall
    obtain ⟨_, _, hfree, c, seats, hc, _, rfl⟩ := stakeValidator_ok h
    obtain ⟨v, S, rfl, _⟩ := creditStake_ok hc
    by_cases ha : a = env.sender
    · subst ha
      refine .staked rfl rfl hfree ?_
      simp only [activate_eq, update_self]
    · refine .same ?_
      simp only [activate_eq, update_of_ne ha]
      rfl
  | stakeDelegator v _ h =>
    obtain ⟨_, _, _, _, _, _, seats, _, rfl⟩ := stakeDelegator_ok h
    exact .same (update_field Validator.status (by rfl) a)
  | unstakeValidator hcall h =>
    obtain ⟨was, _, _, u, rfl, rfl⟩ := unstakeValidator_ok h
    have now := status_update s.validatorInfo env.sender .Unstaked a
    split at now
    next ha =>
      exact .unstaked hcall ha.symm (ha ▸ was) now
    · exact .same now
  | unstakeDelegators v _ h =>
    obtain ⟨_, _, rfl⟩ := unstakeDelegators_ok h
    exact .same rfl
  | withdrawValidatorStaking x hcall h =>
    cases hcall
    exact withdrawValidatorStaking_status h a
  | withdrawDelegatorStaking v x hcall h =>
    cases hcall
    obtain ⟨may, D, S, status, C, seats, _, _, hclose, rfl⟩ := withdrawDelegatorStaking_ok h
    obtain ⟨hz, rfl, _⟩ | ⟨_, rfl, _⟩ := hclose
    · by_cases ha : a = v
      · subst ha
        refine .closed x rfl (le_antisymm may.coins (by omega)) ?_
        simp only [update_self]
      · refine .same ?_
        simp only [update_of_ne ha]
    · exact .same (update_field Validator.status (by rfl) a)
  | felony v hcall due P L hf =>
    obtain ⟨u, rfl, _, rfl⟩ := felony_ok hf
    have now := status_update s.validatorInfo v .Jailed a
    split at now
    next ha =>
      subst ha
      exact .jailed hcall due (by simpa only [forfeitIncome_status, credited_status] using now)
    · exact .same (by simpa only [forfeitIncome_status, credited_status] using now)
  | unJailed hcall h =>
    have due := unJailed_returns.mp ⟨t, h⟩
    obtain ⟨_, _, _, _, seats, _, rfl⟩ := unJailed_ok h
    have now := status_update s.validatorInfo env.sender .Staked a
    split at now
    next ha =>
      exact .released hcall ha.symm due now
    · exact .same now
  | minimum value _ hmin =>
    obtain ⟨_, rfl, _⟩ := updateMinimumStakeAmount_ok hmin
    exact .same rfl
  | maximum value _ hmax =>
    obtain ⟨_, _, _, rfl, _⟩ := updateMaxValidators_ok hmax
    exact .same rfl

end Changes

/-! ## Leaving jail -/

/-- Whoever leaves jail in this call pays for it, in time and in money. -/
def LeavesJailPaying (s : State) (m : Message) : Prop :=
  ∀ a, (s.validatorInfo a).status = .Jailed → ((step exec s m).validatorInfo a).status ≠ .Jailed →
      (∃ t, exec s m = .ok t) ∧ m.call = .unJailed ∧ m.env.sender = a ∧ m.env.value = 2000 * ether ∧
        (s.punishRecord a).jailedTime + UNJAILING_PERIOD ≤ m.env.timestamp

/-- A prisoner withdraws its own stake, or the last stake with a prisoner is
withdrawn. -/
def WithdrawsFromJail (s : State) (m : Message) : Prop :=
  (∃ x, m.call = .withdrawValidatorStaking x ∧
    (s.validatorInfo m.env.sender).status = .Jailed ∧ ValidatorMayWithdraw s m.env x) ∨
  ∃ v x, m.call = .withdrawDelegatorStaking v x ∧ (s.validatorInfo v).status = .Jailed ∧
    x = (s.validatorInfo v).coins ∧ DelegatorMayWithdraw s m.env v x

section Jail
variable {s t : State} {m : Message}

theorem withdrawsFromJail_escapes (h : WithdrawsFromJail s m) : ¬ LeavesJailPaying s m := by
  intro hpay
  obtain ⟨env, call⟩ := m
  obtain ⟨x, hcall, hjail, may⟩ | ⟨v, x, hcall, hjail, hcoins, may⟩ := h
  · subst hcall
    obtain ⟨t, ht⟩ := withdrawValidatorStaking_returns.mpr may
    have hstep : step exec s ⟨env, .withdrawValidatorStaking x⟩ = t := step_ok ht
    have hfree : (t.validatorInfo env.sender).status ≠ .Jailed := by
      obtain ⟨_, status, w, C, seats, hstatus, hw, _, rfl⟩ := withdrawValidatorStaking_ok ht
      simp only [update_self]
      obtain ⟨_, rfl, _⟩ | ⟨_, rfl, _⟩ := hw
      · exact nofun
      · obtain ⟨rfl, _⟩ | ⟨rfl, _⟩ := statusAfterWithdrawal_ok hstatus <;> exact nofun
    obtain ⟨_, hcall, _⟩ := hpay env.sender hjail (hstep ▸ hfree)
    cases hcall
  · subst hcall
    obtain ⟨t, ht⟩ := withdrawDelegatorStaking_returns.mpr may
    have hstep : step exec s ⟨env, .withdrawDelegatorStaking v x⟩ = t := step_ok ht
    have hfree : (t.validatorInfo v).status ≠ .Jailed := by
      obtain ⟨_, D, S, status, C, seats, _, _, hclose, rfl⟩ := withdrawDelegatorStaking_ok ht
      simp only [update_self]
      obtain ⟨_, rfl, _⟩ | ⟨hne, _⟩ := hclose
      · exact nofun
      · omega
    obtain ⟨_, hcall, _⟩ := hpay v hjail (hstep ▸ hfree)
    cases hcall

theorem leavesJailPaying_iff : LeavesJailPaying s m ↔ ¬ WithdrawsFromJail s m := by
  constructor
  · exact fun hpay h => withdrawsFromJail_escapes h hpay
  · intro hno a hjail hfree
    obtain e | h := step_cases exec s m
    · rw [e] at hfree
      exact absurd hjail hfree
    cases exec_status h a with
    | same e =>
      rw [e] at hfree
      exact absurd hjail hfree
    | staked _ _ was _ => exact absurd hjail was
    | unstaked _ _ was _ =>
      rw [hjail] at was
      cases was
    | withdrew x hcall hsender _ =>
      refine absurd (.inl ⟨x, hcall, by rw [hsender]; exact hjail, ?_⟩) hno
      simp only [exec, hcall] at h
      exact withdrawValidatorStaking_returns.mp ⟨_, h⟩
    | closed x hcall hempty _ =>
      refine absurd (.inr ⟨a, x, hcall, hjail, hempty, ?_⟩) hno
      simp only [exec, hcall] at h
      exact withdrawDelegatorStaking_returns.mp ⟨_, h⟩
    | jailed _ _ now => exact absurd now hfree
    | released hcall hsender may _ =>
      subst hsender
      exact ⟨⟨_, h⟩, hcall, rfl, may.pays, may.served⟩

/-- Jail is left only by paying, at every call of a run, exactly when nothing is
withdrawn from jail in it. -/
theorem jail_left_paying_iff (calls : List Message) :
    Along exec LeavesJailPaying postInit calls ↔
      Along exec (fun s m => ¬ WithdrawsFromJail s m) postInit calls :=
  along_congr (J := fun _ => True) (fun _ _ _ _ _ _ => trivial) (fun _ _ _ _ => leavesJailPaying_iff)
    trivial

/-- Validator 1 unstakes, is jailed for missed blocks, and withdraws its stake
when the waiting time that began before is over. -/
def drainedPrisoner : List Message :=
  Message.stakes [1, 2, 3, 4] ++ [⟨{ sender := 1, number := 10 }, .unstakeValidator⟩] ++
    List.replicate FELONY_THRESHOLD (.slash 1)

def prisonerWithdraws : Message :=
  ⟨{ sender := 1, number := 10 + STAKING_LOCK_PERIOD },
    .withdrawValidatorStaking MINIMUM_STAKE_AMOUNT⟩

theorem drainedPrisoner_leaves_unpaid :
    ¬ Along exec LeavesJailPaying postInit (drainedPrisoner ++ [prisonerWithdraws]) := by
  intro h
  obtain ⟨_, hpay, _⟩ := along_append.mp h
  have hjail : ((run exec postInit drainedPrisoner).validatorInfo 1).status = .Jailed := by
    decide +kernel
  have hfree : ((step exec (run exec postInit drainedPrisoner) prisonerWithdraws).validatorInfo
      1).status ≠ .Jailed := by
    decide +kernel
  obtain ⟨_, hcall, _⟩ := hpay 1 hjail hfree
  cases hcall

end Jail

/-! ## The unstaking lock -/

/-- A validator only waits for an own stake that it has. -/
def OwnWait (s : State) : Prop :=
  ∀ v, (s.stakingInfo v v).unstakeBlock ≠ 0 → 0 < (s.validatorInfo v).amount

/-- Nobody is staked and waiting to withdraw at the same time. -/
def StakedOrWaiting (s : State) : Prop :=
  ∀ v, (s.validatorInfo v).status = .Staked → (s.stakingInfo v v).unstakeBlock = 0

/-- The validator `v` puts its own stake into unstaking in block `n`. -/
def Unstakes (v : Address) (n : Nat) (s : State) (m : Message) : Prop :=
  m.call = .unstakeValidator ∧ m.env.sender = v ∧ m.env.number = n ∧ ∃ t, exec s m = .ok t

/-- The delegator `d` puts its stake with `v` into unstaking in block `n`. -/
def UnstakesFrom (d v : Address) (n : Nat) (s : State) (m : Message) : Prop :=
  m.call = .unstakeDelegators v ∧ m.env.sender = d ∧ m.env.number = n ∧ ∃ t, exec s m = .ok t

/-- What is paid out of a stake has been in unstaking for the whole lock period. -/
structure LockHolds (calls : List Message) : Prop where
  validators : ∀ before m after x, calls = before ++ m :: after →
    m.call = .withdrawValidatorStaking x → 0 < x →
    (∃ t, exec (run exec postInit before) m = .ok t) → ∃ n, n + STAKING_LOCK_PERIOD ≤ m.env.number ∧
        Since exec (Unstakes m.env.sender n)
          (fun s => (s.validatorInfo m.env.sender).status ≠ .Staked) postInit before
  delegators : ∀ before m after v x, calls = before ++ m :: after →
    m.call = .withdrawDelegatorStaking v x → 0 < x →
    (∃ t, exec (run exec postInit before) m = .ok t) → ∃ n, n + STAKING_LOCK_PERIOD ≤ m.env.number ∧
        Since exec (UnstakesFrom m.env.sender v n)
          (fun s => (s.stakingInfo m.env.sender v).unstakeBlock ≠ 0) postInit before
  staked : Throughout exec StakedOrWaiting postInit calls

/-- A prisoner that unstaked before it was jailed leaves jail and is staked
again, while its waiting time goes on. -/
def LeavesJailWaiting (s : State) (m : Message) : Prop :=
  m.call = .unJailed ∧ MayLeaveJail s m.env ∧
    (s.stakingInfo m.env.sender m.env.sender).unstakeBlock ≠ 0

section Lock
variable {s t : State} {m : Message} {env : Env}

theorem withdrawValidatorStaking_unlocks {x : Nat} (h : withdrawValidatorStaking s env x = .ok t) :
    (t.stakingInfo env.sender env.sender).unstakeBlock = 0 := by
  obtain ⟨_, status, w, C, seats, _, _, _, rfl⟩ := withdrawValidatorStaking_ok h
  simp only [set₂_self]

/-- Staking ends a wait. Where it records nothing there is none to end. -/
theorem stakeValidator_unlocks (hs : Sound s) (hw : OwnWait s) (h : stakeValidator s env = .ok t) :
    (t.stakingInfo env.sender env.sender).unstakeBlock = 0 := by
  obtain ⟨_, _, hfree, c, seats, hc, _, rfl⟩ := stakeValidator_ok h
  obtain ⟨v, S, rfl, hcase⟩ := creditStake_ok hc
  simp only [activate_eq]
  by_contra hub
  obtain ⟨hz, _, _, rfl, _⟩ | ⟨_, _, _, _, rfl, _⟩ | ⟨_, hold, rfl, _⟩ := hcase
  · have hpos : 0 < (s.validatorInfo env.sender).amount := hw env.sender hub
    have hz : (s.validatorInfo env.sender).amount = 0 := hz
    omega
  · exact hub (by simp only [set₂_self])
  · have hpos : 0 < (s.validatorInfo env.sender).amount := hw env.sender hub
    obtain ⟨_, hexist⟩ := hs.registered env.sender hpos
    refine hold ⟨hpos, ?_⟩
    show (s.validatorInfo env.sender).status = .Staked ∨ _
    cases hst : (s.validatorInfo env.sender).status with
    | NotExist => exact absurd hst hexist
    | Staked => exact .inl rfl
    | Unstaked => exact .inr hst
    | Jailed => exact absurd hst hfree

theorem exec_ownWait (hs : Sound s) (hw : OwnWait s) (h : exec s m = .ok t) : OwnWait t := by
  intro v hub
  have kept (hpos : 0 < (s.validatorInfo v).amount) : 0 < (t.validatorInfo v).amount := by
    obtain hle | ⟨x, hcall, rfl, _, _⟩ := exec_amount hs.pending h v
    · omega
    · simp only [exec, hcall] at h
      exact absurd (withdrawValidatorStaking_unlocks h) hub
  cases exec_lock h v v with
  | same e _ => exact kept (hw v (e ▸ hub))
  | cleared e => exact absurd e hub
  | unstaked hcall hsender _ _ _ =>
    subst hsender
    simp only [exec, hcall] at h
    obtain ⟨_, hpos, _⟩ := unstakeValidator_ok h
    exact kept hpos
  | undelegated _ _ hpos _ _ =>
    have hself : (s.stakingInfo v v).amount = 0 := hs.valid.self v
    omega

theorem exec_stakedOrWaiting_iff (hs : Sound s) (hw : OwnWait s) (hst : StakedOrWaiting s)
    (h : exec s m = .ok t) : StakedOrWaiting t ↔ ¬ LeavesJailWaiting s m := by
  -- a waiting time can only be carried over: whoever starts one is not staked
  have carried {v : Address} (hstaked : (t.validatorInfo v).status = .Staked)
      (hub : (t.stakingInfo v v).unstakeBlock ≠ 0) : (s.stakingInfo v v).unstakeBlock ≠ 0 := by
    cases exec_lock h v v with
    | same e _ => exact e ▸ hub
    | cleared e => exact absurd e hub
    | unstaked _ _ _ hun _ =>
      rw [hun] at hstaked
      cases hstaked
    | undelegated _ _ hpos _ _ =>
      have hself : (s.stakingInfo v v).amount = 0 := hs.valid.self v
      omega
  constructor
  · rintro ht ⟨hcall, may, hub⟩
    simp only [exec, hcall] at h
    obtain ⟨_, _, _, _, seats, _, rfl⟩ := unJailed_ok h
    exact hub (ht m.env.sender (by simp only [update_self]))
  · intro hno v hstaked
    by_contra hub
    have hbefore := carried hstaked hub
    cases exec_status h v with
    | same e => exact hbefore (hst v (e ▸ hstaked))
    | staked hcall hsender _ _ =>
      subst hsender
      simp only [exec, hcall] at h
      exact hub (stakeValidator_unlocks hs hw h)
    | unstaked _ _ _ now | closed _ _ _ now | jailed _ _ now =>
      rw [now] at hstaked
      cases hstaked
    | withdrew x hcall hsender _ =>
      subst hsender
      simp only [exec, hcall] at h
      exact hub (withdrawValidatorStaking_unlocks h)
    | released hcall hsender may _ =>
      subst hsender
      exact hno ⟨hcall, may, hbefore⟩

theorem ownWait_postInit : Sound postInit ∧ OwnWait postInit := by
  refine ⟨sound_postInit, ?_⟩
  intro v hub
  exact absurd rfl hub

theorem ownWait_throughout (calls : List Message) :
    Throughout exec (fun s => Sound s ∧ OwnWait s) postInit calls := by
  refine throughout_of_preserved ?_ ?_ (along_true exec postInit calls)
  · rintro s m t ⟨hs, hw⟩ _ h
    exact ⟨exec_sound hs h, exec_ownWait hs hw h⟩
  · exact ownWait_postInit

theorem stakedOrWaiting_iff (calls : List Message) :
    Throughout exec StakedOrWaiting postInit calls ↔
      Along exec (fun s m => ¬ LeavesJailWaiting s m) postInit calls := by
  apply throughout_iff_along (J := fun s => Sound s ∧ OwnWait s) (A := fun _ _ => True)
  · rintro s m t ⟨hs, hw⟩ _ h
    exact ⟨exec_sound hs h, exec_ownWait hs hw h⟩
  · rintro s m t ⟨hs, hw⟩ _ hst h
    exact exec_stakedOrWaiting_iff hs hw hst h
  · rintro s m e _ he ⟨hcall, may, _⟩
    obtain ⟨t, ht⟩ := unJailed_returns.mpr may
    simp only [exec, hcall, ht] at he
    cases he
  · exact ownWait_postInit
  · intro v hst
    cases hst
  · exact along_true exec postInit calls

/-- A stake of a validator that waits was put into unstaking by its owner, who
has not been staked since. -/
theorem validator_wait_since {calls : List Message}
    (hst : Throughout exec StakedOrWaiting postInit calls) {v : Address} {n : Nat} (hn : n ≠ 0)
    (hub : ((run exec postInit calls).stakingInfo v v).unstakeBlock = n) :
    Since exec (Unstakes v n) (fun s => (s.validatorInfo v).status ≠ .Staked) postInit calls := by
  refine since_of_arises (Q := fun s => (s.stakingInfo v v).unstakeBlock = n) ?_ ?_
    ((ownWait_throughout calls).and hst) (Ne.symm hn) hub
  · rintro s m t ⟨⟨hs, _⟩, _⟩ h hq
    cases exec_lock h v v with
    | same e _ => exact .inl (e ▸ hq)
    | cleared e => exact absurd (hq.symm.trans e) hn
    | unstaked hcall hsender _ _ now =>
      exact .inr ⟨hcall, hsender, now.symm.trans hq, t, h⟩
    | undelegated _ _ hpos _ _ =>
      have hself : (s.stakingInfo v v).amount = 0 := hs.valid.self v
      omega
  · rintro s ⟨_, hst⟩ hq hstaked
    exact hn (hq.symm.trans (hst v hstaked))

/-- A delegation that waits was put into unstaking by its owner and has waited
since. -/
theorem delegator_wait_since {calls : List Message} {d v : Address} (hdv : d ≠ v) {n : Nat}
    (hn : n ≠ 0) (hub : ((run exec postInit calls).stakingInfo d v).unstakeBlock = n) :
    Since exec (UnstakesFrom d v n) (fun s => (s.stakingInfo d v).unstakeBlock ≠ 0) postInit
      calls := by
  refine since_of_arises (Q := fun s => (s.stakingInfo d v).unstakeBlock = n) ?_ ?_
    (ownWait_throughout calls) (Ne.symm hn) hub
  · rintro s m t _ h hq
    cases exec_lock h d v with
    | same e _ => exact .inl (e ▸ hq)
    | cleared e => exact absurd (hq.symm.trans e) hn
    | unstaked _ _ hself _ _ => exact absurd hself hdv
    | undelegated hcall hsender _ _ now =>
      exact .inr ⟨hcall, hsender, now.symm.trans hq, t, h⟩
  · intro s _ hq hz
    exact hn (hq.symm.trans hz)

/-- The lock holds in a run exactly when nobody leaves jail with its own stake
in unstaking. -/
theorem lock_holds_iff (calls : List Message) :
    LockHolds calls ↔ Along exec (fun s m => ¬ LeavesJailWaiting s m) postInit calls := by
  rw [← stakedOrWaiting_iff]
  constructor
  · exact fun h => h.staked
  · intro hst
    refine ⟨?_, ?_, hst⟩
    · rintro before m after x rfl hcall _ ⟨t, h⟩
      simp only [exec, hcall] at h
      have may := withdrawValidatorStaking_returns.mp ⟨t, h⟩
      exact ⟨_, may.elapsed, validator_wait_since (throughout_split hst) may.waiting rfl⟩
    · rintro before m after v x rfl hcall hx ⟨t, h⟩
      simp only [exec, hcall] at h
      have may := withdrawDelegatorStaking_returns.mp ⟨t, h⟩
      have hdv : m.env.sender ≠ v := by
        rintro rfl
        have hself := (sound_run before).valid.self m.env.sender
        have hle := may.stake
        simp only [ledger] at hself
        omega
      exact ⟨_, may.elapsed, delegator_wait_since hdv may.waiting rfl⟩

/-- Validator 1 unstakes, is jailed, and is back among the staked validators
when the lock ends: it withdraws at once. -/
def waitingPrisoner : List Message := drainedPrisoner ++ [.leaveJail 1]

set_option maxRecDepth 100000 in
theorem waitingPrisoner_withdraws_staked :
    ((run exec postInit waitingPrisoner).validatorInfo 1).status = .Staked ∧
      ((run exec postInit waitingPrisoner).stakingInfo 1 1).unstakeBlock = 10 ∧
      (run exec postInit (waitingPrisoner ++ [prisonerWithdraws])).payouts =
        (run exec postInit waitingPrisoner).payouts ++ [(1, MINIMUM_STAKE_AMOUNT)] ∧
      ¬ LockHolds (waitingPrisoner ++ [prisonerWithdraws]) := by
  have hst : ((run exec postInit waitingPrisoner).validatorInfo 1).status = .Staked := by
    decide +kernel
  have hub : ((run exec postInit waitingPrisoner).stakingInfo 1 1).unstakeBlock = 10 := by
    decide +kernel
  refine ⟨hst, hub, by decide +kernel, ?_⟩
  intro h
  have hnone := throughout_last (throughout_split h.staked) 1 hst
  cases hnone

end Lock

end Dexit.Staking
