import Dexit.Staking.Calls
import Dexit.Staking.Ledger

/-! The contract keeps the stake ledger: every successful call is one ledger
operation, so what the operations keep holds in every state of every run. -/

namespace Dexit.Staking

open Solidity Ledger
open Function

def ledger (s : State) : Ledger Address where
  amount a := (s.validatorInfo a).amount
  coins a := (s.validatorInfo a).coins
  delegators a := (s.validatorInfo a).delegators
  delegated d v := (s.stakingInfo d v).amount
  index d v := (s.stakingInfo d v).index
  total := s.totalDXTStake

/-- Neither branch of `stakeValidator` records a stake of `a`. -/
def Uncredited (s : State) (a : Address) : Prop :=
  ¬ ((s.validatorInfo a).amount = 0 ∧ (s.validatorInfo a).status = .NotExist) ∧
    ¬ (0 < (s.validatorInfo a).amount ∧
      ((s.validatorInfo a).status = .Staked ∨ (s.validatorInfo a).status = .Unstaked))

instance (s : State) (a : Address) : Decidable (Uncredited s a) :=
  inferInstanceAs (Decidable (_ ∧ _))

def ledgerOp (s : State) (m : Message) : Ledger.Op Address :=
  match m.call with
  | .stakeValidator =>
    if Uncredited s m.env.sender then .forfeit m.env.value else .bond m.env.sender m.env.value
  | .stakeDelegator v => .delegate m.env.sender v m.env.value
  | .withdrawValidatorStaking x => .unbond m.env.sender x
  | .withdrawDelegatorStaking v x => .undelegate m.env.sender v x
  | _ => .skip

/-- Only a delegator with a stake is waiting to withdraw one. The entry of a
validator with itself also holds the validator's own waiting time. -/
def Pending (s : State) : Prop :=
  ∀ d v, d ≠ v → (s.stakingInfo d v).unstakeBlock ≠ 0 → 0 < (s.stakingInfo d v).amount

/-- What a call may do to the waiting time of the stake of `d` with `v`. -/
inductive LockChange (s t : State) (m : Message) (d v : Address) : Prop
  | same (h : (t.stakingInfo d v).unstakeBlock = (s.stakingInfo d v).unstakeBlock)
      (kept : (s.stakingInfo d v).amount ≤ (t.stakingInfo d v).amount)
  | cleared (h : (t.stakingInfo d v).unstakeBlock = 0)
  | unstaked (call : m.call = .unstakeValidator) (sender : m.env.sender = d) (self : d = v)
      (status : (t.validatorInfo v).status = .Unstaked)
      (now : (t.stakingInfo d v).unstakeBlock = m.env.number)
  | undelegated (call : m.call = .unstakeDelegators v) (sender : m.env.sender = d)
      (stake : 0 < (s.stakingInfo d v).amount)
      (kept : (t.stakingInfo d v).amount = (s.stakingInfo d v).amount)
      (now : (t.stakingInfo d v).unstakeBlock = m.env.number)

/-- Who has an own stake is on the list of active validators. -/
def Registered (s : State) : Prop :=
  ∀ a, 0 < (s.validatorInfo a).amount →
    a ∈ s.currentValidators ∧ (s.validatorInfo a).status ≠ .NotExist

section Refinement
variable {s t : State} {env : Env} {v : Address} {x : Nat} {m : Message}

theorem SameStakes.ledger_eq (h : SameStakes s t) : ledger t = ledger s := by
  ext1
  · funext a; exact h.amount a
  · funext a; exact h.coins a
  · funext a; exact h.delegators a
  · funext d v; exact h.delegated d v
  · funext d v; exact h.index d v
  · exact h.total

theorem stakeValidator_ledger (h : stakeValidator s env = .ok t) :
    ledger t = (ledger s).apply (ledgerOp s ⟨env, .stakeValidator⟩) ∧
      (ledger s).Allowed (ledgerOp s ⟨env, .stakeValidator⟩) := by
  obtain ⟨_, hpos, _, c, seats, hc, _, rfl⟩ := stakeValidator_ok h
  obtain ⟨v, S, rfl, hcase⟩ := creditStake_ok hc
  simp only [ledgerOp]
  obtain ⟨ha, hst, _, rfl, rfl⟩ | ⟨ha, hst, _, _, rfl, rfl⟩ | ⟨h1, h2, rfl, rfl⟩ := hcase
  · rw [if_neg (fun hu => hu.1 ⟨ha, hst⟩)]
    refine ⟨?_, hpos⟩
    simp only [activate_eq, ledger, apply, map_update, State.receive, update_idem,
      update_self, update_eq_self]
  · rw [if_neg (fun hu => hu.2 ⟨ha, hst⟩)]
    refine ⟨?_, hpos⟩
    simp only [activate_eq, ledger, apply, map_update, map_set₂, State.receive,
      update_idem, update_self, update_eq_self, set₂_eq_self]
  · rw [if_pos ⟨h1, h2⟩]
    refine ⟨?_, hpos⟩
    simp only [activate_eq, ledger, apply, map_update, State.receive, update_eq_self]

/-- Taking a delegator off the list moves the slot of another and nothing else. -/
theorem Delisted.field {α : Type} {a : Address} {D : List Address}
    {S : Address → Address → Delegator} (h : Delisted s a v x D S) (f : Delegator → α)
    (hf : ∀ y i, f { y with index := i } = f y) (d w : Address) :
    f (S d w) = f ((debitDelegation s a v x).stakingInfo d w) := by
  obtain ⟨_, _, rfl⟩ | ⟨_, _, _, moved, _, rfl⟩ := h
  · rfl
  · split
    · rfl
    · exact set₂_field f (hf _ _) d w

/-- The delegator list and the index table after a withdrawal. -/
theorem Delisted.ledger_eq {a : Address} {D : List Address}
    {S : Address → Address → Delegator} (h : Delisted s a v x D S)
    (hx : x ≤ (s.stakingInfo a v).amount) :
    (ledger s).apply (.undelegate a v x) =
      { ledger s with
        coins := update (ledger s).coins v ((ledger s).coins v - x)
        delegators := update (ledger s).delegators v D
        delegated := fun e w => (S e w).amount
        index := fun e w => (S e w).index
        total := (ledger s).total - x } ∧
      ((s.stakingInfo a v).amount = x →
        (s.stakingInfo a v).index < (s.validatorInfo v).delegators.length) := by
  have hamt := h.field Delegator.amount (fun _ _ => rfl)
  obtain ⟨hne, rfl, rfl⟩ | ⟨hz, hlt, rfl, moved, hmoved, rfl⟩ := h
  · have hpart : (s.stakingInfo a v).amount ≠ x := by omega
    refine ⟨?_, fun e => absurd e hpart⟩
    rw [apply_undelegate_part hpart]
    simp only [ledger, debitDelegation, map_set₂, set₂_eq_self, update_eq_self]
  · have hall : (s.stakingInfo a v).amount = x := by omega
    refine ⟨?_, fun _ => hlt⟩
    rw [apply_undelegate_all hall]
    ext1
    · rfl
    · rfl
    · rfl
    · funext e w
      exact (congrFun (congrFun (map_set₂ Delegator.amount s.stakingInfo a v _) e) w).symm.trans
        (hamt e w).symm
    · have hidx : (fun e w => ((debitDelegation s a v x).stakingInfo e w).index) =
          (ledger s).index := map_set₂_same _ _ _ _ _ rfl
      funext e w
      simp only [reindex]
      by_cases hlast : (s.stakingInfo a v).index = (s.validatorInfo v).delegators.length - 1
      · rw [if_pos hlast, if_neg (fun h => h.1 hlast)]
        exact (congrFun (congrFun hidx e) w).symm
      rw [if_neg hlast, set₂_apply]
      by_cases hew : e = moved ∧ w = v
      · rw [if_pos hew, if_pos ⟨hlast, hew.2, by rw [hew.1]; exact hmoved⟩]
        rfl
      rw [if_neg hew, if_neg]
      · exact (congrFun (congrFun hidx e) w).symm
      · rintro ⟨_, hw, he⟩
        have : some moved = some e := hmoved.symm.trans he
        exact hew ⟨(Option.some_inj.mp this).symm, hw⟩
    · rfl

theorem withdrawDelegatorStaking_ledger (hp : Pending s)
    (h : withdrawDelegatorStaking s env v x = .ok t) :
    ledger t = (ledger s).apply (.undelegate env.sender v x) ∧
      (ledger s).Allowed (.undelegate env.sender v x) := by
  obtain ⟨may, D, S, status, C, seats, hDS, _, _, rfl⟩ := withdrawDelegatorStaking_ok h
  obtain ⟨happly, hlt⟩ := hDS.ledger_eq may.stake
  refine ⟨?_, ?_, may.stake, may.coins, may.total, hlt⟩
  · rw [happly]
    simp only [ledger, map_update, update_eq_self]
  · by_cases hself : env.sender = v
    · exact .inl hself
    · exact .inr (hp env.sender v hself may.waiting)

theorem unstakeValidator_ledger (h : unstakeValidator s env = .ok t) : ledger t = ledger s := by
  obtain ⟨_, _, _, u, rfl, rfl⟩ := unstakeValidator_ok h
  simp only [ledger, map_update, map_set₂, update_eq_self, set₂_eq_self]

theorem unstakeDelegators_ledger (h : unstakeDelegators s env v = .ok t) : ledger t = ledger s := by
  obtain ⟨_, _, rfl⟩ := unstakeDelegators_ok h
  simp only [ledger, map_set₂, set₂_eq_self]

theorem felony_ledger {income : Nat} (h : felony s env v income = .ok t) : ledger t = ledger s := by
  obtain ⟨u, rfl, _, rfl⟩ := felony_ok h
  simp only [ledger, forfeitIncome, credited, map_update, update_self, update_eq_self]

theorem unJailed_ledger (h : unJailed s env = .ok t) : ledger t = ledger s := by
  obtain ⟨_, _, _, _, seats, _, rfl⟩ := unJailed_ok h
  simp only [ledger, State.receive, map_update, update_eq_self]

theorem ledgerOp_quiet (h : m.call.movesStake = false) : ledgerOp s m = .skip := by
  obtain ⟨env, call⟩ := m
  cases call <;> first | rfl | cases h

/-- **Refinement.** A successful call is the ledger operation it stands for. -/
theorem exec_ledger (hp : Pending s) (h : exec s m = .ok t) :
    ledger t = (ledger s).apply (ledgerOp s m) ∧ (ledger s).Allowed (ledgerOp s m) := by
  -- the ledger does not see a call that only moves rewards, statuses or seats
  have skips (hop : ledgerOp s m = .skip) (hl : ledger t = ledger s) :
      ledger t = (ledger s).apply (ledgerOp s m) ∧ (ledger s).Allowed (ledgerOp s m) := by
    rw [hop]
    exact ⟨hl, trivial⟩
  obtain ⟨env, call⟩ := m
  cases exec_effect h with
  | rewards quiet same _ _ => exact skips (ledgerOp_quiet quiet) same.ledger_eq
  | stakeValidator hcall h =>
    cases hcall
    exact stakeValidator_ledger h
  | stakeDelegator v hcall h =>
    cases hcall
    obtain ⟨_, hself, hpos, _, _, _, seats, _, rfl⟩ := stakeDelegator_ok h
    refine ⟨?_, fun e => hself e.symm, hpos⟩
    by_cases hz : (s.stakingInfo env.sender v).amount = 0 <;>
      simp only [ledgerOp, ledger, apply, map_update, map_set₂, Delegator.topUp, hz, if_true,
        if_false, update_eq_self, set₂_eq_self]
  | withdrawValidatorStaking x hcall h =>
    cases hcall
    obtain ⟨may, status, v, C, seats, _, hv, _, rfl⟩ := withdrawValidatorStaking_ok h
    refine ⟨?_, may.stake, may.coins, may.total⟩
    obtain ⟨_, rfl, rfl⟩ | ⟨_, rfl, rfl⟩ := hv <;>
      simp only [Validator.withdraw, ledgerOp, ledger, apply, map_update, map_set₂,
        update_eq_self, set₂_eq_self]
  | withdrawDelegatorStaking v x hcall h =>
    cases hcall
    exact withdrawDelegatorStaking_ledger hp h
  | unstakeValidator hcall h =>
    cases hcall
    exact skips rfl (unstakeValidator_ledger h)
  | unstakeDelegators v hcall h =>
    cases hcall
    exact skips rfl (unstakeDelegators_ledger h)
  | felony v hcall _ P L h =>
    cases hcall
    exact skips rfl (felony_ledger (s := { s with punishRecord := P, punishValidator := L }) h)
  | unJailed hcall h =>
    cases hcall
    exact skips rfl (unJailed_ledger h)
  | minimum value hcall hmin =>
    cases hcall
    obtain ⟨_, rfl, _⟩ := updateMinimumStakeAmount_ok hmin
    exact skips rfl rfl
  | maximum value hcall hmax =>
    cases hcall
    obtain ⟨_, _, _, rfl, _⟩ := updateMaxValidators_ok hmax
    exact skips rfl rfl

/-- The total drifts from the coins by what a call forfeits. -/
theorem exec_drift (hp : Pending s) (h : exec s m = .ok t) :
    t.totalDXTStake + ∑ v, (s.validatorInfo v).coins =
      s.totalDXTStake + ∑ v, (t.validatorInfo v).coins + (ledgerOp s m).forfeited := by
  obtain ⟨hl, ha⟩ := exec_ledger hp h
  have hdrift := apply_total ha
  rwa [← hl] at hdrift

/-- An own stake only falls when its validator withdraws from it. -/
theorem exec_amount (hp : Pending s) (h : exec s m = .ok t) (a : Address) :
    (s.validatorInfo a).amount ≤ (t.validatorInfo a).amount ∨
      ∃ x, m.call = .withdrawValidatorStaking x ∧ m.env.sender = a ∧
        x ≤ (s.validatorInfo a).amount ∧
        (t.validatorInfo a).amount = (s.validatorInfo a).amount - x := by
  obtain ⟨hl, hallowed⟩ := exec_ledger hp h
  have hamt : (t.validatorInfo a).amount = ((ledger s).apply (ledgerOp s m)).amount a :=
    congrFun (congrArg amount hl) a
  obtain ⟨env, call⟩ := m
  rw [hamt]
  cases call with
  | withdrawValidatorStaking x =>
    by_cases ha : env.sender = a
    · subst ha
      refine .inr ⟨x, rfl, rfl, hallowed.1, ?_⟩
      simp only [ledgerOp, apply, update_self]
      rfl
    · left
      simp only [ledgerOp, apply, update_of_ne (Ne.symm ha)]
      exact le_rfl
  | stakeValidator =>
    left
    simp only [ledgerOp]
    split
    · exact le_rfl
    by_cases ha : a = env.sender
    · subst ha
      simp only [apply, update_self]
      exact Nat.le_add_right _ _
    · simp only [apply, update_of_ne ha]
      exact le_rfl
  | _ => exact .inl le_rfl

end Refinement

/-! ## Who is waiting and who is listed -/

section Upkeep
variable {s t : State} {m : Message} {env : Env} {a v : Address} {x : Nat}

/-- Only the entry of `a` with `w` was written. -/
theorem LockChange.of_set₂ {w : Address} {x : Delegator}
    (hS : t.stakingInfo = set₂ s.stakingInfo a w x) {d : Address}
    (hx : d = a → v = w → LockChange s t m d v) : LockChange s t m d v := by
  by_cases hdv : d = a ∧ v = w
  · exact hx hdv.1 hdv.2
  · have hsame : t.stakingInfo d v = s.stakingInfo d v := by rw [hS, set₂_apply, if_neg hdv]
    exact .same (by rw [hsame]) (by rw [hsame])

theorem exec_lock (h : exec s m = .ok t) (d v : Address) : LockChange s t m d v := by
  obtain ⟨env, call⟩ := m
  cases exec_effect h with
  | rewards _ same _ _ => exact .same (same.unstakeBlock d v) (same.delegated d v).ge
  | stakeValidator _ h =>
    obtain ⟨_, _, _, c, seats, hc, _, rfl⟩ := stakeValidator_ok h
    obtain ⟨w, S, rfl, hcase⟩ := creditStake_ok hc
    simp only [activate_eq]
    obtain ⟨_, _, _, rfl, _⟩ | ⟨_, _, _, _, rfl, _⟩ | ⟨_, _, rfl, _⟩ := hcase
    · exact .same rfl le_rfl
    · refine .of_set₂ rfl ?_
      rintro rfl rfl
      refine .cleared ?_
      simp only [set₂_self]
    · exact .same rfl le_rfl
  | stakeDelegator w _ h =>
    obtain ⟨_, _, _, _, _, _, seats, _, rfl⟩ := stakeDelegator_ok h
    refine .of_set₂ rfl ?_
    rintro rfl rfl
    by_cases hz : (s.stakingInfo env.sender v).amount = 0
    · refine .same ?_ (by rw [hz]; exact Nat.zero_le _)
      simp only [set₂_self, Delegator.topUp, if_pos hz]
    · refine .cleared ?_
      simp only [set₂_self, Delegator.topUp, if_neg hz]
  | unstakeValidator hcall h =>
    obtain ⟨_, _, _, u, rfl, rfl⟩ := unstakeValidator_ok h
    refine .of_set₂ rfl ?_
    rintro rfl rfl
    refine .unstaked hcall rfl rfl ?_ ?_
    · simp only [update_self]
    · simp only [set₂_self]
  | unstakeDelegators w hcall h =>
    obtain ⟨_, hpos, rfl⟩ := unstakeDelegators_ok h
    refine .of_set₂ rfl ?_
    rintro rfl rfl
    refine .undelegated hcall rfl hpos ?_ ?_
    · simp only [set₂_self]
    · simp only [set₂_self]
  | withdrawValidatorStaking x _ h =>
    obtain ⟨_, status, w, C, seats, _, _, _, rfl⟩ := withdrawValidatorStaking_ok h
    refine .of_set₂ rfl ?_
    rintro rfl rfl
    refine .cleared ?_
    simp only [set₂_self]
  | withdrawDelegatorStaking w x hcall h =>
    cases hcall
    obtain ⟨_, D, S, status, C, seats, hDS, _, _, rfl⟩ := withdrawDelegatorStaking_ok h
    have hub := hDS.field Delegator.unstakeBlock (fun _ _ => rfl) d v
    have hamt := hDS.field Delegator.amount (fun _ _ => rfl) d v
    simp only [debitDelegation, set₂_apply] at hub hamt
    split at hub
    next => exact .cleared hub
    next hne => exact .same hub (by rw [if_neg hne] at hamt; exact hamt.ge)
  | felony w _ _ P L hf =>
    obtain ⟨u, rfl, _, rfl⟩ := felony_ok hf
    exact .same rfl le_rfl
  | unJailed _ h =>
    obtain ⟨_, _, _, _, seats, _, rfl⟩ := unJailed_ok h
    exact .same rfl le_rfl
  | minimum value _ hmin =>
    obtain ⟨_, rfl, _⟩ := updateMinimumStakeAmount_ok hmin
    exact .same rfl le_rfl
  | maximum value _ hmax =>
    obtain ⟨_, _, _, rfl, _⟩ := updateMaxValidators_ok hmax
    exact .same rfl le_rfl

/-- Whoever waits already did, with a stake that has not shrunk since, or has just
begun to. -/
theorem exec_pending (hp : Pending s) (h : exec s m = .ok t) : Pending t := by
  intro d v hne hub
  cases exec_lock h d v with
  | same e kept => exact (hp d v hne (e ▸ hub)).trans_le kept
  | cleared e => exact absurd e hub
  | unstaked _ _ hself _ _ => exact absurd hself hne
  | undelegated _ _ hpos kept _ => exact kept ▸ hpos

/-- Only the record of `a` was written, and nobody else left the list. -/
theorem Registered.of_update (hr : Registered s) {w : Validator}
    (hv : t.validatorInfo = update s.validatorInfo a w)
    (hcur : ∀ b, b ≠ a → b ∈ s.currentValidators → b ∈ t.currentValidators)
    (ha : 0 < w.amount → a ∈ t.currentValidators ∧ w.status ≠ .NotExist) : Registered t := by
  intro b hb
  rw [hv] at hb ⊢
  by_cases hba : b = a
  · subst hba
    rw [update_self] at hb ⊢
    exact ha hb
  · rw [update_of_ne hba] at hb ⊢
    obtain ⟨hmem, hst⟩ := hr b hb
    exact ⟨hcur b hba hmem, hst⟩

theorem SameStakes.registered (same : SameStakes s t) (hr : Registered s)
    (hcur : ∀ b ∈ s.currentValidators, 0 < (s.validatorInfo b).amount → b ∈ t.currentValidators) :
    Registered t := by
  intro b hb
  rw [same.amount] at hb
  obtain ⟨hmem, hst⟩ := hr b hb
  rw [same.status]
  exact ⟨hcur b hmem hb, hst⟩

theorem withdrawValidatorStaking_registered (hr : Registered s)
    (h : withdrawValidatorStaking s env x = .ok t) : Registered t := by
  obtain ⟨_, status, v, C, seats, hstatus, hv, _, rfl⟩ := withdrawValidatorStaking_ok h
  obtain ⟨hempty, rfl, rfl⟩ | ⟨_, rfl, rfl⟩ := hv
  · refine hr.of_update rfl (fun b hb hmem => mem_removeFromCurrent_of_ne hmem hb) ?_
    intro hpos
    have hz := hempty.1
    simp only [Validator.withdraw] at hpos hz
    omega
  · refine hr.of_update rfl (fun b _ hmem => hmem) ?_
    intro hpos
    simp only [Validator.withdraw] at hpos ⊢
    refine ⟨(hr env.sender (by omega)).1, ?_⟩
    obtain ⟨rfl, _⟩ | ⟨_, _, hz, _⟩ := statusAfterWithdrawal_ok hstatus
    · simp
    · omega

theorem felony_registered (hr : Registered s) {income : Nat}
    (h : felony s env v income = .ok t) : Registered t := by
  have hamt (b : Address) : (t.validatorInfo b).amount = (s.validatorInfo b).amount :=
    congrFun (congrArg amount (felony_ledger h)) b
  obtain ⟨u, rfl, _, rfl⟩ := felony_ok h
  intro b hb
  rw [hamt] at hb
  obtain ⟨hmem, hst⟩ := hr b hb
  refine ⟨hmem, ?_⟩
  simp only [forfeitIncome_status, credited_status]
  by_cases hbv : b = v
  · subst hbv
    simp only [update_self]
    exact nofun
  · simp only [update_of_ne hbv]
    exact hst

end Upkeep

/-! ## Every run -/

/-- What every call keeps, whoever makes it. -/
structure Sound (s : State) : Prop where
  valid : (ledger s).Valid
  pending : Pending s
  registered : Registered s

section Runs
variable {s t : State}

theorem sound_postInit : Sound postInit := by
  refine ⟨?_, ?_, ?_⟩
  · exact empty_valid Address
  · intro d v _ h
    exact absurd rfl h
  · intro a h
    exact absurd h (lt_irrefl 0)

theorem Sound.coins_eq (h : Sound s) (v : Address) : (s.validatorInfo v).coins =
    (s.validatorInfo v).amount + ∑ d, (s.stakingInfo d v).amount :=
  h.valid.backed v

/-- The own stake of a validator is part of its coins. -/
theorem Sound.amount_le_coins (h : Sound s) (v : Address) :
    (s.validatorInfo v).amount ≤ (s.validatorInfo v).coins := by
  have hb := h.coins_eq v
  omega

theorem exec_registered {m : Message} (hs : Sound s) (hvalid : (ledger t).Valid)
    (h : exec s m = .ok t) : Registered t := by
  have hr := hs.registered
  cases exec_effect h with
  | rewards _ same _ kept => exact same.registered hr kept
  | stakeValidator _ h =>
    obtain ⟨_, _, _, c, seats, hc, _, rfl⟩ := stakeValidator_ok h
    obtain ⟨v, S, rfl, _⟩ := creditStake_ok hc
    simp only [activate_eq, update_self, update_idem]
    refine hr.of_update rfl (fun b _ hb => mem_enrolled.mpr (.inl hb)) ?_
    intro _
    exact ⟨mem_enrolled.mpr (.inr rfl), by simp⟩
  | stakeDelegator v _ h =>
    obtain ⟨_, _, _, _, _, _, seats, _, rfl⟩ := stakeDelegator_ok h
    exact hr.of_update rfl (fun b _ hmem => hmem) (hr v)
  | withdrawValidatorStaking x _ h => exact withdrawValidatorStaking_registered hr h
  | withdrawDelegatorStaking v x _ h =>
    have hb : (t.validatorInfo v).coins = (t.validatorInfo v).amount + _ := hvalid.backed v
    have hl := (withdrawDelegatorStaking_ledger hs.pending h).1
    have ha : (t.validatorInfo v).amount = (s.validatorInfo v).amount :=
      congrFun (congrArg amount hl) v
    obtain ⟨_, D, S, status, C, seats, _, _, hclose, rfl⟩ := withdrawDelegatorStaking_ok h
    simp only [update_self] at ha hb
    obtain ⟨hz, rfl, rfl⟩ | ⟨_, rfl, rfl⟩ := hclose
    · refine hr.of_update rfl (fun b hb hmem => mem_removeFromCurrent_of_ne hmem hb) ?_
      intro hpos
      simp only at hpos
      omega
    · exact hr.of_update rfl (fun b _ hmem => hmem) (hr v)
  | unstakeValidator _ h =>
    obtain ⟨_, hpos, _, u, rfl, rfl⟩ := unstakeValidator_ok h
    exact hr.of_update rfl (fun b _ hmem => hmem) (fun _ => ⟨(hr m.env.sender hpos).1, by simp⟩)
  | unstakeDelegators v _ h =>
    obtain ⟨_, _, rfl⟩ := unstakeDelegators_ok h
    exact hr
  | felony v _ _ P L h => exact felony_registered (s := { s with
      punishRecord := P, punishValidator := L }) hr h
  | unJailed _ h =>
    obtain ⟨_, _, _, _, seats, _, rfl⟩ := unJailed_ok h
    exact hr.of_update rfl (fun b _ hmem => hmem) (fun hpos => ⟨(hr m.env.sender hpos).1, by simp⟩)
  | minimum value _ h =>
    obtain ⟨_, rfl, _⟩ := updateMinimumStakeAmount_ok h
    exact hr
  | maximum value _ h =>
    obtain ⟨_, _, _, rfl, _⟩ := updateMaxValidators_ok h
    exact hr

theorem exec_sound {m : Message} (hs : Sound s) (h : exec s m = .ok t) : Sound t := by
  obtain ⟨hl, hallowed⟩ := exec_ledger hs.pending h
  have hvalid : (ledger t).Valid := by
    rw [hl]
    exact apply_valid hs.valid hallowed
  exact ⟨hvalid, exec_pending hs.pending h, exec_registered hs hvalid h⟩

/-- Every state of every run is sound. -/
theorem sound_run (calls : List Message) : Sound (run exec postInit calls) :=
  run_preserves (fun _ _ _ hs h => exec_sound hs h) sound_postInit calls

/-- The ledger as a machine that never reverts. -/
def Ledger.exec (L : Ledger Address) (op : Op Address) : Result (Ledger Address) := .ok (L.apply op)

/-- The contract refines the ledger: what a run books, allowed operations book. -/
theorem run_refines_ledger (calls : List Message) :
    ∃ ops, Along Ledger.exec Ledger.Allowed (.empty Address) ops ∧
      ledger (run exec postInit calls) = run Ledger.exec (.empty Address) ops := by
  induction calls using List.reverseRecOn with
  | nil => exact ⟨[], trivial, rfl⟩
  | append_singleton calls m ih =>
    obtain ⟨ops, hops, hl⟩ := ih
    rw [run_append, run_single]
    obtain hsame | hok := step_cases exec (run exec postInit calls) m
    · exact ⟨ops, hops, by rw [hsame, hl]⟩
    · obtain ⟨hstep, hallowed⟩ := exec_ledger (sound_run calls).pending hok
      rw [hl] at hstep hallowed
      exact ⟨ops ++ [_], along_append.mpr ⟨hops, hallowed, trivial⟩, by rw [hstep, run_append]; rfl⟩

end Runs

end Dexit.Staking
