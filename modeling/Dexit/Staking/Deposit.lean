import Dexit.Staking.ActiveSet
import Dexit.Staking.Solvency

/-! Block rewards can be deposited. Nothing here can overflow before the coins
ever paid into the contract do, so what is left are the two divisions and the
three subtractions of the split. -/

namespace Dexit.Staking

open Solidity Outcome List

/-- Everything earned so far, claimed or not, with what owners can claim. -/
def earned (s : State) : ℕ := rewardsBy Validator.totalIncome Delegator.totalIncome s

/-- Every counter a deposit adds to is within `bound`. -/
structure Within (bound : ℕ) (s : State) : Prop where
  total : s.totalDXTStake ≤ bound
  coins : ∑ v, (s.validatorInfo v).coins ≤ s.totalDXTStake
  earned : earned s ≤ bound
  unclaimed : ∀ d v, (s.stakingInfo d v).income ≤ (s.stakingInfo d v).totalIncome

/-- What the calls of a run were sent. -/
def paid (calls : List Message) : ℕ := (calls.map fun m => m.env.value).sum

section Bounds
variable {s t : State} {env : Env} {m : Message} {v : Address}

theorem SameRewards.earned_eq (h : SameRewards s t) : earned t = earned s := by
  have hval : ∑ a, (t.validatorInfo a).totalIncome = ∑ a, (s.validatorInfo a).totalIncome :=
    Finset.sum_congr rfl fun a _ => congrArg Prod.snd (h.validators a)
  have hdel : ∑ d, ∑ v, (t.stakingInfo d v).totalIncome =
      ∑ d, ∑ v, (s.stakingInfo d v).totalIncome :=
    Finset.sum_congr rfl fun d _ => Finset.sum_congr rfl fun v _ =>
      congrArg Prod.snd (h.delegators d v)
  unfold earned rewardsBy ownerRewards
  rw [hval, hdel, h.owners]

theorem SameRewards.unclaimed (h : SameRewards s t)
    (hs : ∀ d v, (s.stakingInfo d v).income ≤ (s.stakingInfo d v).totalIncome) (d v : Address) :
    (t.stakingInfo d v).income ≤ (t.stakingInfo d v).totalIncome := by
  have hd := h.delegators d v
  have h1 : (t.stakingInfo d v).income = (s.stakingInfo d v).income := congrArg Prod.fst hd
  have h2 : (t.stakingInfo d v).totalIncome = (s.stakingInfo d v).totalIncome :=
    congrArg Prod.snd hd
  rw [h1, h2]
  exact hs d v

/-- Earned rewards of validators, delegators and owners move apart. -/
theorem earned_le_of (hV : ∀ a, (t.validatorInfo a).totalIncome = (s.validatorInfo a).totalIncome)
    (hD : ∀ d v, (t.stakingInfo d v).totalIncome = (s.stakingInfo d v).totalIncome)
    (hO : ownerRewards t ≤ ownerRewards s) : earned t ≤ earned s := by
  unfold earned rewardsBy
  simp only [hV, hD]
  omega

theorem punish_totalIncome (h : punish s env v = .ok t) (a : Address) :
    (t.validatorInfo a).totalIncome = (s.validatorInfo a).totalIncome ∧
      t.stakingInfo = s.stakingInfo ∧ t.register = s.register := by
  have hforfeit (average : ℕ) (seats : List Address) (info : Address → Validator) :
      (forfeitIncome v (credited average seats info) a).totalIncome = (info a).totalIncome := by
    refine (update_field Validator.totalIncome ?_ a).trans ?_ <;> rfl
  obtain ⟨P, L, _, ⟨_, rfl⟩ | ⟨_, hf⟩ | ⟨_, hm⟩⟩ := punish_ok h
  · exact ⟨rfl, rfl, rfl⟩
  · obtain ⟨u, rfl, _, rfl⟩ := felony_ok hf
    refine ⟨?_, rfl, rfl⟩
    rw [hforfeit]
    exact update_field Validator.totalIncome (by rfl) a
  · obtain ⟨_, rfl⟩ := misdemeanor_ok hm
    exact ⟨hforfeit _ _ _, rfl, rfl⟩

theorem exec_total_le (hp : Pending s) (h : exec s m = .ok t) :
    t.totalDXTStake ≤ s.totalDXTStake + m.env.value := by
  obtain ⟨hl, _⟩ := exec_ledger hp h
  have htotal : t.totalDXTStake = ((ledger s).apply (ledgerOp s m)).total :=
    congrArg Ledger.total hl
  have hs : (ledger s).total = s.totalDXTStake := rfl
  rw [htotal]
  obtain ⟨env, call⟩ := m
  cases call with
  | stakeValidator =>
    simp only [ledgerOp]
    split <;> simp only [Ledger.apply] <;> omega
  | _ =>
    simp only [ledgerOp, Ledger.apply]
    omega

theorem Validator.totalIncome_earn (x : Validator) (r : ℕ) :
    (x.earn r).totalIncome = x.totalIncome + r := rfl

theorem Delegator.totalIncome_earn (x : Delegator) (r : ℕ) :
    (x.earn r).totalIncome = x.totalIncome + r := rfl

/-- Rewards count as unclaimed and in all alike. -/
theorem creditDelegators_unclaimed {pot whole : ℕ} {xs : List Address}
    {S S' : Address → Address → Delegator} (h : creditDelegators pot v whole xs S = .ok S')
    (hS : ∀ d w, (S d w).income ≤ (S d w).totalIncome) (d w : Address) :
    (S' d w).income ≤ (S' d w).totalIncome := by
  induction xs generalizing S with
  | nil =>
    simp only [creditDelegators, pure_ok] at h
    rw [← h]
    exact hS d w
  | cons x rest ih =>
    apply ih (creditDelegators_cons h)
    intro e u
    rw [set₂_apply]
    split
    · have := hS x v
      rw [Delegator.income_earn, Delegator.totalIncome_earn]
      omega
    · exact hS e u

theorem exec_earned (hs : Sound s) (h : exec s m = .ok t)
    (hS : ∀ d w, (s.stakingInfo d w).income ≤ (s.stakingInfo d w).totalIncome) :
    earned t ≤ earned s + m.env.value ∧
      ∀ d w, (t.stakingInfo d w).income ≤ (t.stakingInfo d w).totalIncome := by
  have same (hsame : SameRewards s t) : earned t ≤ earned s + m.env.value ∧
      ∀ d w, (t.stakingInfo d w).income ≤ (t.stakingInfo d w).totalIncome := by
    have := hsame.earned_eq
    exact ⟨by omega, hsame.unclaimed hS⟩
  obtain ⟨env, call⟩ := m
  cases call with
  | deposit v contracts =>
    obtain ⟨hfunds, hbal⟩ :=
      deposit_funds Validator.totalIncome_earn Delegator.totalIncome_earn hs h
    rw [← earned, ← earned] at hfunds
    obtain ⟨_, _, _, _, _, _, _, rfl, _, _, _, _, _, hstaking⟩ := deposit_eq h
    exact ⟨by omega, creditDelegators_unclaimed hstaking hS⟩
  | claimValidatorReward =>
    obtain ⟨p, R, C, _, rfl⟩ := claimValidatorReward_ok h
    refine ⟨Nat.le_add_right_of_le (earned_le_of ?_ (fun _ _ => rfl) rfl.le), hS⟩
    intro a
    exact update_field Validator.totalIncome (by rfl) a
  | claimDelegatorReward v =>
    obtain ⟨p, R, rfl⟩ := claimDelegatorReward_ok h
    refine ⟨Nat.le_add_right_of_le (earned_le_of (fun _ => rfl) ?_ rfl.le), ?_⟩
    · intro d w
      exact set₂_field Delegator.totalIncome (by rfl) d w
    · intro d w
      simp only [set₂_apply]
      split
      · exact Nat.zero_le _
      · exact hS d w
  | claimOwnerReward =>
    obtain ⟨R, rfl⟩ := claimOwnerReward_ok h
    refine ⟨Nat.le_add_right_of_le (earned_le_of (fun _ => rfl) (fun _ _ => rfl) ?_), hS⟩
    exact Nat.le.intro (sum_update_zero id s.register.rewardAmountOwner env.sender 0 rfl)
  | registerContract c r =>
    obtain rfl := registerContract_ok h
    refine ⟨Nat.le_add_right_of_le (earned_le_of (fun _ => rfl) (fun _ _ => rfl) ?_), hS⟩
    exact Nat.le.intro (sum_update_zero id s.register.rewardAmountOwner r 0 rfl)
  | punish v =>
    have hkeep := punish_totalIncome h
    obtain ⟨_, hstaking, hregister⟩ := hkeep 0
    have hown : ownerRewards t ≤ ownerRewards s := by
      unfold ownerRewards
      rw [hregister]
    rw [hstaking]
    exact ⟨Nat.le_add_right_of_le (earned_le_of (fun a => (hkeep a).1) (fun d w => by rw [hstaking])
      hown), hS⟩
  | _ => exact same (exec_secured h rfl).1

theorem exec_within {bound : ℕ} (hs : Sound s) (hw : Within bound s) (h : exec s m = .ok t) :
    Within (bound + m.env.value) t := by
  obtain ⟨hearned, hunclaimed⟩ := exec_earned hs h hw.unclaimed
  have hdrift := exec_drift hs.pending h
  have htotal := exec_total_le hs.pending h
  have := hw.total
  have := hw.coins
  have := hw.earned
  exact ⟨by omega, by omega, by omega, hunclaimed⟩

/-- Nothing a run counts exceeds what its calls were sent. -/
theorem within_run (calls : List Message) {bound : ℕ} (hs : Sound s) (hw : Within bound s) :
    Within (bound + paid calls) (run exec s calls) := by
  induction calls generalizing s bound with
  | nil => exact hw
  | cons m rest ih =>
    have hsum : bound + paid (m :: rest) = bound + m.env.value + paid rest := by
      simp only [paid, map_cons, sum_cons]
      omega
    rw [hsum]
    have hrun : run exec s (m :: rest) = run exec (step exec s m) rest := rfl
    rw [hrun]
    obtain e | e := step_cases exec s m
    · rw [e]
      exact ih hs ⟨by have := hw.total; omega, hw.coins, by have := hw.earned; omega, hw.unclaimed⟩
    · exact ih (exec_sound hs e) (exec_within hs hw e)

/-- Nobody stakes from the zero address. -/
theorem exec_zero_amount (hs : Sound s) (hz : (s.validatorInfo 0).amount = 0)
    (h : exec s m = .ok t) : (t.validatorInfo 0).amount = 0 := by
  obtain ⟨hl, _⟩ := exec_ledger hs.pending h
  have hamt : (t.validatorInfo 0).amount = ((ledger s).apply (ledgerOp s m)).amount 0 :=
    congrFun (congrArg Ledger.amount hl) 0
  have hzero : (ledger s).amount 0 = 0 := hz
  rw [hamt]
  obtain ⟨env, call⟩ := m
  cases call with
  | stakeValidator =>
    have hne := (stakeValidator_ok h).1
    simp only [ledgerOp]
    split <;> simp only [Ledger.apply, Function.update_of_ne hne.symm, hzero]
  | withdrawValidatorStaking x =>
    by_cases hne : (0 : Address) = env.sender
    · simp only [ledgerOp, Ledger.apply, ← hne, Function.update_self, hzero, Nat.zero_sub]
    · simp only [ledgerOp, Ledger.apply, Function.update_of_ne hne, hzero]
  | _ => exact hzero

theorem zero_amount_run (calls : List Message) :
    ((run exec postInit calls).validatorInfo 0).amount = 0 := by
  have hrun : Sound (run exec postInit calls) ∧
      ((run exec postInit calls).validatorInfo 0).amount = 0 := by
    refine run_preserves (P := fun s => Sound s ∧ (s.validatorInfo 0).amount = 0) ?_ ?_ calls
    · rintro s m t ⟨hs, hz⟩ h
      exact ⟨exec_sound hs h, exec_zero_amount hs hz h⟩
    · exact ⟨sound_postInit, rfl⟩
  exact hrun.2

end Bounds

/-! ## The parts of a deposit succeed -/

section Success
variable {s : State} {env : Env} {value : ℕ} {v : Address}

theorem scaled_lt {x y : ℕ} (hx : x * SHARE_SCALE < wordSize) (hy : y ≤ SHARE_SCALE) :
    x * y < wordSize :=
  lt_of_le_of_lt (Nat.mul_le_mul_left x hy) hx

theorem burn_succeeds (hratio : s.burnRatio = INIT_BURN_RATIO)
    (hbal : value ≤ s.balance) (hvalue : value * SHARE_SCALE < wordSize) :
    ∃ t rest, burn s env value = .ok (t, rest) := by
  have hle : value * s.burnRatio / BURN_RATIO_SCALE ≤ value := by
    rw [hratio, INIT_BURN_RATIO, mul_one]
    exact Nat.div_le_self _ _
  have hmul : mul value s.burnRatio = .ok (value * s.burnRatio) :=
    mul_ok.mpr ⟨scaled_lt hvalue (by rw [hratio]; decide), rfl⟩
  have hdiv : div (value * s.burnRatio) BURN_RATIO_SCALE =
      .ok (value * s.burnRatio / BURN_RATIO_SCALE) := div_ok.mpr ⟨by decide, rfl⟩
  unfold burn
  rw [hmul, ok_bind, hdiv, ok_bind]
  split
  · rw [transfer_ok.mpr ⟨le_trans hle hbal, env.burn_accepts, rfl⟩, ok_bind,
      sub_ok.mpr ⟨hle, rfl⟩, ok_bind]
    exact ⟨_, _, rfl⟩
  · exact ⟨_, _, rfl⟩

theorem creditOwners_succeeds {per : ℕ} {xs : List Address} {amounts : Address → ℕ}
    (h : ∑ o, amounts o + xs.length * per < wordSize) :
    ∃ amounts', Register.creditOwners per xs amounts = .ok amounts' := by
  induction xs generalizing amounts with
  | nil => exact ⟨amounts, rfl⟩
  | cons x rest ih =>
    rw [length_cons, add_mul, one_mul] at h
    have hx := le_sum amounts x
    have hone := sum_update id amounts x (amounts x + per)
    simp only [id] at hone
    unfold Register.creditOwners
    rw [add_ok.mpr ⟨by omega, rfl⟩, ok_bind]
    exact ih (by omega)

theorem rewardOwners_succeeds {contracts : List Address}
    (hvalue : value * SHARE_SCALE < wordSize) (hown : ownerRewards s + value < wordSize) :
    ∃ t rest, rewardOwners s contracts value = .ok (t, rest) := by
  have hshare : value * 45 / 99 ≤ value := by omega
  simp only [rewardOwners, Register.checkEligible, Register.distributeRewardToOwners,
    Register.onlyValidatorContract, require, ↓reduceIte, ok_bind]
  generalize (contracts.map s.register.rewardAddresses).filter
    (fun owner => decide (owner ≠ 0)) = owners
  by_cases hlen : 0 < owners.length
  · have hpot := Nat.mul_div_le (value * 45 / 99) owners.length
    have htotal : ∑ o, s.register.rewardAmountOwner o +
        owners.length * (value * 45 / 99 / owners.length) < wordSize := by
      rw [ownerRewards] at hown
      omega
    obtain ⟨amounts, hcredit⟩ := creditOwners_succeeds htotal
    have hmul : mul value 45 = .ok (value * 45) := mul_ok.mpr ⟨scaled_lt hvalue (by decide), rfl⟩
    have hdiv : div (value * 45) 99 = .ok (value * 45 / 99) := div_ok.mpr ⟨by decide, rfl⟩
    have hper : div (value * 45 / 99) owners.length =
        .ok (value * 45 / 99 / owners.length) := div_ok.mpr ⟨by omega, rfl⟩
    have hsub := sub_ok.mpr ⟨hshare, rfl⟩
    simp only [pure, Except.pure, ok_bind, if_pos hlen, hmul, hdiv, hper, hcredit, hsub]
    exact ⟨_, _, rfl⟩
  · simp only [pure, Except.pure, ok_bind, if_neg hlen]
    exact ⟨_, _, rfl⟩

/-- Distinct delegators with a stake within the whole can all be credited. -/
theorem creditDelegators_succeeds {pot whole : ℕ} {xs : List Address}
    {S : Address → Address → Delegator} (hpot : pot * SHARE_SCALE < wordSize)
    (hwhole : whole * SHARE_SCALE < wordSize) (hnd : xs.Nodup)
    (hstake : ∀ d ∈ xs, 0 < (S d v).amount ∧ (S d v).amount ≤ whole)
    (hroom : ∀ d ∈ xs, (S d v).income ≤ (S d v).totalIncome ∧
      (S d v).totalIncome + pot < wordSize) :
    ∃ S', creditDelegators pot v whole xs S = .ok S' := by
  induction xs generalizing S with
  | nil => exact ⟨S, rfl⟩
  | cons x rest ih =>
    obtain ⟨hpos, hle⟩ := hstake x (mem_cons_self ..)
    obtain ⟨hincome, htotal⟩ := hroom x (mem_cons_self ..)
    have hshare : pot * ((S x v).amount * SHARE_SCALE / whole) / SHARE_SCALE ≤ pot :=
      share_le pot hle
    have hscaled := lt_of_le_of_lt (Nat.mul_le_mul_right _ hle) hwhole
    have hx : x ∉ rest := (nodup_cons.mp hnd).1
    -- The rest of the list does not meet the record that was just written.
    have hrest (y : Delegator) (d : Address) (hd : d ∈ rest) : set₂ S x v y d v = S d v := by
      rw [set₂_apply, if_neg]
      rintro ⟨rfl, _⟩
      exact hx hd
    unfold creditDelegators
    simp only
    rw [mul_ok.mpr ⟨hscaled, rfl⟩, ok_bind, div_ok.mpr ⟨by omega, rfl⟩, ok_bind,
      mul_ok.mpr ⟨scaled_lt hpot (fraction_le hle), rfl⟩, ok_bind,
      div_ok.mpr ⟨by decide, rfl⟩, ok_bind, add_ok.mpr ⟨by omega, rfl⟩, ok_bind,
      add_ok.mpr ⟨by omega, rfl⟩, ok_bind]
    apply ih (nodup_cons.mp hnd).2
    · intro d hd
      rw [hrest _ d hd]
      exact hstake d (mem_cons_of_mem _ hd)
    · intro d hd
      rw [hrest _ d hd]
      exact hroom d (mem_cons_of_mem _ hd)

/-- The counters that a deposit to `v` touches have room for `value`. -/
structure Room (s : State) (v : Address) (value : ℕ) : Prop where
  scaled : value * SHARE_SCALE < wordSize
  coins : (s.validatorInfo v).coins * SHARE_SCALE < wordSize
  income : (s.validatorInfo v).income + value < wordSize
  total : (s.validatorInfo v).totalIncome + value < wordSize
  owners : ownerRewards s + value < wordSize
  delegators : ∀ d, (s.stakingInfo d v).income ≤ (s.stakingInfo d v).totalIncome ∧
    (s.stakingInfo d v).totalIncome + value < wordSize

theorem Within.room {bound : ℕ} (hw : Within bound s)
    (hbound : (bound + value) * SHARE_SCALE < wordSize)
    (hincome : (s.validatorInfo v).income + value < wordSize) : Room s v value := by
  have hfit {x : ℕ} (hx : x ≤ bound + value) : x * SHARE_SCALE < wordSize :=
    lt_of_le_of_lt (Nat.mul_le_mul_right _ hx) hbound
  have hroom {x : ℕ} (hx : x ≤ bound + value) : x < wordSize :=
    lt_of_le_of_lt (Nat.le_mul_of_pos_right x (by decide)) (hfit hx)
  have hearned := hw.earned
  have hcoins := le_sum (fun a => (s.validatorInfo a).coins) v
  have hsum := hw.coins
  have htotal := hw.total
  have hval := le_sum (fun a => (s.validatorInfo a).totalIncome) v
  have hdel (d : Address) : (s.stakingInfo d v).totalIncome ≤
      ∑ d, ∑ v, (s.stakingInfo d v).totalIncome :=
    (le_sum (fun w => (s.stakingInfo d w).totalIncome) v).trans
      (le_sum (fun d => ∑ w, (s.stakingInfo d w).totalIncome) d)
  unfold Staking.earned rewardsBy at hearned
  refine ⟨hfit (by omega), hfit (by omega), hincome, hroom (by omega), hroom (by omega), ?_⟩
  intro d
  have := hdel d
  exact ⟨hw.unclaimed d v, hroom (by omega)⟩

section
variable {o : State} {left : ℕ} (hs : Sound s) (hroom : Room s v value)
  (hpos : 0 < (s.validatorInfo v).amount) (hleft : left ≤ value)
  (hov : o.validatorInfo = s.validatorInfo) (hod : o.stakingInfo = s.stakingInfo)
include hs hroom hpos hleft hov hod

theorem splitReward_succeeds {el : List Address} {coins : ℕ}
    (hel : el.Sublist (s.validatorInfo v).delegators)
    (hshared : (s.validatorInfo v).amount +
      (el.map fun d => (s.stakingInfo d v).amount).sum ≤ coins)
    (hcoins : coins ≤ (s.validatorInfo v).coins) :
    ∃ u, splitReward { o with elegibleDel := el } v coins left = .ok u := by
  have hle : (s.validatorInfo v).amount ≤ coins := by omega
  have hshare : left * ((s.validatorInfo v).amount * SHARE_SCALE / coins) / SHARE_SCALE ≤ left :=
    share_le left hle
  have hscale := lt_of_le_of_lt (Nat.mul_le_mul_right SHARE_SCALE hcoins) hroom.coins
  have hscaled := lt_of_le_of_lt (Nat.mul_le_mul_right _ hle) hscale
  have hvalue := lt_of_le_of_lt (Nat.mul_le_mul_right SHARE_SCALE hleft) hroom.scaled
  have hincome := hroom.income
  have htotal := hroom.total
  unfold splitReward
  simp only [hov]
  rw [mul_ok.mpr ⟨hscaled, rfl⟩, ok_bind, div_ok.mpr ⟨by omega, rfl⟩, ok_bind,
    mul_ok.mpr ⟨scaled_lt hvalue (fraction_le hle), rfl⟩, ok_bind,
    div_ok.mpr ⟨by decide, rfl⟩, ok_bind, add_ok.mpr ⟨by omega, rfl⟩, ok_bind,
    add_ok.mpr ⟨by omega, rfl⟩, ok_bind, sub_ok.mpr ⟨hshare, rfl⟩, ok_bind,
    sub_ok.mpr ⟨hle, rfl⟩, ok_bind]
  generalize left * ((s.validatorInfo v).amount * SHARE_SCALE / coins) / SHARE_SCALE = reward
  have hpot : (left - reward) * SHARE_SCALE < wordSize :=
    lt_of_le_of_lt (Nat.mul_le_mul_right _ (Nat.sub_le ..)) hvalue
  have hwhole : (coins - (s.validatorInfo v).amount) * SHARE_SCALE < wordSize :=
    lt_of_le_of_lt (Nat.mul_le_mul_right _ (Nat.sub_le ..)) hscale
  obtain ⟨staking, hcredit⟩ := creditDelegators_succeeds (S := o.stakingInfo) (v := v) hpot hwhole
    ((hs.valid.nodup v).sublist hel)
    (by
      intro d hd
      have := single_le_sum (fun _ _ => Nat.zero_le _) _
        (mem_map_of_mem (f := fun d => (s.stakingInfo d v).amount) hd)
      rw [hod]
      exact ⟨hs.valid.listed v d (hel.subset hd), by omega⟩)
    (by
      intro d _
      have := hroom.delegators d
      rw [hod]
      exact ⟨this.1, by omega⟩)
  unfold distributeRewardToDelegators
  split
  · exact ⟨_, rfl⟩
  · simp only [State.setValidator, hcredit, ok_bind]
    exact ⟨_, rfl⟩

/-- What the owners leave can be shared by the validator and its delegators. -/
theorem shares_succeed :
    ∃ el coins u, scanDelegators o v (s.validatorInfo v).delegators [] (s.validatorInfo v).coins =
        .ok (el, coins) ∧ splitReward { o with elegibleDel := el } v coins left = .ok u := by
  have hcover := hs.delegators_le_coins v
  have hparts := eligible_add_unstaking o v (s.validatorInfo v).delegators
  simp only [hod] at hparts
  have hscan : scanDelegators o v _ [] _ = _ := scanDelegators_ok.mpr
    ⟨show unstaking o v (s.validatorInfo v).delegators ≤ (s.validatorInfo v).coins by omega, rfl⟩
  have hshared := eligible_le hs hod hscan
  simp only [nil_append, hod] at hshared
  refine ⟨_, _, Exists.imp (fun u hu => ⟨hscan, hu⟩)
    (splitReward_succeeds hs hroom hpos hleft hov hod filter_sublist ?_ (Nat.sub_le _ _))⟩
  simp only [nil_append, hod]
  omega

end

/-- A deposit to a validator with a stake of its own succeeds while there is
room for its value. -/
theorem deposit_succeeds_of (hs : Sound s) (hc : Configured s)
    (hroom : Room s v env.value) (hv : v ≠ 0) (hpos : 0 < (s.validatorInfo v).amount)
    (hsender : env.sender = env.coinbase) (hzero : env.sender ≠ 0) (hvalue : 0 < env.value)
    (contracts : List Address) : ∃ t, deposit s env v contracts = .ok t := by
  have hburn : ∃ b rest,
      burn { s.receive env with reentrancyStatus := ENTERED } env env.value = .ok (b, rest) :=
    burn_succeeds hc.burn (Nat.le_add_left ..) hroom.scaled
  obtain ⟨b, rest, hb⟩ := hburn
  obtain ⟨_, _, _, _, hrest, hbs⟩ := burn_ok hb
  have hbv : b.validatorInfo = s.validatorInfo := by rw [hbs]; rfl
  have hbd : b.stakingInfo = s.stakingInfo := by rw [hbs]; rfl
  have hbo : ownerRewards b = ownerRewards s := by
    rw [hbs]
    rfl
  have hle : rest ≤ env.value := by omega
  have hfit := lt_of_le_of_lt (Nat.mul_le_mul_right SHARE_SCALE hle) hroom.scaled
  have hown := hroom.owners
  have howners : ∃ o left, rewardOwners b contracts rest = .ok (o, left) :=
    rewardOwners_succeeds hfit (by omega)
  obtain ⟨o, left, ho⟩ := howners
  obtain ⟨_, _, _, _, hleft, _, hos⟩ := rewardOwners_ok ho
  have hov : o.validatorInfo = s.validatorInfo := by rw [← hbv, hos]
  have hod : o.stakingInfo = s.stakingInfo := by rw [← hbd, hos]
  obtain ⟨el, coins, u, hscan, hsplit⟩ :=
    shares_succeed hs hroom hpos (show left ≤ env.value by omega) hov hod
  unfold deposit nonZeroAddress
  simp only [bind_ok, require_ok, nonReentrant_ok]
  refine ⟨_, (), hsender, (), hc.init, (), hzero, (), hvalue, hc.guard,
    if (s.validatorInfo v).validator = 0 then b
    else if (s.validatorInfo v).status = .Jailed ∨ (s.validatorInfo v).status = .Unstaked then o
    else u, ⟨(), hv, (b, rest), hb, ?_⟩, rfl⟩
  by_cases hnone : (s.validatorInfo v).validator = 0
  · refine (if_pos hnone).trans ?_
    rw [if_pos hnone]
    rfl
  · refine (if_neg hnone).trans ?_
    rw [if_neg hnone, ho, ok_bind]
    by_cases hout : (s.validatorInfo v).status = .Jailed ∨ (s.validatorInfo v).status = .Unstaked
    · refine (if_pos hout).trans ?_
      rw [if_pos hout]
      rfl
    · refine (if_neg hout).trans ?_
      rw [if_neg hout]
      simp only [State.receive]
      rw [hscan, ok_bind]
      exact hsplit

theorem Blank.within (h : Blank s) (ht : s.totalDXTStake = 0) : Within 0 s := by
  obtain ⟨hcoins, hnone⟩ : _ ∧ earned s = 0 := h.sums rfl rfl
  exact ⟨by omega, by omega, by omega, fun d v => by rw [h.delegators]⟩

theorem within_postInit (calls : List Message) : Within (paid calls) (run exec postInit calls) := by
  have hrun := within_run calls sound_postInit (blank_postInit.within rfl)
  rwa [zero_add] at hrun

/-- After a governed run in which nobody without a recorded stake takes a seat
and no member withdraws all of its stake, a block reward for any member can be
deposited, whatever contracts the block called, while the coins ever paid in
fit the fixed-point products. -/
theorem deposit_succeeds {calls : List Message}
    (hg : Along exec (fun _ m => Governed m) postInit calls)
    (hk : Along exec KeepsStake postInit calls) {v : Address}
    (hv : v ∈ (run exec postInit calls).highestValidators) {env : Env}
    (hsender : env.sender = env.coinbase) (hzero : env.sender ≠ 0) (hvalue : 0 < env.value)
    (hpaid : (paid calls + env.value) * SHARE_SCALE < wordSize)
    (hincome : ((run exec postInit calls).validatorInfo v).income + env.value < wordSize)
    (contracts : List Address) :
    ∃ t, deposit (run exec postInit calls) env v contracts = .ok t := by
  obtain ⟨hs, hc, hb⟩ := throughout_last (stake_kept_throughout hg hk)
  have hpos := (hb v hv).2.1
  have hv0 : v ≠ 0 := by
    rintro rfl
    have := zero_amount_run calls
    omega
  exact deposit_succeeds_of hs hc ((within_postInit calls).room hpaid hincome) hv0 hpos hsender
    hzero hvalue contracts

theorem deposit_succeeds_seated :
    let env : Env := { sender := 2, coinbase := 2, value := 100 }
    4 ∈ (run exec postInit departure).highestValidators ∧
      ∃ t, deposit (run exec postInit departure) env 4 [7] = .ok t := by
  intro env
  have hv : 4 ∈ (run exec postInit departure).highestValidators := by decide +kernel
  exact ⟨hv, deposit_succeeds departure_governed departure_keepsStake hv rfl (by decide) (by decide)
    (by decide +kernel) (by decide +kernel) [7]⟩

/-- The member that withdrew everything has no coins left to divide by. -/
theorem drainedMember_deposit_reverts :
    1 ∈ (run exec postInit drainedMember).highestValidators ∧
      ¬ ∃ t, deposit (run exec postInit drainedMember)
        { sender := 2, coinbase := 2, value := 100 } 1 [] = .ok t := by
  refine ⟨by decide +kernel, ?_⟩
  rintro ⟨t, h⟩
  have hrevert : (deposit (run exec postInit drainedMember)
      { sender := 2, coinbase := 2, value := 100 } 1 []).isOk = false := by decide +kernel
  rw [h] at hrevert
  cases hrevert

end Success

end Dexit.Staking
