import Dexit.Staking.Bookkeeping

/-! The top list as a bounded set of seats: what each call may do to it, and the
runs in which it stays a set within its bound. -/

namespace Dexit.Staking

open Solidity Outcome List Function

/-- Who a call may seat: anybody staked with at least the minimum, and whoever
stakes for itself. -/
def Newcomer (t : State) (m : Message) (a : Address) : Prop :=
  (t.validatorInfo a).status = .Staked ∧ (t.minimumStakeAmount ≤ (t.validatorInfo a).amount ∨
    m.call = .stakeValidator ∧ a = m.env.sender)

/-- A validator leaves jail while it still has a seat, and there is a free seat
for it to take as well. -/
def Reseated (s : State) (m : Message) : Prop :=
  m.call = .unJailed ∧ (s.validatorInfo m.env.sender).status = .Jailed ∧
    (s.punishRecord m.env.sender).jailedTime + UNJAILING_PERIOD < wordSize ∧
    (s.punishRecord m.env.sender).jailedTime + UNJAILING_PERIOD ≤ m.env.timestamp ∧
    m.env.value = 2000 * ether ∧ m.env.sender ≠ 0 ∧
    s.minimumStakeAmount ≤ (s.validatorInfo m.env.sender).amount ∧
    s.highestValidators.length < s.maxValidators ∧ m.env.sender ∈ s.highestValidators

/-- What a call may do to the top list. -/
inductive SeatChange (s t : State) (m : Message) : Prop
  | reseat (bound : t.maxValidators = s.maxValidators) (once : ¬ Reseated s m)
      (seats : Reseat 3 s.maxValidators (Newcomer t m) s.highestValidators t.highestValidators)
  | again (bound : t.maxValidators = s.maxValidators) (h : Reseated s m)
      (seats : t.highestValidators = s.highestValidators ++ [m.env.sender])
  | resize (value : Nat) (kept : List Address)
      (call : m.call = .updateVotingValues "maxValidators" value) (bound : t.maxValidators = value)
      (leave : Reseat 3 s.maxValidators (Newcomer t m) s.highestValidators kept)
      (room : s.highestValidators.length ≤ s.maxValidators → 3 ≤ value → kept.length ≤ value)
      (seats : Reseat 3 value (Newcomer t m) kept t.highestValidators)

section Changes
variable {s t : State} {m : Message} {env : Env}

theorem SeatChange.refl (hmax : t.maxValidators = s.maxValidators) (once : ¬ Reseated s m)
    (hseats : t.highestValidators = s.highestValidators) : SeatChange s t m := by
  refine .reseat hmax once ?_
  rw [hseats]
  exact Reseat.refl

theorem not_reseated {call : Call} (h : call ≠ .unJailed) : ¬ Reseated s ⟨env, call⟩ :=
  fun hr => h hr.1

theorem stakeValidator_seats (h : stakeValidator s env = .ok t) :
    SeatChange s t ⟨env, .stakeValidator⟩ := by
  obtain ⟨_, _, _, c, seats, hc, hseats, rfl⟩ := stakeValidator_ok h
  obtain ⟨v, S, rfl, _⟩ := creditStake_ok hc
  have staker := seat_reseat hseats
  obtain ⟨a, ha⟩ : ∃ a, a = activate { ({ s.receive env with
    validatorInfo := update (s.receive env).validatorInfo env.sender v
    stakingInfo := S } : State) with highestValidators := seats } env.sender := ⟨_, rfl⟩
  have hmax : a.maxValidators = s.maxValidators := by rw [ha, activate_eq]; rfl
  have hseats : a.highestValidators = seats := by rw [ha, activate_eq]
  have elected := promoteHighest_reseat a a.minimumStakeAmount
  rw [hmax, hseats] at elected
  have hstaked : (a.validatorInfo env.sender).status = .Staked := by
    simp only [ha, activate_eq, update_self]
  simp only [← ha]
  refine .reseat hmax (not_reseated (by simp)) (.trans (staker.mono fun b hb => ?_) ?_)
  · exact ⟨hb ▸ hstaked, .inr ⟨rfl, hb⟩⟩
  · exact elected.mono fun b hb => ⟨hb.2.1, .inl hb.2.2⟩

theorem felony_seats {v : Address} {income : Nat} (h : felony s env v income = .ok t) :
    t.maxValidators = s.maxValidators ∧
      Reseat 3 s.maxValidators (Newcomer t m) s.highestValidators t.highestValidators := by
  obtain ⟨u, rfl, _, rfl⟩ := felony_ok h
  have elected := promoteHighest_reseat { s with
    highestValidators := removeFromHighestValidatorList s v
    validatorInfo := update s.validatorInfo v { s.validatorInfo v with status := .Jailed } } 0
  refine ⟨rfl, (removeFromHighest_reseat s v _ _).trans (elected.mono fun b hb => ⟨?_, .inl ?_⟩)⟩
  · exact (forfeitIncome_status v _ b).trans hb.2.1
  · have hsame (info : Address → Validator) : (forfeitIncome v info b).amount = (info b).amount :=
      update_field Validator.amount (by rfl) b
    rw [hsame]
    exact hb.2.2

/-- The one place where a member can be seated a second time. -/
theorem unJailed_seats (h : unJailed s env = .ok t) : SeatChange s t ⟨env, .unJailed⟩ := by
  obtain ⟨hst, hword, htime, hval, seats, hseats, rfl⟩ := unJailed_ok h
  unfold unJailedSeats at hseats
  split at hseats
  next hroom =>
    split at hseats
    next hmin =>
      simp only [update_self] at hmin
      cases hseats
      by_cases hin : env.sender ∈ s.highestValidators
      · exact .again rfl ⟨rfl, hst, hword, htime, hval, hroom.2, hmin, hroom.1, hin⟩ rfl
      · have once : ¬ Reseated s ⟨env, .unJailed⟩ := fun hr => hin hr.2.2.2.2.2.2.2.2
        refine .reseat rfl once (Reseat.refl.push env.sender hin hroom.1 ?_)
        simpa only [Newcomer, update_self, true_and] using .inl hmin
    next hmin =>
      simp only [update_self] at hmin
      cases hseats
      exact .refl rfl (fun hr => hmin hr.2.2.2.2.2.2.1) rfl
  next hfull =>
    have once : ¬ Reseated s ⟨env, .unJailed⟩ := fun hr =>
      hfull ⟨hr.2.2.2.2.2.2.2.1, hr.2.2.2.2.2.1⟩
    exact .reseat rfl once ((replaceLowest_reseat hseats).mono fun b hb => ⟨hb.2.1, .inl hb.2.2⟩)

theorem exec_seats (h : exec s m = .ok t) : SeatChange s t m := by
  obtain ⟨env, call⟩ := m
  cases exec_effect h with
  | rewards quiet same _ _ =>
    refine .refl same.maximum (not_reseated ?_) same.highest
    rintro rfl
    cases quiet
  | stakeValidator hcall h =>
    cases hcall
    exact stakeValidator_seats h
  | stakeDelegator v hcall h =>
    cases hcall
    obtain ⟨_, _, _, _, hst, hmin, seats, hseats, rfl⟩ := stakeDelegator_ok h
    refine .reseat rfl (not_reseated (by simp)) ((seat_reseat hseats).mono fun b hb => ?_)
    subst hb
    simpa only [Newcomer, update_self] using ⟨hst, .inl hmin⟩
  | unstakeValidator hcall h =>
    cases hcall
    obtain ⟨_, _, hlen, u, hu, rfl⟩ := unstakeValidator_ok h
    have hmax : u.maxValidators = s.maxValidators := by rw [hu]
    have hseats : u.highestValidators = swapRemoveFirst env.sender s.highestValidators := by rw [hu]
    have elected := promoteHighest_reseat u 0
    rw [hmax, hseats] at elected
    refine .reseat hmax (not_reseated (by simp)) ((Reseat.refl.vacate env.sender hlen).trans ?_)
    exact elected.mono fun b hb => ⟨hb.2.1, .inl hb.2.2⟩
  | unstakeDelegators v hcall h =>
    cases hcall
    obtain ⟨_, _, rfl⟩ := unstakeDelegators_ok h
    exact .refl rfl (not_reseated (by simp)) rfl
  | withdrawValidatorStaking x hcall h =>
    cases hcall
    obtain ⟨_, status, v, C, seats, _, _, hseats, rfl⟩ := withdrawValidatorStaking_ok h
    exact .reseat rfl (not_reseated (by simp))
      ((reseatAfterWithdrawal_reseat hseats).mono fun b hb => ⟨hb.2.1, .inl hb.2.2⟩)
  | withdrawDelegatorStaking v x hcall h =>
    cases hcall
    obtain ⟨_, D, S, status, C, seats, _, hseats, hclose, rfl⟩ := withdrawDelegatorStaking_ok h
    refine .reseat rfl (not_reseated (by simp))
      ((replaceLowest_reseat_coins hseats).mono fun b hb => ?_)
    obtain ⟨⟨_, hst, hmin⟩, hpos⟩ := hb
    simp only [debited, getCoins] at hst hmin hpos
    by_cases hbv : b = v
    · subst hbv
      simp only [Newcomer, update_self] at hst hmin hpos ⊢
      -- whoever takes a seat has coins, so its validator is not closed
      obtain ⟨hz, _⟩ | ⟨_, rfl, _⟩ := hclose
      · omega
      · exact ⟨hst, .inl hmin⟩
    · simp only [Newcomer, update_of_ne hbv] at hst hmin ⊢
      exact ⟨hst, .inl hmin⟩
  | felony v hcall _ P L hf =>
    cases hcall
    obtain ⟨hmax, hseats⟩ := felony_seats hf
    exact .reseat hmax (not_reseated (by simp)) hseats
  | unJailed hcall h =>
    cases hcall
    exact unJailed_seats h
  | minimum value hcall hmin =>
    cases hcall
    obtain ⟨seats, rfl, kept, _, hkept, _, _, hseats⟩ := updateMinimumStakeAmount_ok hmin
    exact .reseat rfl (not_reseated (by simp))
      ((hkept _ _).trans (hseats.mono fun b hb => ⟨hb.1.2.1, .inl hb.1.2.2⟩))
  | maximum value hcall hmax =>
    cases hcall
    obtain ⟨kept, seats, pre, rfl, hkept, _, hroom, hseats, _⟩ := updateMaxValidators_ok hmax
    exact .resize value kept rfl rfl (hkept _ _) hroom
      (hseats.mono fun b hb => ⟨hb.2.1, .inl hb.2.2⟩)

end Changes

/-! ## A set within its bound -/

/-- Nobody is seated twice, and there are no more members than seats. -/
def WithinBound (s : State) : Prop :=
  s.highestValidators.Nodup ∧ s.highestValidators.length ≤ s.maxValidators

/-- The governance contract never asks for fewer than three seats. -/
def AtLeastThree (m : Message) : Prop :=
  ∀ value, m.call = .updateVotingValues "maxValidators" value → 3 ≤ value

section Bounds
variable {s t : State} {m : Message}

/-- Leaving jail with a seat still held always goes through. -/
theorem Reseated.succeeds (h : Reseated s m) : ∃ t, exec s m = .ok t := by
  obtain ⟨env, call⟩ := m
  obtain ⟨hcall, hst, hword, htime, hval, _, _, _, hin⟩ := h
  subst hcall
  exact unJailed_returns.mpr ⟨hst, hword, htime, hval, .inl (ne_nil_of_mem hin)⟩

theorem exec_nodup (once : ¬ Reseated s m) (hnd : s.highestValidators.Nodup)
    (h : exec s m = .ok t) : t.highestValidators.Nodup := by
  cases exec_seats h with
  | reseat _ _ hseats => exact hseats.nodup hnd
  | again _ hre _ => exact absurd hre once
  | resize value kept _ _ hleave _ hseats => exact hseats.nodup (hleave.nodup hnd)

theorem exec_length_le (hg : AtLeastThree m)
    (hlen : s.highestValidators.length ≤ s.maxValidators) (h : exec s m = .ok t) :
    t.highestValidators.length ≤ t.maxValidators := by
  cases exec_seats h with
  | reseat hmax _ hseats =>
    rw [hmax]
    exact hseats.length_le hlen
  | again hmax hre hseats =>
    rw [hmax, hseats, length_append]
    exact hre.2.2.2.2.2.2.2.1
  | resize value kept hcall hmax _ hroom hseats =>
    rw [hmax]
    exact hseats.length_le (hroom hlen (hg value hcall))

theorem exec_withinBound_iff (hg : AtLeastThree m) (hb : WithinBound s)
    (h : exec s m = .ok t) : WithinBound t ↔ ¬ Reseated s m := by
  constructor
  · intro hw hre
    cases exec_seats h with
    | reseat _ once _ => exact once hre
    | again _ _ hseats =>
      have hnd := hw.1
      rw [hseats] at hnd
      have hseated := hre.2.2.2.2.2.2.2.2
      exact (nodup_append.mp hnd).2.2 _ hseated _ (mem_singleton_self m.env.sender) rfl
    | resize value kept hcall _ _ _ _ =>
      rw [hre.1] at hcall
      cases hcall
  · intro once
    exact ⟨exec_nodup once hb.1 h, exec_length_le hg hb.2 h⟩

/-- With at least three seats asked for, the top list is a set within its bound
in every state of a run exactly when nobody leaves jail seated in it. -/
theorem within_bound_iff {calls : List Message}
    (hg : Along exec (fun _ m => AtLeastThree m) postInit calls) :
    Throughout exec WithinBound postInit calls ↔
      Along exec (fun s m => ¬ Reseated s m) postInit calls := by
  apply throughout_iff_along (J := fun _ => True) (A := fun _ m => AtLeastThree m)
  · intros
    trivial
  · intro s m t _ hm hb h
    exact exec_withinBound_iff hm hb h
  · intro s m e _ he hre
    obtain ⟨t, ht⟩ := hre.succeeds
    rw [he] at ht
    cases ht
  · trivial
  · exact ⟨nodup_nil, Nat.zero_le _⟩
  · exact hg

/-- A run that lowers the bound and never jails anybody. -/
theorem within_bound_smaller :
    let calls : List Message :=
      [.stake 1 MINIMUM_STAKE_AMOUNT,
        ⟨{ sender := GOV_HUB_ADDR }, .updateVotingValues "maxValidators" 3⟩]
    Along exec (fun _ m => AtLeastThree m) postInit calls ∧
      Throughout exec WithinBound postInit calls := by
  intro calls
  have hg : Along exec (fun _ m => AtLeastThree m) postInit calls := by
    refine ⟨?_, ?_, trivial⟩
    · intro value h
      cases h
    · intro value h
      cases h
      exact le_rfl
  refine ⟨hg, (within_bound_iff hg).mpr ⟨?_, ?_, trivial⟩⟩
  · intro h
    cases h.1
  · intro h
    cases h.1

/-- Validator 1 is jailed while only two are seated, so it keeps its seat, and
takes a second one when it leaves jail. -/
def jailedMember : List Message :=
  Message.stakes [1, 2] ++ replicate FELONY_THRESHOLD (.slash 1) ++ [.leaveJail 1]

set_option maxRecDepth 100000 in
theorem jailedMember_seated_twice :
    (∀ m ∈ jailedMember, AtLeastThree m) ∧
      (run exec postInit jailedMember).highestValidators = [1, 2, 1] ∧
      ¬ WithinBound (run exec postInit jailedMember) := by
  have hseats : (run exec postInit jailedMember).highestValidators = [1, 2, 1] := by
    decide +kernel
  refine ⟨?_, hseats, ?_⟩
  · intro m hm value hcall
    have hno : ∀ m ∈ jailedMember, m.call = .stakeValidator ∨ m.call = .punish 1 ∨
        m.call = .unJailed := by
      decide +kernel
    obtain e | e | e := hno m hm <;> rw [e] at hcall <;> cases hcall
  · rintro ⟨hnd, _⟩
    revert hnd
    decide

/-- There are never more members than seats, also where one of them has two. -/
theorem run_length_le {calls : List Message}
    (hg : Along exec (fun _ m => AtLeastThree m) postInit calls) :
    (run exec postInit calls).highestValidators.length ≤ (run exec postInit calls).maxValidators := by
  have all : Throughout exec (fun s => s.highestValidators.length ≤ s.maxValidators)
      postInit calls :=
    throughout_of_preserved (fun s m t hs hm h => exec_length_le hm hs h) (Nat.zero_le _) hg
  exact throughout_last all

/-- Governance never fails to re-elect. What the removals leave stays and is
followed by fit newcomers, the list is a set within the new bound, at least
three members stay, and if more than three do, all of them have the new minimum. -/
theorem updateVotingValues_reelects {calls : List Message} {env : Env} {name : String} {value : Nat}
    (hg : Along exec (fun _ m => AtLeastThree m) postInit calls) (hpay : env.value = 0)
    (hgov : env.sender = GOV_HUB_ADDR) (hne : (run exec postInit calls).highestValidators ≠ [])
    (hnodup : (run exec postInit calls).highestValidators.Nodup)
    (hvalue : name = "maxValidators" → 3 ≤ value) :
    ∃ u t added, removals (run exec postInit calls) name value = .ok u ∧
      updateVotingValues (run exec postInit calls) env name value = .ok t ∧
      t.highestValidators = u.highestValidators ++ added ∧
      (∀ a ∈ added, Fit t a ∧ a ∉ u.highestValidators) ∧ WithinBound t ∧
      min 3 (run exec postInit calls).highestValidators.length ≤ t.highestValidators.length ∧
      (name = "minimumStakeAmount" → u.highestValidators.length ≤ 3 ∨
        ∀ a ∈ t.highestValidators, value ≤ getCoins t a) := by
  have hlen := run_length_le hg
  generalize run exec postInit calls = s at *
  have hexec (t : State) : updateVotingValues s env name value = .ok t ↔
      (if name = "minimumStakeAmount" then updateMinimumStakeAmount s value
        else if name = "maxValidators" then updateMaxValidators s value else pure s) = .ok t := by
    simp only [updateVotingValues, nonPayable, bind_ok, guardWith_ok, require_ok, exists_const,
      hpay, hgov, true_and]
  by_cases hmin : name = "minimumStakeAmount"
  · subst hmin
    obtain ⟨t, ht⟩ := updateMinimumStakeAmount_returns value hne
    obtain ⟨_, rfl, kept, hu, hkept, ⟨added, rfl⟩, hend, hseats⟩ := updateMinimumStakeAmount_ok ht
    obtain ⟨hnd, hnew⟩ := hseats.added (hkept.nodup hnodup)
    refine ⟨_, _, added, hu, (hexec _).mpr ht, rfl, ?_,
      ⟨hnd, hseats.length_le (hkept.length_le.trans hlen)⟩,
      hkept.three_le (prefix_append kept added), ?_⟩
    · exact fun a ha => (hnew a ha).imp_left And.left
    · intro _
      refine hend.imp_right fun hall a ha => ?_
      obtain hold | hfit := hseats.mem ha
      · exact hall a hold
      · exact hfit.2
  · by_cases hmax : name = "maxValidators"
    · subst hmax
      obtain ⟨t, ht⟩ := updateMaxValidators_returns value hne
      obtain ⟨kept, _, _, rfl, hkept, ⟨added, rfl⟩, hroom, hseats, hu⟩ := updateMaxValidators_ok ht
      obtain ⟨hnd, hnew⟩ := hseats.added (hkept.nodup hnodup)
      exact ⟨_, _, added, hu, (hexec _).mpr ht, rfl, hnew,
        ⟨hnd, hseats.length_le (hroom hlen (hvalue rfl))⟩,
        hkept.three_le (prefix_append kept added), fun h => absurd h hmin⟩
    · refine ⟨s, s, [], ?_, (hexec s).mpr ?_, (append_nil _).symm, by simp, ⟨hnodup, hlen⟩,
        min_le_right _ _, fun h => absurd h hmin⟩
      · rw [removals, if_neg hmin, if_neg hmax]
        rfl
      · rw [if_neg hmin, if_neg hmax]
        rfl

/-- Four validators, who stake from once to four times the minimum. -/
def fourStakes : List Message :=
  [.stake 1 MINIMUM_STAKE_AMOUNT, .stake 2 (2 * MINIMUM_STAKE_AMOUNT),
    .stake 3 (3 * MINIMUM_STAKE_AMOUNT), .stake 4 (4 * MINIMUM_STAKE_AMOUNT)]

/-- The minimum is doubled, and the first of them leaves. -/
theorem fourStakes_reelected : ∃ u t added,
    removals (run exec postInit fourStakes) "minimumStakeAmount" (2 * MINIMUM_STAKE_AMOUNT) = .ok u ∧
      u.highestValidators = [4, 2, 3] ∧
      updateVotingValues (run exec postInit fourStakes) { sender := GOV_HUB_ADDR }
        "minimumStakeAmount" (2 * MINIMUM_STAKE_AMOUNT) = .ok t ∧
      t.highestValidators = [4, 2, 3] ++ added ∧ WithinBound t := by
  have hg : Along exec (fun _ m => AtLeastThree m) postInit fourStakes := by
    refine ⟨?_, ?_, ?_, ?_, trivial⟩ <;> exact fun _ h => by cases h
  obtain ⟨u, t, added, hu, ht, hadded, -, hbound, -⟩ :=
    @updateVotingValues_reelects fourStakes { sender := GOV_HUB_ADDR } "minimumStakeAmount"
      (2 * MINIMUM_STAKE_AMOUNT) hg rfl rfl (by decide +kernel) (by decide +kernel)
      fun h => absurd h (by decide)
  have hleft : (removals (run exec postInit fourStakes) "minimumStakeAmount"
      (2 * MINIMUM_STAKE_AMOUNT)).toOption.map State.highestValidators = some [4, 2, 3] := by
    decide +kernel
  rw [hu] at hleft
  have hleft : u.highestValidators = [4, 2, 3] := Option.some.inj hleft
  exact ⟨u, t, added, hu, hleft, ht, hleft ▸ hadded, hbound⟩

end Bounds

end Dexit.Staking
