import Dexit.Staking.Lifecycle
import Dexit.Staking.Seats

/-! The members of the top list: their stake, and their status. -/

namespace Dexit.Staking

open Solidity List
open Function

/-- Every member is an active validator with a stake of its own. -/
def Backed (s : State) : Prop :=
  ∀ a ∈ s.highestValidators, a ∈ s.currentValidators ∧
    0 < (s.validatorInfo a).amount ∧ 0 < (s.validatorInfo a).coins

/-- What the governance contract checks before it asks for a change. -/
def Governed (m : Message) : Prop :=
  (∀ value, m.call = .updateVotingValues "minimumStakeAmount" value → ether ≤ value) ∧
    ∀ value, m.call = .updateVotingValues "maxValidators" value → 3 ≤ value

/-- Nobody without a recorded stake takes a seat by staking, and no member
withdraws all of its stake. -/
def KeepsStake (s : State) (m : Message) : Prop :=
  (m.call = .stakeValidator → ¬ Uncredited s m.env.sender) ∧
    ∀ x, m.call = .withdrawValidatorStaking x → m.env.sender ∈ s.highestValidators →
      x ≠ (s.validatorInfo m.env.sender).amount

/-- What `init` sets up and no call takes away. -/
structure Configured (s : State) : Prop where
  init : s.alreadyInit = true
  burn : s.burnRatio = INIT_BURN_RATIO
  guard : s.reentrancyStatus ≠ ENTERED
  minimum : 0 < s.minimumStakeAmount

section
variable {s t : State} {m : Message} {env : Env} {a v : Address}

theorem configured_postInit : Configured postInit := by
  constructor <;> decide

/-- What no call changes, up to the reentrancy guard, which is down after every
call that raised it. -/
structure SameSetup (s t : State) : Prop where
  init : t.alreadyInit = s.alreadyInit
  burn : t.burnRatio = s.burnRatio
  guard : t.reentrancyStatus = s.reentrancyStatus ∨ t.reentrancyStatus = NOT_ENTERED

/-- Only governance changes the minimum stake, only punishments and their ends the punish list. -/
theorem exec_setup (h : exec s m = .ok t) :
    SameSetup s t ∧ (t.minimumStakeAmount = s.minimumStakeAmount ∨
      m.call = .updateVotingValues "minimumStakeAmount" t.minimumStakeAmount) ∧
    ((∃ v, m.call = .punish v) ∨ m.call = .unJailed ∨
      t.punishRecord = s.punishRecord ∧ t.punishValidator = s.punishValidator) := by
  obtain ⟨env, call⟩ := m
  cases call with
  | stakeValidator =>
    obtain ⟨_, _, _, c, seats, hcr, _, rfl⟩ := stakeValidator_ok h
    obtain ⟨v, S, rfl, _⟩ := creditStake_ok hcr
    simp only [activate_eq]
    exact ⟨⟨rfl, rfl, .inl rfl⟩, .inl rfl, .inr (.inr ⟨rfl, rfl⟩)⟩
  | stakeDelegator v =>
    obtain ⟨_, _, _, _, _, _, seats, _, rfl⟩ := stakeDelegator_ok h
    exact ⟨⟨rfl, rfl, .inl rfl⟩, .inl rfl, .inr (.inr ⟨rfl, rfl⟩)⟩
  | unstakeValidator =>
    obtain ⟨_, _, _, u, rfl, rfl⟩ := unstakeValidator_ok h
    exact ⟨⟨rfl, rfl, .inl rfl⟩, .inl rfl, .inr (.inr ⟨rfl, rfl⟩)⟩
  | unstakeDelegators v =>
    obtain ⟨_, _, rfl⟩ := unstakeDelegators_ok h
    exact ⟨⟨rfl, rfl, .inl rfl⟩, .inl rfl, .inr (.inr ⟨rfl, rfl⟩)⟩
  | withdrawValidatorStaking x =>
    obtain ⟨_, status, v, C, seats, _, _, _, rfl⟩ := withdrawValidatorStaking_ok h
    exact ⟨⟨rfl, rfl, .inr rfl⟩, .inl rfl, .inr (.inr ⟨rfl, rfl⟩)⟩
  | withdrawDelegatorStaking v x =>
    obtain ⟨_, D, S, status, C, seats, _, _, _, rfl⟩ := withdrawDelegatorStaking_ok h
    exact ⟨⟨rfl, rfl, .inr rfl⟩, .inl rfl, .inr (.inr ⟨rfl, rfl⟩)⟩
  | deposit v contracts =>
    obtain ⟨_, _, _, _, _, _, _, rfl, _⟩ := deposit_eq h
    exact ⟨⟨rfl, rfl, .inr rfl⟩, .inl rfl, .inr (.inr ⟨rfl, rfl⟩)⟩
  | claimValidatorReward =>
    obtain ⟨p, R, C, _, rfl⟩ := claimValidatorReward_ok h
    exact ⟨⟨rfl, rfl, .inr rfl⟩, .inl rfl, .inr (.inr ⟨rfl, rfl⟩)⟩
  | claimDelegatorReward v =>
    obtain ⟨p, R, rfl⟩ := claimDelegatorReward_ok h
    exact ⟨⟨rfl, rfl, .inr rfl⟩, .inl rfl, .inr (.inr ⟨rfl, rfl⟩)⟩
  | claimOwnerReward =>
    obtain ⟨R, rfl⟩ := claimOwnerReward_ok h
    exact ⟨⟨rfl, rfl, .inr rfl⟩, .inl rfl, .inr (.inr ⟨rfl, rfl⟩)⟩
  | pushContractOwner c o =>
    obtain ⟨_, _, rfl⟩ := pushContractOwner_ok.mp h
    exact ⟨⟨rfl, rfl, .inl rfl⟩, .inl rfl, .inr (.inr ⟨rfl, rfl⟩)⟩
  | registerContract c r =>
    obtain rfl := registerContract_ok h
    exact ⟨⟨rfl, rfl, .inl rfl⟩, .inl rfl, .inr (.inr ⟨rfl, rfl⟩)⟩
  | punish v =>
    obtain ⟨P, L, _, ⟨_, rfl⟩ | ⟨_, hf⟩ | ⟨_, hm⟩⟩ := punish_ok h
    · exact ⟨⟨rfl, rfl, .inl rfl⟩, .inl rfl, .inl ⟨v, rfl⟩⟩
    · obtain ⟨u, rfl, _, rfl⟩ := felony_ok hf
      exact ⟨⟨rfl, rfl, .inl rfl⟩, .inl rfl, .inl ⟨v, rfl⟩⟩
    · obtain ⟨_, rfl⟩ := misdemeanor_ok hm
      exact ⟨⟨rfl, rfl, .inl rfl⟩, .inl rfl, .inl ⟨v, rfl⟩⟩
  | unJailed =>
    obtain ⟨_, _, _, _, seats, _, rfl⟩ := unJailed_ok h
    exact ⟨⟨rfl, rfl, .inl rfl⟩, .inl rfl, .inr (.inl rfl)⟩
  | updateVotingValues name value =>
    obtain rfl | ⟨rfl, hmin⟩ | ⟨_, hmax⟩ := updateVotingValues_ok h
    · exact ⟨⟨rfl, rfl, .inl rfl⟩, .inl rfl, .inr (.inr ⟨rfl, rfl⟩)⟩
    · obtain ⟨_, rfl, _⟩ := updateMinimumStakeAmount_ok hmin
      exact ⟨⟨rfl, rfl, .inl rfl⟩, .inr rfl, .inr (.inr ⟨rfl, rfl⟩)⟩
    · obtain ⟨_, _, _, rfl, _⟩ := updateMaxValidators_ok hmax
      exact ⟨⟨rfl, rfl, .inl rfl⟩, .inl rfl, .inr (.inr ⟨rfl, rfl⟩)⟩

theorem SameSetup.guard_down (h : SameSetup s t) (hs : s.reentrancyStatus ≠ ENTERED) :
    t.reentrancyStatus ≠ ENTERED := by
  obtain e | e := h.guard <;> rw [e]
  · exact hs
  · decide

theorem exec_configured (hc : Configured s) (hg : Governed m) (h : exec s m = .ok t) :
    Configured t := by
  obtain ⟨hsetup, hmin, _⟩ := exec_setup h
  refine ⟨hsetup.init.trans hc.init, hsetup.burn.trans hc.burn, hsetup.guard_down hc.guard, ?_⟩
  obtain e | hcall := hmin
  · rw [e]
    exact hc.minimum
  · exact lt_of_lt_of_le (by decide) (hg.1 _ hcall)

/-- Where members come from. -/
theorem exec_members (h : exec s m = .ok t) (ha : a ∈ t.highestValidators) : a ∈ s.highestValidators ∨ Newcomer t m a := by
  cases exec_seats h with
  | reseat _ _ hseats => exact hseats.mem ha
  | again _ hre hseats =>
    rw [hseats] at ha
    obtain ha | ha := mem_append.mp ha
    · exact .inl ha
    · rw [mem_singleton.mp ha]
      exact .inl hre.2.2.2.2.2.2.2.2
  | resize value kept _ _ hleave _ hseats =>
    obtain ha | ha := hseats.mem ha
    · exact hleave.mem ha
    · exact .inr ha

theorem exec_newcomer_pos (hp : Pending s) (h : exec s m = .ok t) (hk : KeepsStake s m)
    (hmin : 0 < t.minimumStakeAmount) (ha : Newcomer t m a) :
    0 < (t.validatorInfo a).amount := by
  obtain ⟨_, ha | ⟨hcall, rfl⟩⟩ := ha
  · omega
  obtain ⟨env, call⟩ := m
  subst hcall
  obtain ⟨hl, hallowed⟩ := exec_ledger hp h
  have hu : ¬ Uncredited s env.sender := hk.1 rfl
  simp only [ledgerOp, if_neg hu] at hl hallowed
  have hamt := congrFun (congrArg Ledger.amount hl) env.sender
  simp only [ledger, Ledger.apply, update_self] at hamt
  have hval : 0 < env.value := hallowed
  simp only
  omega

/-- One call keeps the members backed: a stake that is not withdrawn keeps its
validator registered, and its coins cover it. -/
theorem exec_backed (hs : Sound s) (hb : Backed s) (hk : KeepsStake s m)
    (hmin : 0 < t.minimumStakeAmount) (h : exec s m = .ok t) : Backed t := by
  have ht := exec_sound hs h
  intro a ha
  have hpos : 0 < (t.validatorInfo a).amount := by
    obtain hold | hnew := exec_members h ha
    · have hstaked := (hb a hold).2.1
      obtain hle | ⟨x, hcall, rfl, hle, hamt⟩ := exec_amount hs.pending h a
      · omega
      · have hne := hk.2 x hcall hold
        omega
    · exact exec_newcomer_pos hs.pending h hk hmin hnew
  have hle := ht.amount_le_coins a
  exact ⟨(ht.registered a hpos).1, hpos, by omega⟩

/-- What a governed run keeps while nobody without a recorded stake takes a
seat and no member withdraws all of its stake. -/
theorem stake_kept_throughout {calls : List Message}
    (hg : Along exec (fun _ m => Governed m) postInit calls)
    (hk : Along exec KeepsStake postInit calls) :
    Throughout exec (fun s => Sound s ∧ Configured s ∧ Backed s) postInit calls := by
  refine throughout_of_preserved ?_ ?_ (hg.and hk)
  · rintro s m t ⟨hs, hc, hb⟩ ⟨hm, hk⟩ h
    have hc' := exec_configured hc hm h
    exact ⟨exec_sound hs h, hc', exec_backed hs hb hk hc'.minimum h⟩
  · refine ⟨sound_postInit, configured_postInit, ?_⟩
    intro a ha
    cases ha

/-- In such a run every member is backed in every state. -/
theorem members_backed {calls : List Message}
    (hg : Along exec (fun _ m => Governed m) postInit calls)
    (hk : Along exec KeepsStake postInit calls) : Throughout exec Backed postInit calls :=
  (stake_kept_throughout hg hk).mono fun _ hs => hs.2.2

/-- Five validators stake; the last one unstakes and withdraws everything. -/
def departure : List Message :=
  Message.stakes [1, 2, 3, 4, 5] ++
    [⟨{ sender := 5, number := 10 }, .unstakeValidator⟩,
    ⟨{ sender := 5, number := 10 + STAKING_LOCK_PERIOD }, .withdrawValidatorStaking MINIMUM_STAKE_AMOUNT⟩]

theorem departure_governed : Along exec (fun _ m => Governed m) postInit departure := by
  refine ⟨?_, ?_, ?_, ?_, ?_, ?_, ?_, trivial⟩ <;>
    constructor <;>
      · intro value h
        cases h

theorem departure_keepsStake : Along exec KeepsStake postInit departure := by
  refine ⟨⟨?_, ?_⟩, ⟨?_, ?_⟩, ⟨?_, ?_⟩, ⟨?_, ?_⟩, ⟨?_, ?_⟩, ⟨?_, ?_⟩, ⟨?_, ?_⟩, trivial⟩
  case refine_14 =>
    intro x _ hseat
    exact absurd hseat (by decide +kernel)
  all_goals first
    | exact fun _ => by decide +kernel
    | exact fun _ h => by cases h

theorem members_backed_departure :
    (run exec postInit departure).highestValidators = [1, 2, 3, 4] ∧
      ((run exec postInit departure).validatorInfo 5).amount = 0 ∧
        Throughout exec Backed postInit departure :=
  ⟨by decide +kernel, by decide +kernel, members_backed departure_governed departure_keepsStake⟩

/-- Validator 1 unstakes and gives up its seat, but is seated again when it
leaves jail; its waiting time still runs, and it withdraws everything. -/
def drainedMember : List Message :=
  Message.stakes [1, 2, 3, 4] ++ [⟨{ sender := 1, number := 10 }, .unstakeValidator⟩] ++
    replicate FELONY_THRESHOLD (.slash 1) ++
    [.leaveJail 1, ⟨{ sender := 1, number := 10 + STAKING_LOCK_PERIOD },
      .withdrawValidatorStaking MINIMUM_STAKE_AMOUNT⟩]

theorem drainedMember_not_backed : ¬ Backed (run exec postInit drainedMember) := by
  intro h
  have hseat : 1 ∈ (run exec postInit drainedMember).highestValidators := by decide +kernel
  have hempty : ((run exec postInit drainedMember).validatorInfo 1).amount = 0 := by
    decide +kernel
  have := (h 1 hseat).2.1
  omega

/-! ## Status -/

def MembersStaked (s : State) : Prop :=
  ∀ a ∈ s.highestValidators, (s.validatorInfo a).status = .Staked

/-- No member above the minimum of three is inactive. -/
def NoInactiveMember (s : State) : Prop :=
  3 < s.highestValidators.length → MembersStaked s

/-- Nobody is seated twice, no member is jailed while three or fewer are seated,
and no member loses its own stake, or all of its coins, to a withdrawal. -/
structure KeepsActive (s : State) (m : Message) : Prop where
  once : ¬ Reseated s m
  removed : ∀ v, m.call = .punish v → Felony s v → v ∈ s.highestValidators →
    3 < s.highestValidators.length
  stake : ∀ x, m.call = .withdrawValidatorStaking x → m.env.sender ∈ s.highestValidators →
    x ≠ (s.validatorInfo m.env.sender).amount
  coins : ∀ v x, m.call = .withdrawDelegatorStaking v x → v ∈ s.highestValidators →
    x ≠ (s.validatorInfo v).coins

section
variable (hnd : s.highestValidators.Nodup)
include hnd

/-- Whoever unstakes gives up its seat. -/
theorem unstakeValidator_leaves
    (h : unstakeValidator s env = .ok t) : env.sender ∉ t.highestValidators := by
  obtain ⟨_, _, _, u, rfl, rfl⟩ := unstakeValidator_ok h
  exact notMem_promoteHighest (notMem_swapRemoveFirst hnd) (by simp)

/-- Whoever is jailed while more than three are seated loses its seat. -/
theorem felony_leaves {income : Nat}
    (hlen : 3 < s.highestValidators.length) (h : felony s env v income = .ok t) :
    v ∉ t.highestValidators := by
  obtain ⟨u, rfl, _, rfl⟩ := felony_ok h
  refine notMem_promoteHighest ?_ (by simp)
  simp only [removeFromHighestValidatorList, not_le.mpr hlen, ↓reduceIte]
  exact notMem_swapRemoveFirst hnd

theorem exec_membersStaked (hst : MembersStaked s)
    (hk : KeepsActive s m) (h : exec s m = .ok t) : MembersStaked t := by
  intro a ha
  obtain hmem | hnew := exec_members h ha
  swap
  · exact hnew.1
  cases exec_status h a with
  | same e => exact e.trans (hst a hmem)
  | staked _ _ _ now => exact now
  | unstaked hcall hsender _ _ =>
    subst hsender
    simp only [exec, hcall] at h
    exact absurd ha (unstakeValidator_leaves hnd h)
  | withdrew x hcall hsender now =>
    subst hsender
    obtain now | ⟨_, hall⟩ := now
    · exact now
    · exact absurd hall (hk.stake x hcall hmem)
  | closed x hcall hall _ => exact absurd hall (hk.coins a x hcall hmem)
  | jailed hcall hfel now =>
    have hlen := hk.removed a hcall hfel hmem
    simp only [exec, hcall] at h
    obtain ⟨P, L, _, ⟨_, rfl⟩ | ⟨_, hf⟩ | ⟨⟨hno, _⟩, _⟩⟩ := punish_ok h
    · exact hst a hmem
    · exact absurd ha (felony_leaves (s := { s with punishRecord := P, punishValidator := L })
        hnd hlen hf)
    · exact absurd hfel hno
  | released _ _ _ now => exact now

end

/-- In such a run no member above the minimum is inactive, in any state. -/
theorem no_inactive_member {calls : List Message} (hk : Along exec KeepsActive postInit calls) :
    Throughout exec NoInactiveMember postInit calls := by
  have all : Throughout exec (fun s => s.highestValidators.Nodup ∧ MembersStaked s)
      postInit calls := by
    refine throughout_of_preserved ?_ ?_ hk
    · rintro s m t ⟨hnd, hst⟩ hk h
      exact ⟨exec_nodup hk.once hnd h, exec_membersStaked hnd hst hk h⟩
    · refine ⟨nodup_nil, ?_⟩
      intro a ha
      cases ha
  exact all.mono fun s hs _ => hs.2

theorem no_inactive_member_departure :
    (run exec postInit departure).highestValidators = [1, 2, 3, 4] ∧
      Throughout exec NoInactiveMember postInit departure := by
  have keeps {s : State} {m : Message} (h : m.call = .stakeValidator ∨ m.call = .unstakeValidator ∨
      m.call = .withdrawValidatorStaking MINIMUM_STAKE_AMOUNT ∧ m.env.sender ∉ s.highestValidators) :
      KeepsActive s m := by
    constructor
    · rintro ⟨hcall, -⟩
      simp [hcall] at h
    · intro v hcall
      simp [hcall] at h
    · intro x hcall hseat
      simp [hcall, hseat] at h
    · intro v x hcall
      simp [hcall] at h
  refine ⟨by decide +kernel, no_inactive_member ?_⟩
  refine ⟨?_, ?_, ?_, ?_, ?_, ?_, ?_, trivial⟩ <;>
    · apply keeps
      decide +kernel

/-- Validator 1 is jailed while two are seated and keeps its seat; then two more
validators stake. -/
def carriedPrisoner : List Message :=
  Message.stakes [1, 2] ++ replicate FELONY_THRESHOLD (.slash 1) ++ Message.stakes [3, 4]

theorem carriedPrisoner_inactive : ¬ NoInactiveMember (run exec postInit carriedPrisoner) := by
  intro h
  have hseats : (run exec postInit carriedPrisoner).highestValidators = [1, 2, 3, 4] := by
    decide +kernel
  have hjail : ((run exec postInit carriedPrisoner).validatorInfo 1).status = .Jailed := by
    decide +kernel
  have hst := h (by rw [hseats]; decide) 1 (by rw [hseats]; exact mem_cons_self)
  rw [hjail] at hst
  cases hst

end

end Dexit.Staking
