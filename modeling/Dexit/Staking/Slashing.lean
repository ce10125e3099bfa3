import Dexit.Staking.Election

/-! Punishing validators that miss blocks, and leaving jail. -/

namespace Dexit.Staking

open Solidity Outcome Function
variable (s : State)

/-- The loop of `distributeRewardIncomeExcept`: every seat is credited, a
validator seated twice is credited twice. -/
def creditIncome (averageDistribute : Nat) :
    List Address → (Address → Validator) → Result (Address → Validator)
  | [], info => pure info
  | a :: rest, info => do
    let income ← add (info a).income averageDistribute
    creditIncome averageDistribute rest (update info a { info a with income := income })

def distributeRewardIncomeExcept (averageDistribute : Nat) : Result State :=
  if averageDistribute ≠ 0 then do
    let info ← creditIncome averageDistribute s.highestValidators s.validatorInfo
    pure { s with validatorInfo := info }
  else pure s

/-- A validator punished for the first time enters the punish list. -/
def recordPunished (validator : Address) : State :=
  let punishInfo := s.punishRecord validator
  if punishInfo.isPunished = false then
    { s.setPunish validator
        { punishInfo with isPunished := true, index := s.punishValidator.length } with
      punishValidator := s.punishValidator ++ [validator] }
  else s

/-- Jailing: the seat is vacated and refilled, and the income goes to whoever
is seated now. -/
def felony (env : Env) (validator : Address) (income : Nat) : Result State := do
  let s := { s with highestValidators := removeFromHighestValidatorList s validator }
  let s := s.setValidator validator { s.validatorInfo validator with status := .Jailed }
  let s := { s with highestValidators := promoteHighest s 0 }
  let averageDistribute ← div income s.highestValidators.length
  let s ← distributeRewardIncomeExcept s averageDistribute
  let s := s.setValidator validator { s.validatorInfo validator with income := 0 }
  pure (s.setPunish validator
    { s.punishRecord validator with missedBlockCounter := 0, jailedTime := env.timestamp })

/-- The income is divided by one less than the number of seats, and then
credited to every seat. -/
def misdemeanor (validator : Address) (income : Nat) : Result State := do
  let rest ← sub s.highestValidators.length 1
  let averageDistribute ← div income rest
  let s ← distributeRewardIncomeExcept s averageDistribute
  pure (s.setValidator validator { s.validatorInfo validator with income := 0 })

def punish (env : Env) (validator : Address) : Result State := do
  nonPayable env
  require (env.sender = SLASH_CONTRACT_ADDR) "the message sender must be slash contract"
  let income := (s.validatorInfo validator).income
  let s := recordPunished s validator
  let counter ← add (s.punishRecord validator).missedBlockCounter 1
  let s := s.setPunish validator { s.punishRecord validator with missedBlockCounter := counter }
  let overFelony ← mod counter s.felonyThreshold
  if overFelony = 0 then felony s env validator income
  else do
    let overMisdemeanor ← mod counter s.misdemeanorThreshold
    if overMisdemeanor = 0 ∧ (s.validatorInfo validator).status ≠ .Jailed then
      misdemeanor s validator income
    else pure s

/-- Nothing here asks whether the requester is still seated. -/
def unJailedSeats (requester : Address) : Result (List Address) :=
  if s.highestValidators.length < s.maxValidators ∧ requester ≠ 0 then
    if s.minimumStakeAmount ≤ (s.validatorInfo requester).amount then
      pure (s.highestValidators ++ [requester])
    else pure s.highestValidators
  else replaceLowest s

def unJailed (env : Env) : Result State := do
  let s := s.receive env
  let requester := env.sender
  let punishInfo := s.punishRecord requester
  let endTime ← add punishInfo.jailedTime UNJAILING_PERIOD
  require ((s.validatorInfo requester).status = .Jailed) "Not in Jail"
  require (endTime ≤ env.timestamp) "WaitToUnjail"
  require (env.value = 2000 * ether) "Pay 2000 DXT"
  let s := s.setValidator requester { s.validatorInfo requester with status := .Staked }
  let highest ← unJailedSeats s requester
  let s := { s with highestValidators := highest }
  let s := s.setPunish requester
    { punishInfo with jailedTime := 0, index := 0, isPunished := false }
  pure { s with punishValidator := removeFromPunishValidator s requester }

/-! ## What a successful call did -/

/-- Every seat of the list has been credited. -/
def credited (average : Nat) (seats : List Address) (info : Address → Validator) :
    Address → Validator :=
  fun a => { info a with income := (info a).income + seats.count a * average }

/-- The income of `v` is forfeited. -/
def forfeitIncome (v : Address) (info : Address → Validator) : Address → Validator :=
  update info v { info v with income := 0 }

/-- The next missed block of `v` puts it in jail. -/
def Felony (v : Address) : Prop :=
  ((s.punishRecord v).missedBlockCounter + 1) % s.felonyThreshold = 0

instance (s : State) (v : Address) : Decidable (Felony s v) :=
  inferInstanceAs (Decidable (_ = _))

/-- The next missed block of `v` costs it its income but not its seat. -/
def Misdemeanor (v : Address) : Prop :=
  ((s.punishRecord v).missedBlockCounter + 1) % s.felonyThreshold ≠ 0 ∧
    ((s.punishRecord v).missedBlockCounter + 1) % s.misdemeanorThreshold = 0 ∧
    (s.validatorInfo v).status ≠ .Jailed

instance (s : State) (v : Address) : Decidable (Misdemeanor s v) :=
  inferInstanceAs (Decidable (_ ∧ _))

section Outcomes
variable {s t : State} {env : Env} {a v : Address}

/-- Rewards and forfeits do not move a status. -/
@[simp] theorem forfeitIncome_status (v : Address) (info : Address → Validator) (a : Address) :
    (forfeitIncome v info a).status = (info a).status :=
  update_field Validator.status (by rfl) a

@[simp] theorem credited_status (average : Nat) (seats : List Address)
    (info : Address → Validator) (a : Address) :
    (credited average seats info a).status = (info a).status := rfl

variable {average income : Nat} {seats : List Address}

theorem creditIncome_ok {xs : List Address} {info info' : Address → Validator}
    (h : creditIncome average xs info = .ok info') : info' = credited average xs info := by
  induction xs generalizing info with
  | nil =>
    simp only [creditIncome, pure_ok] at h
    subst h
    funext a
    simp [credited]
  | cons x rest ih =>
    simp only [creditIncome, bind_ok, add_ok] at h
    obtain ⟨_, ⟨_, rfl⟩, h⟩ := h
    rw [ih h]
    funext a
    by_cases ha : a = x
    · subst ha
      simp only [credited, update_self, List.count_cons_self, Nat.succ_mul]
      congr 1
      omega
    · simp only [credited, update_of_ne ha, List.count_cons_of_ne (Ne.symm ha)]

theorem distributeRewardIncomeExcept_ok (h : distributeRewardIncomeExcept s average = .ok t) :
    t = { s with validatorInfo := credited average s.highestValidators s.validatorInfo } := by
  unfold distributeRewardIncomeExcept at h
  split at h
  · simp only [bind_ok, pure_ok] at h
    obtain ⟨info, hinfo, rfl⟩ := h
    rw [creditIncome_ok hinfo]
  next hzero =>
    have hz : average = 0 := by simpa using hzero
    simp only [pure_ok] at h
    subst h hz
    unfold credited
    simp only [mul_zero, add_zero]

theorem felony_ok (h : felony s env v income = .ok t) :
    ∃ u, u = { s with
        highestValidators := removeFromHighestValidatorList s v
        validatorInfo := update s.validatorInfo v { s.validatorInfo v with status := .Jailed } } ∧
      promoteHighest u 0 ≠ [] ∧
      t = { u with
        highestValidators := promoteHighest u 0
        validatorInfo := forfeitIncome v
          (credited (income / (promoteHighest u 0).length) (promoteHighest u 0) u.validatorInfo)
        punishRecord := update s.punishRecord v { s.punishRecord v with
          missedBlockCounter := 0, jailedTime := env.timestamp } } := by
  simp only [felony, State.setValidator, State.setPunish, bind_ok, div_ok, pure_ok] at h
  obtain ⟨_, ⟨hne, rfl⟩, w, hw, rfl⟩ := h
  obtain rfl := distributeRewardIncomeExcept_ok hw
  refine ⟨_, rfl, ?_, rfl⟩
  intro hnil
  rw [hnil] at hne
  exact hne rfl

theorem misdemeanor_ok (h : misdemeanor s v income = .ok t) :
    1 < s.highestValidators.length ∧
    t = { s with
      validatorInfo := forfeitIncome v
        (credited (income / (s.highestValidators.length - 1)) s.highestValidators
          s.validatorInfo) } := by
  simp only [misdemeanor, State.setValidator, bind_ok, sub_ok, div_ok, pure_ok] at h
  obtain ⟨_, ⟨_, rfl⟩, _, ⟨hne, rfl⟩, w, hw, rfl⟩ := h
  obtain rfl := distributeRewardIncomeExcept_ok hw
  exact ⟨by omega, rfl⟩

/-- The punish list and its records with `v` on it. -/
structure Noted (s : State) (v : Address) (P : Address → PunishRecord) (L : List Address) :
    Prop where
  list : L = if (s.punishRecord v).isPunished then s.punishValidator else s.punishValidator ++ [v]
  others : ∀ a ≠ v, P a = s.punishRecord a
  noted : (P v).isPunished = true
  index : (P v).index = if (s.punishRecord v).isPunished then (s.punishRecord v).index
    else s.punishValidator.length

theorem recordPunished_eq (s : State) (v : Address) :
    ∃ P L, recordPunished s v = { s with punishRecord := P, punishValidator := L } ∧
      Noted s v P L ∧ (P v).missedBlockCounter = (s.punishRecord v).missedBlockCounter := by
  unfold recordPunished
  simp only
  split
  next hnot =>
    refine ⟨_, _, rfl, ⟨by rw [hnot]; rfl, fun a ha => update_of_ne ha _ _, ?_, ?_⟩, ?_⟩ <;>
      simp only [State.setPunish, update_self, hnot, Bool.false_eq_true, if_false]
  next hyes =>
    rw [Bool.not_eq_false] at hyes
    exact ⟨_, _, rfl, ⟨(if_pos hyes).symm, fun _ _ => rfl, hyes, (if_pos hyes).symm⟩, rfl⟩

theorem Noted.update {P : Address → PunishRecord} {L : List Address} {r : PunishRecord}
    (h : Noted s v P L) (hnoted : r.isPunished = (P v).isPunished) (hindex : r.index = (P v).index) :
    Noted s v (update P v r) L where
  list := h.list
  others a ha := (update_of_ne ha _ _).trans (h.others a ha)
  noted := by rw [update_self, hnoted]; exact h.noted
  index := by rw [update_self, hindex]; exact h.index

theorem punish_ok (h : punish s env v = .ok t) :
    ∃ P L, Noted s v P L ∧ let r := { s with punishRecord := P, punishValidator := L }
      ¬ (Felony s v ∨ Misdemeanor s v) ∧ t = r ∨
        Felony s v ∧ felony r env v (s.validatorInfo v).income = .ok t ∨
        Misdemeanor s v ∧ misdemeanor r v (s.validatorInfo v).income = .ok t := by
  simp only [punish, nonPayable, bind_ok, guardWith_ok, require_ok] at h
  obtain ⟨_, _, _, _, h⟩ := h
  obtain ⟨P, L, hr, hnoted, hcount⟩ := recordPunished_eq s v
  simp only [hr, State.setPunish, add_ok, mod_ok] at h
  obtain ⟨_, ⟨_, rfl⟩, _, ⟨_, rfl⟩, h⟩ := h
  simp only [hcount] at h
  refine ⟨update P v { P v with
    missedBlockCounter := (s.punishRecord v).missedBlockCounter + 1 }, L, hnoted.update rfl rfl, ?_⟩
  split at h
  next hfel =>
    exact .inr (.inl ⟨hfel, h⟩)
  next hfel =>
  simp only [bind_ok, mod_ok] at h
  obtain ⟨_, ⟨_, rfl⟩, h⟩ := h
  split at h
  next hmis =>
    exact .inr (.inr ⟨⟨hfel, hmis.1, hmis.2⟩, h⟩)
  next hmis =>
  cases h
  refine .inl ⟨?_, rfl⟩
  rintro (hf | ⟨_, hm⟩)
  · exact hfel hf
  · exact hmis hm

theorem punish_noted (h : punish s env v = .ok t) : Noted s v t.punishRecord t.punishValidator := by
  obtain ⟨P, L, hnoted, ⟨_, rfl⟩ | ⟨_, hf⟩ | ⟨_, hm⟩⟩ := punish_ok h
  · exact hnoted
  · obtain ⟨u, rfl, _, rfl⟩ := felony_ok hf
    exact hnoted.update rfl rfl
  · obtain ⟨_, rfl⟩ := misdemeanor_ok hm
    exact hnoted

theorem unJailed_ok (h : unJailed s env = .ok t) :
    (s.validatorInfo env.sender).status = .Jailed ∧
    (s.punishRecord env.sender).jailedTime + UNJAILING_PERIOD < wordSize ∧
    (s.punishRecord env.sender).jailedTime + UNJAILING_PERIOD ≤ env.timestamp ∧
    env.value = 2000 * ether ∧
    ∃ seats,
      let u := { s.receive env with
        validatorInfo := update s.validatorInfo env.sender
          { s.validatorInfo env.sender with status := .Staked } }
      unJailedSeats u env.sender = .ok seats ∧
      t = { u with
        highestValidators := seats
        punishRecord := update s.punishRecord env.sender { s.punishRecord env.sender with
          jailedTime := 0, index := 0, isPunished := false }
        punishValidator := swapRemoveFirst env.sender s.punishValidator } := by
  simp only [unJailed, State.setValidator, State.setPunish, bind_ok, add_ok, require_ok,
    pure_ok] at h
  obtain ⟨_, ⟨hword, rfl⟩, _, hst, _, htime, _, hval, seats, hseats, rfl⟩ := h
  exact ⟨hst, hword, htime, hval, seats, hseats, rfl⟩

/-- What a prisoner needs to leave jail: time, money, and a free seat or a
lowest one to compare with. -/
structure MayLeaveJail (s : State) (env : Env) : Prop where
  jailed : (s.validatorInfo env.sender).status = .Jailed
  word : (s.punishRecord env.sender).jailedTime + UNJAILING_PERIOD < wordSize
  served : (s.punishRecord env.sender).jailedTime + UNJAILING_PERIOD ≤ env.timestamp
  pays : env.value = 2000 * ether
  seats : s.highestValidators ≠ [] ∨ 0 < s.maxValidators ∧ env.sender ≠ 0

theorem unJailedSeats_returns : (∃ seats, unJailedSeats s a = .ok seats) ↔
    s.highestValidators ≠ [] ∨ 0 < s.maxValidators ∧ a ≠ 0 := by
  unfold unJailedSeats
  by_cases hroom : s.highestValidators.length < s.maxValidators ∧ a ≠ 0
  · rw [if_pos hroom]
    have hany : s.highestValidators ≠ [] ∨ 0 < s.maxValidators ∧ a ≠ 0 := .inr ⟨by omega, hroom.2⟩
    refine ⟨fun _ => hany, fun _ => ?_⟩
    split <;> exact ⟨_, rfl⟩
  · rw [if_neg hroom, replaceLowest_returns]
    refine ⟨.inl, ?_⟩
    rintro (hne | ⟨hmax, ha⟩) hnil
    · exact hne hnil
    · rw [hnil] at hroom
      exact hroom ⟨hmax, ha⟩

theorem unJailed_returns : (∃ t, unJailed s env = .ok t) ↔ MayLeaveJail s env := by
  have hseat (u : State) (hh : u.highestValidators = s.highestValidators)
      (hm : u.maxValidators = s.maxValidators) : (∃ seats, unJailedSeats u env.sender = .ok seats) ↔
        s.highestValidators ≠ [] ∨ 0 < s.maxValidators ∧ env.sender ≠ 0 := by
    rw [unJailedSeats_returns, hh, hm]
  constructor
  · rintro ⟨t, h⟩
    obtain ⟨hst, hword, htime, hval, seats, hseats, _⟩ := unJailed_ok h
    refine ⟨hst, hword, htime, hval, (hseat _ ?_ ?_).mp ⟨seats, hseats⟩⟩
    · rfl
    · rfl
  · intro h
    obtain ⟨seats, hseats⟩ := (hseat ((s.receive env).setValidator env.sender
      { s.validatorInfo env.sender with status := .Staked }) rfl rfl).mpr h.seats
    simp only [unJailed, bind_ok, add_ok, require_ok, pure_ok]
    exact ⟨_, _, ⟨h.word, rfl⟩, (), h.jailed, (), h.served, (), h.pays, seats, hseats, rfl⟩

end Outcomes

end Dexit.Staking
