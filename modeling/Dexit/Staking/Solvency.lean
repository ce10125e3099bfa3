import Dexit.Staking.Bookkeeping

/-! What the contract owes and what it holds. Stakes are owed through the coins
of validators; rewards are owed to validators, delegators and contract owners. -/

namespace Dexit.Staking

open Solidity Outcome List Function

def validatorRewards (s : State) : ℕ := ∑ v, (s.validatorInfo v).income

def delegatorRewards (s : State) : ℕ := ∑ d, ∑ v, (s.stakingInfo d v).income

def ownerRewards (s : State) : ℕ := ∑ o, s.register.rewardAmountOwner o

/-- Rewards that have been credited and not yet claimed. -/
def rewards (s : State) : ℕ := validatorRewards s + delegatorRewards s + ownerRewards s

/-- The same with the fields `gV` and `gD` in place of the unclaimed income. -/
def rewardsBy (gV : Validator → ℕ) (gD : Delegator → ℕ) (s : State) : ℕ :=
  ∑ v, gV (s.validatorInfo v) + ∑ d, ∑ v, gD (s.stakingInfo d v) + ownerRewards s

def liabilities (s : State) : ℕ :=
  ∑ v, (s.validatorInfo v).coins + ∑ v, (s.validatorInfo v).income +
    ∑ d, ∑ v, (s.stakingInfo d v).income + ∑ o, s.register.rewardAmountOwner o

def Solvent (s : State) : Prop :=
  liabilities s ≤ s.balance

theorem liabilities_eq (s : State) : liabilities s = ∑ v, (s.validatorInfo v).coins + rewards s := by
  have h : liabilities s =
      ∑ v, (s.validatorInfo v).coins + validatorRewards s + delegatorRewards s + ownerRewards s := rfl
  rw [h, rewards]
  omega

section Credits
variable {s t : State} {env : Env}

/-! ## What is credited to owners and delegators -/

variable {xs contracts : List Address} {value coins : ℕ}

theorem creditOwners_total {per : ℕ} {amounts amounts' : Address → ℕ}
    (h : Register.creditOwners per xs amounts = .ok amounts') :
    ∑ o, amounts' o = ∑ o, amounts o + xs.length * per := by
  induction xs generalizing amounts with
  | nil =>
    simp only [Register.creditOwners, pure_ok] at h
    subst h
    simp
  | cons x rest ih =>
    simp only [Register.creditOwners, bind_ok, add_ok] at h
    obtain ⟨_, ⟨_, rfl⟩, h⟩ := h
    have hone := sum_update id amounts x (amounts x + per)
    simp only [id] at hone
    rw [ih h, length_cons, add_mul, one_mul]
    omega

theorem rewardOwners_funds {rest : ℕ} (h : rewardOwners s contracts value = .ok (t, rest)) :
    ownerRewards t + rest ≤ ownerRewards s + value ∧ t.balance = s.balance ∧
      t.validatorInfo = s.validatorInfo ∧ t.stakingInfo = s.stakingInfo := by
  obtain ⟨owners, pot, amounts, hle, rfl, hcredit, rfl⟩ := rewardOwners_ok h
  refine ⟨?_, rfl, rfl, rfl⟩
  have hpot := Nat.mul_div_le pot owners.length
  have htotal := creditOwners_total hcredit
  have hown : ownerRewards { s with register := { s.register with
      eligibleOwners := owners
      rewardAmountOwner := amounts } } = ∑ o, amounts o := rfl
  have hbefore : ownerRewards s = ∑ o, s.register.rewardAmountOwner o := rfl
  omega

/-- Delegators earn their shares of the pot, in every field `g` that counts
what they earn. -/
theorem creditDelegators_total (g : Delegator → ℕ) (hg : ∀ x r, g (Delegator.earn x r) = g x + r)
    {pot whole : ℕ} {v : Address} {S S' : Address → Address → Delegator}
    (h : creditDelegators pot v whole xs S = .ok S') :
    ∑ d, ∑ w, g (S' d w) = ∑ d, ∑ w, g (S d w) +
      (xs.map fun d => share SHARE_SCALE whole pot (S d v).amount).sum := by
  induction xs generalizing S with
  | nil =>
    simp only [creditDelegators, pure_ok] at h
    subst h
    simp
  | cons x rest ih =>
    have hone := sum_set₂ g S x v ((S x v).earn (share SHARE_SCALE whole pot (S x v).amount))
    have hsame : ∀ d, (set₂ S x v
        ((S x v).earn (share SHARE_SCALE whole pot (S x v).amount)) d v).amount = (S d v).amount :=
      fun d => Delegator.amount_eq_of_stake (set₂_earn_stake S x v _ d v)
    rw [hg] at hone
    rw [ih (creditDelegators_cons h), map_cons, sum_cons]
    simp only [hsame]
    omega

theorem Validator.income_earn (x : Validator) (r : ℕ) : (x.earn r).income = x.income + r := rfl

theorem Delegator.income_earn (x : Delegator) (r : ℕ) : (x.earn r).income = x.income + r := rfl

/-- Eligible and unstaking delegators together are all delegators. -/
theorem eligible_add_unstaking (s : State) (v : Address) (xs : List Address) :
    ((xs.filter fun d => decide ((s.stakingInfo d v).unstakeBlock = 0)).map
      fun d => (s.stakingInfo d v).amount).sum + unstaking s v xs =
      (xs.map fun d => (s.stakingInfo d v).amount).sum := by
  induction xs with
  | nil => simp [unstaking]
  | cons d rest ih =>
    simp only [unstaking, ne_eq] at ih ⊢
    by_cases hd : (s.stakingInfo d v).unstakeBlock = 0
    · simp only [filter_cons, hd, decide_true, ↓reduceIte, map_cons, sum_cons,
        not_true_eq_false, decide_false, Bool.false_eq_true]
      omega
    · simp only [filter_cons, hd, decide_false, Bool.false_eq_true, ↓reduceIte, map_cons,
        sum_cons, not_false_eq_true, decide_true]
      omega

/-- The coins of a validator cover its own stake and its delegators'. -/
theorem Sound.delegators_le_coins (hs : Sound s) (v : Address) :
    (s.validatorInfo v).amount +
      ((s.validatorInfo v).delegators.map fun d => (s.stakingInfo d v).amount).sum ≤
        (s.validatorInfo v).coins := by
  have hb := hs.coins_eq v
  have hl := sum_list_le (fun d => (s.stakingInfo d v).amount) (hs.valid.nodup v)
  have hd : (ledger s).delegators v = (s.validatorInfo v).delegators := rfl
  rw [hd] at hl
  omega

/-- Eligible delegators hold at most the coins that are shared among them. -/
theorem eligible_le (hs : Sound s) {o : State} (ho : o.stakingInfo = s.stakingInfo) {v : Address}
    {el : List Address}
    (h : scanDelegators o v (s.validatorInfo v).delegators [] (s.validatorInfo v).coins =
      .ok (el, coins)) :
    (el.map fun d => (s.stakingInfo d v).amount).sum ≤ coins - (s.validatorInfo v).amount := by
  obtain ⟨_, e⟩ := scanDelegators_ok.mp h
  have hun : unstaking o v = unstaking s v := by
    funext xs
    unfold unstaking
    rw [ho]
  rw [hun, ho] at e
  simp only [nil_append, Prod.mk.injEq] at e
  obtain ⟨rfl, rfl⟩ := e
  have hall := eligible_add_unstaking s v (s.validatorInfo v).delegators
  have hcoins := hs.delegators_le_coins v
  omega

section Fields
variable {gV : Validator → ℕ} {gD : Delegator → ℕ}
  (hV : ∀ x r, gV (Validator.earn x r) = gV x + r)
  (hD : ∀ x r, gD (Delegator.earn x r) = gD x + r)
include hV hD

theorem splitReward_funds {v : Address} (h : splitReward s v coins value = .ok t)
    (hel : (s.elegibleDel.map fun d => (s.stakingInfo d v).amount).sum ≤
      coins - (s.validatorInfo v).amount) :
    rewardsBy gV gD t ≤ rewardsBy gV gD s + value ∧ t.balance = s.balance := by
  obtain ⟨reward, staking, _, hle, hstaking, ht⟩ := splitReward_ok h
  refine ⟨?_, by rw [ht]⟩
  have hval : ∑ a, gV (t.validatorInfo a) = ∑ a, gV (s.validatorInfo a) + reward := by
    have hone := sum_update gV s.validatorInfo v ((s.validatorInfo v).earn reward)
    rw [hV] at hone
    rw [ht]
    simp only
    omega
  have hdel : ∑ d, ∑ w, gD (t.stakingInfo d w) ≤
      ∑ d, ∑ w, gD (s.stakingInfo d w) + (value - reward) := by
    rw [ht]
    obtain ⟨_, rfl⟩ | hstaking := hstaking
    · exact Nat.le_add_right _ _
    · rw [creditDelegators_total gD hD hstaking]
      exact Nat.add_le_add_left (sum_share_le SHARE_SCALE (value - reward) _ hel) _
  have hown : ownerRewards t = ownerRewards s := by rw [ht]; rfl
  unfold rewardsBy
  omega

/-- A deposit credits at most what it keeps, and keeps at most its value. -/
theorem deposit_funds (hs : Sound s) {v : Address} (h : deposit s env v contracts = .ok t) :
    rewardsBy gV gD t + s.balance ≤ rewardsBy gV gD s + t.balance ∧
      t.balance ≤ s.balance + env.value := by
  obtain ⟨b, rest, u, hb, hu, ht⟩ := deposit_ok h
  have hburn : ownerRewards b = ownerRewards s ∧ b.balance = s.balance + rest ∧ rest ≤ env.value ∧
      b.validatorInfo = s.validatorInfo ∧ b.stakingInfo = s.stakingInfo := by
    obtain ⟨toBurn, p, _, hle, rfl, rfl⟩ := burn_ok hb
    refine ⟨rfl, ?_, Nat.sub_le _ _, rfl, rfl⟩
    simp only [State.receive]
    omega
  obtain ⟨hob, hbb, hrest, hvb, hsb⟩ := hburn
  have hrb : rewardsBy gV gD b = rewardsBy gV gD s := by
    unfold rewardsBy
    rw [hob, hvb, hsb]
  have hru : rewardsBy gV gD u ≤ rewardsBy gV gD b + rest ∧ u.balance = b.balance := by
    obtain ⟨_, rfl⟩ | ⟨_, o, left, ho, hu⟩ := hu
    · exact ⟨Nat.le_add_right _ _, rfl⟩
    obtain ⟨hoo, hbo, hvo, hso⟩ := rewardOwners_funds ho
    have hro : rewardsBy gV gD o + left ≤ rewardsBy gV gD b + rest := by
      unfold rewardsBy
      rw [hvo, hso]
      omega
    obtain ⟨_, rfl⟩ | ⟨el, coins, hscan, hsplit⟩ := hu
    · exact ⟨by omega, hbo⟩
    have hel := eligible_le hs (hso.trans hsb) hscan
    rw [← hvb, ← hvo, ← hsb, ← hso] at hel
    obtain ⟨hru, hbu⟩ := splitReward_funds hV hD hsplit hel
    have hroe : rewardsBy gV gD { o with elegibleDel := el } = rewardsBy gV gD o := rfl
    exact ⟨by omega, hbu.trans hbo⟩
  have hrt : rewardsBy gV gD t = rewardsBy gV gD u := by rw [ht]; rfl
  have hbt : t.balance = u.balance := by rw [ht]
  omega

end Fields

end Credits

/-! ## What is taken from a punished validator -/

/-- A validator outside the top list loses its income at a missed block, and
the seats, one more than the divisor, are credited with more than it lost. -/
def Mints (s : State) (m : Message) : Prop :=
  ∃ v, m.call = .punish v ∧ Misdemeanor s v ∧ v ∉ s.highestValidators ∧
    (s.validatorInfo v).income < s.highestValidators.length *
      ((s.validatorInfo v).income / (s.highestValidators.length - 1))

section Punishment
variable {s t : State} {env : Env} {v : Address}

theorem redistributed_total (average : ℕ) (seats : List Address) (v : Address)
    (info : Address → Validator) :
    ∑ a, (forfeitIncome v (credited average seats info) a).income +
        ((info v).income + seats.count v * average) =
      ∑ a, (info a).income + seats.length * average := by
  have hcredit : ∑ a, (credited average seats info a).income =
      ∑ a, (info a).income + seats.length * average := by
    rw [← sum_count_mul seats average, ← Finset.sum_add_distrib]
    rfl
  have hone := sum_update Validator.income (credited average seats info) v
    { credited average seats info v with income := 0 }
  have hinc : (credited average seats info v).income =
    (info v).income + seats.count v * average := rfl
  rw [hcredit, hinc] at hone
  simp only [add_zero] at hone
  exact hone

/-- The seats that share the income of `v`. After a felony its own is vacated if there are more
than three, and a free one is filled. -/
def heirs (s : State) (v : Address) : List Address :=
  if Felony s v then
    promoteHighest { s with
      highestValidators := removeFromHighestValidatorList s v
      validatorInfo := update s.validatorInfo v { s.validatorInfo v with status := .Jailed } } 0
  else s.highestValidators

/-- What each of these seats is credited with. -/
def heritage (s : State) (v : Address) : ℕ :=
  (s.validatorInfo v).income / if Felony s v then (heirs s v).length else (heirs s v).length - 1

theorem Misdemeanor.heirs_eq (h : Misdemeanor s v) : heirs s v = s.highestValidators := if_neg h.1

theorem Misdemeanor.heritage_eq (h : Misdemeanor s v) :
    heritage s v = (s.validatorInfo v).income / (s.highestValidators.length - 1) := by
  rw [heritage, if_neg (show ¬ Felony s v from h.1), h.heirs_eq]

/-- What a punishment takes from `v`, it gives to the seats. -/
structure Inherited (s t : State) (v : Address) : Prop where
  seats : t.highestValidators = heirs s v
  lost : (t.validatorInfo v).income = 0
  total : validatorRewards t + ((s.validatorInfo v).income + (heirs s v).count v * heritage s v) =
    validatorRewards s + (heirs s v).length * heritage s v

/-- No election looks at the punishments. -/
theorem highestFrom_punish (s : State) (P : Address → PunishRecord) (L : List Address) :
    ∀ (xs : List Address) (k : ℕ) (high : ℕ × ℕ × Address),
      highestFrom { s with punishRecord := P, punishValidator := L } xs k high =
        highestFrom s xs k high
  | [], _, _ => rfl
  | a :: rest, k, high => by
    rw [highestFrom, highestFrom, highestFrom_punish s P L rest, highestFrom_punish s P L rest]
    rfl

variable {P : Address → PunishRecord} {L : List Address}

theorem felony_inherited (hfel : Felony s v)
    (h : felony { s with punishRecord := P, punishValidator := L } env v
      (s.validatorInfo v).income = .ok t) : Inherited s t v := by
  obtain ⟨u, hu, _, ht⟩ := felony_ok h
  have hseats : heirs s v = promoteHighest u 0 := by
    rw [heirs, if_pos hfel, hu, promoteHighest, promoteHighest,
      highestCoinsInCurrentValidatorsNotInTopValidator, ← highestFrom_punish _ P L]
    rfl
  have hinc : (u.validatorInfo v).income = (s.validatorInfo v).income := by
    rw [hu]
    simp only [update_self]
  have hsum : ∑ a, (u.validatorInfo a).income = validatorRewards s := by
    rw [hu]
    exact sum_update_same Validator.income s.validatorInfo v _ rfl
  refine ⟨by rw [ht, hseats], by rw [ht]; exact congrArg _ (update_self ..), ?_⟩
  have hmove := redistributed_total (heritage s v) (heirs s v) v u.validatorInfo
  rw [hinc, hsum] at hmove
  rw [← hmove, heritage, if_pos hfel, hseats, validatorRewards, ht]

theorem misdemeanor_inherited
    (hmis : Misdemeanor s v) (h : misdemeanor { s with punishRecord := P, punishValidator := L } v
      (s.validatorInfo v).income = .ok t) :
    1 < s.highestValidators.length ∧ Inherited s t v := by
  obtain ⟨hlen, rfl⟩ := misdemeanor_ok h
  refine ⟨hlen, hmis.heirs_eq.symm, congrArg _ (update_self ..), ?_⟩
  have hmove := redistributed_total (heritage s v) (heirs s v) v s.validatorInfo
  rw [validatorRewards, validatorRewards, ← hmove, hmis.heritage_eq, hmis.heirs_eq]

/-- Only validators are paid and fined by a punishment. -/
theorem punish_rewards (h : punish s env v = .ok t) :
    t.stakingInfo = s.stakingInfo ∧ t.register = s.register ∧ t.balance = s.balance ∧
      (¬ (Felony s v ∨ Misdemeanor s v) ∧ t.highestValidators = s.highestValidators ∧
          t.validatorInfo = s.validatorInfo ∨
        Felony s v ∧ Inherited s t v ∨
        Misdemeanor s v ∧ 1 < s.highestValidators.length ∧ Inherited s t v) := by
  obtain ⟨P, L, _, ⟨hno, rfl⟩ | ⟨hfel, hf⟩ | ⟨hmis, hm⟩⟩ := punish_ok h
  · exact ⟨rfl, rfl, rfl, .inl ⟨hno, rfl, rfl⟩⟩
  · have hinherited := felony_inherited hfel hf
    obtain ⟨u, rfl, _, rfl⟩ := felony_ok hf
    exact ⟨rfl, rfl, rfl, .inr (.inl ⟨hfel, hinherited⟩)⟩
  · have hinherited := misdemeanor_inherited hmis hm
    obtain ⟨_, rfl⟩ := misdemeanor_ok hm
    exact ⟨rfl, rfl, rfl, .inr (.inr ⟨hmis, hinherited⟩)⟩

/-- A felon that keeps its seat loses the share it is credited with as well. -/
theorem Inherited.felony_total (hi : Inherited s t v) (hfel : Felony s v) :
    let income := (s.validatorInfo v).income
    let felons := (heirs s v).length
    validatorRewards t + (income % felons + (heirs s v).count v * (income / felons)) =
      validatorRewards s := by
  have htotal := hi.total
  have hdiv := Nat.div_add_mod (s.validatorInfo v).income (heirs s v).length
  rw [heritage, if_pos hfel] at htotal
  omega

/-- A misdemeanor credits one share more than it has divided the income into. -/
theorem Inherited.misdemeanor_total (hi : Inherited s t v) (hmis : Misdemeanor s v)
    (hlen : 1 < s.highestValidators.length) :
    let income := (s.validatorInfo v).income
    let others := s.highestValidators.length - 1
    validatorRewards t + (income % others + s.highestValidators.count v * (income / others)) =
      validatorRewards s + income / others := by
  obtain ⟨n, hn⟩ : ∃ n, s.highestValidators.length = n + 1 :=
    Nat.exists_eq_succ_of_ne_zero (by omega)
  have htotal := hi.total
  have hdiv := Nat.div_add_mod (s.validatorInfo v).income n
  rw [hmis.heritage_eq, hmis.heirs_eq, hn, Nat.add_sub_cancel, Nat.succ_mul] at htotal
  rw [hn, Nat.add_sub_cancel]
  omega

theorem punish_funds (hno : ¬ Mints s ⟨env, .punish v⟩)
    (h : punish s env v = .ok t) : rewards t ≤ rewards s ∧ t.balance = s.balance := by
  obtain ⟨hS, hR, hB, hcase⟩ := punish_rewards h
  refine ⟨?_, hB⟩
  have hdel : delegatorRewards t = delegatorRewards s := by
    unfold delegatorRewards
    rw [hS]
  have hown : ownerRewards t = ownerRewards s := by
    unfold ownerRewards
    rw [hR]
  suffices hval : validatorRewards t ≤ validatorRewards s by
    unfold rewards
    omega
  obtain ⟨_, _, hsame⟩ | ⟨hfel, hi⟩ | ⟨hmis, hlen, hi⟩ := hcase
  · exact Nat.le_of_eq (by rw [validatorRewards, hsame, validatorRewards])
  · exact Nat.le.intro (hi.felony_total hfel)
  · have htotal := hi.misdemeanor_total hmis hlen
    by_cases hmem : v ∈ s.highestValidators
    · have hone := Nat.le_mul_of_pos_left ((s.validatorInfo v).income /
        (s.highestValidators.length - 1)) (count_pos_iff.mpr hmem)
      omega
    · by_contra hlt
      refine hno ⟨v, rfl, hmis, hmem, ?_⟩
      have htotal := hi.total
      rw [hmis.heritage_eq, hmis.heirs_eq, count_eq_zero_of_not_mem hmem] at htotal
      omega

/-- What a misdemeanor of a validator without a seat mints. -/
theorem Misdemeanor.mints (hmis : Misdemeanor s v) (hno : v ∉ s.highestValidators)
    (hshare : (s.validatorInfo v).income % (s.highestValidators.length - 1) <
      (s.validatorInfo v).income / (s.highestValidators.length - 1))
    (h : punish s env v = .ok t) : validatorRewards s < validatorRewards t := by
  obtain ⟨_, _, _, ⟨hsafe, _⟩ | ⟨hfel, _⟩ | ⟨_, hmany, hi⟩⟩ := punish_rewards h
  · exact (hsafe (.inr hmis)).elim
  · exact (hmis.1 hfel).elim
  · have htotal := hi.misdemeanor_total hmis hmany
    rw [count_eq_zero_of_not_mem hno] at htotal
    omega

/-- What is taken from `v` is given to the seats but for less than one unit each. A felon that
keeps its seat is credited and fined at once. A misdemeanor divides by one seat less than it
credits, so one of the seats has to be that of `v`. -/
def Redistributes (s : State) (v : Address) : Prop :=
  let income := (s.validatorInfo v).income
  let felons := (heirs s v).length
  let others := s.highestValidators.length - 1
  (Felony s v → income % felons + (heirs s v).count v * (income / felons) < felons) ∧
  (Misdemeanor s v →
    income / others ≤ income % others + s.highestValidators.count v * (income / others) ∧
    income % others + s.highestValidators.count v * (income / others) ≤ income / others + others)

/-- Exactly then a punishment mints nothing and, if it fines `v`, loses less than one unit for
each seat. -/
theorem punish_redistributes_iff (hlen : 2 ≤ s.highestValidators.length)
    (h : punish s env v = .ok t) :
    (validatorRewards t ≤ validatorRewards s ∧ ((t.validatorInfo v).income = 0 →
      validatorRewards s < validatorRewards t + t.highestValidators.length)) ↔
    Redistributes s v := by
  obtain ⟨_, _, _, ⟨hno, hseats, hsame⟩ | ⟨hfel, hi⟩ | ⟨hmis, _, hi⟩⟩ := punish_rewards h
  · refine iff_of_true ?_ ⟨fun hfel => (hno (.inl hfel)).elim, fun hm => (hno (.inr hm)).elim⟩
    rw [validatorRewards, validatorRewards, hsame, hseats]
    exact ⟨le_rfl, fun _ => by omega⟩
  · have htotal := hi.felony_total hfel
    rw [hi.seats]
    constructor
    · rintro ⟨_, hlt⟩
      have := hlt hi.lost
      exact ⟨fun _ => by omega, fun hmis => (hmis.1 hfel).elim⟩
    · rintro ⟨hshare, _⟩
      have := hshare hfel
      exact ⟨by omega, fun _ => by omega⟩
  · have htotal := hi.misdemeanor_total hmis hlen
    rw [hi.seats, hmis.heirs_eq]
    constructor
    · rintro ⟨hle, hlt⟩
      have := hlt hi.lost
      exact ⟨fun hfel => (hmis.1 hfel).elim, fun _ => ⟨by omega, by omega⟩⟩
    · rintro ⟨_, hshare⟩
      obtain ⟨hle, hlt⟩ := hshare hmis
      exact ⟨by omega, fun _ => by omega⟩

end Punishment

/-! ## Every call -/

section Funds
variable {s t : State} {env : Env} {m : Message} {a v : Address} {x : ℕ}

theorem SameRewards.rewards_eq (h : SameRewards s t) : rewards t = rewards s := by
  have hval : validatorRewards t = validatorRewards s :=
    Finset.sum_congr rfl fun a _ => congrArg Prod.fst (h.validators a)
  have hdel : delegatorRewards t = delegatorRewards s :=
    Finset.sum_congr rfl fun d _ => Finset.sum_congr rfl fun v _ =>
      congrArg Prod.fst (h.delegators d v)
  have hown : ownerRewards t = ownerRewards s := by
    unfold ownerRewards
    rw [h.owners]
  rw [rewards, hval, hdel, hown, ← rewards]

variable {w : Validator}

/-- The record of one validator was written, but no rewards. -/
theorem SameRewards.of_update (hV : t.validatorInfo = update s.validatorInfo a w)
    (hw : w.rewards = (s.validatorInfo a).rewards)
    (hS : ∀ d v, (t.stakingInfo d v).rewards = (s.stakingInfo d v).rewards)
    (hR : t.register = s.register) : SameRewards s t := by
  refine ⟨?_, hS, by rw [hR]⟩
  intro b
  rw [hV]
  exact update_field Validator.rewards hw b

/-- One record of each kind was written, but no rewards. -/
theorem SameRewards.of_writes {d : Address} {x : Delegator}
    (hV : t.validatorInfo = update s.validatorInfo a w)
    (hw : w.rewards = (s.validatorInfo a).rewards)
    (hS : t.stakingInfo = set₂ s.stakingInfo d v x)
    (hx : x.rewards = (s.stakingInfo d v).rewards) (hR : t.register = s.register) :
    SameRewards s t := by
  refine .of_update hV hw ?_ hR
  rw [hS]
  exact set₂_field Delegator.rewards hx

/-- No rewards were written, and the balance covers what was added to the total. -/
def Secured (s t : State) : Prop :=
  SameRewards s t ∧ s.balance + t.totalDXTStake ≤ t.balance + s.totalDXTStake

/-- The calls that credit rewards, pay them out or take them away. -/
def Call.handlesRewards : Call → Bool
  | .deposit _ _ | .claimValidatorReward | .claimDelegatorReward _ | .claimOwnerReward
  | .registerContract _ _ | .punish _ => true
  | _ => false

theorem exec_secured (h : exec s m = .ok t) (hcall : m.call.handlesRewards = false) :
    Secured s t := by
  obtain ⟨env, call⟩ := m
  cases call with
  | stakeValidator =>
    obtain ⟨_, _, _, c, seats, hc, _, rfl⟩ := stakeValidator_ok h
    obtain ⟨v, S, rfl, hcase⟩ := creditStake_ok hc
    simp only [activate_eq, update_self, update_idem, State.receive]
    refine ⟨?_, by simp only; omega⟩
    obtain ⟨_, _, _, rfl, rfl⟩ | ⟨_, _, _, _, rfl, rfl⟩ | ⟨_, _, rfl, rfl⟩ := hcase
    · exact .of_update rfl rfl (fun _ _ => rfl) rfl
    · exact .of_writes rfl rfl rfl rfl rfl
    · exact .of_update rfl rfl (fun _ _ => rfl) rfl
  | stakeDelegator v =>
    obtain ⟨_, _, _, _, _, _, seats, _, rfl⟩ := stakeDelegator_ok h
    refine ⟨.of_writes rfl rfl rfl ?_ rfl, by simp only; omega⟩
    unfold Delegator.topUp
    split <;> rfl
  | unstakeValidator =>
    obtain ⟨_, _, _, u, rfl, rfl⟩ := unstakeValidator_ok h
    exact ⟨.of_writes rfl rfl rfl rfl rfl, le_rfl⟩
  | unstakeDelegators v =>
    obtain ⟨_, _, rfl⟩ := unstakeDelegators_ok h
    exact ⟨.of_writes (update_eq_self env.sender _).symm rfl rfl rfl rfl, le_rfl⟩
  | withdrawValidatorStaking x =>
    obtain ⟨may, status, v, C, seats, _, hv, _, rfl⟩ := withdrawValidatorStaking_ok h
    have := may.balance
    have := may.total
    refine ⟨.of_writes rfl ?_ rfl rfl rfl, by simp only; omega⟩
    obtain ⟨_, rfl, _⟩ | ⟨_, rfl, _⟩ := hv <;> rfl
  | withdrawDelegatorStaking v x =>
    obtain ⟨may, D, S, status, C, seats, hDS, _, _, rfl⟩ := withdrawDelegatorStaking_ok h
    have := may.balance
    have := may.total
    refine ⟨.of_update rfl rfl ?_ rfl, by simp only; omega⟩
    intro d w
    rw [hDS.field Delegator.rewards (fun _ _ => rfl)]
    exact set₂_field Delegator.rewards (by rfl) d w
  | unJailed =>
    -- The fee for leaving jail is owed to nobody.
    obtain ⟨_, _, _, _, seats, _, rfl⟩ := unJailed_ok h
    exact ⟨.of_update rfl rfl (fun _ _ => rfl) rfl, Nat.add_le_add_right (Nat.le_add_right _ _) _⟩
  | updateVotingValues name value =>
    obtain rfl | ⟨_, hmin⟩ | ⟨_, hnum⟩ := updateVotingValues_ok h
    · exact ⟨⟨fun _ => rfl, fun _ _ => rfl, rfl⟩, le_rfl⟩
    · obtain ⟨_, rfl, _⟩ := updateMinimumStakeAmount_ok hmin
      exact ⟨⟨fun _ => rfl, fun _ _ => rfl, rfl⟩, le_rfl⟩
    · obtain ⟨_, _, _, rfl, _⟩ := updateMaxValidators_ok hnum
      exact ⟨⟨fun _ => rfl, fun _ _ => rfl, rfl⟩, le_rfl⟩
  | pushContractOwner c o =>
    obtain ⟨_, _, rfl⟩ := pushContractOwner_ok.mp h
    exact ⟨⟨fun _ => rfl, fun _ _ => rfl, rfl⟩, le_rfl⟩
  | _ => cases hcall

/-- Rewards grow by no more than the balance does beyond the total stake. -/
theorem exec_funds (hs : Sound s) (hno : ¬ Mints s m) (h : exec s m = .ok t) :
    rewards t + s.balance + t.totalDXTStake ≤ rewards s + t.balance + s.totalDXTStake := by
  obtain ⟨hl, _⟩ := exec_ledger hs.pending h
  have htotal : t.totalDXTStake = ((ledger s).apply (ledgerOp s m)).total :=
    congrArg Ledger.total hl
  have paid (hr : rewards t + s.balance ≤ rewards s + t.balance)
      (htot : t.totalDXTStake = s.totalDXTStake) :
      rewards t + s.balance + t.totalDXTStake ≤ rewards s + t.balance + s.totalDXTStake := by
    omega
  obtain ⟨env, call⟩ := m
  cases call with
  | deposit v contracts =>
    exact paid (deposit_funds Validator.income_earn Delegator.income_earn hs h).1 htotal
  -- claiming pays out exactly what it takes off the books
  | claimValidatorReward =>
    refine paid ?_ htotal
    obtain ⟨p, R, C, _, rfl⟩ := claimValidatorReward_ok h
    have hpaid := sum_update_zero Validator.income s.validatorInfo env.sender
      { s.validatorInfo env.sender with income := 0 } rfl
    simp only [rewards, validatorRewards, delegatorRewards, ownerRewards] at hpaid ⊢
    omega
  | claimDelegatorReward v =>
    refine paid ?_ htotal
    obtain ⟨p, R, rfl⟩ := claimDelegatorReward_ok h
    have hpaid := sum_set₂_zero Delegator.income s.stakingInfo env.sender v
      { s.stakingInfo env.sender v with income := 0 } rfl
    simp only [rewards, validatorRewards, delegatorRewards, ownerRewards] at hpaid ⊢
    omega
  | claimOwnerReward =>
    refine paid ?_ htotal
    obtain ⟨R, rfl⟩ := claimOwnerReward_ok h
    have hpaid := sum_update_zero id s.register.rewardAmountOwner env.sender 0 rfl
    simp only [rewards, validatorRewards, delegatorRewards, ownerRewards, id] at hpaid ⊢
    omega
  | registerContract c r =>
    refine paid ?_ htotal
    obtain rfl := registerContract_ok h
    have hdropped := sum_update_zero id s.register.rewardAmountOwner r 0 rfl
    simp only [rewards, validatorRewards, delegatorRewards, ownerRewards, id] at hdropped ⊢
    omega
  | punish v =>
    obtain ⟨hr, hb⟩ := punish_funds hno h
    exact paid (by omega) htotal
  | _ =>
    obtain ⟨hsame, hcovered⟩ := exec_secured h rfl
    have := hsame.rewards_eq
    omega

theorem exec_solvent (hs : Sound s) (hno : ¬ Mints s m) (hsol : Solvent s)
    (h : exec s m = .ok t) : Solvent t := by
  have hdrift := exec_drift hs.pending h
  have hfunds := exec_funds hs hno h
  unfold Solvent at hsol ⊢
  rw [liabilities_eq] at hsol ⊢
  omega

/-- Nobody is recorded. -/
structure Blank (s : State) : Prop where
  validators : ∀ v, s.validatorInfo v = {}
  delegators : ∀ d v, s.stakingInfo d v = {}
  owners : ∀ o, s.register.rewardAmountOwner o = 0

theorem blank_postInit : Blank postInit := ⟨fun _ => rfl, fun _ _ => rfl, fun _ => rfl⟩

theorem Blank.sums {gV : Validator → ℕ} {gD : Delegator → ℕ} (h : Blank s) (hV : gV {} = 0) (hD : gD {} = 0) :
    ∑ v, (s.validatorInfo v).coins = 0 ∧ rewardsBy gV gD s = 0 := by
  simp only [rewardsBy, ownerRewards, h.validators, h.delegators, h.owners, hV, hD, Finset.sum_const_zero]
  exact ⟨trivial, rfl⟩

theorem Blank.solvent (h : Blank s) : Solvent s := by
  obtain ⟨hcoins, hnone⟩ : _ ∧ rewardsBy Validator.income Delegator.income s = 0 := h.sums rfl rfl
  unfold rewardsBy ownerRewards at hnone
  unfold Solvent liabilities
  omega

/-- In every run in which no punishment mints, the contract holds what it owes
in every state. -/
theorem solvent_throughout {calls : List Message}
    (h : Along exec (fun s m => ¬ Mints s m) postInit calls) :
    Throughout exec Solvent postInit calls := by
  have all : Throughout exec (fun s => Sound s ∧ Solvent s) postInit calls := by
    refine throughout_of_preserved ?_ ?_ h
    · rintro s m t ⟨hs, hsol⟩ hno ht
      exact ⟨exec_sound hs ht, exec_solvent hs hno hsol ht⟩
    · exact ⟨sound_postInit, blank_postInit.solvent⟩
  exact all.mono fun s hs => hs.2

/-- A run with a reward and missed blocks of its seated validator. -/
theorem solvent_throughout_seated :
    let calls : List Message := [.stake 1 MINIMUM_STAKE_AMOUNT, .stake 2 MINIMUM_STAKE_AMOUNT,
      ⟨{ sender := 1, coinbase := 1, value := 400 }, .deposit 1 []⟩, .slash 1]
    Along exec (fun s m => ¬ Mints s m) postInit calls ∧
      Throughout exec Solvent postInit calls := by
  intro calls
  have hno : Along exec (fun s m => ¬ Mints s m) postInit calls := by
    refine ⟨?_, ?_, ?_, ?_, trivial⟩ <;> rintro ⟨v, hv, hmis, _⟩ <;> cases hv
    revert hmis
    decide +kernel
  exact ⟨hno, solvent_throughout hno⟩

/-- Validator 6 stays outside the five seats, is sent one reward and misses
fifty blocks: its income of 396 is divided by four and credited five times. -/
def outsiderPunished : List Message :=
  Message.stakes [1, 2, 3, 4, 5, 6] ++ [⟨{ sender := 1, coinbase := 1, value := 400 }, .deposit 6 []⟩] ++
    List.replicate MISDEMEANOR_THRESHOLD (.slash 6)

/-- Some validators are owed more than the contract holds. -/
theorem not_solvent_of_short {xs : List Address} (hxs : xs.Nodup)
    (h : t.balance < (xs.map fun a => (t.validatorInfo a).coins).sum +
      (xs.map fun a => (t.validatorInfo a).income).sum) : ¬ Solvent t := by
  have hcoins := sum_list_le (fun a => (t.validatorInfo a).coins) hxs
  have hincome := sum_list_le (fun a => (t.validatorInfo a).income) hxs
  unfold Solvent liabilities
  omega

theorem outsiderPunished_insolvent : ¬ Solvent (run exec postInit outsiderPunished) := by
  apply not_solvent_of_short (show ([1, 2, 3, 4, 5, 6] : List Address).Nodup by decide)
  decide +kernel

/-- Six validators stake, one of them is sent a reward and then misses blocks until the next one
costs it this income. -/
def nearlyFined (v : Address) : State :=
  run exec postInit (Message.stakes [1, 2, 3, 4, 5, 6] ++
    [⟨{ sender := 1, coinbase := 1, value := 400 }, .deposit v []⟩] ++
    List.replicate (MISDEMEANOR_THRESHOLD - 1) (.slash v))

theorem punish_redistributes_member :
    2 ≤ (nearlyFined 1).highestValidators.length ∧ Redistributes (nearlyFined 1) 1 ∧
      ∃ t, punish (nearlyFined 1) (Message.slash 1).env 1 = .ok t ∧
        validatorRewards t ≤ validatorRewards (nearlyFined 1) := by
  have hlen : 2 ≤ (nearlyFined 1).highestValidators.length := by decide +kernel
  have hshares : Redistributes (nearlyFined 1) 1 := by
    unfold Redistributes
    decide +kernel
  obtain ⟨t, ht⟩ := exists_ok (show (punish (nearlyFined 1) (Message.slash 1).env 1).isOk = true by
    decide +kernel)
  exact ⟨hlen, hshares, t, ht, ((punish_redistributes_iff hlen ht).mpr hshares).1⟩

/-- The five seats are credited with a quarter of the income of the sixth each. -/
theorem punish_mints_for_outsider :
    2 ≤ (nearlyFined 6).highestValidators.length ∧
      ∃ t, punish (nearlyFined 6) (Message.slash 6).env 6 = .ok t ∧
        validatorRewards (nearlyFined 6) < validatorRewards t := by
  obtain ⟨t, ht⟩ := exists_ok (show (punish (nearlyFined 6) (Message.slash 6).env 6).isOk = true by
    decide +kernel)
  have hmis : Misdemeanor (nearlyFined 6) 6 := by decide +kernel
  exact ⟨by decide +kernel, t, ht, hmis.mints (by decide +kernel) (by decide +kernel) ht⟩

end Funds

end Dexit.Staking
