import Dexit.Solidity.Ranking
import Dexit.Staking.Deposit

/-! The top list as an election: the runs in which its seats go to the eligible
validators with the most coins. -/

namespace Dexit.Staking

open Solidity Outcome List
open Function

/-- No eligible validator is left out while a seat is free, and when none is,
no eligible validator that is left out has more coins than any member. -/
def Optimal (s : State) : Prop :=
  (s.highestValidators.length < s.maxValidators → ∀ a, Fit s a → a ∈ s.highestValidators) ∧
    (s.highestValidators.length = s.maxValidators → ∀ a, Fit s a → a ∉ s.highestValidators →
      ∀ b ∈ s.highestValidators, getCoins s a ≤ getCoins s b)

/-- Seats that are ranked by coins. -/
abbrev Ranks (s : State) (seats : List Address) : Prop :=
  Ranked s.maxValidators (getCoins s) (Fit s) seats

abbrev InOrder (s : State) (seats : List Address) : Prop := Ordered (getCoins s) (Fit s) seats

/-- The seats are ranked by coins. -/
def Elected (s : State) : Prop :=
  Ranked s.maxValidators (getCoins s) (Fit s) s.highestValidators

theorem Elected.optimal {s : State} (h : Elected s) : Optimal s := ⟨h.exhausted, fun _ => h.ordered⟩

/-- Whoever is eligible has coins, and is somebody. -/
structure Funded (s : State) : Prop where
  minimum : 0 < s.minimumStakeAmount
  nobody : (s.validatorInfo 0).amount = 0
  coins : ∀ a, (s.validatorInfo a).amount ≤ (s.validatorInfo a).coins

/-! ## The scans find the lowest member and the best candidate -/

section Scans
variable {s : State} {a : Address}

theorem Funded.ne_zero (hf : Funded s) (ha : Fit s a) : a ≠ 0 := by
  rintro rfl
  have hmin := ha.2.2
  have hpos := hf.minimum
  rw [hf.nobody] at hmin
  omega

theorem Funded.minimum_le (hf : Funded s) (ha : Fit s a) : s.minimumStakeAmount ≤ getCoins s a :=
  le_trans ha.2.2 (hf.coins a)

theorem lowest_lowest {low idx : Nat} (h : lowestCoinsInHighestValidator s = .ok (low, idx, a)) :
    Lowest (getCoins s) s.highestValidators idx a ∧ low = getCoins s a := by
  obtain ⟨hslot, hlow, hmin⟩ := lowest_spec h
  refine ⟨⟨hslot, fun b hb => ?_⟩, hlow⟩
  rw [← hlow]
  exact hmin b hb

/-- The zero address is returned exactly when nobody eligible is left out. -/
theorem highest_best (hf : Funded s) :
    (∃ idx, highestCoinsInCurrentValidatorsNotInTopValidator s = (0, idx, 0) ∧
      Exhausted (Fit s) s.highestValidators) ∨
    ∃ idx a, highestCoinsInCurrentValidatorsNotInTopValidator s = (getCoins s a, idx, a) ∧ a ≠ 0 ∧
      Best (getCoins s) (Fit s) s.highestValidators a := by
  unfold highestCoinsInCurrentValidatorsNotInTopValidator
  have elect {b : Address} (hb : Fit s b) (hout : b ∉ s.highestValidators) :
      electable s b = true := electable_iff.mpr ⟨hout, hb.2⟩
  obtain ⟨e, hmax⟩ | ⟨hm, he, hg, _, hmax⟩ :=
    highestFrom_spec (s := s) s.currentValidators 0 (0, 0, 0)
  · refine .inl ⟨0, e, fun b hb => ?_⟩
    by_contra hout
    have hle := hmax b hb.1 (elect hb hout)
    have hcoins := hf.minimum_le hb
    have hpos := hf.minimum
    omega
  · rcases hh : highestFrom s s.currentValidators 0 (0, 0, 0) with ⟨high, idx, a⟩
    rw [hh] at hm he hg hmax
    obtain ⟨hout, hst, hmin⟩ := electable_iff.mp he
    have hfit : Fit s a := ⟨hm, hst, hmin⟩
    refine .inr ⟨idx, a, Prod.ext hg rfl, hf.ne_zero hfit, hfit, hout, fun b hb hbout => ?_⟩
    rw [← hg]
    exact hmax b hb.1 (elect hb hbout)

end Scans

/-! ## Each election ranks the seats -/

section Elections
variable {s t : State} {v : Address} {seats : List Address}

theorem seat_ranked (fit : Address → Prop) (h : seat s v true = .ok seats)
    (hr : Ranked s.maxValidators (getCoins s) (fun a => fit a ∧ a ≠ v) s.highestValidators) :
    Ranked s.maxValidators (getCoins s) fit seats := by
  unfold seat at h
  split at h
  next hroom =>
    cases h
    exact hr.claim_free hroom.1
  next hno =>
    split at h
    next hfull =>
      simp only [bind_ok] at h
      obtain ⟨⟨low, idx, a⟩, hlow, h⟩ := h
      obtain ⟨hl, rfl⟩ := lowest_lowest hlow
      split at h
      next hlt =>
        obtain ⟨_, rfl⟩ := store_ok.mp h
        exact hr.claim_lowest hfull.1 hl hlt
      next hge =>
        cases h
        exact hr.claim_none hfull.1 hl (not_lt.mp hge)
    next hseated =>
      cases h
      refine hr.claim_seated ?_
      by_contra hout
      have htop : isTopValidator s v = false := by simpa [isTopValidator] using hout
      by_cases hlen : s.highestValidators.length < s.maxValidators
      · exact hno ⟨hlen, htop⟩
      · exact hseated ⟨not_lt.mp hlen, htop, rfl⟩

theorem promoteHighest_ranked (hf : Funded s) {floor : Nat} (hfloor : floor ≤ s.minimumStakeAmount)
    (ho : InOrder s s.highestValidators)
    (hroom : s.highestValidators.length + 1 < s.maxValidators →
      Exhausted (Fit s) s.highestValidators) :
    Ranks s (promoteHighest s floor) := by
  unfold promoteHighest
  obtain ⟨idx, hh, hall⟩ | ⟨idx, a, hh, ha, hbest⟩ := highest_best hf
  · simp only [hh]
    rw [if_neg (fun hc => hc.2.1 rfl)]
    exact hall.ranked
  simp only [hh]
  split
  · exact ho.elect hroom hbest
  next hno =>
    refine ⟨fun hlen => absurd ⟨hlen, ha, ?_⟩ hno, ho⟩
    exact hfloor.trans (hf.minimum_le hbest.ok)

/-- What is left of an election when `v` changes. -/
structure Unsettled (s : State) (v : Address) : Prop where
  nodup : s.highestValidators.Nodup
  ordered : OrderedBut v (getCoins s) (Fit s) s.highestValidators
  exhausted : s.highestValidators.length < s.maxValidators →
    Exhausted (fun a => Fit s a ∧ a ≠ v) s.highestValidators

theorem replaceLowest_ranked (h : replaceLowest s = .ok seats) (hf : Funded s)
    (hs : Unsettled s v) (hroom : s.highestValidators.length < s.maxValidators → Fit s v →
      v ∈ s.highestValidators) : Ranks s seats := by
  simp only [replaceLowest, bind_ok] at h
  obtain ⟨⟨low, i, l⟩, hlow, h⟩ := h
  obtain ⟨hl, rfl⟩ := lowest_lowest hlow
  obtain ⟨idx, hh, hall⟩ | ⟨idx, a, hh, ha, hbest⟩ := highest_best hf
  · rw [hh, if_neg (fun hc => hc.2 rfl)] at h
    cases h
    exact hall.ranked
  · -- somebody is left out, so no seat is free
    have hfull (hlen : s.highestValidators.length < s.maxValidators) : False := by
      refine hbest.unseated ?_
      by_cases hav : a = v
      · exact hav ▸ hroom hlen (hav ▸ hbest.ok)
      · exact hs.exhausted hlen a ⟨hbest.ok, hav⟩
    rw [hh] at h
    dsimp only at h
    split at h
    next hlt =>
      obtain ⟨_, rfl⟩ := store_ok.mp h
      refine ⟨fun hlen => (hfull ?_).elim, hs.ordered.handOver hs.nodup hl hbest hlt.1⟩
      simpa using hlen
    next hge =>
      cases h
      refine ⟨fun hlen => (hfull hlen).elim, hl.ordered fun b hb hout => ?_⟩
      exact (hbest.highest b hb hout).trans (not_lt.mp fun hlt => hge ⟨hlt, ha⟩)

/-- Unlike `replaceLowest` this seats the changed validator if a seat is free. -/
theorem reseatAfterWithdrawal_ranked (h : reseatAfterWithdrawal s = .ok seats) (hf : Funded s)
    (hs : Unsettled s v) : Ranks s seats := by
  rw [reseatAfterWithdrawal_eq] at h
  split at h
  next hfull => exact replaceLowest_ranked h hf hs fun hlen => absurd hlen (not_lt.mpr hfull)
  next hfree =>
    have hlen := not_le.mp hfree
    simp only [bind_ok, pure_ok] at h
    obtain ⟨_, _, rfl⟩ := h
    unfold promoteHighest
    obtain ⟨idx, hh, hall⟩ | ⟨idx, a, hh, ha, hbest⟩ := highest_best hf
    · simp only [hh]
      rw [if_neg (fun hc => hc.2.1 rfl)]
      exact hall.ranked
    · simp only [hh]
      rw [if_pos ⟨hlen, ha, Nat.zero_le _⟩]
      have hav : a = v := by
        by_contra hne
        exact hbest.unseated (hs.exhausted hlen a ⟨hbest.ok, hne⟩)
      exact hav ▸ Ranked.claim_free (Exhausted.ranked (hs.exhausted hlen)) hlen

theorem unJailedSeats_ranked (h : unJailedSeats s v = .ok seats) (hf : Funded s)
    (hs : Unsettled s v) : Ranks s seats := by
  unfold unJailedSeats at h
  split at h
  next hfree =>
    have others : Ranked s.maxValidators (getCoins s) (fun a => Fit s a ∧ a ≠ v)
        s.highestValidators := Exhausted.ranked (hs.exhausted hfree.1)
    split at h
    · cases h
      exact others.claim_free hfree.1
    next hmin =>
    cases h
    refine others.mono fun a ha => ⟨ha, ?_⟩
    rintro rfl
    exact hmin ha.2.2
  next hno =>
    exact replaceLowest_ranked h hf hs fun hlen hv => absurd ⟨hlen, hf.ne_zero hv⟩ hno

/-! ## Governance -/

/-- Whoever is removed for its coins is not eligible. -/
theorem dropBelowMinimum_ordered {fuel : Nat} (hf : Funded s)
    (ho : InOrder s s.highestValidators)
    (h : dropBelowMinimum fuel s = .ok t) :
    InOrder s t.highestValidators := by
  induction fuel generalizing s with
  | zero => cases h
  | succ n ih =>
    simp only [dropBelowMinimum, bind_ok] at h
    obtain ⟨⟨low, i, l⟩, hlow, h⟩ := h
    split at h
    · cases h
      exact ho
    next hlen =>
    split at h
    next hlt =>
      have unfit : ¬ Fit s l := fun hl => absurd (hf.minimum_le hl) (not_le.mpr hlt)
      simp only [removeFromHighestValidatorList, if_neg hlen] at h
      exact ih (s := { s with highestValidators := swapRemoveFirst l s.highestValidators })
        { hf with } (ho.vacate fun hl => absurd hl unfit) h
    · cases h
      exact ho

theorem dropLowest_ordered {n : Nat} (ho : InOrder s s.highestValidators)
    (h : dropLowest n s = .ok t) : InOrder s t.highestValidators := by
  induction n generalizing s with
  | zero =>
    simp only [dropLowest, pure_ok] at h
    subst h
    exact ho
  | succ n ih =>
    simp only [dropLowest, bind_ok] at h
    obtain ⟨⟨low, i, l⟩, hlow, h⟩ := h
    refine ih (s := { s with highestValidators := removeFromHighestValidatorList s l }) ?_ h
    simp only [removeFromHighestValidatorList]
    split
    · exact ho
    · exact ho.vacate fun _ => (lowest_lowest hlow).1.lowest

/-- A filling loop ends with nobody left out, or with all its seats filled. -/
def Filled (s : State) (n : Nat) (seats : List Address) : Prop :=
  InOrder s seats ∧
    (Exhausted (Fit s) seats ∨ seats.length = s.highestValidators.length + n)

theorem Filled.elected {fit : Address → Prop}
    (h : Filled s (s.maxValidators - s.highestValidators.length) t.highestValidators)
    (hlen : s.highestValidators.length < s.maxValidators) (ht : Joins s fit t) : Elected t := by
  obtain ⟨seats, rfl, _⟩ := ht
  change Filled s _ seats at h
  change Ranks s seats
  obtain ⟨ho, hall | hfull⟩ := h
  · exact hall.ranked
  · exact ⟨fun hroom => by omega, ho⟩

theorem Filled.push {n : Nat} {a : Address} (h : Filled
    { s with highestValidators := s.highestValidators ++ [a] } n seats) : Filled s (n + 1) seats := by
  refine ⟨h.1, h.2.imp_right fun hlen => ?_⟩
  simp only [length_append, length_singleton] at hlen
  omega

theorem fillAboveMinimum_filled (hf : Funded s)
    (ho : InOrder s s.highestValidators) (n : Nat) :
    Filled s n (fillAboveMinimum n s).highestValidators := by
  induction n generalizing s with
  | zero => exact ⟨ho, .inr rfl⟩
  | succ n ih =>
    obtain ⟨idx, hh, hall⟩ | ⟨idx, a, hh, ha, hbest⟩ := highest_best hf
    · simp only [fillAboveMinimum, hh]
      rw [if_neg (fun hc => hc.2 rfl)]
      exact ⟨ho, .inl hall⟩
    simp only [fillAboveMinimum, hh]
    rw [if_pos ⟨hf.minimum_le hbest.ok, ha⟩]
    exact Filled.push (ih (s := { s with highestValidators := s.highestValidators ++ [a] })
      { hf with } (ho.push hbest))

/-- Once nobody is left out the loop goes on without effect. -/
theorem fillSeats_of_none (n : Nat)
    (h : (highestCoinsInCurrentValidatorsNotInTopValidator s).2.2 = 0) : fillSeats n s = s := by
  induction n with
  | zero => rfl
  | succ n ih =>
    simp only [fillSeats]
    rw [if_neg (not_not.mpr h), ih]

theorem fillSeats_filled (hf : Funded s)
    (ho : InOrder s s.highestValidators) (n : Nat) :
    Filled s n (fillSeats n s).highestValidators := by
  induction n generalizing s with
  | zero => exact ⟨ho, .inr rfl⟩
  | succ n ih =>
    obtain ⟨idx, hh, hall⟩ | ⟨idx, a, hh, ha, hbest⟩ := highest_best hf
    · rw [fillSeats_of_none (n + 1) (by rw [hh])]
      exact ⟨ho, .inl hall⟩
    simp only [fillSeats, hh]
    rw [if_pos ha]
    exact Filled.push (ih (s := { s with highestValidators := s.highestValidators ++ [a] })
      { hf with } (ho.push hbest))

/-- A new minimum that keeps the order costs nobody eligible a seat. -/
theorem updateMinimumStakeAmount_elected {value : Nat}
    (hf : Funded { s with minimumStakeAmount := value })
    (ho : Ordered (getCoins s) (Fit { s with minimumStakeAmount := value }) s.highestValidators)
    (h : updateMinimumStakeAmount s value = .ok t) : Elected t := by
  simp only [updateMinimumStakeAmount, bind_ok] at h
  obtain ⟨u, hu, h⟩ := h
  have hord := dropBelowMinimum_ordered hf ho hu
  obtain ⟨seats, rfl, _⟩ := dropBelowMinimum_ok hu
  have hfu : Funded { s with minimumStakeAmount := value, highestValidators := seats } :=
    { hf with }
  split at h
  next hlen =>
    cases h
    have hfill := fillAboveMinimum_filled hfu hord (s.maxValidators - seats.length)
    exact hfill.elected hlen (fillAboveMinimum_joins _ (by simp only at hlen ⊢; omega))
  next hlen =>
    cases h
    exact ⟨fun hroom => absurd hroom hlen, hord⟩

theorem updateMaxValidators_elected {value : Nat} (hf : Funded s)
    (ho : InOrder s s.highestValidators)
    (h : updateMaxValidators s value = .ok t) : Elected t := by
  simp only [updateMaxValidators, bind_ok] at h
  obtain ⟨u, hu, h⟩ := h
  obtain ⟨kept, rfl, _⟩ := emptySeats_ok hu rfl
  have hord : InOrder s kept := by
    unfold emptySeats at hu
    split at hu
    · have hdrop := dropLowest_ordered (s := { s with preMaxValidators := s.maxValidators }) ho hu
      exact hdrop
    · simp only [pure_ok] at hu
      have hkept : s.highestValidators = kept := congrArg State.highestValidators hu
      exact hkept ▸ ho
  split at h
  next hlen =>
    cases h
    have hfu : Funded { s with
        preMaxValidators := s.maxValidators
        maxValidators := value
        highestValidators := kept } := { hf with }
    have hfill := fillSeats_filled hfu hord (value - kept.length)
    exact hfill.elected hlen (fillSeats_joins _ (by simp only at hlen ⊢; omega))
  next hlen =>
    cases h
    exact ⟨fun hroom => absurd hroom hlen, hord⟩

end Elections

/-! ## Every call -/

/-- A lower minimum makes somebody eligible that has more coins than a member,
or is no minimum at all. -/
def Overtaken (s : State) (m : Message) : Prop :=
  ∃ value, m.call = .updateVotingValues "minimumStakeAmount" value ∧ value < s.minimumStakeAmount ∧
    (value = 0 ∨ ∃ a, Fit { s with minimumStakeAmount := value } a ∧ a ∉ s.highestValidators ∧
      ∃ b ∈ s.highestValidators, getCoins s b < getCoins s a)

/-- Eligibility and coins are as before for everybody but `v`. -/
structure ChangedAt (s u : State) (v : Address) : Prop where
  fit : ∀ a, a ≠ v → Fit u a → Fit s a
  coins : ∀ a, a ≠ v → getCoins u a = getCoins s a

section Calls
variable {s t u : State} {m : Message} {env : Env} {v : Address}

theorem ChangedAt.of_update {w : Validator} (hv : u.validatorInfo = update s.validatorInfo v w)
    (hc : ∀ a, a ≠ v → a ∈ u.currentValidators → a ∈ s.currentValidators)
    (hm : u.minimumStakeAmount = s.minimumStakeAmount) : ChangedAt s u v := by
  constructor
  · rintro a hav ⟨hcur, hst, hmin⟩
    rw [hv, update_of_ne hav] at hst hmin
    exact ⟨hc a hav hcur, hst, hm ▸ hmin⟩
  · intro a hav
    rw [getCoins, hv, update_of_ne hav]
    rfl

/-- Rewards do not matter to an election, and neither does who stops being
listed. -/
theorem Elected.of_same (he : Elected s) (same : SameStakes s t)
    (hlisted : ∀ a, a ∈ t.currentValidators → a ∈ s.currentValidators) : Elected t := by
  have hcoins (a : Address) : getCoins t a = getCoins s a := same.coins a
  unfold Elected
  rw [same.maximum, same.highest, funext hcoins]
  refine Ranked.mono he ?_
  rintro a ⟨hcur, hst, hle⟩
  rw [same.status] at hst
  rw [same.minimum, same.amount] at hle
  exact ⟨hlisted a hcur, hst, hle⟩

theorem Funded.before (h : Funded t) (same : SameStakes s t) : Funded s := by
  obtain ⟨hmin, hzero, hle⟩ := h
  refine ⟨same.minimum ▸ hmin, same.amount 0 ▸ hzero, fun a => ?_⟩
  rw [← same.amount, ← same.coins]
  exact hle a

theorem exec_funded (hs : Sound s) (hf : Funded s) (hno : ¬ Overtaken s m)
    (h : exec s m = .ok t) : Funded t where
  minimum := by
    have hpos := hf.minimum
    obtain e | hcall := (exec_setup h).2.1
    · omega
    · by_contra hz
      exact hno ⟨_, hcall, by omega, .inl (by omega)⟩
  nobody := exec_zero_amount hs hf.nobody h
  coins := (exec_sound hs h).amount_le_coins

theorem stakeValidator_elected (ht : Funded t) (he : Elected s)
    (h : stakeValidator s env = .ok t) : Elected t := by
  obtain ⟨_, _, hjail, c, seats, hc, hseats, rfl⟩ := stakeValidator_ok h
  obtain ⟨w, S, rfl, hcredit⟩ := creditStake_ok hc
  have hgrow : (s.validatorInfo env.sender).coins ≤ w.coins ∧
      w.status = (s.validatorInfo env.sender).status := by
    obtain ⟨_, _, _, _, rfl⟩ | ⟨_, _, _, _, _, rfl⟩ | ⟨_, _, _, rfl⟩ := hcredit
    · exact ⟨Nat.le_add_right _ _, rfl⟩
    · exact ⟨Nat.le_add_right _ _, rfl⟩
    · exact ⟨le_rfl, rfl⟩
  simp only [update_self] at hseats
  rw [decide_eq_true (by rw [hgrow.2]; exact hjail)] at hseats
  obtain ⟨a, ha⟩ : ∃ a, a = activate { ({ s.receive env with
    validatorInfo := update (s.receive env).validatorInfo env.sender w
    stakingInfo := S } : State) with highestValidators := seats } env.sender := ⟨_, rfl⟩
  simp only [← ha] at ht ⊢
  simp only [activate_eq, update_self, update_idem] at ha
  have changed : ChangedAt s a env.sender := by
    rw [ha]
    refine .of_update rfl (fun b hb hcur => ?_) rfl
    exact (mem_enrolled.mp hcur).resolve_right hb
  have hcoins (b : Address) : getCoins ({ s.receive env with
      validatorInfo := update (s.receive env).validatorInfo env.sender w
      stakingInfo := S } : State) b = getCoins a b := by
    rw [ha]
    by_cases hb : b = env.sender
    · simp only [getCoins, hb, update_self]
    · simp only [getCoins, update_of_ne hb]
  have hclaim := seat_ranked (Fit a) hseats
    (he.grow changed.fit (fun b hb => (hcoins b).trans (changed.coins b hb)) ?_)
  · rw [funext hcoins] at hclaim
    have hfa : Funded a := { ht with }
    have hsame : a.highestValidators = seats := by rw [ha]
    have hmax : a.maxValidators = s.maxValidators := by rw [ha]; rfl
    refine promoteHighest_ranked hfa le_rfl ?_ ?_
    · rw [hsame]
      exact hclaim.ordered
    · intro hlen
      rw [hsame] at hlen ⊢
      refine hclaim.exhausted ?_
      rw [hmax] at hlen
      exact Nat.lt_of_succ_lt hlen
  · simpa only [getCoins, update_self] using hgrow.1

theorem stakeDelegator_elected (he : Elected s) (h : stakeDelegator s env v = .ok t) :
    Elected t := by
  obtain ⟨_, _, _, _, _, _, seats, hseats, rfl⟩ := stakeDelegator_ok h
  have claim {c : State} (h : seat c v true = .ok seats) (changed : ChangedAt s c v)
      (hgrow : getCoins s v ≤ getCoins c v) (hmax : c.maxValidators = s.maxValidators)
      (hh : c.highestValidators = s.highestValidators) :
      Ranks c seats := by
    apply seat_ranked (Fit c) h
    rw [hmax, hh]
    exact he.grow changed.fit changed.coins hgrow
  have ranked := claim hseats (.of_update rfl (fun _ _ => id) rfl)
    (by simp only [getCoins, update_self]; exact Nat.le_add_right _ _) rfl rfl
  exact ranked

/-- A member that is no longer eligible gives up its seat, or keeps it, and the
best candidate is promoted. -/
theorem promoteHighest_after_leaving (he : Elected s) (hf : Funded u) {status : Status}
    (hv : u.validatorInfo = update s.validatorInfo v { s.validatorInfo v with status := status })
    (hst : status ≠ .Staked) (hc : u.currentValidators = s.currentValidators)
    (hmin : u.minimumStakeAmount = s.minimumStakeAmount) (hmax : u.maxValidators = s.maxValidators)
    (hseats : u.highestValidators = s.highestValidators ∨
      u.highestValidators = swapRemoveFirst v s.highestValidators) :
    Elected { u with highestValidators := promoteHighest u 0 } := by
  have unfit : ¬ Fit u v := by
    rintro ⟨_, hstaked, _⟩
    rw [hv, update_self] at hstaked
    exact hst hstaked
  have hr : Ranked s.maxValidators (getCoins u) (Fit u) s.highestValidators := by
    have hsame : getCoins u = getCoins s := by
      unfold getCoins
      rw [hv]
      exact funext (update_field Validator.coins rfl)
    have changed : ChangedAt s u v := .of_update hv (fun _ _ => hc ▸ id) hmin
    rw [hsame]
    refine Ranked.mono he fun a ha => changed.fit a ?_ ha
    rintro rfl
    exact unfit ha
  have hranked : Ranks u (promoteHighest u 0) := by
    refine promoteHighest_ranked hf (Nat.zero_le _) ?_ ?_
    · obtain e | e := hseats <;> rw [e]
      · exact hr.ordered
      · exact hr.ordered.vacate fun hl => absurd hl unfit
    · rw [hmax]
      intro hlen
      obtain e | e := hseats <;> rw [e] at hlen ⊢
      · exact hr.exhausted (Nat.lt_of_succ_lt hlen)
      refine (hr.exhausted ?_).vacate unfit
      by_cases hin : v ∈ s.highestValidators
      · rwa [swapRemoveFirst_length hin] at hlen
      · rw [swapRemoveFirst_of_notMem hin] at hlen
        exact Nat.lt_of_succ_lt hlen
  exact hranked

theorem Elected.unsettled (he : Elected s) (hnd : s.highestValidators.Nodup)
    (changed : ChangedAt s u v) (hmax : u.maxValidators = s.maxValidators)
    (hh : u.highestValidators = s.highestValidators) : Unsettled u v := by
  refine ⟨hh ▸ hnd, hh ▸ he.ordered.but changed.fit changed.coins, ?_⟩
  rw [hmax, hh]
  exact fun hlen a ha => he.exhausted hlen a (changed.fit a ha.2 ha.1)

section
variable (ht : Funded t) (he : Elected s)
include ht he

/-- A validator is only closed when it has no coins, and then it was not
eligible either. -/
theorem withdrawDelegatorStaking_elected {x : Nat}
    (hnd : s.highestValidators.Nodup) (h : withdrawDelegatorStaking s env v x = .ok t) :
    Elected t := by
  obtain ⟨_, D, S, status, C, seats, _, hseats, hclose, e⟩ := withdrawDelegatorStaking_ok h
  obtain ⟨d, hd⟩ : ∃ d, d = debited s v x D S := ⟨_, rfl⟩
  rw [← hd] at hseats
  have hstake (a : Address) : (d.validatorInfo a).amount = (t.validatorInfo a).amount ∧
      getCoins d a = getCoins t a := by
    rw [hd, e]
    by_cases ha : a = v
    · simp only [getCoins, debited, ha, update_self, and_self]
    · simp only [getCoins, debited, update_of_ne ha, and_self]
  have hfd : Funded d := by
    refine ⟨?_, ?_, fun a => ?_⟩
    · rw [hd]
      rw [e] at ht
      exact ht.minimum
    · rw [(hstake 0).1]
      exact ht.nobody
    · have hle := ht.coins a
      rw [← (hstake a).1] at hle
      exact hle.trans (Nat.le_of_eq (hstake a).2.symm)
  -- eligibility does not look at coins
  have hfit (a : Address) (ha : Fit d a) : Fit s a := by
    rw [hd] at ha
    exact ha.of_update rfl rfl rfl rfl rfl
  have hranked : Ranks d seats := by
    have changed : ChangedAt s d v := by
      rw [hd]
      exact .of_update rfl (fun _ _ => id) rfl
    have hh : d.highestValidators = s.highestValidators := by rw [hd]; rfl
    have hmax : d.maxValidators = s.maxValidators := by rw [hd]; rfl
    refine replaceLowest_ranked hseats hfd (he.unsettled hnd changed hmax hh) ?_
    rw [hh, hmax]
    exact fun hlen hv => he.exhausted hlen v (hfit v hv)
  have hclosed (a : Address) (ha : Fit t a) : Fit d a := by
    obtain ⟨hcur, hst, hmin⟩ := ha
    rw [← (hstake a).1] at hmin
    rw [e] at hcur hst hmin
    rw [hd] at hmin ⊢
    refine ⟨?_, ?_, hmin⟩
    · obtain ⟨_, _, rfl⟩ | ⟨_, _, rfl⟩ := hclose
      · exact mem_of_mem_removeFromCurrent hcur
      · exact hcur
    · by_cases hav : a = v
      · subst hav
        simp only [update_self] at hst
        simp only [debited, update_self]
        obtain ⟨_, rfl, _⟩ | ⟨_, rfl, _⟩ := hclose
        · cases hst
        · exact hst
      · simp only [update_of_ne hav] at hst
        simp only [debited, update_of_ne hav]
        exact hst
  rw [Ranks, funext fun a => (hstake a).2] at hranked
  have hfinal := hranked.mono hclosed
  rw [hd] at hfinal
  rw [e] at hfinal ⊢
  exact hfinal

theorem felony_elected {income : Nat} (h : felony s env v income = .ok t) : Elected t := by
  obtain ⟨u, hu, _, e⟩ := felony_ok h
  have same : SameStakes { u with highestValidators := promoteHighest u 0 } t := by
    rw [e]
    exact ⟨update_field Validator.stake (by rfl), fun _ _ => rfl, rfl, rfl, rfl, rfl⟩
  have hranked : Elected { u with highestValidators := promoteHighest u 0 } := by
    have hf := ht.before same
    have hfu : Funded u := { hf with }
    subst hu
    refine promoteHighest_after_leaving he hfu rfl nofun rfl rfl rfl ?_
    simp only [removeFromHighestValidatorList]
    split
    · exact .inl rfl
    · exact .inr rfl
  refine hranked.of_same same ?_
  rw [e]
  exact fun _ => id

end

theorem exec_elected (hs : Sound s) (hf : Funded s) (hnd : s.highestValidators.Nodup)
    (he : Elected s) (hno : ¬ Overtaken s m) (h : exec s m = .ok t) : Elected t := by
  have ht := exec_funded hs hf hno h
  cases exec_effect h with
  | rewards _ same hlisted _ =>
    exact he.of_same same hlisted
  | stakeValidator _ h => exact stakeValidator_elected ht he h
  | stakeDelegator v _ h => exact stakeDelegator_elected he h
  | unstakeValidator _ h =>
    obtain ⟨_, _, _, u, hu, rfl⟩ := unstakeValidator_ok h
    have hfu : Funded u := { ht with }
    subst hu
    exact promoteHighest_after_leaving he hfu rfl nofun rfl rfl rfl (.inr rfl)
  | unstakeDelegators v _ h =>
    obtain ⟨_, _, rfl⟩ := unstakeDelegators_ok h
    exact he
  | withdrawValidatorStaking x _ h =>
    obtain ⟨_, status, w, C, seats, _, hC, hseats, rfl⟩ := withdrawValidatorStaking_ok h
    have listed (a : Address) (_ : a ≠ m.env.sender) (ha : a ∈ C) : a ∈ s.currentValidators := by
      obtain ⟨_, _, rfl⟩ | ⟨_, _, rfl⟩ := hC
      · exact mem_of_mem_removeFromCurrent ha
      · exact ha
    have ranked := reseatAfterWithdrawal_ranked hseats { ht with }
      (he.unsettled hnd (.of_update rfl listed rfl) rfl rfl)
    exact ranked
  | withdrawDelegatorStaking v x _ h => exact withdrawDelegatorStaking_elected ht he hnd h
  | felony v _ _ P L hfel =>
    exact felony_elected (s := { s with punishRecord := P, punishValidator := L }) ht he hfel
  | unJailed _ h =>
    obtain ⟨_, _, _, _, seats, hseats, rfl⟩ := unJailed_ok h
    have ranked := unJailedSeats_ranked hseats { ht with }
      (he.unsettled hnd (.of_update rfl (fun _ _ => id) rfl) rfl rfl)
    exact ranked
  | minimum value hcall hmin =>
    have hft : Funded { s with minimumStakeAmount := value } := by
      obtain ⟨seats, rfl, _⟩ := updateMinimumStakeAmount_ok hmin
      exact { ht with }
    refine updateMinimumStakeAmount_elected hft ?_ hmin
    intro a ha hout b hb
    by_cases hle : s.minimumStakeAmount ≤ value
    · exact he.ordered a ⟨ha.1, ha.2.1, le_trans hle ha.2.2⟩ hout b hb
    · by_contra hlt
      exact hno ⟨value, hcall, by omega, .inr ⟨a, ha, hout, b, hb, by omega⟩⟩
  | maximum value _ hmax => exact updateMaxValidators_elected hf he.ordered hmax

end Calls

/-! ## Runs -/

/-- What keeps the election optimal. -/
structure Standing (s : State) : Prop where
  sound : Sound s
  funded : Funded s
  nodup : s.highestValidators.Nodup
  elected : Elected s

theorem standing_postInit : Standing postInit where
  sound := sound_postInit
  funded := ⟨by decide, rfl, fun _ => le_rfl⟩
  nodup := nodup_nil
  elected := by
    apply Exhausted.ranked
    intro a ha
    cases ha.1

/-- The seats go to the eligible validators with the most coins in every state
of a run in which nobody leaves jail with a seat still held while another is
free, and no lower minimum lets somebody in above a member. -/
theorem election_optimal {calls : List Message}
    (once : Along exec (fun s m => ¬ Reseated s m) postInit calls)
    (hno : Along exec (fun s m => ¬ Overtaken s m) postInit calls) :
    Throughout exec Optimal postInit calls := by
  have all : Throughout exec Standing postInit calls := by
    refine throughout_of_preserved ?_ standing_postInit (once.and hno)
    rintro s m t hs ⟨once, hno⟩ h
    exact ⟨exec_sound hs.sound h, exec_funded hs.sound hs.funded hno h,
      exec_nodup once hs.nodup h,
      exec_elected hs.sound hs.funded hs.nodup hs.elected hno h⟩
  exact all.mono fun s hs => hs.elected.optimal

/-- A run that raises the minimum. -/
theorem election_optimal_raised :
    let calls : List Message :=
      [.stake 1 MINIMUM_STAKE_AMOUNT, .stake 2 (2 * MINIMUM_STAKE_AMOUNT),
        ⟨{ sender := GOV_HUB_ADDR },
          .updateVotingValues "minimumStakeAmount" (2 * MINIMUM_STAKE_AMOUNT)⟩]
    Along exec (fun s m => ¬ Reseated s m) postInit calls ∧
      Along exec (fun s m => ¬ Overtaken s m) postInit calls ∧
      Throughout exec Optimal postInit calls := by
  intro calls
  have once : Along exec (fun s m => ¬ Reseated s m) postInit calls := by
    refine ⟨?_, ?_, ?_, trivial⟩ <;>
      · intro h
        cases h.1
  have hno : Along exec (fun s m => ¬ Overtaken s m) postInit calls := by
    refine ⟨?_, ?_, ?_, trivial⟩
    · rintro ⟨value, hcall, _⟩
      cases hcall
    · rintro ⟨value, hcall, _⟩
      cases hcall
    · rintro ⟨value, hcall, hlt, _⟩
      cases hcall
      revert hlt
      decide +kernel
  exact ⟨once, hno, election_optimal once hno⟩

/-- Validator 1 has the most coins but little of its own. While the minimum is
raised it is jailed and comes back; when the minimum is lowered again it is
eligible, and nobody looks for it. -/
def overtakenMembers : List Message :=
  [.stake 1 (10000 * ether), ⟨{ sender := 9, value := 5000 * ether }, .stakeDelegator 1⟩] ++
    [2, 3, 4, 5, 6].map (Message.stake · (12000 * ether)) ++
    [⟨{ sender := GOV_HUB_ADDR }, .updateVotingValues "minimumStakeAmount" (12000 * ether)⟩] ++
    List.replicate FELONY_THRESHOLD (.slash 1) ++
    [.leaveJail 1,
      ⟨{ sender := GOV_HUB_ADDR }, .updateVotingValues "minimumStakeAmount" (10000 * ether)⟩]

theorem overtakenMembers_not_optimal : ¬ Optimal (run exec postInit overtakenMembers) := by
  rintro ⟨_, hfull⟩
  have hseats : (run exec postInit overtakenMembers).highestValidators = [5, 2, 3, 4, 6] := by
    decide +kernel
  have hmax : (run exec postInit overtakenMembers).maxValidators = 5 := by decide +kernel
  have hfit : Fit (run exec postInit overtakenMembers) 1 := by
    refine ⟨?_, ?_, ?_⟩ <;> decide +kernel
  have hmore : getCoins (run exec postInit overtakenMembers) 2 <
      getCoins (run exec postInit overtakenMembers) 1 := by
    decide +kernel
  rw [hseats, hmax] at hfull
  exact absurd (hfull rfl 1 hfit (by decide) 2 (by decide)) (not_le.mpr hmore)

end Dexit.Staking
