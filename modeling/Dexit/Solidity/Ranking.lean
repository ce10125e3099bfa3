import Mathlib.Order.Lattice
import Dexit.Solidity.SwapRemove

/-!
# Rankings

A roster whose seats are meant for the candidates with the highest scores. It is
ranked if no fit candidate is left out while a seat is free, and no fit
candidate that is left out has a higher score than anybody seated.

One candidate's score or fitness may change at a time. `OrderedBut v` is what is
left of the order then, and the rules below say which repairs restore it: hand
the lowest seat to the best candidate left out, seat that candidate, or have the
changed candidate claim a seat itself.
-/

namespace Solidity

open List

variable {α β : Type} [LinearOrder β]

/-- Nobody fit and left out has a higher score than anybody seated. -/
def Ordered (score : α → β) (fit : α → Prop) (seats : List α) : Prop :=
  ∀ a, fit a → a ∉ seats → ∀ b ∈ seats, score a ≤ score b

/-- `Ordered` as far as everybody but `v` is concerned. -/
def OrderedBut (v : α) (score : α → β) (fit : α → Prop) (seats : List α) : Prop :=
  ∀ a, fit a → a ∉ seats → a ≠ v → ∀ b ∈ seats, b ≠ v → score a ≤ score b

/-- Nobody fit is left out. -/
def Exhausted (fit : α → Prop) (seats : List α) : Prop :=
  ∀ a, fit a → a ∈ seats

structure Ranked (cap : ℕ) (score : α → β) (fit : α → Prop) (seats : List α) : Prop where
  exhausted : seats.length < cap → Exhausted fit seats
  ordered : Ordered score fit seats

/-- The best candidate left out. -/
structure Best (score : α → β) (fit : α → Prop) (seats : List α) (a : α) : Prop where
  ok : fit a
  unseated : a ∉ seats
  highest : ∀ b, fit b → b ∉ seats → score b ≤ score a

/-- The member with the lowest score, and its slot. -/
structure Lowest (score : α → β) (seats : List α) (i : ℕ) (l : α) : Prop where
  slot : seats[i]? = some l
  lowest : ∀ b ∈ seats, score l ≤ score b

section
variable {cap : ℕ} {score : α → β} {fit : α → Prop} {seats : List α} {a l v : α} {i : ℕ}
  {fit' : α → Prop}

theorem Exhausted.ordered (h : Exhausted fit seats) : Ordered score fit seats :=
  fun a ha hout => absurd (h a ha) hout

theorem Exhausted.ranked (h : Exhausted fit seats) : Ranked cap score fit seats :=
  ⟨fun _ => h, h.ordered⟩

/-- Fewer fit candidates keep the order. -/
theorem Ordered.mono (h : Ordered score fit seats) (hf : ∀ a, fit' a → fit a) :
    Ordered score fit' seats :=
  fun a ha => h a (hf a ha)

theorem Ranked.mono (h : Ranked cap score fit seats)
    (hf : ∀ a, fit' a → fit a) : Ranked cap score fit' seats :=
  ⟨fun hroom a ha => h.exhausted hroom a (hf a ha), h.ordered.mono hf⟩

/-- What is left of the order when `v` changes. -/
theorem Ordered.but {score' : α → β} (h : Ordered score fit seats)
    (hf : ∀ a, a ≠ v → fit' a → fit a) (hs : ∀ a, a ≠ v → score' a = score a) :
    OrderedBut v score' fit' seats := by
  intro a ha hout hav b hb hbv
  rw [hs a hav, hs b hbv]
  exact h a (hf a hav ha) hout b hb

/-- A member whose score grows stays above everybody left out. -/
theorem Ranked.grow {score' : α → β} (h : Ranked cap score fit seats)
    (hf : ∀ a, a ≠ v → fit' a → fit a) (hs : ∀ a, a ≠ v → score' a = score a)
    (hv : score v ≤ score' v) : Ranked cap score' (fun a => fit' a ∧ a ≠ v) seats := by
  refine ⟨fun hroom a ha => h.exhausted hroom a (hf a ha.2 ha.1), ?_⟩
  intro a ha hout b hb
  have hle := h.ordered a (hf a ha.2 ha.1) hout b hb
  rw [hs a ha.2]
  by_cases hbv : b = v
  · subst hbv
    exact le_trans hle hv
  · rwa [hs b hbv]

/-! ## Seating the best candidate -/

theorem Ordered.push (h : Ordered score fit seats) (ha : Best score fit seats a) :
    Ordered score fit (seats ++ [a]) := by
  intro c hc hout b hb
  have hout : c ∉ seats := fun hin => hout (mem_append_left _ hin)
  obtain hb | hb := mem_append.mp hb
  · exact h c hc hout b hb
  · rw [mem_singleton.mp hb]
    exact ha.highest c hc hout

theorem Exhausted.push (h : Exhausted fit seats) : Exhausted fit (seats ++ [a]) :=
  fun b hb => mem_append_left _ (h b hb)

/-- One free seat at most: the best candidate takes it. -/
theorem Ordered.elect (h : Ordered score fit seats)
    (hroom : seats.length + 1 < cap → Exhausted fit seats) (ha : Best score fit seats a) :
    Ranked cap score fit (seats ++ [a]) := by
  refine ⟨fun hlen => (hroom ?_).push, h.push ha⟩
  simpa using hlen

/-! ## Vacating a seat -/

theorem Ordered.vacate [DecidableEq α] (h : Ordered score fit seats) (hl : fit l → ∀ b ∈ seats,
    score l ≤ score b) : Ordered score fit (swapRemoveFirst l seats) := by
  intro c hc hout b hb
  have hbin := mem_of_mem_swapRemoveFirst hb
  by_cases hin : c ∈ seats
  · have hcl : c = l := by
      by_contra hne
      exact hout (mem_swapRemoveFirst_of_ne hin hne)
    subst hcl
    exact hl hc b hbin
  · exact h c hc hin b hbin

theorem Exhausted.vacate [DecidableEq α] (h : Exhausted fit seats) (hl : ¬ fit l) :
    Exhausted fit (swapRemoveFirst l seats) := by
  intro a ha
  refine mem_swapRemoveFirst_of_ne (h a ha) ?_
  rintro rfl
  exact hl ha

/-! ## Handing over the lowest seat -/

section
variable (h : Lowest score seats i l)
include h

theorem Lowest.lt : i < seats.length := (List.getElem?_eq_some_iff.mp h.slot).1

theorem Lowest.mem : l ∈ seats := mem_of_getElem? h.slot

/-- Whoever loses a seat held the one that was handed over. -/
theorem Lowest.eq_of_left_out {c : α} (hin : c ∈ seats) (hout : c ∉ seats.set i a) : c = l := by
  obtain ⟨j, hj⟩ := mem_iff_getElem?.mp hin
  by_cases hji : i = j
  · subst hji
    rw [h.slot] at hj
    exact (Option.some.inj hj).symm
  · refine absurd (mem_of_getElem? (i := j) ?_) hout
    rw [getElem?_set_ne hji]
    exact hj

/-- If no member held two seats, the one that lost its seat is out. -/
theorem Lowest.ne_of_kept {b : α} (hnd : seats.Nodup)
    (hb : b ∈ seats.set i a) (hba : b ≠ a) : b ∈ seats ∧ b ≠ l := by
  obtain ⟨j, hj⟩ := mem_iff_getElem?.mp hb
  have hji : i ≠ j := by
    rintro rfl
    rw [getElem?_set_self h.lt] at hj
    exact hba (Option.some.inj hj).symm
  rw [getElem?_set_ne hji] at hj
  refine ⟨mem_of_getElem? hj, ?_⟩
  rintro rfl
  exact hji ((getElem?_inj h.lt hnd).mp (h.slot.trans hj.symm))

/-- Nobody left out beats the lowest member. -/
theorem Lowest.ordered
    (hle : ∀ a, fit a → a ∉ seats → score a ≤ score l) : Ordered score fit seats :=
  fun a ha hout b hb => le_trans (hle a ha hout) (h.lowest b hb)

end

/-- The lowest member gives way to the best candidate. Whichever of the two is
the candidate that changed, the order is restored. -/
theorem OrderedBut.handOver (h : OrderedBut v score fit seats) (hnd : seats.Nodup)
    (hl : Lowest score seats i l) (ha : Best score fit seats a) (hlt : score l < score a) :
    Ordered score fit (seats.set i a) := by
  have changed : a = v ∨ l = v := by
    by_contra hno
    obtain ⟨hav, hlv⟩ := not_or.mp hno
    exact absurd (h a ha.ok ha.unseated hav l hl.mem hlv) (not_le.mpr hlt)
  intro c hc hout b hb
  by_cases hin : c ∈ seats
  · -- the member that lost its seat is below everybody
    rw [hl.eq_of_left_out hin hout]
    obtain hb | rfl := mem_or_eq_of_mem_set hb
    · exact hl.lowest b hb
    · exact le_of_lt hlt
  · by_cases hba : b = a
    · subst hba
      exact ha.highest c hc hin
    obtain ⟨hbin, hbl⟩ := hl.ne_of_kept hnd hb hba
    have hca : c ≠ a := by
      rintro rfl
      exact hout (mem_set hl.lt _)
    obtain rfl | rfl := changed
    · exact h c hc hin hca b hbin hba
    · refine h c hc hin ?_ b hbin hbl
      rintro rfl
      exact hin hl.mem

/-! ## A candidate claims a seat -/

section
variable (h : Ranked cap score (fun a => fit a ∧ a ≠ v) seats)
include h

/-- It takes a free one. -/
theorem Ranked.claim_free (hroom : seats.length < cap) : Ranked cap score fit (seats ++ [v]) := by
  apply Exhausted.ranked
  intro a ha
  by_cases hav : a = v
  · simp [hav]
  · exact mem_append_left _ (h.exhausted hroom a ⟨ha, hav⟩)

/-- It takes the lowest one, if it beats the member there. -/
theorem Ranked.claim_lowest
    (hfull : cap ≤ seats.length) (hl : Lowest score seats i l) (hlt : score l < score v) :
    Ranked cap score fit (seats.set i v) := by
  refine ⟨fun hroom => absurd hroom (by simpa using hfull), ?_⟩
  intro c hc hout b hb
  have below : ∀ b ∈ seats, score c ≤ score b := by
    intro b hb
    by_cases hin : c ∈ seats
    · rw [hl.eq_of_left_out hin hout]
      exact hl.lowest b hb
    · refine h.ordered c ⟨hc, ?_⟩ hin b hb
      rintro rfl
      exact hout (mem_set hl.lt _)
  obtain hb | rfl := mem_or_eq_of_mem_set hb
  · exact below b hb
  · exact le_of_lt (lt_of_le_of_lt (below l hl.mem) hlt)

/-- It stays out, if it does not beat the lowest member. -/
theorem Ranked.claim_none
    (hfull : cap ≤ seats.length) (hl : Lowest score seats i l) (hle : score v ≤ score l) :
    Ranked cap score fit seats := by
  refine ⟨fun hroom => absurd hfull (not_le.mpr hroom), hl.ordered ?_⟩
  intro a ha hout
  by_cases hav : a = v
  · rwa [hav]
  · exact h.ordered a ⟨ha, hav⟩ hout l hl.mem

/-- It is seated already. -/
theorem Ranked.claim_seated (hv : v ∈ seats) : Ranked cap score fit seats := by
  have other {a : α} (hout : a ∉ seats) : a ≠ v := by
    rintro rfl
    exact hout hv
  refine ⟨fun hroom a ha => ?_, fun a ha hout => h.ordered a ⟨ha, other hout⟩ hout⟩
  by_contra hout
  exact hout (h.exhausted hroom a ⟨ha, other hout⟩)

end

end

end Solidity
