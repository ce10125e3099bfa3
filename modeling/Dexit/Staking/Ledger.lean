import Dexit.Solidity.Mapping
import Dexit.Solidity.SwapRemove

/-!
# The stake ledger

What the staking part of the contract is for, without status, rewards or
elections: who has staked how much with whom, the list of delegators of each
validator, and the total. `apply` is the effect of one operation and `Allowed`
what the contract checks before it; `Valid` is what every operation keeps.

The delegator list is only half kept. Every listed delegator has a stake and
knows its slot, but an operation that frees a slot on behalf of somebody who is
not listed drops whoever sits there, so `Complete` needs a condition.
-/

namespace Dexit.Staking

open Solidity List
open Function

/-- `delegated d v` is what `d` has staked with `v`, `index d v` the slot `d`
remembers in the list of `v`. -/
@[ext] structure Ledger (α : Type) where
  amount : α → ℕ
  coins : α → ℕ
  delegators : α → List α
  delegated : α → α → ℕ
  index : α → α → ℕ
  total : ℕ

namespace Ledger

inductive Op (α : Type) where
  | skip
  | bond (v : α) (x : ℕ)
  | forfeit (x : ℕ)
  | delegate (d v : α) (x : ℕ)
  | unbond (v : α) (x : ℕ)
  | undelegate (d v : α) (x : ℕ)

section Operations
variable {α : Type} [DecidableEq α] {L : Ledger α} {d v : α}

/-- The index table after the last delegator of `v` moved to slot `i`. -/
def reindex (L : Ledger α) (v : α) (i : ℕ) (e w : α) : ℕ :=
  if i ≠ (L.delegators v).length - 1 ∧ w = v ∧
      (L.delegators v)[(L.delegators v).length - 1]? = some e then i
  else L.index e w

def apply (L : Ledger α) : Op α → Ledger α
  | .skip => L
  | .bond v x =>
    { L with
      amount := update L.amount v (L.amount v + x)
      coins := update L.coins v (L.coins v + x)
      total := L.total + x }
  | .forfeit x => { L with total := L.total + x }
  | .delegate d v x =>
    { L with
      coins := update L.coins v (L.coins v + x)
      delegators := if L.delegated d v = 0 then update L.delegators v (L.delegators v ++ [d])
        else L.delegators
      delegated := set₂ L.delegated d v (L.delegated d v + x)
      index := if L.delegated d v = 0 then set₂ L.index d v (L.delegators v).length else L.index
      total := L.total + x }
  | .unbond v x =>
    { L with
      amount := update L.amount v (L.amount v - x)
      coins := update L.coins v (L.coins v - x)
      total := L.total - x }
  | .undelegate d v x =>
    { L with
      coins := update L.coins v (L.coins v - x)
      delegators := if L.delegated d v = x then
          update L.delegators v (swapRemove (L.delegators v) (L.index d v))
        else L.delegators
      delegated := set₂ L.delegated d v (L.delegated d v - x)
      index := if L.delegated d v = x then L.reindex v (L.index d v) else L.index
      total := L.total - x }

theorem apply_undelegate_all {x : ℕ} (h : L.delegated d v = x) :
    L.apply (.undelegate d v x) = { L with
      coins := update L.coins v (L.coins v - x)
      delegators := update L.delegators v (swapRemove (L.delegators v) (L.index d v))
      delegated := set₂ L.delegated d v (L.delegated d v - x)
      index := L.reindex v (L.index d v)
      total := L.total - x } := by
  simp only [apply, if_pos h]

theorem apply_undelegate_part {x : ℕ} (h : L.delegated d v ≠ x) :
    L.apply (.undelegate d v x) = { L with
      coins := update L.coins v (L.coins v - x)
      delegated := set₂ L.delegated d v (L.delegated d v - x)
      total := L.total - x } := by
  simp only [apply, if_neg h]

theorem undelegate_delegated (L : Ledger α) (d v : α) (x : ℕ) :
    (L.apply (.undelegate d v x)).delegated = set₂ L.delegated d v (L.delegated d v - x) := by
  by_cases h : L.delegated d v = x
  · rw [apply_undelegate_all h]
  · rw [apply_undelegate_part h]

def Allowed (L : Ledger α) : Op α → Prop
  | .skip => True
  | .bond _ x => 0 < x
  | .forfeit x => 0 < x
  | .delegate d v x => d ≠ v ∧ 0 < x
  | .unbond v x => x ≤ L.amount v ∧ x ≤ L.coins v ∧ x ≤ L.total
  | .undelegate d v x => (d = v ∨ 0 < L.delegated d v) ∧
      x ≤ L.delegated d v ∧ x ≤ L.coins v ∧ x ≤ L.total ∧
      (L.delegated d v = x → L.index d v < (L.delegators v).length)

end Operations

structure Valid {α : Type} [Fintype α] (L : Ledger α) : Prop where
  backed : ∀ v, L.coins v = L.amount v + ∑ d, L.delegated d v
  self : ∀ v, L.delegated v v = 0
  nodup : ∀ v, (L.delegators v).Nodup
  listed : ∀ v d, d ∈ L.delegators v → 0 < L.delegated d v
  position : ∀ v d i, (L.delegators v)[i]? = some d → L.index d v = i

/-- Every delegator with a stake is listed. -/
def Complete {α : Type} (L : Ledger α) : Prop :=
  ∀ v d, 0 < L.delegated d v → d ∈ L.delegators v

def empty (α : Type) : Ledger α :=
  ⟨fun _ => 0, fun _ => 0, fun _ => [], fun _ _ => 0, fun _ _ => 0, 0⟩

theorem empty_valid (α : Type) [Fintype α] : Valid (empty α) := by
  constructor
  · intro v; simp [empty]
  · intro v; rfl
  · intro v; exact nodup_nil
  · intro v d h; cases h
  · intro v d i h; simp [empty] at h

theorem empty_complete (α : Type) : Complete (empty α) := by
  intro v d h
  cases h

section Preservation
variable {α : Type} [DecidableEq α] [Fintype α] {L : Ledger α} {d v : α} {x : ℕ} {op : Op α}

theorem column_set (L : Ledger α) (d v w : α) (y : ℕ) :
    (∑ e, set₂ L.delegated d v y e w) + (if w = v then L.delegated d v else 0) =
      (∑ e, L.delegated e w) + if w = v then y else 0 := by
  by_cases hw : w = v
  · subst hw
    have := sum_set₂_column id L.delegated d w y
    simp only [id] at this
    simp only [↓reduceIte]
    omega
  · rw [if_neg hw, if_neg hw]
    exact congrArg (· + 0) (sum_set₂_other id L.delegated d _ hw)

/-- The stake of `d` with `v` was written, and with it the list of `v`. -/
theorem Valid.write (hv : L.Valid) {c y n : ℕ} {D : List α} {I : α → α → ℕ}
    (hc : c + L.delegated d v = L.coins v + y) (hself : d = v → y = 0) (hnd : D.Nodup)
    (hlist : ∀ e ∈ D, 0 < set₂ L.delegated d v y e v) (hpos : ∀ e i, D[i]? = some e → I e v = i)
    (hother : ∀ e w, w ≠ v → I e w = L.index e w) :
    Valid { L with
      coins := update L.coins v c
      delegators := update L.delegators v D
      delegated := set₂ L.delegated d v y
      index := I
      total := n } := by
  refine ⟨fun w => ?_, fun w => ?_, fun w => ?_, fun w e he => ?_, fun w e i he => ?_⟩
  · have hb := hv.backed w
    have hs := column_set L d v w y
    by_cases hw : w = v
    · subst hw
      simp only [update_self, ↓reduceIte] at hs ⊢
      omega
    · simp only [update_of_ne hw, if_neg hw] at hs ⊢
      omega
  · simp only [set₂_apply]
    split
    next h => exact hself (h.1.symm.trans h.2)
    · exact hv.self w
  all_goals by_cases hw : w = v
  · simpa only [hw, update_self] using hnd
  · simpa only [update_of_ne hw] using hv.nodup w
  · subst hw
    simp only [update_self] at he
    exact hlist e he
  · simp only [update_of_ne hw] at he
    simp only [set₂_of_ne _ _ fun h : e = d ∧ w = v => hw h.2]
    exact hv.listed w e he
  · subst hw
    simp only [update_self] at he
    exact hpos e i he
  · simp only [update_of_ne hw] at he
    exact (hother e w hw).trans (hv.position w e i he)

/-- A newcomer is not yet listed, so its slot is the next one. -/
theorem delegate_valid (hv : L.Valid) (hd : d ≠ v) (hx : 0 < x) :
    (L.apply (.delegate d v x)).Valid := by
  have stake (e : α) (he : e ∈ L.delegators v) :
      0 < set₂ L.delegated d v (L.delegated d v + x) e v := by
    have := hv.listed v e he
    rw [set₂_apply]
    split <;> omega
  by_cases hz : L.delegated d v = 0
  · have new : d ∉ L.delegators v := fun hm => by
      have := hv.listed v d hm
      omega
    simp only [apply, if_pos hz]
    refine hv.write (by omega) (fun h => absurd h hd) ?_ ?_ ?_ ?_
    · exact nodup_append.mpr ⟨hv.nodup v, nodup_singleton d, fun a ha b hb e => by
        rw [mem_singleton] at hb
        exact new (by rw [← hb, ← e]; exact ha)⟩
    · intro e he
      obtain he | he := mem_append.mp he
      · exact stake e he
      · rw [mem_singleton.mp he, set₂_self]; omega
    · intro e i he
      by_cases hi : i < (L.delegators v).length
      · rw [getElem?_append_left hi] at he
        have hne : e ≠ d := fun h => new (h ▸ mem_of_getElem? he)
        rw [set₂_of_ne _ _ (fun h => hne h.1)]
        exact hv.position v e i he
      · rw [getElem?_append_right (by omega)] at he
        obtain ⟨hlt, hed⟩ := List.getElem?_eq_some_iff.mp he
        simp only [length_singleton] at hlt
        have hed' : e = d := by simpa using hed.symm
        rw [hed', set₂_self]
        omega
    · exact fun e w hw => set₂_of_ne _ _ (fun h => hw h.2)
  · have hmore := hv.write (n := L.total + x) (c := L.coins v + x) (by omega)
      (fun h => absurd h hd) (hv.nodup v) stake (hv.position v) (fun _ _ _ => rfl)
    simpa only [apply, if_neg hz, update_eq_self] using hmore

/-- Freeing slot `i` of `v` leaves every listed delegator at the slot it
remembers. -/
theorem reindex_position (hv : L.Valid) {i : ℕ} (hi : i < (L.delegators v).length) {e : α} {j : ℕ}
    (he : (swapRemove (L.delegators v) i)[j]? = some e) : L.reindex v i e v = j := by
  unfold reindex
  have hj : j < (L.delegators v).length - 1 := by
    have hlen := swapRemove_length hi
    have := (List.getElem?_eq_some_iff.mp he).1
    omega
  rw [swapRemove_getElem? hi hj] at he
  by_cases hji : j = i
  · rw [if_pos hji] at he
    rw [if_pos ⟨by omega, rfl, he⟩, hji]
  rw [if_neg hji] at he
  have hp := hv.position v e j he
  rw [if_neg, hp]
  rintro ⟨_, _, hlast⟩
  have := hv.position v e _ hlast
  omega

omit [DecidableEq α] in
/-- A listed delegator sits at the slot it remembers. -/
theorem at_index (hv : L.Valid) (hm : d ∈ L.delegators v)
    (hi : L.index d v < (L.delegators v).length) : (L.delegators v)[L.index d v] = d := by
  obtain ⟨j, hj, hjd⟩ := getElem_of_mem hm
  have hp := hv.position v d j (List.getElem?_eq_some_iff.mpr ⟨hj, hjd⟩)
  subst hp
  exact hjd

theorem undelegate_valid (hv : L.Valid) (hx : x ≤ L.delegated d v)
    (hc : x ≤ L.coins v) (hi : L.delegated d v = x → L.index d v < (L.delegators v).length) :
    (L.apply (.undelegate d v x)).Valid := by
  have hself : d = v → L.delegated d v - x = 0 := by
    rintro rfl
    rw [hv.self d, Nat.zero_sub]
  by_cases hz : L.delegated d v = x
  · rw [apply_undelegate_all hz]
    obtain ⟨hnot, hnd⟩ := swapRemove_nodup (hi hz) (hv.nodup v)
    refine hv.write (by omega) hself hnd (fun e he => ?_)
      (fun e j he => reindex_position hv (hi hz) he) (fun e w hw => if_neg fun h => hw h.2.1)
    have hmem := mem_of_mem_swapRemove he
    have hne : e ≠ d := by
      rintro rfl
      rw [at_index hv hmem (hi hz)] at hnot
      exact hnot he
    rw [set₂_of_ne _ _ fun h => hne h.1]
    exact hv.listed v e hmem
  · rw [apply_undelegate_part hz]
    have hless := hv.write (n := L.total - x) (c := L.coins v - x) (by omega) hself (hv.nodup v)
      (fun e he => by
        have := hv.listed v e he
        rw [set₂_apply]
        split <;> omega)
      (hv.position v) (fun _ _ _ => rfl)
    simpa only [update_eq_self] using hless

theorem apply_valid (hv : L.Valid) (ha : L.Allowed op) : (L.apply op).Valid := by
  cases op with
  | skip => exact hv
  | forfeit x => exact { hv with }
  | bond v x =>
    refine ⟨?_, hv.self, hv.nodup, hv.listed, hv.position⟩
    intro w
    have hb := hv.backed w
    simp only [apply]
    by_cases hw : w = v
    · subst hw; simp only [update_self]; omega
    · simp only [update_of_ne hw]; exact hb
  | unbond v x =>
    refine ⟨?_, hv.self, hv.nodup, hv.listed, hv.position⟩
    intro w
    have hb := hv.backed w
    simp only [apply]
    obtain ⟨hx, hc, _⟩ := ha
    by_cases hw : w = v
    · subst hw; simp only [update_self]; omega
    · simp only [update_of_ne hw]; exact hb
  | delegate d v x => exact delegate_valid hv ha.1 ha.2
  | undelegate d v x => exact undelegate_valid hv ha.2.1 ha.2.2.1 ha.2.2.2.2

/-! ## Completeness of the delegator lists -/

omit [Fintype α] in
theorem delegate_complete (hc : L.Complete) (d v : α) (x : ℕ) :
    (L.apply (.delegate d v x)).Complete := by
  intro w e he
  simp only [apply] at he ⊢
  rw [set₂_apply] at he
  by_cases hew : e = d ∧ w = v
  · obtain ⟨rfl, rfl⟩ := hew
    split
    · simp
    · exact hc w e (by omega)
  · rw [if_neg hew] at he
    have hm := hc w e he
    split
    · by_cases hw : w = v
      · subst hw
        simp [hm]
      · rwa [update_of_ne hw]
    · exact hm

/-- Freeing the slot of a listed delegator loses nobody else. -/
theorem undelegate_complete (hv : L.Valid) (hc : L.Complete)
    (ha : L.Allowed (.undelegate d v x)) (hd : d ≠ v) : (L.apply (.undelegate d v x)).Complete := by
  obtain ⟨hpos, hx, _, _, hi⟩ := ha
  have hlisted := hc v d (hpos.resolve_left hd)
  intro w e he
  simp only [apply] at he ⊢
  rw [set₂_apply] at he
  by_cases hew : e = d ∧ w = v
  · obtain ⟨rfl, rfl⟩ := hew
    rw [if_pos ⟨rfl, rfl⟩] at he
    rwa [if_neg (by omega)]
  · rw [if_neg hew] at he
    have hm := hc w e he
    split
    next hz =>
      by_cases hw : w = v
      · subst hw
        rw [update_self]
        apply mem_swapRemove_of_ne (hi hz) hm
        rw [at_index hv hlisted (hi hz)]
        exact fun h => hew ⟨h, rfl⟩
      · rwa [update_of_ne hw]
    · exact hm

/-- A validator that frees a slot of its own list, where it is not listed,
drops a delegator whose stake stays. -/
theorem undelegate_self_not_complete (hv : L.Valid)
    (ha : L.Allowed (.undelegate v v x)) : ¬ (L.apply (.undelegate v v x)).Complete := by
  obtain ⟨_, hx, _, _, hi⟩ := ha
  have hself := hv.self v
  have hz : L.delegated v v = x := by omega
  have hlt := hi hz
  intro hc
  have hdrop := (swapRemove_nodup hlt (hv.nodup v)).1
  have hstake := hv.listed v _ (getElem_mem hlt)
  have hne : (L.delegators v)[L.index v v] ≠ v := fun h => by
    rw [h] at hstake
    omega
  have hkeep := hc v (L.delegators v)[L.index v v]
  simp only [apply, if_pos hz, update_self] at hkeep
  rw [set₂_of_ne _ _ (fun h => hne h.1)] at hkeep
  exact hdrop (hkeep hstake)

/-- One operation keeps the lists complete exactly when it is not a validator's
withdrawal from itself. -/
theorem apply_complete_iff (hv : L.Valid) (hc : L.Complete) (ha : L.Allowed op) :
    (L.apply op).Complete ↔ ∀ v x, op ≠ .undelegate v v x := by
  constructor
  · rintro h v x rfl
    exact undelegate_self_not_complete hv ha h
  · intro h
    cases op with
    | skip | forfeit x | bond v x | unbond v x => exact hc
    | delegate d v x => exact delegate_complete hc d v x
    | undelegate d v x =>
      exact undelegate_complete hv hc ha (fun e => h v x (by rw [e]))

/-! ## The total -/

/-- What an operation takes without crediting it to anybody. -/
def Op.forfeited : Op α → ℕ
  | .forfeit x => x
  | _ => 0

/-- The total drifts from the coins by exactly what is forfeited. -/
theorem apply_total (ha : L.Allowed op) :
    (L.apply op).total + ∑ v, L.coins v = L.total + ∑ v, (L.apply op).coins v + op.forfeited := by
  cases op with
  | skip => rfl
  | forfeit x => simp only [apply, Op.forfeited]; omega
  | bond v x | delegate d v x =>
    have := sum_update id L.coins v (L.coins v + x)
    simp only [apply, Op.forfeited, id] at this ⊢
    omega
  | unbond v x =>
    have := sum_update id L.coins v (L.coins v - x)
    obtain ⟨_, hc, ht⟩ := ha
    simp only [apply, Op.forfeited, id] at this ⊢
    omega
  | undelegate d v x =>
    have := sum_update id L.coins v (L.coins v - x)
    obtain ⟨_, _, hc, ht, _⟩ := ha
    simp only [apply, Op.forfeited, id] at this ⊢
    omega

end Preservation

end Ledger

end Dexit.Staking
