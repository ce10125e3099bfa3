import Dexit.Parlia.ValidatorSet

/-! How long a validator waits before it seals out of turn. -/

namespace Dexit.Parlia

open Go Outcome List

variable (rules : HeaderRules) {snap : Snapshot} {turn v : Address}

/-- The steps that the validators wait, in the order of their addresses. -/
def HeaderRules.steps (snap : Snapshot) : List UInt64 :=
  rules.shuffle snap.number ((List.range snap.validators.1.card).map UInt64.ofNat)

theorem ofNat_step {i : ℕ} (h : i < snap.validators.1.card) : (UInt64.ofNat i).toNat = i :=
  UInt64.toNat_ofNat_of_lt' (h.trans (snap.validators.2.trans (by decide)))

theorem HeaderRules.steps_lt {step : UInt64} (h : step ∈ rules.steps snap) :
    step.toNat < snap.validators.1.card := by
  obtain ⟨i, hi, rfl⟩ := mem_map.mp ((rules.shuffle_perm _ _).mem_iff.mp h)
  rw [mem_range] at hi
  rwa [ofNat_step hi]

theorem HeaderRules.steps_nodup (snap : Snapshot) : (rules.steps snap).Nodup := by
  refine (rules.shuffle_perm _ _).nodup_iff.mpr (Nodup.map_on ?_ nodup_range)
  intro i hi j hj hij
  rw [mem_range] at hi hj
  rw [← ofNat_step hi, hij, ofNat_step hj]

/-- Out of turn a validator waits the step at its place, and one more. -/
theorem backOffTime_waits (h : snap.supposeValidator = .ok turn) (hv : v ∈ snap.validators.1)
    (hne : v ≠ turn) : ∃ (idx : ℕ) (step delay : UInt64), snap.sorted[idx]? = some v ∧
      (rules.steps snap)[idx]? = some step ∧ backOffTime rules snap v = .ok delay ∧
      delay.toNat = 1 + step.toNat := by
  cases hidx : snap.sorted.idxOf? v with
  | none => exact absurd ((Finset.mem_sort _).mpr hv) (idxOf?_eq_none_iff.mp hidx)
  | some idx =>
    obtain ⟨hlt, hget, -⟩ := idxOf?_eq_some_iff.mp hidx
    have hsteps : idx < (rules.steps snap).length := by
      rwa [HeaderRules.steps, (rules.shuffle_perm _ _).length_eq, length_map, length_range,
        ← Finset.length_sort (· ≤ ·)]
    have hstep := getElem?_eq_getElem hsteps
    refine ⟨idx, _, initialBackOffTime + (rules.steps snap)[idx] * wiggleTime,
      hget ▸ getElem?_eq_getElem hlt, hstep, ?_, ?_⟩
    · unfold HeaderRules.steps at hstep ⊢
      simp only [backOffTime, Snapshot.inturn, h, ok_bind, pure_bind, hne.symm, decide_false, hidx,
        hstep]
      rfl
    · have hsmall := rules.steps_lt (getElem_mem hsteps)
      have hlen := snap.validators.2
      unfold maxLen at hlen
      rw [initialBackOffTime, wiggleTime, UInt64.mul_one, UInt64.toNat_add, UInt64.toNat_one]
      exact Nat.mod_eq_of_lt (by omega)

/-- Nobody waits in turn, and the others wait for different times. -/
theorem backOffTime_collisionFree (snap : Snapshot) (h : 1 ≤ snap.validators.1.card) :
    ∃ turn ∈ snap.validators.1, snap.supposeValidator = .ok turn ∧
      backOffTime rules snap turn = .ok 0 ∧
      (∀ v ∈ snap.validators.1, v ≠ turn → ∃ delay, backOffTime rules snap v = .ok delay ∧
        1 ≤ delay.toNat ∧ delay.toNat ≤ snap.validators.1.card) ∧
      ∀ v ∈ snap.validators.1, ∀ w ∈ snap.validators.1, v ≠ turn → w ≠ turn →
        backOffTime rules snap v = backOffTime rules snap w → v = w := by
  obtain ⟨turn, hturn, hsuppose⟩ := HeaderChain.supposeValidator_ok (Finset.card_pos.mp h)
  refine ⟨turn, hturn, hsuppose, ?_, ?_, ?_⟩
  · simp only [backOffTime, Snapshot.inturn, hsuppose, ok_bind, pure_bind, decide_true, if_true]
    rfl
  · intro v hv hne
    obtain ⟨idx, step, delay, -, hstep, htime, hdelay⟩ := backOffTime_waits rules hsuppose hv hne
    have hlt := rules.steps_lt (mem_of_getElem? hstep)
    exact ⟨delay, htime, by omega, by omega⟩
  · intro v hv w hw hvt hwt heq
    obtain ⟨i, step, delay, hi, hstep, htime, hdelay⟩ := backOffTime_waits rules hsuppose hv hvt
    obtain ⟨j, step', _, hj, hstep', htime', hdelay'⟩ := backOffTime_waits rules hsuppose hw hwt
    rw [htime, htime', Except.ok.injEq] at heq
    -- equal delays are equal steps, and these are at one place only
    obtain rfl : step = step' := UInt64.toNat_inj.mp (by rw [heq] at hdelay; omega)
    obtain ⟨hilt, hi'⟩ := List.getElem?_eq_some_iff.mp hstep
    obtain ⟨hjlt, hj'⟩ := List.getElem?_eq_some_iff.mp hstep'
    obtain rfl := (rules.steps_nodup snap).getElem_inj_iff.mp (hi'.trans hj'.symm)
    exact Option.some.inj (hi.symm.trans hj)

theorem backOffTime_collisionFree_four : 1 ≤ fourValidators.validators.1.card ∧
    ∃ turn ∈ fourValidators.validators.1, backOffTime plainRules fourValidators turn = .ok 0 := by
  have hcard : 1 ≤ fourValidators.validators.1.card := by decide
  obtain ⟨turn, hturn, -, hzero, -⟩ := backOffTime_collisionFree plainRules fourValidators hcard
  exact ⟨hcard, turn, hturn, hzero⟩

end Dexit.Parlia
