import Dexit.Staking.ActiveSet

/-! The list of punished validators and the record each of them keeps of its place there. -/

namespace Dexit.Staking

open Solidity List
open Function

/-- Exactly the punished validators are listed, each once. -/
structure Listed (s : State) : Prop where
  punished : ∀ v, (s.punishRecord v).isPunished = true ↔ v ∈ s.punishValidator
  once : s.punishValidator.Nodup

/-- Every punished validator is found at the place it has on record. -/
structure Placed (s : State) : Prop extends Listed s where
  index : ∀ v ∈ s.punishValidator, s.punishValidator[(s.punishRecord v).index]? = some v

/-- A listed validator leaves jail from a place before the last. The last one moves to its place,
with the old one on record. -/
def LeavesAGap (s : State) (m : Message) : Prop :=
  m.call = .unJailed ∧ MayLeaveJail s m.env ∧ m.env.sender ∈ s.punishValidator ∧
    s.punishValidator.getLast? ≠ some m.env.sender

section
variable {s t : State} {m : Message} {env : Env} {v : Address}

theorem Noted.mem_list {P : Address → PunishRecord} {L : List Address} (h : Noted s v P L)
    (hs : Listed s) {a : Address} : a ∈ L ↔ a ∈ s.punishValidator ∨ a = v := by
  rw [h.list]
  split
  next hp =>
    refine ⟨Or.inl, ?_⟩
    rintro (ha | rfl)
    · exact ha
    · exact (hs.punished a).mp hp
  · rw [mem_append, mem_singleton]

theorem punish_listed (hs : Listed s) (h : punish s env v = .ok t) : Listed t := by
  have hnoted := punish_noted h
  refine ⟨fun a => ?_, ?_⟩
  · rw [hnoted.mem_list hs]
    by_cases ha : a = v
    · subst ha
      exact iff_of_true hnoted.noted (Or.inr rfl)
    · rw [hnoted.others a ha, or_iff_left ha]
      exact hs.punished a
  · rw [hnoted.list]
    split
    · exact hs.once
    next hp =>
      rw [← concat_eq_append]
      exact hs.once.concat fun hv => hp ((hs.punished v).mpr hv)

theorem punish_placed (hs : Placed s) (h : punish s env v = .ok t) : Placed t := by
  have hnoted := punish_noted h
  refine ⟨punish_listed hs.toListed h, fun a ha => ?_⟩
  have kept (hold : a ∈ s.punishValidator)
      (hindex : (t.punishRecord a).index = (s.punishRecord a).index) :
      t.punishValidator[(t.punishRecord a).index]? = some a := by
    have hplace := hs.index a hold
    obtain ⟨hroom, _⟩ := List.getElem?_eq_some_iff.mp hplace
    rw [hindex, hnoted.list]
    split
    · exact hplace
    · rwa [getElem?_append_left hroom]
  by_cases hav : a = v
  · subst hav
    by_cases hp : (s.punishRecord a).isPunished = true
    · exact kept ((hs.punished a).mp hp) (by rw [hnoted.index, if_pos hp])
    · rw [hnoted.index, hnoted.list, if_neg hp, if_neg hp, getElem?_concat_length]
  · exact kept (((hnoted.mem_list hs.toListed).mp ha).resolve_right hav)
      (by rw [hnoted.others a hav])

/-- Whoever leaves jail leaves the list, and nothing else changes there. -/
theorem unJailed_punishments (h : unJailed s env = .ok t) :
    MayLeaveJail s env ∧ (t.punishRecord env.sender).isPunished = false ∧
      (∀ a ≠ env.sender, t.punishRecord a = s.punishRecord a) ∧
      t.punishValidator = swapRemoveFirst env.sender s.punishValidator := by
  refine ⟨unJailed_returns.mp ⟨t, h⟩, ?_⟩
  obtain ⟨_, _, _, _, seats, _, rfl⟩ := unJailed_ok h
  exact ⟨by simp only [update_self], fun a ha => update_of_ne ha _ _, rfl⟩

theorem unJailed_listed (hs : Listed s) (h : unJailed s env = .ok t) : Listed t := by
  obtain ⟨_, hfree, hothers, hlist⟩ := unJailed_punishments h
  refine ⟨fun a => ?_, hlist ▸ swapRemoveFirst_nodup hs.once⟩
  rw [hlist]
  by_cases ha : a = env.sender
  · subst ha
    exact iff_of_false (by rw [hfree]; exact Bool.false_ne_true) (notMem_swapRemoveFirst hs.once)
  · rw [hothers a ha, hs.punished a]
    exact ⟨fun hm => mem_swapRemoveFirst_of_ne hm ha, mem_of_mem_swapRemoveFirst⟩

theorem unJailed_placed_iff (hs : Placed s) (h : unJailed s env = .ok t) :
    Placed t ↔ ¬ LeavesAGap s ⟨env, .unJailed⟩ := by
  obtain ⟨hleave, _, hothers, hlist⟩ := unJailed_punishments h
  have hlisted := unJailed_listed hs.toListed h
  have hindex : Placed t ↔ ∀ a ∈ swapRemoveFirst env.sender s.punishValidator,
      (swapRemoveFirst env.sender s.punishValidator)[(s.punishRecord a).index]? = some a := by
    rw [← hlist]
    have hne : ∀ a ∈ t.punishValidator, a ≠ env.sender := by
      rintro a ha rfl
      rw [hlist] at ha
      exact notMem_swapRemoveFirst hs.once ha
    constructor
    · intro ht a ha
      rw [← hothers a (hne a ha)]
      exact ht.index a ha
    · intro hplaces
      refine ⟨hlisted, fun a ha => ?_⟩
      rw [hothers a (hne a ha)]
      exact hplaces a ha
  by_cases hmem : env.sender ∈ s.punishValidator
  · rw [hindex, places_swapRemoveFirst_iff hs.once hmem hs.index]
    refine ⟨fun hlast hgap => hgap.2.2.2 hlast, fun hno => ?_⟩
    by_contra hlast
    exact hno ⟨rfl, hleave, hmem, hlast⟩
  · rw [hindex, swapRemoveFirst_of_notMem hmem]
    exact iff_of_true hs.index fun hgap => hmem hgap.2.2.1

theorem exec_listed (hs : Listed s) (h : exec s m = .ok t) : Listed t := by
  obtain ⟨v, hcall⟩ | hcall | ⟨hrecord, hlist⟩ := (exec_setup h).2.2
  · obtain ⟨env, _⟩ := m
    cases hcall
    exact punish_listed hs h
  · obtain ⟨env, _⟩ := m
    cases hcall
    exact unJailed_listed hs h
  · exact ⟨by rw [hrecord, hlist]; exact hs.punished, by rw [hlist]; exact hs.once⟩

theorem exec_placed_iff (hs : Placed s) (h : exec s m = .ok t) : Placed t ↔ ¬ LeavesAGap s m := by
  obtain ⟨env, call⟩ := m
  by_cases hcall : call = .unJailed
  · subst hcall
    exact unJailed_placed_iff hs h
  refine iff_of_true ?_ fun hgap => hcall hgap.1
  obtain ⟨v, rfl⟩ | hleave | ⟨hrecord, hlist⟩ := (exec_setup h).2.2
  · exact punish_placed hs h
  · exact absurd hleave hcall
  · exact ⟨exec_listed hs.toListed h, by rw [hrecord, hlist]; exact hs.index⟩

/-- The punish list never lacks a punished validator, names no other and none twice. The places on
record are right throughout exactly the runs in which nobody leaves a gap. -/
theorem placed_throughout_iff (calls : List Message) :
    Throughout exec Listed postInit calls ∧
    (Throughout exec Placed postInit calls ↔
      Along exec (fun s m => ¬ LeavesAGap s m) postInit calls) := by
  have start : Placed postInit :=
    ⟨⟨fun v => by simp [postInit], nodup_nil⟩, fun v hv => absurd hv not_mem_nil⟩
  refine ⟨throughout_of_preserved (fun s m t hs _ h => exec_listed hs h) start.toListed
    (along_true exec postInit calls), ?_⟩
  refine throughout_iff_along (J := fun _ => True) (fun _ _ _ _ _ _ => trivial)
    (fun s m t _ _ hs h => exec_placed_iff hs h) ?_ trivial start (along_true exec postInit calls)
  rintro s ⟨env, call⟩ e _ h ⟨hcall, hleave, _⟩
  cases hcall
  obtain ⟨t, ht⟩ := unJailed_returns.mpr hleave
  cases h.symm.trans ht

/-- Validator 1 is jailed, 2 misses a block and is listed second, then 1 leaves jail. -/
def firstLeaves : List Message :=
  Message.stakes [1, 2] ++ List.replicate FELONY_THRESHOLD (.slash 1) ++ [.slash 2, .leaveJail 1]

theorem firstLeaves_misplaced : ¬ Placed (run exec postInit firstLeaves) := by
  intro h
  have hlist : (run exec postInit firstLeaves).punishValidator = [2] := by decide +kernel
  have hindex : ((run exec postInit firstLeaves).punishRecord 2).index = 1 := by decide +kernel
  have hplace := h.index 2 (by rw [hlist]; exact mem_singleton_self 2)
  rw [hlist, hindex] at hplace
  cases hplace

end

end Dexit.Staking
