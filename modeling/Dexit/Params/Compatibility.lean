import Dexit.Params.Config

/-!
# Checking a new configuration against the stored one

A fork may be moved only while the head is below both of its block numbers.
`checkCompatible` goes through the forks and reports the first one that was
moved too late; `CheckCompatible` repeats this from the block the report asks
to go back to, until nothing is left to report.
-/

namespace Dexit.Params

open List Option

/-- The report of a conflict, with the block the chain has to be rewound to. -/
structure ConfigCompatError where
  what : String
  storedConfig : Option ℤ
  newConfig : Option ℤ
  rewindTo : ℕ
deriving Repr, DecidableEq

/-- Whether a fork scheduled at `s1` cannot be rescheduled to `s2` any more. -/
def isForkIncompatible (s1 s2 : Option ℤ) (head : ℤ) : Bool :=
  (isForked s1 head || isForked s2 head) && !configNumEqual s1 s2

/-- The earlier of the two block numbers. -/
def conflictBlock (storedblock newblock : Option ℤ) : Option ℤ :=
  match storedblock, newblock with
  | none, new => new
  | some stored, none => some stored
  | some stored, some new => if stored < new then some stored else some new

def newCompatError (what : String) (storedblock newblock : Option ℤ) : ConfigCompatError where
  what := what
  storedConfig := storedblock
  newConfig := newblock
  rewindTo :=
    match conflictBlock storedblock newblock with
    | none => 0
    -- the subtraction is one of 64-bit numbers
    | some rew => if 0 < rew then (uint64 rew + (2 ^ 64 - 1)) % 2 ^ 64 else 0

/-- One check of the list: its verdict, and what the report would say. -/
structure Check where
  fails : Bool
  what : String
  stored : Option ℤ
  new : Option ℤ

namespace Check

/-- The check that a fork was not moved too late. -/
def fork (what : String) (stored new : Option ℤ) (head : ℤ) : Check :=
  ⟨isForkIncompatible stored new head, what, stored, new⟩

def error (k : Check) : ConfigCompatError := newCompatError k.what k.stored k.new

end Check

namespace ChainConfig

/-- The checks in the order of the source. Petersburg may be set in the past
when it is set to the stored Constantinople block. -/
def checks (c newcfg : ChainConfig) (head : ℤ) : List Check :=
  [.fork "Homestead fork block" c.homesteadBlock newcfg.homesteadBlock head,
    .fork "DAO fork block" c.daoForkBlock newcfg.daoForkBlock head,
    ⟨c.isDAOFork head && (c.daoForkSupport != newcfg.daoForkSupport), "DAO fork support flag",
      c.daoForkBlock, newcfg.daoForkBlock⟩,
    .fork "EIP150 fork block" c.eip150Block newcfg.eip150Block head,
    .fork "EIP155 fork block" c.eip155Block newcfg.eip155Block head,
    .fork "EIP158 fork block" c.eip158Block newcfg.eip158Block head,
    ⟨c.isEIP158 head && !configNumEqual c.chainID newcfg.chainID, "EIP158 chain ID",
      c.eip158Block, newcfg.eip158Block⟩,
    .fork "Byzantium fork block" c.byzantiumBlock newcfg.byzantiumBlock head,
    .fork "Constantinople fork block" c.constantinopleBlock newcfg.constantinopleBlock head,
    ⟨isForkIncompatible c.petersburgBlock newcfg.petersburgBlock head &&
      isForkIncompatible c.constantinopleBlock newcfg.petersburgBlock head,
      "Petersburg fork block", c.petersburgBlock, newcfg.petersburgBlock⟩,
    .fork "Istanbul fork block" c.istanbulBlock newcfg.istanbulBlock head,
    .fork "Muir Glacier fork block" c.muirGlacierBlock newcfg.muirGlacierBlock head,
    .fork "Berlin fork block" c.berlinBlock newcfg.berlinBlock head,
    .fork "YOLOv3 fork block" c.yoloV3Block newcfg.yoloV3Block head,
    .fork "ewasm fork block" c.ewasmBlock newcfg.ewasmBlock head,
    .fork "ramanujan fork block" c.ramanujanBlock newcfg.ramanujanBlock head,
    .fork "mirrorSync fork block" c.mirrorSyncBlock newcfg.mirrorSyncBlock head,
    .fork "bruno fork block" c.brunoBlock newcfg.brunoBlock head,
    .fork "euler fork block" c.eulerBlock newcfg.eulerBlock head,
    .fork "ClassicBlock fork block" c.classicBlock newcfg.classicBlock head]

def checkCompatible (c newcfg : ChainConfig) (head : ℤ) : Option ConfigCompatError :=
  ((c.checks newcfg head).find? (·.fails)).map (·.error)

end ChainConfig

variable {s1 s2 : Option ℤ} {head : ℤ}

theorem isForked_of_incompatible (h : isForkIncompatible s1 s2 head = true) :
    isForked s1 head = true ∨ isForked s2 head = true := by
  rw [isForkIncompatible, Bool.and_eq_true, Bool.or_eq_true] at h
  exact h.1

/-- Every check that fails is about a fork that is active under the stored or
the new configuration. -/
theorem checks_active {c newcfg : ChainConfig} {k : Check}
    (hk : k ∈ c.checks newcfg head) (hf : k.fails = true) :
    isForked k.stored head = true ∨ isForked k.new head = true := by
  simp only [ChainConfig.checks, mem_cons, not_mem_nil, or_false] at hk
  rcases hk with rfl | rfl | rfl | rfl | rfl | rfl | rfl | rfl | rfl | rfl | rfl | rfl | rfl |
    rfl | rfl | rfl | rfl | rfl | rfl | rfl
  -- the flags and the chain id are compared where the stored fork is active
  case inr.inr.inl => exact .inl (Bool.and_eq_true_iff.mp hf).1
  case inr.inr.inr.inr.inr.inr.inl => exact .inl (Bool.and_eq_true_iff.mp hf).1
  case inr.inr.inr.inr.inr.inr.inr.inr.inr.inl =>
    exact isForked_of_incompatible (Bool.and_eq_true_iff.mp hf).1
  all_goals exact isForked_of_incompatible hf

variable {stored new : Option ℤ} {num : ℤ}

theorem conflictBlock_le (h : isForked stored head = true ∨ isForked new head = true) :
    ∃ rew, conflictBlock stored new = some rew ∧ rew ≤ head := by
  cases stored with
  | none =>
    cases new with
    | none => simp at h
    | some n => exact ⟨n, rfl, by simpa using h⟩
  | some s =>
    cases new with
    | none => exact ⟨s, rfl, by simpa using h⟩
    | some n =>
      simp only [isForked_some, decide_eq_true_eq] at h
      by_cases hlt : s < n
      · exact ⟨s, if_pos hlt, by omega⟩
      · exact ⟨n, if_neg hlt, by omega⟩

namespace ChainConfig

variable {c newcfg : ChainConfig} {err : ConfigCompatError}

theorem checkCompatible_none {head : ℤ} :
    c.checkCompatible newcfg head = none ↔ ∀ k ∈ c.checks newcfg head, k.fails = false := by
  simp [checkCompatible]

theorem checkCompatible_rewindTo {head : ℕ}
    (h : c.checkCompatible newcfg head = some err) : err.rewindTo < head ∨ err.rewindTo = 0 := by
  obtain ⟨k, hk, rfl⟩ := map_eq_some_iff.mp h
  obtain ⟨rew, hrew, hle⟩ := conflictBlock_le (checks_active (mem_of_find?_eq_some hk) (find?_some hk))
  -- one goes back to the block before an active fork
  simp only [Check.error, newCompatError, hrew, uint64]
  split
  next hpos => omega
  next => exact .inr rfl

/-- The loop of `CheckCompatible`, from a head and the last report. -/
def checkCompatibleFrom (c newcfg : ChainConfig) (bhead : ℕ)
    (lasterr : Option ConfigCompatError) : Option ConfigCompatError :=
  match _h : c.checkCompatible newcfg bhead with
  | none => lasterr
  | some err =>
    if lasterr.map (·.rewindTo) = some err.rewindTo then lasterr
    else checkCompatibleFrom c newcfg err.rewindTo (some err)
-- a report either lowers the head or names block zero, and that only once
termination_by 2 * bhead + (if lasterr.map (·.rewindTo) = some bhead then 0 else 1)
decreasing_by
  have hlt := checkCompatible_rewindTo _h
  simp only [Option.map_some, if_true]
  grind

def CheckCompatible (c newcfg : ChainConfig) (height : ℕ) : Option ConfigCompatError :=
  c.checkCompatibleFrom newcfg height none

/-- Where the loop ends there is nothing left to report, or no block to go back to. -/
def Settled (c newcfg : ChainConfig) (err : ConfigCompatError) : Prop :=
  c.checkCompatible newcfg err.rewindTo = none ∨ err.rewindTo = 0

/-- The loop goes on from the block its last report names. -/
theorem checkCompatibleFrom_settled {bhead : ℕ}
    {lasterr : Option ConfigCompatError} (hlast : lasterr.map (·.rewindTo) = some bhead) :
    ∃ err, c.checkCompatibleFrom newcfg bhead lasterr = some err ∧
      err.rewindTo ≤ bhead ∧ c.Settled newcfg err := by
  fun_induction checkCompatibleFrom c newcfg bhead lasterr with
  | case1 bhead lasterr hnone =>
    obtain ⟨err, rfl, rfl⟩ := map_eq_some_iff.mp hlast
    exact ⟨err, rfl, le_rfl, .inl hnone⟩
  | case2 bhead lasterr err hsome hsame =>
    obtain ⟨last, rfl, rfl⟩ := map_eq_some_iff.mp hlast
    have hzero : last.rewindTo = 0 := by
      have hle := checkCompatible_rewindTo hsome
      rw [map_some, some_inj] at hsame
      omega
    exact ⟨last, rfl, le_rfl, .inr hzero⟩
  | case3 bhead lasterr err hsome hsame ih =>
    obtain ⟨err', heq, hle, hs⟩ := ih rfl
    have hlt := checkCompatible_rewindTo hsome
    exact ⟨err', heq, by omega, hs⟩

theorem checkCompatibleFrom_report (c newcfg : ChainConfig) (last : ConfigCompatError) :
    ∃ err, c.checkCompatibleFrom newcfg last.rewindTo (some last) = some err ∧
      err.rewindTo ≤ last.rewindTo ∧ c.Settled newcfg err :=
  checkCompatibleFrom_settled rfl

variable {height : ℕ}

theorem CheckCompatible_none :
    c.CheckCompatible newcfg height = none ↔ c.checkCompatible newcfg height = none := by
  unfold CheckCompatible checkCompatibleFrom
  split
  next hnone => simp [hnone]
  next err hsome =>
    obtain ⟨err', heq, _⟩ := checkCompatibleFrom_report c newcfg err
    simp [hsome, heq]

/-- A report asks to go back below the head, or to block zero, and nothing
conflicts there any more. -/
theorem CheckCompatible_rewindTo (h : c.CheckCompatible newcfg height = some err) :
    (err.rewindTo < height ∨ err.rewindTo = 0) ∧ c.Settled newcfg err := by
  unfold CheckCompatible checkCompatibleFrom at h
  split at h
  next => cases h
  next first hsome =>
  obtain ⟨err', heq, hle, hs⟩ := checkCompatibleFrom_report c newcfg first
  rw [if_neg (by simp), heq, some_inj] at h
  subst h
  have hlt := checkCompatible_rewindTo hsome
  exact ⟨by omega, hs⟩

/-- The fork predicates over block numbers. -/
def forkPredicates : List (ChainConfig → ℤ → Bool) :=
  [isHomestead, isDAOFork, isEIP150, isEIP155, isEIP158, isByzantium, isConstantinople,
    isRamanujan, isOnRamanujan, isNiels, isOnNiels, isMirrorSync, isOnMirrorSync, isBruno,
    isOnBruno, isEuler, isOnEuler, isClassic, isOnClassic, isMuirGlacier, isPetersburg,
    isIstanbul, isBerlin, isCatalyst, isEWASM]

/-- The block at which the rules of Petersburg take effect. -/
def petersburgRules (c : ChainConfig) : Option ℤ := c.petersburgBlock.or c.constantinopleBlock

theorem isPetersburg_eq (c : ChainConfig) (num : ℤ) :
    c.isPetersburg num = isForked c.petersburgRules num := by
  unfold isPetersburg petersburgRules
  cases c.petersburgBlock with
  | none => simp
  | some s => simp

end ChainConfig

/-- Up to the head no block sees that a fork was moved: it is where it was, or
both places are above the head, or neither is above `least`. -/
def Unmoved (least head : ℤ) (s1 s2 : Option ℤ) : Prop :=
  s1 = s2 ∨ (isForked s1 head = false ∧ isForked s2 head = false) ∨
    (isForked s1 least = true ∧ isForked s2 least = true)

theorem Unmoved.of_compatible (least : ℤ) (h : isForkIncompatible s1 s2 head = false) :
    Unmoved least head s1 s2 := by
  simp only [isForkIncompatible, configNumEqual_eq] at h
  by_cases heq : s1 = s2
  · exact .inl heq
  · exact .inr (.inl (by simpa [heq] using h))

variable {height : ℕ}

/-- A fork at or below block zero is active from the first block on. -/
theorem isForked_agree_iff :
    Unmoved 0 height s1 s2 ↔ ∀ num : ℕ, num ≤ height → isForked s1 num = isForked s2 num := by
  constructor
  · intro h num hnum
    cases s1 <;> cases s2 <;> simp [Unmoved] at h ⊢ <;> omega
  · -- the two places themselves tell the configurations apart
    intro h
    have h1 := h (s1.getD 0).toNat
    have h2 := h (s2.getD 0).toNat
    cases s1 <;> cases s2 <;> simp [Unmoved] at h1 h2 ⊢ <;> omega

/-- Asked whether it is the block of the fork, block zero is not like those below. -/
theorem onFork_agree_iff :
    Unmoved (-1) height s1 s2 ↔ ∀ num : ℕ, num ≤ height → isForked s1 num = isForked s2 num ∧
      configNumEqual s1 (some num) = configNumEqual s2 (some num) := by
  constructor
  · intro h num hnum
    cases s1 <;> cases s2 <;> simp [Unmoved] at h ⊢ <;> omega
  · intro h
    have h1 := h (s1.getD 0).toNat
    have h2 := h (s2.getD 0).toNat
    cases s1 <;> cases s2 <;> simp [Unmoved] at h1 h2 ⊢ <;> omega

namespace ChainConfig

variable {c newcfg : ChainConfig} {height : ℕ}

/-- Where every check passes, the predicates can differ only through the forks
that the list of checks does not cover. -/
theorem predicates_agree_iff (h : ∀ k ∈ c.checks newcfg height, k.fails = false) :
    (∀ p ∈ forkPredicates, ∀ num : ℕ, num ≤ height → p c num = p newcfg num) ↔
      Unmoved (-1) height c.nielsBlock newcfg.nielsBlock ∧
      Unmoved 0 height c.catalystBlock newcfg.catalystBlock ∧
      Unmoved 0 height c.petersburgRules newcfg.petersburgRules := by
  simp only [onFork_agree_iff, isForked_agree_iff, ← isPetersburg_eq]
  constructor
  · intro hall
    refine ⟨fun num hnum => ⟨?_, ?_⟩, hall isCatalyst (by simp [forkPredicates]),
      hall isPetersburg (by simp [forkPredicates])⟩
    · exact hall isNiels (by simp [forkPredicates]) num hnum
    · exact hall isOnNiels (by simp [forkPredicates]) num hnum
  · rintro ⟨niels, catalyst, petersburg⟩
    have both {s1 s2 : Option ℤ} (hs : isForkIncompatible s1 s2 height = false) :=
      onFork_agree_iff.mp (.of_compatible _ hs)
    have agree {s1 s2 : Option ℤ} (hs : isForkIncompatible s1 s2 height = false) (num : ℕ)
        (hnum : num ≤ height) : isForked s1 num = isForked s2 num := (both hs num hnum).1
    have on {s1 s2 : Option ℤ} (hs : isForkIncompatible s1 s2 height = false) (num : ℕ)
        (hnum : num ≤ height) : configNumEqual s1 (some num) = configNumEqual s2 (some num) :=
      (both hs num hnum).2
    simp only [checks, Check.fork, forall_mem_cons] at h
    obtain ⟨homestead, dao, _, eip150, eip155, eip158, _, byzantium, constantinople, _, istanbul,
      muirGlacier, berlin, yoloV3, ewasm, ramanujan, mirrorSync, bruno, euler, classic, _⟩ := h
    simp only [forkPredicates, forall_mem_cons]
    refine ⟨agree homestead, agree dao, agree eip150, agree eip155, agree eip158,
      agree byzantium, agree constantinople, agree ramanujan, on ramanujan,
      fun num hnum => (niels num hnum).1, fun num hnum => (niels num hnum).2, agree mirrorSync,
      on mirrorSync, agree bruno, on bruno, agree euler, on euler, agree classic, on classic,
      agree muirGlacier, petersburg, agree istanbul, ?_, catalyst, agree ewasm, by simp⟩
    intro num hnum
    rw [isBerlin, isBerlin, agree berlin num hnum, agree yoloV3 num hnum]

/-- A check without a report means that both configurations give every block up
to the head the same rules, exactly when, where every check of the list passes,
also the Niels and Catalyst forks and the start of the Petersburg rules, which
the list leaves out or lets pass, were not moved too late. What a report asks
for is always right. -/
theorem CheckCompatible_complete_iff (c newcfg : ChainConfig) (height : ℕ) :
    ((c.CheckCompatible newcfg height = none →
        ∀ p ∈ forkPredicates, ∀ num : ℕ, num ≤ height → p c num = p newcfg num) ∧
      ∀ err, c.CheckCompatible newcfg height = some err →
        (err.rewindTo < height ∨ err.rewindTo = 0) ∧
        (c.checkCompatible newcfg err.rewindTo = none ∨ err.rewindTo = 0)) ↔
    ((∀ k ∈ c.checks newcfg height, k.fails = false) →
      Unmoved (-1) height c.nielsBlock newcfg.nielsBlock ∧
      Unmoved 0 height c.catalystBlock newcfg.catalystBlock ∧
      Unmoved 0 height c.petersburgRules newcfg.petersburgRules) := by
  rw [CheckCompatible_none, checkCompatible_none]
  constructor
  · rintro ⟨hagree, _⟩ hpass
    exact (predicates_agree_iff hpass).mp (hagree hpass)
  · intro hcond
    refine ⟨?_, fun _ => CheckCompatible_rewindTo⟩
    intro hpass
    exact (predicates_agree_iff hpass).mpr (hcond hpass)

/-- The Niels fork is moved from block 5 to block 7 at head 10: no report, and
block 6 changes its rules. -/
theorem niels_moved_unnoticed :
    ({ frontier with nielsBlock := some 5 } : ChainConfig).CheckCompatible
        { frontier with nielsBlock := some 7 } 10 = none ∧
      ({ frontier with nielsBlock := some 5 } : ChainConfig).isNiels 6 ≠
        ({ frontier with nielsBlock := some 7 } : ChainConfig).isNiels 6 := by
  rw [CheckCompatible_none]
  decide

end ChainConfig

end Dexit.Params
