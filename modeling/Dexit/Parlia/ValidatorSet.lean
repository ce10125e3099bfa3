import Dexit.Parlia.Engine
import Dexit.Parlia.Transparency
import Dexit.Parlia.VerifyHeader
import Dexit.Staking.Withdrawal

/-! Where the validators of a snapshot come from: an epoch block announced them,
and it read them from the contract. -/

namespace Dexit.Parlia

open Go Outcome List Finset Snapshot HeaderChain

/-- The validators that a header announces. -/
def announced (header : Header) : Except Err (Slice Address) :=
  match header.extra.sub extraVanity (header.extra.1.length - extraSeal) with
  | none => .error .panic
  | some validatorBytes => parseValidators validatorBytes

variable {header : Header} {bytes : Slice UInt8} {validators : Slice Address}

theorem announced_eq
    (h : header.extra.sub extraVanity (header.extra.1.length - extraSeal) = some bytes) :
    announced header = parseValidators bytes := by
  unfold announced
  split
  next hnone =>
    rw [hnone] at h
    cases h
  next hsome =>
    rw [hsome] at h
    cases h
    rfl

theorem parseValidators_ne_nil
    (h : parseValidators bytes = .ok validators) (hne : bytes.1 ≠ []) : validators.1 ≠ [] := by
  unfold parseValidators at h
  split at h
  · cases h
  next hspan =>
  cases h
  rw [not_not] at hspan
  have hpos := length_pos_iff.mpr hne
  have hslots := Nat.div_pos (Nat.le_of_dvd hpos (Nat.dvd_of_mod_eq_zero hspan)) (by decide)
  apply ne_nil_of_length_pos
  rw [length_map, length_range]
  exact hslots

theorem length_addressToBytes (a : Address) : (addressToBytes a).length = validatorBytesLength := by
  rw [addressToBytes, length_map, length_range]

theorem validatorsBytes_ne_nil {validators : List Address} (h : validators ≠ []) :
    validatorsBytes validators ≠ [] := by
  obtain ⟨v, hv⟩ := exists_mem_of_ne_nil validators h
  have hsorted : v ∈ validators.mergeSort fun a b => decide (a ≤ b) := mem_mergeSort.mpr hv
  have hbytes : addressToBytes v ≠ [] := by
    apply ne_nil_of_length_pos
    rw [length_addressToBytes]
    decide
  obtain ⟨b, hb⟩ := exists_mem_of_ne_nil _ hbytes
  exact ne_nil_of_mem (mem_flatMap.mpr ⟨v, hsorted, hb⟩)

theorem toKeySet_nonempty (h : validators.1 ≠ []) :
    validators.toKeySet.1.Nonempty := by
  obtain ⟨v, hv⟩ := exists_mem_of_ne_nil _ h
  exact ⟨v, mem_toFinset.mpr hv⟩

namespace HeaderChain
variable {crypto : Crypto} {config : ParliaConfig} {c : HeaderChain crypto} {n : ℕ} {s t : Snapshot}

/-- The change of validators takes over what the last epoch block announced. -/
theorem applyHeader_announced (hn : n ≤ c.tip)
    (h : s.applyHeader crypto config c.complete.toChainReader [] (c.header n) = .ok t) :
    t.validators = s.validators ∨ ∃ e ≤ n, e % config.epoch.toNat = 0 ∧
      ∃ validators, announced (c.header e) = .ok validators ∧
        t.validators = validators.toKeySet := by
  rw [applyHeader_eq] at h
  obtain ⟨u, hsigner, h⟩ := bind_ok.mp h
  have hvals := recordSigner_validators hsigner
  obtain ⟨w, hchange, h⟩ := bind_ok.mp h
  obtain ⟨_, rfl⟩ := recordFork_ok h
  by_cases hdue : u.ChangesAt config (c.header n)
  · right
    have hle := half_le hn hdue
    rw [epochChange_due hdue, findAncientHeader_complete hn hle] at hchange
    refine ⟨n - u.validators.1.card / 2, Nat.sub_le _ _, ?_, ?_⟩
    · have hnat := congrArg UInt64.toNat hdue.2
      have hhalf : u.validators.1.card / 2 < UInt64.size :=
        lt_of_le_of_lt (Nat.div_le_self _ _) (lt_trans u.validators.2 (by decide))
      rw [number64_eq hn, UInt64.toNat_mod, c.ofNat_toNat hn,
        UInt64.toNat_ofNat_of_lt' hhalf] at hnat
      rw [← hnat]
      exact Nat.sub_mod_eq_zero_of_mod_eq (Nat.mod_mod _ _).symm
    · simp only at hchange
      split at hchange
      · cases hchange
      next hsub =>
        obtain ⟨validators, hparse, hchange⟩ := bind_ok.mp hchange
        cases hchange
        exact ⟨validators, (announced_eq hsub).trans hparse, rfl⟩
  · left
    rw [epochChange_idle hdue] at hchange
    cases hchange
    exact hvals

/-- The validators of every block were announced by an epoch block before it. -/
theorem replay_announced (hn : n ≤ c.tip) (h : c.replay config n = .ok s) :
    ∃ e ≤ n, e % config.epoch.toNat = 0 ∧ ∃ validators, announced (c.header e) = .ok validators ∧
        s.validators = validators.toKeySet := by
  induction n generalizing s with
  | zero =>
    obtain ⟨_, hinit, h⟩ := bind_ok.mp h
    cases h
    unfold initialSnapshot at hinit
    split at hinit
    · cases hinit
    next hsub =>
    obtain ⟨validators, hparse, hinit⟩ := bind_ok.mp hinit
    cases hinit
    exact ⟨0, le_refl 0, Nat.zero_mod _, validators, (announced_eq hsub).trans hparse, rfl⟩
  | succ n ih =>
    rw [replay_succ] at h
    obtain ⟨u, hu, h⟩ := bind_ok.mp h
    obtain hsame | hnew := applyHeader_announced hn h
    · obtain ⟨e, he, hepoch, hann⟩ := ih (Nat.le_of_succ_le hn) hu
      rw [hsame]
      exact ⟨e, Nat.le_succ_of_le he, hepoch, hann⟩
    · exact hnew

/-- The genesis block names validators, and each later epoch block carries the
sorted list of the contract, whose state for it is `contract`. -/
structure Announces (c : HeaderChain crypto) (config : ParliaConfig)
    (contract : ℕ → Staking.State) : Prop where
  genesis : ∃ validators, announced (c.header 0) = .ok validators ∧ validators.1 ≠ []
  carries : ∀ e ≤ c.tip, 0 < e → e % config.epoch.toNat = 0 → ∃ bytes,
    (c.header e).extra.sub extraVanity ((c.header e).extra.1.length - extraSeal) = some bytes ∧
      bytes.1 = validatorsBytes (Staking.getValidators (contract e))

theorem supposeValidator_ok (h : s.validators.1.Nonempty) :
    ∃ turn ∈ s.validators.1, s.supposeValidator = .ok turn := by
  have hpos : 0 < s.sorted.length := by
    rw [sorted, length_sort]
    exact card_pos.mpr h
  have hlt := Nat.mod_lt (s.number + 1).toNat hpos
  refine ⟨_, (mem_sort _).mp (getElem_mem hlt), ?_⟩
  rw [supposeValidator, getElem?_eq_getElem hlt]

theorem snapshot_nonempty {contract : ℕ → Staking.State} (hc : Announces c config contract)
    (hseated : ∀ e ≤ c.tip, 0 < e → e % config.epoch.toNat = 0 →
      (contract e).highestValidators ≠ [])
    (hn : n ≤ c.tip) (h : c.fromGenesis config n = some (.ok s)) : s.validators.1.Nonempty := by
  obtain ⟨t, hreplay, rfl⟩ := (fromGenesis_ok hn).mp h
  obtain ⟨e, hle, hepoch, validators, hann, hvals⟩ := replay_announced hn hreplay
  have hset : (c.label n t).validators = validators.toKeySet := hvals
  rw [hset]
  apply toKeySet_nonempty
  obtain rfl | hpos := Nat.eq_zero_or_pos e
  · obtain ⟨validators', hann', hne⟩ := hc.genesis
    rw [hann] at hann'
    cases hann'
    exact hne
  · obtain ⟨bytes, hsub, hbytes⟩ := hc.carries e (hle.trans hn) hpos hepoch
    rw [announced_eq hsub] at hann
    apply parseValidators_ne_nil hann
    rw [hbytes]
    exact validatorsBytes_ne_nil (hseated e (hle.trans hn) hpos hepoch)

/-- The staking contract as block `n` finds it, where `calls` are the calls of each block. -/
def contractAt (calls : ℕ → List Staking.Message) (n : ℕ) : Staking.State :=
  Solidity.run Staking.exec Staking.postInit ((List.range n).flatMap calls)

variable {calls : ℕ → List Staking.Message}

theorem contractAt_seated {m : ℕ} (h : (contractAt calls m).highestValidators ≠ []) (hle : m ≤ n) :
    (contractAt calls n).highestValidators ≠ [] := by
  obtain ⟨k, rfl⟩ := Nat.exists_eq_add_of_le hle
  rw [contractAt, List.range_add, flatMap_append, Solidity.run_append]
  exact Solidity.run_preserves (P := (·.highestValidators ≠ []))
    (fun _ _ _ hs ht => Staking.exec_seated ht hs) h _

/-- It is enough that somebody is seated before the first epoch block. -/
theorem nonempty_of_first_epoch (hc : Announces c config (contractAt calls))
    (hfirst : (contractAt calls config.epoch.toNat).highestValidators ≠ [])
    (hn : n ≤ c.tip) (h : c.fromGenesis config n = some (.ok s)) : s.validators.1.Nonempty := by
  refine snapshot_nonempty hc ?_ hn h
  intro e _ hpos hepoch
  exact contractAt_seated hfirst (Nat.le_of_dvd hpos (Nat.dvd_of_mod_eq_zero hepoch))

/-- While somebody has a seat in every contract state that an epoch block reads,
no snapshot is without validators, and it is always somebody's turn. -/
theorem validators_never_empty {contract : ℕ → Staking.State} (hc : Announces c config contract)
    (hseated : ∀ e ≤ c.tip, 0 < e → e % config.epoch.toNat = 0 →
      (contract e).highestValidators ≠ [])
    (hn : n ≤ c.tip) (h : c.fromGenesis config n = some (.ok s)) :
    s.validators.1.Nonempty ∧ (∃ v, s.supposeValidator = .ok v) ∧
      ∀ val, ∃ turn, s.inturn val = .ok turn := by
  have hne := snapshot_nonempty hc hseated hn h
  obtain ⟨v, -, hv⟩ := supposeValidator_ok hne
  refine ⟨hne, ⟨v, hv⟩, ?_⟩
  intro val
  rw [inturn, hv]
  exact ⟨_, rfl⟩

/-- Every header passes the checks on the snapshot of its parent. -/
def Verified (c : HeaderChain crypto) (rules : HeaderRules) : Prop :=
  ∀ n ≤ c.tip, ∃ snap, c.fromGenesis rules.config (n - 1) = some snap ∧
    verifyHeader crypto rules c.complete.toChainReader [] snap (c.header n) = .ok ()

/-- The headers are verified and applied in turn. -/
def importUpTo (c : HeaderChain crypto) (rules : HeaderRules) : ℕ → Except Err Snapshot
  | 0 => do
    let s ← initialSnapshot crypto 0 (c.header 0)
    verifyHeader crypto rules c.complete.toChainReader [] (.ok s) (c.header 0)
    pure s
  | n + 1 => do
    let s ← c.importUpTo rules n
    verifyHeader crypto rules c.complete.toChainReader [] (.ok (c.label n s)) (c.header (n + 1))
    s.applyHeader crypto rules.config c.complete.toChainReader [] (c.header (n + 1))

theorem importUpTo_ok {rules : HeaderRules} (hn : n ≤ c.tip) (h : c.importUpTo rules n = .ok s) :
    c.replay rules.config n = .ok s ∧ ∀ m ≤ n, ∃ snap,
      c.fromGenesis rules.config (m - 1) = some snap ∧
        verifyHeader crypto rules c.complete.toChainReader [] snap (c.header m) = .ok () := by
  induction n generalizing s with
  | zero =>
    obtain ⟨s, hinit, h⟩ := bind_ok.mp h
    obtain ⟨_, hverify, h⟩ := bind_ok.mp h
    cases h
    have hreplay : c.replay rules.config 0 = .ok s := by
      rw [replay, hinit, between_nil (le_refl 0)]
      rfl
    refine ⟨hreplay, ?_⟩
    intro m hm
    rw [Nat.le_zero.mp hm, fromGenesis_eq (Nat.zero_le _), replay_zero, hinit]
    exact ⟨_, rfl, hverify⟩
  | succ n ih =>
    obtain ⟨u, hu, h⟩ := bind_ok.mp h
    obtain ⟨_, hverify, h⟩ := bind_ok.mp h
    obtain ⟨hreplay, hbefore⟩ := ih (Nat.le_of_succ_le hn) hu
    refine ⟨?_, ?_⟩
    · rw [replay_succ, hreplay]
      exact h
    · intro m hm
      obtain rfl | hlt := Nat.eq_or_lt_of_le hm
      · rw [Nat.add_sub_cancel, fromGenesis_eq (Nat.le_of_succ_le hn), hreplay]
        exact ⟨_, rfl, hverify⟩
      · exact hbefore m (Nat.le_of_lt_succ hlt)

end HeaderChain

/-! ## A chain on which nobody stakes -/

/-- The rules of a chain whose forks are all behind it. -/
def plainRules : HeaderRules where
  config := plainConfig
  fakeDiff := false
  isRamanujan _ := true
  eip150Block := some 0
  eip150Hash := 0
  now := 1000
  shuffle _ steps := steps
  shuffle_perm _ _ := .refl _

/-- The genesis block with validator 1. -/
def loneGenesis : Header where
  parentHash := 0
  coinbase := 0
  difficulty := diffNoTurn
  number := 0
  gasLimit := 30000000
  gasUsed := 0
  time := 0
  extra := ⟨replicate 32 0 ++ addressToBytes 1 ++ replicate 65 0, by
    simp [maxLen, addressToBytes, validatorBytesLength]⟩

/-- Extra data that announces at most one validator, sealed by validator 1. -/
def loneExtra (validator : Option Address) : Slice UInt8 :=
  ⟨replicate 32 0 ++ validator.toList.flatMap addressToBytes ++ replicate 64 0 ++ [1], by
    cases validator with
    | none => decide
    | some v => simp [maxLen, length_addressToBytes, validatorBytesLength]⟩

/-- Validator 1 signs every block when it is due, and block 200 announces who
has a seat. -/
def loneBlock (seated : Option Address) (n : ℕ) : Header :=
  { blockBy 1 (n + 1) (BitVec.ofNat 256 n) with
    difficulty := diffInTurn
    time := UInt64.ofNat (3 * (n + 1))
    extra := if n + 1 = 200 then loneExtra seated else loneExtra none }

def loneChain (seated : Option Address) : HeaderChain plainCrypto where
  tip := 200
  header
    | 0 => loneGenesis
    | n + 1 => loneBlock seated n
  tip_lt := by decide
  numbered
    | 0, _ => rfl
    | _ + 1, _ => rfl
  linked
    | 0, _ => rfl
    | _ + 1, _ => rfl

theorem loneGenesis_announced : announced loneGenesis = .ok ⟨[1], by decide⟩ := by
  decide +kernel

theorem loneExtra_sub (seated : Option Address) : ∃ bytes,
    (loneExtra seated).sub extraVanity ((loneExtra seated).1.length - extraSeal) = some bytes ∧
      bytes.1 = validatorsBytes seated.toList := by
  have hsplit : (loneExtra seated).1 = replicate 32 0 ++
      seated.toList.flatMap addressToBytes ++ (replicate 64 0 ++ [1]) :=
    append_assoc _ _ _
  have hsorted : validatorsBytes seated.toList = seated.toList.flatMap addressToBytes := by
    cases seated with
    | none => rw [validatorsBytes, Option.toList_none, mergeSort_nil]
    | some v => rw [validatorsBytes, Option.toList_some, mergeSort_singleton]
  have hlen : (loneExtra seated).1.length - extraSeal =
      (replicate 32 0 ++ seated.toList.flatMap addressToBytes).length := by
    rw [hsplit, length_append]
    exact Nat.add_sub_cancel _ _
  rw [hsorted, hlen]
  exact Slice.sub_append hsplit

variable {seated : Option Address}

theorem loneChain_announces {contract : ℕ → Staking.State}
    (hseated : (contract 200).highestValidators = seated.toList) :
    (loneChain seated).Announces plainConfig contract where
  genesis := ⟨_, loneGenesis_announced, cons_ne_nil _ _⟩
  carries e hle hpos hepoch := by
    have htip : (loneChain seated).tip = 200 := rfl
    have hsize : plainConfig.epoch.toNat = 200 := rfl
    rw [hsize] at hepoch
    obtain rfl : e = 200 := by omega
    rw [Staking.getValidators, hseated]
    exact loneExtra_sub seated

theorem loneChain_verified (h : seated = none ∨ seated = some 1) :
    (loneChain seated).Verified plainRules ∧
      ∃ s, (loneChain seated).fromGenesis plainConfig 200 = some (.ok s) ∧
        s.validators.1.card = seated.toList.length := by
  have himport : ((loneChain seated).importUpTo plainRules 200).toOption.map
      (fun s => s.validators.1.card) = some seated.toList.length := by
    obtain rfl | rfl := h <;> decide +kernel
  cases hrun : (loneChain seated).importUpTo plainRules 200 with
  | error e =>
    rw [hrun] at himport
    cases himport
  | ok s =>
    rw [hrun] at himport
    obtain ⟨hreplay, hverified⟩ := importUpTo_ok (le_refl 200) hrun
    refine ⟨hverified, (loneChain seated).label 200 s, ?_, Option.some_inj.mp himport⟩
    have hconfig : plainRules.config = plainConfig := rfl
    rw [hconfig] at hreplay
    rw [fromGenesis_eq (le_refl 200), hreplay]
    rfl

/-- Validator 1 stakes in block 150. -/
def loneStake (n : ℕ) : List Staking.Message :=
  if n = 150 then [.stake 1 Staking.MINIMUM_STAKE_AMOUNT] else []

theorem loneChain_seated : ∃ s, (loneChain (some 1)).fromGenesis plainConfig 200 = some (.ok s) ∧
    s.validators.1.Nonempty := by
  have hseats : (contractAt loneStake 200).highestValidators = [1] := by decide +kernel
  have hone : (some 1 : Option Address) = none ∨ (some 1 : Option Address) = some 1 := Or.inr rfl
  obtain ⟨_, s, hs, _⟩ := loneChain_verified hone
  have hfirst : (contractAt loneStake 200).highestValidators ≠ [] := by
    rw [hseats]
    exact cons_ne_nil _ _
  refine ⟨s, hs, (validators_never_empty (loneChain_announces hseats) ?_ (le_refl 200) hs).1⟩
  intro e _ hpos hepoch
  exact contractAt_seated hfirst (Nat.le_of_dvd hpos (Nat.dvd_of_mod_eq_zero hepoch))

/-- Nobody has staked: the epoch block announces nobody, every header verifies,
and from block 200 on it is nobody's turn. -/
theorem loneChain_empties : (loneChain none).Verified plainRules ∧
    (loneChain none).Announces plainConfig (HeaderChain.contractAt fun _ => []) ∧
      ∃ s, (loneChain none).fromGenesis plainConfig 200 = some (.ok s) ∧
        s.validators.1 = ∅ ∧ s.supposeValidator = .error .panic := by
  have hnone : (none : Option Address) = none ∨ (none : Option Address) = some 1 := Or.inl rfl
  obtain ⟨hverified, s, hs, hcard⟩ := loneChain_verified hnone
  have hempty : s.validators.1 = ∅ := card_eq_zero.mp hcard
  refine ⟨hverified, loneChain_announces (by decide +kernel), s, hs, hempty, ?_⟩
  have hsorted : s.sorted = [] := by rw [sorted, hempty, sort_empty]
  rw [supposeValidator, hsorted]
  rfl

end Dexit.Parlia
