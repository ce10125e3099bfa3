import Dexit.GovHub.State

/-! What a call of `GovHub` can do, and the runs in which no proposal takes the
place of another. -/

namespace Dexit.GovHub

open Solidity Outcome List ProposalInfo
open Function
open Staking (Env ether nonPayable getCoins)

variable {ι : Type} {s t : State ι} {env : Env}

/-! ## Proposing -/

theorem checkEarlier_ok {vari_name : String} {ids : List ι} {u : Unit} :
    checkEarlier s env vari_name ids = .ok u ↔
      ∀ id ∈ ids, (s.proposals id).variable_name = vari_name →
        (s.proposals id).createTime + PROPOSAL_LASTING_PERIOD < wordSize ∧
          (s.proposals id).createTime + PROPOSAL_LASTING_PERIOD ≤ env.timestamp := by
  induction ids with
  | nil => simp [checkEarlier, pure_ok]
  | cons id rest ih =>
    simp only [checkEarlier, forall_mem_cons]
    split
    next hname =>
      simp only [bind_ok, add_ok, require_ok, ih]
      constructor
      · rintro ⟨_, ⟨hword, rfl⟩, _, hle, hrest⟩
        exact ⟨fun _ => ⟨hword, hle⟩, hrest⟩
      · rintro ⟨hfirst, hrest⟩
        obtain ⟨hword, hle⟩ := hfirst hname
        exact ⟨_, ⟨hword, rfl⟩, (), hle, hrest⟩
    next hname =>
      simp only [ih]
      exact ⟨fun hrest => ⟨fun e => absurd e hname, hrest⟩, fun h => h.2⟩

variable {V : Staking.State} {members : List Address} {x : Nat}

/-- The scan returns the most coins of anybody on the list. -/
theorem le_highcoin :
    (∃ high, highcoin V members = .ok high ∧ x ≤ high) ↔ ∃ a ∈ members, x ≤ getCoins V a := by
  have scan (rest : List Address) (high : Nat) :
      x ≤ rest.foldl (fun high b => if high < getCoins V b then getCoins V b else high) high ↔
        x ≤ high ∨ ∃ a ∈ rest, x ≤ getCoins V a := by
    induction rest generalizing high with
    | nil => simp
    | cons b rest ih =>
      have hmax : (x ≤ if high < getCoins V b then getCoins V b else high) ↔
          x ≤ high ∨ x ≤ getCoins V b := by
        split <;> omega
      simp only [foldl_cons, ih, mem_cons, exists_eq_or_imp, hmax, or_assoc]
  cases members with
  | nil => simp [highcoin]
  | cons a rest => simp [highcoin, scan]

/-- The value a proposal is stored with. -/
def storedValue (vari_name : String) (value : Nat) : Nat :=
  if vari_name = "minimumStakeAmount" then value * ether else value

/-- The values that may be proposed for a variable. -/
def Proposable (V : Staking.State) (vari_name : String) (value : Nat) : Prop :=
  (vari_name = "minimumStakeAmount" → 1 ≤ value ∧ value * ether < wordSize ∧
    ∃ a ∈ V.highestValidators, value * ether ≤ getCoins V a) ∧
  (vari_name = "maxValidators" → 3 ≤ value ∧ value ≤ V.currentValidators.length ∧ value ≤ 51)

theorem checkValue_ok {vari_name : String} {value v : Nat}
    (hlist : s.highestValidators = s.validatorSet.highestValidators) :
    checkValue s vari_name value = .ok v ↔
      Proposable s.validatorSet vari_name value ∧ v = storedValue vari_name value := by
  unfold checkValue storedValue Proposable
  by_cases hmin : vari_name = "minimumStakeAmount"
  · have hmax : ¬ "minimumStakeAmount" = "maxValidators" := by decide
    subst hmin
    simp only [↓reduceIte, bind_ok, require_ok, mul_ok, pure_ok, hmax, false_imp_iff, and_true,
      true_imp_iff, exists_const, ← le_highcoin, hlist]
    constructor
    · rintro ⟨hone, _, ⟨hword, rfl⟩, high, hhigh, hle, rfl⟩
      exact ⟨⟨hone, hword, high, hhigh, hle⟩, rfl⟩
    · rintro ⟨⟨hone, hword, high, hhigh, hle⟩, rfl⟩
      exact ⟨hone, _, ⟨hword, rfl⟩, high, hhigh, hle, rfl⟩
  · rw [if_neg hmin, if_neg hmin]
    by_cases hmax : vari_name = "maxValidators"
    · simp only [hmax, ↓reduceIte, bind_ok, require_ok, pure_ok, exists_const, true_imp_iff]
      constructor
      · rintro ⟨hval, rfl⟩
        exact ⟨⟨fun e => absurd e (by decide), hval⟩, rfl⟩
      · rintro ⟨⟨_, hval⟩, rfl⟩
        exact ⟨hval, rfl⟩
    · rw [if_neg hmax, pure_ok]
      exact ⟨fun e => ⟨⟨fun e' => absurd e' hmin, fun e' => absurd e' hmax⟩, e.symm⟩,
        fun h => h.2.symm⟩

theorem notePresent_eq (s : State ι) (vari_name : String) :
    ∃ x y, notePresent s vari_name = { s with minimumStakeAmount := x, maxValidators := y } := by
  unfold notePresent
  split
  · exact ⟨_, _, rfl⟩
  · split <;> exact ⟨_, _, rfl⟩

theorem recordEligible_returns {A : ActiveProposal}
    {n : Nat} (hn : n < wordSize) : (∃ r, recordEligible V members A n = .ok r) ↔
      n + (members.map (getCoins V)).sum < wordSize := by
  induction members generalizing A n with
  | nil => simp [recordEligible, pure_ok, hn]
  | cons a rest ih =>
    simp only [recordEligible, bind_returns, add_ok, map_cons, sum_cons]
    constructor
    · rintro ⟨_, ⟨hword, rfl⟩, hrest⟩
      rw [ih hword] at hrest
      omega
    · intro hsum
      have hword : n + getCoins V a < wordSize := by omega
      exact ⟨_, ⟨hword, rfl⟩, (ih hword).mpr (by omega)⟩

/-- What a validator needs to make a proposal. -/
structure MayPropose (s : State ι) (env : Env) (details : List UInt8) (vari_name : String)
    (value : Nat) : Prop where
  staked : (s.validatorSet.validatorInfo env.sender).status = .Staked
  governs : vari_name = "maxValidators" ∨ vari_name = "minimumStakeAmount"
  pays : env.value = 5000 * ether
  earlier : ∀ id ∈ s.userProposals env.sender, (s.proposals id).variable_name = vari_name →
    (s.proposals id).createTime + PROPOSAL_LASTING_PERIOD < wordSize ∧
      (s.proposals id).createTime + PROPOSAL_LASTING_PERIOD ≤ env.timestamp
  value : Proposable s.validatorSet vari_name value
  details : details.length ≤ 100
  power : (s.validatorSet.highestValidators.map (getCoins s.validatorSet)).sum < wordSize

section
variable [DecidableEq ι] {keccak : Packed → ι} {vari_name : String} {value : Nat} {id : ι}
  {m : Message ι}

variable {details : List UInt8}

theorem createProposal_returns :
    (∃ t, createProposal keccak s env details vari_name value = .ok t) ↔
      MayPropose s env details vari_name value := by
  obtain ⟨x, y, hnote⟩ := notePresent_eq { s with
    balance := s.balance + env.value
    highestValidators := s.validatorSet.highestValidators } vari_name
  have hword : 0 < wordSize := by decide
  simp only [createProposal, hnote, bind_returns, require_ok, checkEarlier_ok, pure_ok,
    exists_const, exists_eq', checkValue_ok]
  constructor
  · rintro ⟨hst, hname, hpay, hearlier, _, ⟨hval, rfl⟩, hlen, r, hr, _⟩
    refine ⟨hst, hname, hpay, hearlier, hval, hlen, ?_⟩
    simpa using (recordEligible_returns hword).mp ⟨r, hr⟩
  · intro h
    obtain ⟨r, hr⟩ := (recordEligible_returns (A := s.activeProposalMap
      (keccak ⟨env.sender, details, env.timestamp⟩)) hword).mpr (by simpa using h.power)
    exact ⟨h.staked, h.governs, h.pays, h.earlier, _, ⟨h.value, rfl⟩, h.details, r, hr, trivial⟩

/-- The record a proposal starts with. -/
def proposed (env : Env) (details : List UInt8) (vari_name : String) (value : Nat) :
    ProposalInfo :=
  { proposer := env.sender, dst := env.sender, details := details, createTime := env.timestamp,
    variable_name := vari_name, variable_value := storedValue vari_name value, access := true }

theorem createProposal_ok (h : createProposal keccak s env details vari_name value = .ok t) :
    let id := keccak ⟨env.sender, details, env.timestamp⟩
    ∃ A coins x y, t = { s with
      balance := s.balance + 5000 * ether
      highestValidators := s.validatorSet.highestValidators
      minimumStakeAmount := x
      maxValidators := y
      activeProposalMap := update s.activeProposalMap id A
      userProposals := update s.userProposals env.sender (s.userProposals env.sender ++ [id])
      proposals := update s.proposals id (proposed env details vari_name value)
      ProposalsArray := s.ProposalsArray ++ [id]
      votePower := coins
      log := s.log ++ [.LogCreateProposal id env.sender env.sender env.timestamp] } := by
  have may := createProposal_returns.mp ⟨t, h⟩
  obtain ⟨x, y, hnote⟩ := notePresent_eq { s with
    balance := s.balance + env.value
    highestValidators := s.validatorSet.highestValidators } vari_name
  simp only [createProposal, hnote, bind_ok, require_ok, checkEarlier_ok, pure_ok, exists_const,
    checkValue_ok] at h
  obtain ⟨_, _, _, _, _, ⟨_, rfl⟩, _, ⟨A, coins⟩, _, rfl⟩ := h
  rw [← may.pays]
  exact ⟨_, _, _, _, rfl⟩

/-! ## Voting -/

omit [DecidableEq ι] in
theorem transfer_ok {recipient : Address} : transfer s env recipient x = .ok t ↔
    x ≤ s.balance ∧ env.accepts recipient = true ∧
      { s with balance := s.balance - x, payouts := s.payouts ++ [(recipient, x)] } = t := by
  simp only [transfer, bind_ok, guardWith_ok, pure_ok, exists_const, and_assoc]

theorem startVoteProposal_ok (h : startVoteProposal s env id = .ok t) :
    (s.proposals id).createTime ≠ 0 ∧ (s.startvotes env.sender id).voteTime = 0 ∧
    t = { s with
      startvotes := set₂ s.startvotes env.sender id ⟨env.sender, env.timestamp⟩ } := by
  simp only [startVoteProposal, nonPayable, bind_ok, guardWith_ok, add_ok, require_ok, pure_ok] at h
  obtain ⟨_, _, _, _, _, _, _, _, _, happlied, _, hexists, _, _, _, _, rfl⟩ := h
  exact ⟨hexists, happlied, rfl⟩

/-- What a voter needs. -/
structure MayVote (s : State ι) (env : Env) (id : ι) : Prop where
  inTime : env.timestamp < (s.proposals id).createTime + PROPOSAL_LASTING_PERIOD
  eligible : (s.activeProposalMap id).isEligible env.sender = true
  applied : (s.startvotes env.sender id).voteTime ≠ 0
  locked : (s.startvotes env.sender id).voteTime + VOTE_TIME_LOCK ≤ env.timestamp
  exist : (s.proposals id).createTime ≠ 0
  access : (s.proposals id).access = true
  first : (s.votes env.sender id).voteTime = 0

/-- A proposal after one more vote. -/
def ProposalInfo.cast (p : ProposalInfo) (auth : Bool) (icoin : Nat) : ProposalInfo :=
  if auth then { p with votePowerOfAgree := p.votePowerOfAgree + icoin, agree := p.agree + 1 }
  else { p with votePowerOfDisagree := p.votePowerOfDisagree + icoin, reject := p.reject + 1 }

/-- The vote of the sender is recorded. -/
def voted (s : State ι) (env : Env) (id : ι) (auth : Bool) : State ι :=
  { s with
    proposals := update s.proposals id
      ((s.proposals id).cast auth ((s.activeProposalMap id).individualCoins env.sender))
    votes := set₂ s.votes env.sender id ⟨env.sender, env.timestamp, auth⟩
    log := s.log ++ [.LogVote id env.sender auth env.timestamp] }

theorem castVote_ok {auth : Bool} (h : castVote s env id auth = .ok t) :
    t = voted s env id auth := by
  cases auth with
  | true =>
    simp only [castVote, ↓reduceIte, count, bind_ok, add_ok, guardWith_ok, pure_ok] at h
    obtain ⟨_, ⟨_, rfl⟩, _, ⟨_, _, rfl⟩, _, rfl, rfl⟩ := h
    rfl
  | false =>
    simp only [castVote, Bool.false_eq_true, ↓reduceIte, count, bind_ok, add_ok, guardWith_ok,
      pure_ok] at h
    obtain ⟨_, ⟨_, rfl⟩, _, ⟨_, _, rfl⟩, _, rfl, rfl⟩ := h
    rfl

/-- The proposal is decided. -/
def ProposalInfo.close (p : ProposalInfo) (passed : Bool) : ProposalInfo :=
  { p with resultExist := true, ispassed := passed, access := false }

theorem authChangeValues_ok (h : authChangeValues s env id = .ok t) :
    ∃ V U P, t = { s with validatorSet := V, updates := U, pass := P } ∧
      ((s.proposals id).variable_name = "maxValidators" ∨
        (s.proposals id).variable_name = "minimumStakeAmount" →
        U = s.updates ++ [((s.proposals id).variable_name, (s.proposals id).variable_value)]) := by
  simp only [authChangeValues] at h
  split at h
  · simp only [bind_ok, pure_ok] at h
    obtain ⟨V, _, _, rfl, rfl⟩ := h
    exact ⟨V, _, _, rfl, fun _ => rfl⟩
  next hno =>
    obtain ⟨_, rfl, rfl⟩ := h
    exact ⟨_, _, _, rfl, fun hname => absurd hname.symm hno⟩

/-- What counting the votes may do: nothing, or decide the proposal. -/
inductive Counted (s t : State ι) (env : Env) (id : ι) : Prop
  | open_ (same : t = s)
  | pass (V : Staking.State) (U : List (String × Nat)) (P : ι → Address → Bool)
      (undecided : (s.proposals id).resultExist = false)
      (majority : (s.activeProposalMap id).totalVotePower / 2 + 1 ≤
        (s.proposals id).votePowerOfAgree)
      (balance : 4000 * ether ≤ s.balance)
      (updates : (s.proposals id).variable_name = "maxValidators" ∨
        (s.proposals id).variable_name = "minimumStakeAmount" →
        U = s.updates ++ [((s.proposals id).variable_name, (s.proposals id).variable_value)])
      (outcome : t = { s with
        balance := s.balance - 4000 * ether
        payouts := s.payouts ++ [((s.proposals id).proposer, 4000 * ether)]
        updates := U
        validatorSet := V
        pass := P
        proposals := update s.proposals id ((s.proposals id).close true)
        log := s.log ++ [.LogPassProposal id (s.proposals id).dst env.timestamp] })
  | reject (undecided : (s.proposals id).resultExist = false)
      (outcome : t = { s with
        proposals := update s.proposals id ((s.proposals id).close false)
        log := s.log ++ [.LogRejectProposal id (s.proposals id).dst env.timestamp] })

theorem countVotes_ok (h : countVotes s env id = .ok t) : Counted s t env id := by
  unfold countVotes at h
  simp only at h
  split at h
  · cases h
    exact .open_ rfl
  next hopen =>
  have undecided : (s.proposals id).resultExist = false := by
    simpa using (not_or.mp hopen).2
  split at h
  next hmaj =>
    simp only [bind_ok, transfer_ok, pure_ok, State.setProposal] at h
    obtain ⟨_, ⟨hbal, _, rfl⟩, u, hu, rfl⟩ := h
    obtain ⟨V, U, P, rfl, hU⟩ := authChangeValues_ok hu
    simp only [update_self] at hU
    refine .pass V U P undecided hmaj hbal hU ?_
    simp only [State.emit, update_self, update_idem]
    rfl
  · split at h
    · simp only [pure_ok, State.setProposal, State.emit] at h
      exact .reject undecided h.symm
    · cases h
      exact .open_ rfl

theorem voteProposal_ok {vote : String} (h : voteProposal s env id vote = .ok t) :
    MayVote s env id ∧ ∃ auth, Counted (voted s env id auth) t env id := by
  simp only [voteProposal, nonPayable, bind_ok, guardWith_ok, add_ok, require_ok] at h
  obtain ⟨_, _, _, ⟨_, rfl⟩, _, hin, _, helig, _, happ, _, ⟨_, rfl⟩, _, hlock, _, hex, _, hacc, _,
    hfirst, auth, _, c, hc, h⟩ := h
  rw [castVote_ok hc] at h
  exact ⟨⟨hin, helig, happ, hlock, hex, hacc, hfirst⟩, auth, countVotes_ok h⟩

/-! ## Proposals and their ids -/

/-- What a proposal says, without what has been voted on it. -/
def ProposalInfo.terms (p : ProposalInfo) : ProposalInfo :=
  { p with
    access := false
    votePowerOfAgree := 0
    votePowerOfDisagree := 0
    agree := 0
    reject := 0
    ispassed := false
    resultExist := false }

theorem ProposalInfo.terms_eq_iff {p q : ProposalInfo} : p.terms = q.terms ↔
    p.proposer = q.proposer ∧ p.dst = q.dst ∧ p.details = q.details ∧
      p.createTime = q.createTime ∧ p.variable_name = q.variable_name ∧
      p.variable_value = q.variable_value := by
  simp only [terms, mk.injEq, and_true]

@[simp] theorem ProposalInfo.cast_terms (p : ProposalInfo) (auth : Bool) (icoin : Nat) :
    (p.cast auth icoin).terms = p.terms := by
  unfold cast
  split <;> rfl

@[simp] theorem ProposalInfo.close_terms (p : ProposalInfo) (passed : Bool) :
    (p.close passed).terms = p.terms := rfl

theorem Counted.terms (h : Counted s t env id) (i : ι) :
    t.ProposalsArray = s.ProposalsArray ∧ (t.proposals i).terms = (s.proposals i).terms := by
  cases h with
  | open_ same => exact ⟨by rw [same], by rw [same]⟩
  | pass V U P _ _ _ _ outcome | reject _ outcome =>
    rw [outcome]
    exact ⟨rfl, update_field ProposalInfo.terms (by rfl) i⟩

/-- The proposals are as before, or one has been added. -/
inductive Filing (keccak : Packed → ι) (s t : State ι) (m : Message ι) : Prop
  | same (array : t.ProposalsArray = s.ProposalsArray)
      (terms : ∀ id, (t.proposals id).terms = (s.proposals id).terms)
  | file (details : List UInt8) (vari_name : String) (value : Nat)
      (call : m.call = .createProposal details vari_name value)
      (may : MayPropose s m.env details vari_name value)
      (array : t.ProposalsArray =
        s.ProposalsArray ++ [keccak ⟨m.env.sender, details, m.env.timestamp⟩])
      (proposals : t.proposals = update s.proposals
        (keccak ⟨m.env.sender, details, m.env.timestamp⟩)
          (proposed m.env details vari_name value))

theorem exec_filing (h : exec keccak s m = .ok t) : Filing keccak s t m := by
  obtain ⟨env, call⟩ := m
  cases call with
  | createProposal details vari_name value =>
    have may := createProposal_returns.mp ⟨t, h⟩
    obtain ⟨_, _, _, _, rfl⟩ := createProposal_ok h
    exact .file details vari_name value rfl may rfl rfl
  | startVoteProposal id =>
    obtain ⟨_, _, rfl⟩ := startVoteProposal_ok h
    exact .same rfl fun _ => rfl
  | voteProposal id vote =>
    obtain ⟨_, auth, hcount⟩ := voteProposal_ok h
    refine .same (hcount.terms id).1 fun i => (hcount.terms i).2.trans ?_
    exact update_field terms (cast_terms _ _ _) i
  | validatorSet call =>
    simp only [exec, bind_ok, pure_ok] at h
    obtain ⟨V, _, rfl⟩ := h
    exact .same rfl fun _ => rfl

/-- What the id of a stored proposal is the hash of. -/
def ProposalInfo.packed (p : ProposalInfo) : Packed := ⟨p.proposer, p.details, p.createTime⟩

theorem ProposalInfo.packed_eq {p q : ProposalInfo} (h : p.terms = q.terms) : p.packed = q.packed := by
  obtain ⟨hp, _, hd, hc, _, _⟩ := terms_eq_iff.mp h
  rw [packed, packed, hp, hd, hc]

/-- Every stored id is the hash of the proposal stored under it, which a call has
asked for. -/
structure Filed (keccak : Packed → ι) (asked : List Packed) (s : State ι) : Prop where
  free : CollisionFree keccak asked
  stored : ∀ id ∈ s.ProposalsArray,
    (s.proposals id).packed ∈ asked ∧ id = keccak (s.proposals id).packed

theorem exec_filed {asked : List Packed} (hf : Filed keccak asked s)
    (hm : ∀ p, m.packed = some p → p ∈ asked) (h : exec keccak s m = .ok t) :
    Filed keccak asked t := by
  refine ⟨hf.free, fun id hid => ?_⟩
  cases exec_filing h with
  | same array terms =>
    rw [array] at hid
    rw [packed_eq (terms id)]
    exact hf.stored id hid
  | file details vari_name value call _ array proposals =>
    rw [array, mem_append, mem_singleton] at hid
    rw [proposals]
    by_cases hnew : id = keccak ⟨m.env.sender, details, m.env.timestamp⟩
    · rw [hnew, update_self]
      exact ⟨hm _ (by rw [Message.packed, call]; rfl), rfl⟩
    · rw [update_of_ne hnew]
      exact hf.stored id (hid.resolve_right hnew)

/-- A validator makes a proposal, and one by the same validator, with the same
text and in the same block is stored already. -/
def Repeats (s : State ι) (m : Message ι) : Prop :=
  ∃ details vari_name value, m.call = .createProposal details vari_name value ∧
    MayPropose s m.env details vari_name value ∧
    ∃ id ∈ s.ProposalsArray, (s.proposals id).proposer = m.env.sender ∧
      (s.proposals id).details = details ∧ (s.proposals id).createTime = m.env.timestamp

/-- A new proposal is stored under an id that is not in use. -/
def FiledAnew (keccak : Packed → ι) (s : State ι) (m : Message ι) : Prop :=
  ∀ details vari_name value, m.call = .createProposal details vari_name value →
    (∃ t, exec keccak s m = .ok t) →
      keccak ⟨m.env.sender, details, m.env.timestamp⟩ ∉ s.ProposalsArray

theorem filedAnew_iff {asked : List Packed} (hf : Filed keccak asked s)
    (hm : ∀ p, m.packed = some p → p ∈ asked) : FiledAnew keccak s m ↔ ¬ Repeats s m := by
  obtain ⟨env, call⟩ := m
  constructor
  · rintro hnew ⟨details, vari_name, value, hcall, may, id, hid, hp, hd, hc⟩
    subst hcall
    refine hnew details vari_name value rfl (createProposal_returns.mpr may) ?_
    have hhash := (hf.stored id hid).2
    rw [packed, hp, hd, hc] at hhash
    rwa [← hhash]
  · rintro hno details vari_name value hcall ⟨t, h⟩ hid
    subst hcall
    obtain ⟨hin, hhash⟩ := hf.stored _ hid
    have hhash := hf.free _ (hm _ rfl) _ hin hhash
    simp only [packed, Packed.mk.injEq] at hhash
    exact hno ⟨details, vari_name, value, rfl, createProposal_returns.mp ⟨t, h⟩, _, hid,
      hhash.1.symm, hhash.2.1.symm, hhash.2.2.symm⟩

/-- The proposal stored under `id` is for this variable and value. -/
def Stores (id : ι) (vari_name : String) (value : Nat) (s : State ι) : Prop :=
  (s.proposals id).variable_name = vari_name ∧ (s.proposals id).variable_value = value

/-- No proposal takes the place of another in the run. -/
structure Kept (keccak : Packed → ι) (calls : List (Message ι)) : Prop where
  fresh : Along (exec keccak) (FiledAnew keccak) {} calls
  nodup : Throughout (exec keccak) (fun s => s.ProposalsArray.Nodup) {} calls
  kept : ∀ before m after details vari_name value, calls = before ++ m :: after →
    m.call = .createProposal details vari_name value →
    (∃ t, exec keccak (run (exec keccak) {} before) m = .ok t) → Throughout (exec keccak)
        (Stores (keccak ⟨m.env.sender, details, m.env.timestamp⟩) vari_name
          (storedValue vari_name value))
        (step (exec keccak) (run (exec keccak) {} before) m) after

/-- A proposal that is stored stays as it is while none is repeated. -/
theorem exec_stores
    (hnew : FiledAnew keccak s m) (hid : id ∈ s.ProposalsArray) (hst : Stores id vari_name value s)
    (h : exec keccak s m = .ok t) : id ∈ t.ProposalsArray ∧ Stores id vari_name value t := by
  cases exec_filing h with
  | same array terms =>
    obtain ⟨_, _, _, _, hn, hv⟩ := terms_eq_iff.mp (terms id)
    exact ⟨array ▸ hid, hn.trans hst.1, hv.trans hst.2⟩
  | file details name value' hcall _ array proposals =>
    have hne : id ≠ keccak ⟨m.env.sender, details, m.env.timestamp⟩ := by
      rintro rfl
      exact hnew _ _ _ hcall ⟨t, h⟩ hid
    refine ⟨by rw [array]; exact mem_append_left _ hid, ?_⟩
    rw [Stores, proposals, update_of_ne hne]
    exact hst

theorem exec_array_nodup (hnew : FiledAnew keccak s m)
    (hnd : s.ProposalsArray.Nodup) (h : exec keccak s m = .ok t) : t.ProposalsArray.Nodup := by
  cases exec_filing h with
  | same array _ => rwa [array]
  | file details name value hcall _ array _ =>
    rw [array]
    exact nodup_append.mpr ⟨hnd, nodup_singleton _, fun a ha b hb e =>
      hnew _ _ _ hcall ⟨t, h⟩ (by rw [← mem_singleton.mp hb, ← e]; exact ha)⟩

/-- No proposal takes the place of another exactly when no validator makes two
proposals with the same text in one block. -/
theorem proposals_kept_iff (keccak : Packed → ι) (calls : List (Message ι))
    (hfree : CollisionFree keccak (calls.filterMap Message.packed)) :
    Kept keccak calls ↔ Along (exec keccak) (fun s m => ¬ Repeats s m) {} calls := by
  have start : Filed keccak (calls.filterMap Message.packed) {} :=
    ⟨hfree, fun id hid => absurd hid not_mem_nil⟩
  have hasked (m : Message ι) (hm : m ∈ calls) (p : Packed) (hp : m.packed = some p) :
      p ∈ calls.filterMap Message.packed := mem_filterMap.mpr ⟨m, hm, hp⟩
  have fresh : Along (exec keccak) (FiledAnew keccak) {} calls ↔
      Along (exec keccak) (fun s m => ¬ Repeats s m) {} calls :=
    along_congr (fun s m hm t hf h => exec_filed hf (hasked m hm) h)
      (fun s m hm hf => filedAnew_iff hf (hasked m hm)) start
  rw [← fresh]
  refine ⟨fun h => h.fresh, fun hnew => ⟨hnew, ?_, ?_⟩⟩
  · exact throughout_of_preserved (fun s m t hnd hm h => exec_array_nodup hm hnd h)
      nodup_nil hnew
  · rintro before m after details vari_name value rfl hcall ⟨t, h⟩
    obtain ⟨_, _, hrest⟩ := along_append.mp hnew
    have hstored : keccak ⟨m.env.sender, details, m.env.timestamp⟩ ∈ t.ProposalsArray ∧
        Stores (keccak ⟨m.env.sender, details, m.env.timestamp⟩) vari_name
          (storedValue vari_name value) t := by
      simp only [exec, hcall] at h
      obtain ⟨_, _, _, _, rfl⟩ := createProposal_ok h
      refine ⟨mem_append_right _ (mem_singleton_self _), ?_⟩
      simp only [Stores, update_self]
      exact ⟨rfl, rfl⟩
    rw [step_ok h] at hrest ⊢
    have all := throughout_of_preserved (fun s m t hs hm h => exec_stores hm hs.1 hs.2 h)
      hstored hrest
    exact all.mono fun s hs => hs.2

end

/-- Validator 1 makes two proposals, for the two variables and with the same text,
the second one in the block of time `next`. -/
def twoProposals (next : Nat) : List (Message Packed) :=
  [1, 2, 3].map (fun a => ⟨{ sender := a, value := Staking.MINIMUM_STAKE_AMOUNT },
      .validatorSet .stakeValidator⟩) ++
    [⟨{ sender := 1, value := 5000 * ether, timestamp := 1000 },
        .createProposal [] "minimumStakeAmount" 1⟩,
      ⟨{ sender := 1, value := 5000 * ether, timestamp := next },
        .createProposal [] "maxValidators" 3⟩]

/-- In two blocks. -/
theorem twoProposals_kept : Kept id (twoProposals 1001) := by
  apply (proposals_kept_iff id (twoProposals 1001) fun _ _ _ _ h => h).mpr
  refine ⟨?_, ?_, ?_, ?_, ?_, trivial⟩
  · rintro ⟨_, _, _, hcall, _⟩
    cases hcall
  · rintro ⟨_, _, _, hcall, _⟩
    cases hcall
  · rintro ⟨_, _, _, hcall, _⟩
    cases hcall
  · rintro ⟨_, _, _, _, _, p, hp, _⟩
    have hnone : (run (exec id) {} ((twoProposals 1001).take 3)).ProposalsArray = [] := by
      decide +kernel
    have hp : p ∈ (run (exec id) {} ((twoProposals 1001).take 3)).ProposalsArray := hp
    rw [hnone] at hp
    cases hp
  · rintro ⟨_, _, _, _, _, p, hp, _, _, htime⟩
    have htimes : ∀ p ∈ (run (exec id) {} ((twoProposals 1001).take 4)).ProposalsArray,
        ((run (exec id) {} ((twoProposals 1001).take 4)).proposals p).createTime = 1000 := by
      decide +kernel
    cases (htimes p hp).symm.trans htime

/-- In one block. -/
theorem twoProposals_one_lost :
    (run (exec id) {} (twoProposals 1000)).ProposalsArray = [⟨1, [], 1000⟩, ⟨1, [], 1000⟩] ∧
      Stores ⟨1, [], 1000⟩ "maxValidators" 3 (run (exec id) {} (twoProposals 1000)) ∧
      (run (exec id) {} (twoProposals 1000)).balance = 10000 * ether ∧
      ¬ Kept id (twoProposals 1000) := by
  have harray : (run (exec id) {} (twoProposals 1000)).ProposalsArray =
      [⟨1, [], 1000⟩, ⟨1, [], 1000⟩] := by
    decide +kernel
  refine ⟨harray, ⟨by decide +kernel, by decide +kernel⟩, by decide +kernel, ?_⟩
  intro h
  have hnd := throughout_last h.nodup
  revert hnd
  decide

end Dexit.GovHub
