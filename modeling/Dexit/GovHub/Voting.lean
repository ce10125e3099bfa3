import Dexit.GovHub.Proposals

/-! Voting on proposals: every vote is counted once and in time, and every
proposal is decided and paid for once. -/

namespace Dexit.GovHub

open Solidity Outcome List Option ProposalInfo
open Function
open Staking (Env ether getCoins)

variable {ι : Type}

/-! ## What the events say -/

def Event.created : Event ι → Option ι
  | .LogCreateProposal id _ _ _ => some id
  | _ => none

def Event.passed : Event ι → Option ι
  | .LogPassProposal id _ _ => some id
  | _ => none

def Event.decided : Event ι → Option ι
  | .LogPassProposal id _ _ => some id
  | .LogRejectProposal id _ _ => some id
  | _ => none

/-- Who voted on `id`, and how. -/
def Event.ballot [DecidableEq ι] (id : ι) : Event ι → Option (Address × Bool)
  | .LogVote i voter auth _ => if i = id then some (voter, auth) else none
  | _ => none

def created (log : List (Event ι)) : List ι := log.filterMap Event.created
def passed (log : List (Event ι)) : List ι := log.filterMap Event.passed
def decided (log : List (Event ι)) : List ι := log.filterMap Event.decided
def ballots [DecidableEq ι] (id : ι) (log : List (Event ι)) : List (Address × Bool) :=
  log.filterMap (Event.ballot id)

/-- The weight of the voters on one side. -/
def weight (coins : Address → Nat) (auth : Bool) (votes : List (Address × Bool)) : Nat :=
  ((votes.filter (·.2 == auth)).map fun v => coins v.1).sum

def ProposalInfo.power (p : ProposalInfo) : Bool → Nat
  | true => p.votePowerOfAgree
  | false => p.votePowerOfDisagree

section Log
variable {log : List (Event ι)} {e : Event ι} {id : ι}

theorem created_concat : created (log ++ [e]) = created log ++ e.created.toList := by
  cases h : e.created <;> simp [created, h]

theorem passed_concat : passed (log ++ [e]) = passed log ++ e.passed.toList := by
  cases h : e.passed <;> simp [passed, h]

theorem decided_concat : decided (log ++ [e]) = decided log ++ e.decided.toList := by
  cases h : e.decided <;> simp [decided, h]

theorem ballots_concat [DecidableEq ι] :
    ballots id (log ++ [e]) = ballots id log ++ (e.ballot id).toList := by
  cases h : e.ballot id <;> simp [ballots, h]

theorem mem_decided_of_passed (h : id ∈ passed log) : id ∈ decided log := by
  obtain ⟨e, he, hid⟩ := mem_filterMap.mp h
  refine mem_filterMap.mpr ⟨e, he, ?_⟩
  cases e <;> simp_all [Event.passed, Event.decided]

theorem mem_ballots [DecidableEq ι] {a : Address} {auth : Bool} :
    (a, auth) ∈ ballots id log ↔ ∃ time, .LogVote id a auth time ∈ log := by
  simp only [ballots, mem_filterMap]
  constructor
  · rintro ⟨e, he, hb⟩
    cases e with
    | LogVote i voter au time =>
      simp only [Event.ballot, ite_none_right_eq_some, some.injEq, Prod.mk.injEq] at hb
      obtain ⟨rfl, rfl, rfl⟩ := hb
      exact ⟨time, he⟩
    | _ => cases hb
  · rintro ⟨time, he⟩
    exact ⟨_, he, by simp [Event.ballot]⟩

theorem weight_concat {coins : Address → Nat} {auth : Bool} {votes : List (Address × Bool)}
    {a : Address} {b : Bool} : weight coins auth (votes ++ [(a, b)]) =
      weight coins auth votes + if b = auth then coins a else 0 := by
  unfold weight
  split
  next h =>
    simp [h]
  next h =>
    simp [h]

theorem passed_sublist_decided (log : List (Event ι)) : (passed log).Sublist (decided log) := by
  induction log with
  | nil => exact .slnil
  | cons e rest ih =>
    cases e with
    | LogPassProposal id dst time => exact ih.cons_cons id
    | LogRejectProposal id dst time => exact ih.cons id
    | _ => exact ih

end Log

/-! ## The rules of a vote -/

/-- What holds of the votes and the money in every state. -/
structure Fair [DecidableEq ι] (s : State ι) : Prop where
  /-- Nobody votes twice on a proposal. -/
  once : ∀ id, ((ballots id s.log).map Prod.fst).Nodup
  /-- The two powers are the weights of those who voted, and nothing else. -/
  tally : ∀ id auth, (s.proposals id).power auth =
    weight (s.activeProposalMap id).individualCoins auth (ballots id s.log)
  /-- Nobody votes after the ten days. -/
  inTime : ∀ id a auth time, .LogVote id a auth time ∈ s.log →
    time < (s.proposals id).createTime + PROPOSAL_LASTING_PERIOD
  /-- No proposal is decided twice. -/
  decidedOnce : (decided s.log).Nodup
  result : ∀ id, (s.proposals id).resultExist = true ↔ id ∈ decided s.log
  ispassed : ∀ id, (s.proposals id).ispassed = true ↔ id ∈ passed s.log
  majority : ∀ id, (s.proposals id).ispassed = true →
    (s.activeProposalMap id).totalVotePower < 2 * (s.proposals id).votePowerOfAgree
  /-- Each proposal that passes is paid for and carried out, at most once for
  each time it was made. -/
  paid : s.payouts = (passed s.log).map fun id => ((s.proposals id).proposer, 4000 * ether)
  updated : s.updates = (passed s.log).map fun id =>
    ((s.proposals id).variable_name, (s.proposals id).variable_value)
  filed : s.ProposalsArray = created s.log
  paidOnce : ∀ id, (passed s.log).count id ≤ (created s.log).count id
  balance : 1000 * ether * (passed s.log).length ≤ s.balance

/-- What the times on record have to do with each other. -/
structure Dated (keccak : Packed → ι) (asked : List Packed) (now : Nat) (s : State ι) : Prop where
  free : CollisionFree keccak asked
  filed : ∀ id, (s.proposals id).createTime ≠ 0 →
    (s.proposals id).packed ∈ asked ∧ id = keccak (s.proposals id).packed
  known : ∀ id, (s.proposals id).createTime ≠ 0 →
    id ∈ created s.log ∧ (s.proposals id).createTime ≤ now
  governs : ∀ id, (s.proposals id).createTime ≠ 0 →
    (s.proposals id).variable_name = "maxValidators" ∨
      (s.proposals id).variable_name = "minimumStakeAmount"
  applied : ∀ a id, (s.startvotes a id).voteTime ≠ 0 → (s.proposals id).createTime ≠ 0 ∧
    (s.proposals id).createTime ≤ (s.startvotes a id).voteTime
  voted : ∀ id a auth time, .LogVote id a auth time ∈ s.log →
    (s.votes a id).voteTime = time ∧ (s.startvotes a id).voteTime ≠ 0 ∧
      (s.startvotes a id).voteTime + VOTE_TIME_LOCK ≤ time ∧
      time < (s.proposals id).createTime + PROPOSAL_LASTING_PERIOD ∧ time ≤ now
  settled : ∀ id ∈ decided s.log, (s.proposals id).createTime ≠ 0 ∧
    (s.proposals id).createTime + VOTE_TIME_LOCK ≤ now

/-- Each vote is counted once. -/
structure Polled [DecidableEq ι] (s : State ι) : Prop where
  once : ∀ id, ((ballots id s.log).map Prod.fst).Nodup
  tally : ∀ id auth, (s.proposals id).power auth =
    weight (s.activeProposalMap id).individualCoins auth (ballots id s.log)

/-- Each proposal is decided once, and passes by a majority. -/
structure Resolved (s : State ι) : Prop where
  once : (decided s.log).Nodup
  result : ∀ id, (s.proposals id).resultExist = true ↔ id ∈ decided s.log
  ispassed : ∀ id, (s.proposals id).ispassed = true ↔ id ∈ passed s.log
  majority : ∀ id ∈ passed s.log,
    (s.activeProposalMap id).totalVotePower < 2 * (s.proposals id).votePowerOfAgree

/-- What passed is paid for and carried out, and nothing else. -/
structure Settled (s : State ι) : Prop where
  paid : s.payouts = (passed s.log).map fun id => ((s.proposals id).proposer, 4000 * ether)
  updated : s.updates = (passed s.log).map fun id =>
    ((s.proposals id).variable_name, (s.proposals id).variable_value)
  filed : s.ProposalsArray = created s.log
  funds : s.balance + 4000 * ether * (passed s.log).length = 5000 * ether * (created s.log).length

/-- What a run keeps, from which the rules follow. -/
structure Orderly [DecidableEq ι] (keccak : Packed → ι) (asked : List Packed) (now : Nat)
    (s : State ι) : Prop where
  dated : Dated keccak asked now s
  polled : Polled s
  resolved : Resolved s
  settled : Settled s

section Steps
variable {keccak : Packed → ι} {asked : List Packed} {s t : State ι} {env : Env} {id : ι} {now : Nat}

section
variable (h : Dated keccak asked now s)
include h

theorem Dated.later {now' : Nat} (hle : now ≤ now') : Dated keccak asked now' s where
  free := h.free
  filed := h.filed
  known id hid := ⟨(h.known id hid).1, le_trans (h.known id hid).2 hle⟩
  governs := h.governs
  applied := h.applied
  voted id a auth time hv := by
    obtain ⟨h1, h2, h3, h4, h5⟩ := h.voted id a auth time hv
    exact ⟨h1, h2, h3, h4, le_trans h5 hle⟩
  settled id hid := ⟨(h.settled id hid).1, le_trans (h.settled id hid).2 hle⟩

/-- Terms stay, and what is new in the log is in order. -/
theorem Dated.of_terms (terms : ∀ i, (t.proposals i).terms = (s.proposals i).terms)
    (hcreated : created t.log = created s.log) (hstart : t.startvotes = s.startvotes)
    (hvoted : ∀ i a auth time, .LogVote i a auth time ∈ t.log →
      (t.votes a i).voteTime = time ∧ (s.startvotes a i).voteTime ≠ 0 ∧
        (s.startvotes a i).voteTime + VOTE_TIME_LOCK ≤ time ∧
        time < (s.proposals i).createTime + PROPOSAL_LASTING_PERIOD ∧ time ≤ now)
    (hsettled : ∀ i ∈ decided t.log, (s.proposals i).createTime ≠ 0 ∧
      (s.proposals i).createTime + VOTE_TIME_LOCK ≤ now) :
    Dated keccak asked now t := by
  have htime (i : ι) : (t.proposals i).createTime = (s.proposals i).createTime :=
    (terms_eq_iff.mp (terms i)).2.2.2.1
  refine ⟨h.free, fun i hi => ?_, fun i hi => ?_, fun i hi => ?_, fun a i hi => ?_,
    fun i a auth time hv => ?_, fun i hi => ?_⟩
  · rw [packed_eq (terms i)]
    exact h.filed i (htime i ▸ hi)
  · rw [hcreated, htime]
    exact h.known i (htime i ▸ hi)
  · rw [(terms_eq_iff.mp (terms i)).2.2.2.2.1]
    exact h.governs i (htime i ▸ hi)
  · rw [hstart] at hi ⊢
    rw [htime]
    exact h.applied a i hi
  · rw [hstart, htime]
    exact hvoted i a auth time hv
  · rw [htime]
    exact hsettled i hi

/-- An id that is made now was not made at another time. -/
theorem Dated.recent {a : Address} {details : List UInt8} {time : Nat}
    (hin : ⟨a, details, time⟩ ∈ asked) (hid : id = keccak ⟨a, details, time⟩)
    (hc : (s.proposals id).createTime ≠ 0) : (s.proposals id).createTime = time := by
  obtain ⟨hstored, hhash⟩ := h.filed id hc
  have hsame := h.free _ hstored _ hin (hhash.symm.trans hid)
  exact congrArg Packed.timestamp hsame

/-- Whoever may vote has applied two days ago, so the proposal is older. -/
theorem Dated.aged (may : MayVote s env id) :
    (s.proposals id).createTime + VOTE_TIME_LOCK ≤ env.timestamp := by
  have hstart := (h.applied env.sender id may.applied).2
  have hlock := may.locked
  omega

end

/-- The records of what passed, read off terms that have not changed. -/
theorem Settled.records (h : Settled s)
    (terms : ∀ i ∈ passed s.log, (t.proposals i).terms = (s.proposals i).terms) :
    ((passed s.log).map fun i => ((t.proposals i).proposer, 4000 * ether)) = s.payouts ∧
      ((passed s.log).map fun i => ((t.proposals i).variable_name, (t.proposals i).variable_value)) =
        s.updates := by
  rw [h.paid, h.updated]
  constructor
  · apply map_congr_left
    intro i hi
    rw [(terms_eq_iff.mp (terms i hi)).1]
  · apply map_congr_left
    intro i hi
    obtain ⟨_, _, _, _, hname, hvalue⟩ := terms_eq_iff.mp (terms i hi)
    rw [hname, hvalue]

/-! ## Making a proposal -/

section Opens
variable {details : List UInt8} {vari_name : String} {value : Nat}

/-- What `createProposal` does to what matters for the votes. -/
structure Opens (keccak : Packed → ι) (s t : State ι) (env : Env) (details : List UInt8)
    (vari_name : String) (value : Nat) (id : ι) : Prop where
  hash : id = keccak ⟨env.sender, details, env.timestamp⟩
  governs : vari_name = "maxValidators" ∨ vari_name = "minimumStakeAmount"
  new : t.proposals id = proposed env details vari_name value
  old : ∀ i, i ≠ id → t.proposals i = s.proposals i ∧ t.activeProposalMap i = s.activeProposalMap i
  startvotes : t.startvotes = s.startvotes
  votes : t.votes = s.votes
  payouts : t.payouts = s.payouts
  updates : t.updates = s.updates
  array : t.ProposalsArray = s.ProposalsArray ++ [id]
  balance : t.balance = s.balance + 5000 * ether
  log : t.log = s.log ++ [.LogCreateProposal id env.sender env.sender env.timestamp]

variable (o : Opens keccak s t env details vari_name value id)
include o

theorem Opens.created : created t.log = GovHub.created s.log ++ [id] := by
  rw [o.log, created_concat]
  rfl

theorem Opens.decided : decided t.log = GovHub.decided s.log := by
  rw [o.log, decided_concat]
  exact append_nil _

theorem Opens.passed : passed t.log = GovHub.passed s.log := by
  rw [o.log, passed_concat]
  exact append_nil _

variable (undecided : id ∉ GovHub.decided s.log)
include undecided

/-- What has passed is another proposal. -/
theorem Opens.earlier {i : ι} (hi : i ∈ GovHub.passed s.log) :
    t.proposals i = s.proposals i ∧ t.activeProposalMap i = s.activeProposalMap i := by
  apply o.old
  rintro rfl
  exact undecided (mem_decided_of_passed hi)

theorem resolved_create (h : Resolved s) : Resolved t := by
  refine ⟨o.decided ▸ h.once, fun i => ?_, fun i => ?_, fun i hi => ?_⟩
  · rw [o.decided]
    by_cases e : i = id
    · rw [e, o.new]
      exact iff_of_false Bool.false_ne_true undecided
    · rw [(o.old i e).1]
      exact h.result i
  · rw [o.passed]
    by_cases e : i = id
    · rw [e, o.new]
      exact iff_of_false Bool.false_ne_true fun hp => undecided (mem_decided_of_passed hp)
    · rw [(o.old i e).1]
      exact h.ispassed i
  · rw [o.passed] at hi
    obtain ⟨hproposal, hactive⟩ := o.earlier undecided hi
    rw [hproposal, hactive]
    exact h.majority i hi

theorem settled_create (h : Settled s) : Settled t := by
  obtain ⟨hpaid, hupdated⟩ := h.records (t := t) fun i hi =>
    congrArg terms (o.earlier undecided hi).1
  refine ⟨?_, ?_, ?_, ?_⟩
  · rw [o.payouts, o.passed, hpaid]
  · rw [o.updates, o.passed, hupdated]
  · rw [o.array, o.created, h.filed]
  · have hfunds := h.funds
    rw [o.balance, o.passed, o.created, length_append, length_singleton, mul_add]
    omega

end Opens

variable [DecidableEq ι]

theorem Orderly.fair (h : Orderly keccak asked now s) : Fair s := by
  have hnd : (passed s.log).Nodup := h.resolved.once.sublist (passed_sublist_decided s.log)
  have hmade {id : ι} (hid : id ∈ passed s.log) : id ∈ created s.log :=
    (h.dated.known id (h.dated.settled id (mem_decided_of_passed hid)).1).1
  refine ⟨h.polled.once, h.polled.tally, ?_, h.resolved.once, h.resolved.result,
    h.resolved.ispassed, ?_, h.settled.paid, h.settled.updated, h.settled.filed, ?_, ?_⟩
  · intro id a auth time hvote
    exact (h.dated.voted id a auth time hvote).2.2.2.1
  · intro id hid
    exact h.resolved.majority id ((h.resolved.ispassed id).mp hid)
  · intro id
    by_cases hid : id ∈ passed s.log
    · rw [count_eq_one_of_mem hnd hid]
      exact count_pos_iff.mpr (hmade hid)
    · rw [count_eq_zero_of_not_mem hid]
      exact Nat.zero_le _
  · have hlen := (subperm_of_subset hnd fun _ => hmade).length_le
    have hfunds := h.settled.funds
    have hmul := Nat.mul_le_mul_left (5000 * ether) hlen
    have hsplit : 5000 * ether * (passed s.log).length =
        1000 * ether * (passed s.log).length + 4000 * ether * (passed s.log).length := by
      rw [← add_mul, ← add_mul]
    omega

theorem Orderly.later (h : Orderly keccak asked now s) {now' : Nat} (hle : now ≤ now') :
    Orderly keccak asked now' s :=
  { h with dated := h.dated.later hle }

/-- An id that is made now has not been voted on, even if it is in use. -/
theorem Dated.unvoted (h : Dated keccak asked now s) {a : Address} {details : List UInt8} {time : Nat}
    (hnow : now ≤ time) (hin : ⟨a, details, time⟩ ∈ asked) (hid : id = keccak ⟨a, details, time⟩) :
    ballots id s.log = [] ∧ id ∉ decided s.log := by
  have hlock : 0 < VOTE_TIME_LOCK := by decide
  constructor
  · rw [eq_nil_iff_forall_not_mem]
    rintro ⟨b, auth⟩ hb
    obtain ⟨at_, hvote⟩ := mem_ballots.mp hb
    obtain ⟨_, happ, hwait, _, hle⟩ := h.voted id b auth at_ hvote
    obtain ⟨hc, hstart⟩ := h.applied b id happ
    have := h.recent hin hid hc
    omega
  · intro hdec
    obtain ⟨hc, hwait⟩ := h.settled id hdec
    have := h.recent hin hid hc
    omega

section Create
variable {details : List UInt8} {vari_name : String} {value : Nat}

theorem createProposal_opens (hc : createProposal keccak s env details vari_name value = .ok t) :
    ∃ id, Opens keccak s t env details vari_name value id := by
  have may := createProposal_returns.mp ⟨t, hc⟩
  obtain ⟨A, coins, x, y, rfl⟩ := createProposal_ok hc
  refine ⟨_, rfl, may.governs, update_self .., ?_, rfl, rfl, rfl, rfl, rfl, rfl, rfl⟩
  intro i hi
  exact ⟨update_of_ne hi _ _, update_of_ne hi _ _⟩

section
variable (o : Opens keccak s t env details vari_name value id)
include o

theorem Opens.ballots (i : ι) : ballots i t.log = GovHub.ballots i s.log := by
  rw [o.log, ballots_concat]
  exact append_nil _

theorem dated_create (h : Dated keccak asked now s) (hnow : now ≤ env.timestamp)
    (hin : ⟨env.sender, details, env.timestamp⟩ ∈ asked) : Dated keccak asked env.timestamp t := by
  obtain ⟨unvoted, undecided⟩ := h.unvoted hnow hin o.hash
  have h := h.later hnow
  refine ⟨h.free, fun i hi => ?_, fun i hi => ?_, fun i hi => ?_, fun a i hi => ?_,
    fun i a auth time hv => ?_, fun i hi => ?_⟩
  · by_cases e : i = id
    · rw [e, o.new, o.hash]
      exact ⟨hin, rfl⟩
    · rw [(o.old i e).1] at hi ⊢
      exact h.filed i hi
  · rw [o.created, mem_append]
    by_cases e : i = id
    · rw [e, o.new]
      exact ⟨.inr (mem_singleton_self id), le_rfl⟩
    · rw [(o.old i e).1] at hi ⊢
      exact ⟨.inl (h.known i hi).1, (h.known i hi).2⟩
  · by_cases e : i = id
    · rw [e, o.new]
      exact o.governs
    · rw [(o.old i e).1] at hi ⊢
      exact h.governs i hi
  · rw [o.startvotes] at hi ⊢
    obtain ⟨hex, hle⟩ := h.applied a i hi
    by_cases e : i = id
    · subst e
      have hrecent := h.recent hin o.hash hex
      rw [hrecent] at hex hle
      rw [o.new]
      exact ⟨hex, hle⟩
    · rw [(o.old i e).1]
      exact ⟨hex, hle⟩
  · have hv : .LogVote i a auth time ∈ s.log := by
      rw [o.log] at hv
      simpa using hv
    have e : i ≠ id := by
      rintro rfl
      have := mem_ballots.mpr ⟨time, hv⟩
      rw [unvoted] at this
      cases this
    rw [o.votes, o.startvotes, (o.old i e).1]
    exact h.voted i a auth time hv
  · rw [o.decided] at hi
    have e : i ≠ id := by
      rintro rfl
      exact undecided hi
    rw [(o.old i e).1]
    exact h.settled i hi

theorem polled_create (h : Polled s) (unvoted : GovHub.ballots id s.log = []) : Polled t := by
  refine ⟨fun i => ?_, fun i auth => ?_⟩
  · rw [o.ballots]
    exact h.once i
  · rw [o.ballots]
    by_cases e : i = id
    · rw [e, o.new, unvoted]
      cases auth <;> rfl
    · rw [(o.old i e).1, (o.old i e).2]
      exact h.tally i auth

end

end Create

/-! ## Applying and voting -/

theorem dated_apply (h : Dated keccak asked env.timestamp s) (hex : (s.proposals id).createTime ≠ 0)
    (hfirst : (s.startvotes env.sender id).voteTime = 0) :
    Dated keccak asked env.timestamp { s with
      startvotes := set₂ s.startvotes env.sender id ⟨env.sender, env.timestamp⟩ } := by
  refine ⟨h.free, h.filed, h.known, h.governs, fun a i hi => ?_, fun i a auth time hv => ?_, h.settled⟩
  · simp only [set₂_apply] at hi ⊢
    split at hi
    next e =>
      rw [if_pos e, e.2]
      exact ⟨hex, (h.known id hex).2⟩
    next e =>
      rw [if_neg e]
      exact h.applied a i hi
  · -- whoever has voted applied before, and cannot apply again
    obtain ⟨hvote, happ, hrest⟩ := h.voted i a auth time hv
    have hne : ¬ (a = env.sender ∧ i = id) := by
      rintro ⟨rfl, rfl⟩
      exact happ hfirst
    simp only [set₂_of_ne _ _ hne]
    exact ⟨hvote, happ, hrest⟩

theorem ProposalInfo.cast_power (p : ProposalInfo) (auth b : Bool) (icoin : Nat) :
    (p.cast auth icoin).power b = p.power b + if auth = b then icoin else 0 := by
  cases auth <;> cases b <;> rfl

theorem ProposalInfo.cast_result (p : ProposalInfo) (auth : Bool) (icoin : Nat) :
    (p.cast auth icoin).resultExist = p.resultExist ∧
      (p.cast auth icoin).ispassed = p.ispassed := by
  unfold cast
  split <;> exact ⟨rfl, rfl⟩

section Vote
variable (s env id) (auth : Bool)

theorem voted_terms (i : ι) : ((voted s env id auth).proposals i).terms = (s.proposals i).terms :=
  update_field terms (cast_terms _ _ _) i

theorem voted_result (i : ι) :
    ((voted s env id auth).proposals i).resultExist = (s.proposals i).resultExist ∧
      ((voted s env id auth).proposals i).ispassed = (s.proposals i).ispassed :=
  ⟨update_field resultExist (cast_result _ _ _).1 i,
    update_field ispassed (cast_result _ _ _).2 i⟩

theorem voted_power (i : ι) (b : Bool) : ((voted s env id auth).proposals i).power b =
    (s.proposals i).power b + if id = i ∧ auth = b then
      (s.activeProposalMap i).individualCoins env.sender else 0 := by
  by_cases e : i = id
  · subst e
    simp only [voted, update_self, cast_power, true_and]
  · simp only [voted, update_of_ne e, if_neg (fun hi : id = i ∧ _ => e hi.1.symm), add_zero]

theorem voted_created : created (voted s env id auth).log = created s.log := by
  simp only [voted, created_concat, Event.created, toList_none, append_nil]

theorem voted_decided : decided (voted s env id auth).log = decided s.log := by
  simp only [voted, decided_concat, Event.decided, toList_none, append_nil]

theorem voted_passed : passed (voted s env id auth).log = passed s.log := by
  simp only [voted, passed_concat, Event.passed, toList_none, append_nil]

theorem voted_ballots (i : ι) : ballots i (voted s env id auth).log =
    ballots i s.log ++ if id = i then [(env.sender, auth)] else [] := by
  simp only [voted, ballots_concat, Event.ballot]
  split <;> rfl

end Vote

/-- A vote is the first of its voter on the proposal. -/
theorem Dated.first (h : Dated keccak asked now s) (may : MayVote s env id) (auth : Bool) :
    (env.sender, auth) ∉ ballots id s.log := by
  intro hb
  obtain ⟨time, hv⟩ := mem_ballots.mp hb
  obtain ⟨htime, happ, hwait, _, _⟩ := h.voted id env.sender auth time hv
  have hfirst := may.first
  omega

theorem dated_vote (h : Dated keccak asked now s) (hnow : now ≤ env.timestamp) (may : MayVote s env id)
    (auth : Bool) : Dated keccak asked env.timestamp (voted s env id auth) := by
  have hl := h.later hnow
  refine hl.of_terms (voted_terms s env id auth) (voted_created s env id auth) rfl ?_ ?_
  · intro i a b time hv
    obtain hold | hnew := mem_append.mp hv
    · have hother : ¬ (a = env.sender ∧ i = id) := by
        rintro ⟨rfl, rfl⟩
        exact h.first may b (mem_ballots.mpr ⟨time, hold⟩)
      simp only [voted, set₂_of_ne _ _ hother]
      exact hl.voted i a b time hold
    · simp only [mem_singleton, Event.LogVote.injEq] at hnew
      obtain ⟨rfl, rfl, rfl, rfl⟩ := hnew
      simp only [voted, set₂_self]
      exact ⟨trivial, may.applied, may.locked, may.inTime, le_rfl⟩
  · intro i hi
    rw [voted_decided] at hi
    exact hl.settled i hi

theorem polled_vote (h : Polled s) (auth : Bool)
    (hfirst : ∀ b, (env.sender, b) ∉ ballots id s.log) : Polled (voted s env id auth) := by
  refine ⟨fun i => ?_, fun i b => ?_⟩
  · rw [voted_ballots]
    split
    next e =>
      subst e
      rw [map_append]
      refine (perm_append_singleton _ _).nodup_iff.mpr (nodup_cons.mpr ⟨?_, h.once id⟩)
      intro hm
      obtain ⟨⟨a, b⟩, hb, he⟩ := mem_map.mp hm
      subst he
      exact hfirst b hb
    · rw [append_nil]
      exact h.once i
  · have hact : (voted s env id auth).activeProposalMap = s.activeProposalMap := rfl
    rw [voted_ballots, voted_power, hact, h.tally i b]
    by_cases e : id = i
    · simp only [e, ↓reduceIte, weight_concat, true_and]
    · rw [if_neg e, if_neg (fun hi => e hi.1), append_nil, add_zero]

theorem resolved_vote (h : Resolved s) (auth : Bool) : Resolved (voted s env id auth) := by
  refine ⟨?_, fun i => ?_, fun i => ?_, fun i hi => ?_⟩
  · rw [voted_decided]
    exact h.once
  · rw [voted_decided, (voted_result s env id auth i).1]
    exact h.result i
  · rw [voted_passed, (voted_result s env id auth i).2]
    exact h.ispassed i
  · rw [voted_passed] at hi
    have hmajority := h.majority i hi
    have hgrow := voted_power s env id auth i true
    simp only [power] at hgrow
    have hact : (voted s env id auth).activeProposalMap = s.activeProposalMap := rfl
    rw [hact]
    omega

theorem settled_vote (h : Settled s) (auth : Bool) : Settled (voted s env id auth) := by
  obtain ⟨hpaid, hupdated⟩ := h.records (t := voted s env id auth) fun i _ =>
    voted_terms s env id auth i
  refine ⟨?_, ?_, ?_, ?_⟩
  · rw [voted_passed, hpaid]
    rfl
  · rw [voted_passed, hupdated]
    rfl
  · rw [voted_created]
    exact h.filed
  · rw [voted_created, voted_passed]
    exact h.funds

/-! ## Deciding -/

section Close
variable {yes : Bool} {time : Nat}

/-- The event of a decision. -/
def decision (yes : Bool) (id : ι) (dst : Address) (time : Nat) : Event ι :=
  if yes then .LogPassProposal id dst time else .LogRejectProposal id dst time

/-- What deciding the proposal `id` does; only if it passes is there something
to pay and to carry out. -/
structure Closes (s t : State ι) (id : ι) (yes : Bool) (time : Nat) : Prop where
  undecided : (s.proposals id).resultExist = false
  majority : yes = true →
    (s.activeProposalMap id).totalVotePower < 2 * (s.proposals id).votePowerOfAgree
  proposals : t.proposals = update s.proposals id ((s.proposals id).close yes)
  activeProposalMap : t.activeProposalMap = s.activeProposalMap
  startvotes : t.startvotes = s.startvotes
  votes : t.votes = s.votes
  payouts : t.payouts = s.payouts ++
    if yes then [((s.proposals id).proposer, 4000 * ether)] else []
  updates : (s.proposals id).variable_name = "maxValidators" ∨
      (s.proposals id).variable_name = "minimumStakeAmount" →
    t.updates = s.updates ++
      if yes then [((s.proposals id).variable_name, (s.proposals id).variable_value)] else []
  array : t.ProposalsArray = s.ProposalsArray
  balance : t.balance + (if yes then 4000 * ether else 0) = s.balance
  log : t.log = s.log ++ [decision yes id (s.proposals id).dst time]

theorem Counted.closes (h : Counted s t env id) :
    t = s ∨ ∃ yes, Closes s t id yes env.timestamp := by
  cases h with
  | open_ same => exact .inl same
  | pass V U P undecided majority balance updates ht =>
    subst ht
    exact .inr ⟨true, undecided, fun _ => by omega, rfl, rfl, rfl, rfl, rfl, updates, rfl,
      Nat.sub_add_cancel balance, rfl⟩
  | reject undecided ht =>
    subst ht
    exact .inr ⟨false, undecided, nofun, rfl, rfl, rfl, rfl, (append_nil _).symm,
      fun _ => (append_nil _).symm, rfl, rfl, rfl⟩

section
variable (c : Closes s t id yes time)
include c

theorem Closes.created : created t.log = GovHub.created s.log := by
  rw [c.log, created_concat]
  cases yes <;> exact append_nil _

theorem Closes.decided : decided t.log = GovHub.decided s.log ++ [id] := by
  rw [c.log, decided_concat]
  cases yes <;> rfl

theorem Closes.passed : passed t.log = GovHub.passed s.log ++ if yes then [id] else [] := by
  rw [c.log, passed_concat]
  cases yes <;> rfl

theorem Closes.ballots (i : ι) : ballots i t.log = GovHub.ballots i s.log := by
  rw [c.log, ballots_concat]
  cases yes <;> exact append_nil _

theorem Closes.terms (i : ι) : (t.proposals i).terms = (s.proposals i).terms := by
  rw [c.proposals]
  exact update_field ProposalInfo.terms (close_terms _ _) i

theorem Closes.power (i : ι) (b : Bool) : (t.proposals i).power b = (s.proposals i).power b := by
  rw [c.proposals]
  exact update_field (fun p : ProposalInfo => p.power b) (by cases b <;> rfl) i

theorem dated_close (h : Dated keccak asked now s) (hex : (s.proposals id).createTime ≠ 0)
    (haged : (s.proposals id).createTime + VOTE_TIME_LOCK ≤ now) : Dated keccak asked now t := by
  refine h.of_terms c.terms c.created c.startvotes ?_ ?_
  · intro i a auth time hv
    rw [c.log] at hv
    rw [c.votes]
    apply h.voted i a auth time
    cases yes <;> simpa [decision] using hv
  · intro i hi
    rw [c.decided] at hi
    obtain hi | hi := mem_append.mp hi
    · exact h.settled i hi
    · rw [mem_singleton.mp hi]
      exact ⟨hex, haged⟩

theorem polled_close (h : Polled s) : Polled t := by
  refine ⟨fun i => ?_, fun i b => ?_⟩
  · rw [c.ballots]
    exact h.once i
  · rw [c.power, c.activeProposalMap, c.ballots]
    exact h.tally i b

theorem resolved_close (h : Resolved s) : Resolved t := by
  have hfresh : id ∉ GovHub.decided s.log := by
    rw [← h.result id, c.undecided]
    exact Bool.false_ne_true
  have hout : id ∉ GovHub.passed s.log := fun hp => hfresh (mem_decided_of_passed hp)
  refine ⟨?_, fun i => ?_, fun i => ?_, fun i hi => ?_⟩
  · rw [c.decided]
    exact (perm_append_singleton _ _).nodup_iff.mpr (nodup_cons.mpr ⟨hfresh, h.once⟩)
  · rw [c.decided, mem_append, mem_singleton, c.proposals]
    by_cases e : i = id
    · subst e
      simp [close]
    · simp only [update_of_ne e, e, or_false]
      exact h.result i
  · rw [c.passed, mem_append, c.proposals]
    by_cases e : i = id
    · subst e
      cases yes <;> simp [close, hout]
    · rw [update_of_ne e, h.ispassed i]
      cases yes <;> simp [e]
  · have hagree : (t.proposals i).votePowerOfAgree = (s.proposals i).votePowerOfAgree :=
      c.power i true
    rw [c.activeProposalMap, hagree]
    rw [c.passed] at hi
    obtain hi | hi := mem_append.mp hi
    · exact h.majority i hi
    cases yes with
    | true =>
      rw [mem_singleton.mp hi]
      exact c.majority rfl
    | false => cases hi

theorem settled_close (h : Settled s) (governs : (s.proposals id).variable_name = "maxValidators" ∨
    (s.proposals id).variable_name = "minimumStakeAmount") : Settled t := by
  obtain ⟨hpaid, hupdated⟩ := h.records (t := t) fun i _ => c.terms i
  obtain ⟨hproposer, _, _, _, hname, hvalue⟩ := terms_eq_iff.mp (c.terms id)
  refine ⟨?_, ?_, ?_, ?_⟩
  · rw [c.payouts, c.passed, map_append, hpaid, ← hproposer]
    cases yes <;> rfl
  · rw [c.updates governs, c.passed, map_append, hupdated, ← hname, ← hvalue]
    cases yes <;> rfl
  · rw [c.array, c.created]
    exact h.filed
  · have hfunds := h.funds
    have hbalance := c.balance
    rw [c.created, c.passed, length_append, mul_add]
    cases yes with
    | true =>
      simp only [↓reduceIte, length_singleton, mul_one] at hbalance ⊢
      omega
    | false =>
      simp only [Bool.false_eq_true, ↓reduceIte, length_nil, mul_zero] at hbalance ⊢
      omega

end

end Close

theorem exec_orderly {m : Message ι} (h : Orderly keccak asked now s) (hnow : now ≤ m.env.timestamp)
    (hm : ∀ p, m.packed = some p → p ∈ asked) (he : exec keccak s m = .ok t) : Orderly keccak asked m.env.timestamp t := by
  obtain ⟨env, call⟩ := m
  cases call with
  | createProposal details vari_name value =>
    obtain ⟨id, o⟩ := createProposal_opens he
    have hin := hm _ rfl
    obtain ⟨unvoted, undecided⟩ := h.dated.unvoted hnow hin o.hash
    exact ⟨dated_create o h.dated hnow hin, polled_create o h.polled unvoted,
      resolved_create o undecided h.resolved, settled_create o undecided h.settled⟩
  | startVoteProposal id =>
    obtain ⟨hex, hfirst, rfl⟩ := startVoteProposal_ok he
    exact ⟨dated_apply (h.dated.later hnow) hex hfirst, { h.polled with },
      { h.resolved with },
      { h.settled with }⟩
  | voteProposal id vote =>
    obtain ⟨may, auth, hcount⟩ := voteProposal_ok he
    have hvoted : Orderly keccak asked env.timestamp (voted s env id auth) :=
      ⟨dated_vote h.dated hnow may auth, polled_vote h.polled auth (h.dated.first may),
        resolved_vote h.resolved auth, settled_vote h.settled auth⟩
    have htime := (terms_eq_iff.mp (voted_terms s env id auth id)).2.2.2.1
    obtain rfl | ⟨yes, c⟩ := hcount.closes
    · exact hvoted
    · have hex := htime ▸ may.exist
      have haged := htime ▸ h.dated.aged may
      exact ⟨dated_close c hvoted.dated hex haged, polled_close c hvoted.polled,
        resolved_close c hvoted.resolved, settled_close c hvoted.settled (hvoted.dated.governs id hex)⟩
  | validatorSet call =>
    simp only [exec, bind_ok, pure_ok] at he
    obtain ⟨V, _, rfl⟩ := he
    have hd := h.dated.later hnow
    exact ⟨{ hd with },
      { h.polled with },
      { h.resolved with },
      { h.settled with }⟩

end Steps

/-! ## Runs -/

/-- The calls of a run, in the order of their blocks. -/
structure History (ι : Type) where
  calls : List (Message ι)
  chronological : calls.Pairwise fun m n => m.env.timestamp ≤ n.env.timestamp

/-- `a` applies for a vote on `id` at `time`. -/
def Applies (keccak : Packed → ι) [DecidableEq ι] (a : Address) (id : ι) (time : Nat) (s : State ι)
    (m : Message ι) : Prop :=
  m.call = .startVoteProposal id ∧ m.env.sender = a ∧ m.env.timestamp = time ∧
    ∃ t, exec keccak s m = .ok t

section Runs
variable [DecidableEq ι] {keccak : Packed → ι}

theorem orderly_start {asked : List Packed} (hfree : CollisionFree keccak asked) :
    Orderly keccak asked 0 ({} : State ι) := by
  have hd : Dated keccak asked 0 ({} : State ι) := by
    refine ⟨hfree, ?_, ?_, ?_, ?_, ?_, ?_⟩
    · exact fun id hid => absurd rfl hid
    · exact fun id hid => absurd rfl hid
    · exact fun id hid => absurd rfl hid
    · exact fun a id hid => absurd rfl hid
    · exact fun id a auth time hv => absurd hv not_mem_nil
    · exact fun id hid => absurd hid not_mem_nil
  refine ⟨hd, ⟨fun _ => nodup_nil, fun id auth => ?_⟩, ⟨nodup_nil, ?_, ?_, ?_⟩,
    ⟨rfl, rfl, rfl, rfl⟩⟩
  · cases auth <;> rfl
  · exact fun id => iff_of_false Bool.false_ne_true not_mem_nil
  · exact fun id => iff_of_false Bool.false_ne_true not_mem_nil
  · exact fun id hid => absurd hid not_mem_nil

/-- An application on record was made by the voter itself. -/
theorem applied_since {a : Address} {id : ι} {calls : List (Message ι)}
    (h : ((run (exec keccak) {} calls).startvotes a id).voteTime ≠ 0) :
    let time := ((run (exec keccak) {} calls).startvotes a id).voteTime
    Since (exec keccak) (Applies keccak a id time) (fun s => (s.startvotes a id).voteTime = time)
      {} calls := by
  intro time
  refine since_of_arises (J := fun _ => True) (Q := fun s => (s.startvotes a id).voteTime = time)
    ?_ (fun _ _ hq => hq) ?_ (fun e => h e.symm) rfl
  · intro s m t _ he hq
    obtain ⟨env, call⟩ := m
    cases call with
    | createProposal details vari_name value =>
      obtain ⟨_, _, _, _, rfl⟩ := createProposal_ok he
      exact .inl hq
    | startVoteProposal i =>
      have hsucc : ∃ t, exec keccak s ⟨env, .startVoteProposal i⟩ = .ok t := ⟨t, he⟩
      obtain ⟨_, _, rfl⟩ := startVoteProposal_ok he
      simp only [set₂_apply] at hq
      split at hq
      next e =>
        exact .inr ⟨by rw [e.2], e.1.symm, hq, hsucc⟩
      · exact .inl hq
    | voteProposal i vote =>
      left
      obtain ⟨_, auth, hcount⟩ := voteProposal_ok he
      cases hcount with
      | open_ same => rwa [same] at hq
      | pass V U P _ _ _ _ ht | reject _ ht => rwa [ht] at hq
    | validatorSet call =>
      simp only [exec, bind_ok, pure_ok] at he
      obtain ⟨V, _, rfl⟩ := he
      exact .inl hq
  · exact throughout_of_preserved (fun _ _ _ _ _ _ => trivial) trivial
      (along_true (exec keccak) _ calls)

/-- In every state of every run: each vote is counted once, in time, and two
days after its voter applied; each proposal is decided once, passes only with a
majority, and is paid for and carried out at most once for each time it was
made; and a thousand ether of each one that passed is kept. -/
theorem voting_fair (keccak : Packed → ι) (h : History ι)
    (hfree : CollisionFree keccak (h.calls.filterMap Message.packed)) :
    Throughout (exec keccak) Fair {} h.calls ∧
      ∀ before after, h.calls = before ++ after → ∀ id a auth time,
        .LogVote id a auth time ∈ (run (exec keccak) {} before).log →
          ∃ start, start + VOTE_TIME_LOCK ≤ time ∧ Since (exec keccak) (Applies keccak a id start)
              (fun s => (s.startvotes a id).voteTime = start) {} before := by
  have all := throughout_of_clocked
    (fun now s m hm t hs hnow he =>
      exec_orderly hs hnow (fun p hp => mem_filterMap.mpr ⟨m, hm, hp⟩) he)
    (fun _ _ _ hle hs => hs.later hle) (orderly_start hfree)
    (fun m _ => Nat.zero_le m.env.timestamp) h.chronological
  refine ⟨all.mono fun s hs => hs.choose_spec.fair, ?_⟩
  intro before after hcalls id a auth time hvote
  rw [hcalls] at all
  obtain ⟨now, horder⟩ := throughout_last (throughout_split all)
  obtain ⟨_, happ, hwait, _, _⟩ := horder.dated.voted id a auth time hvote
  exact ⟨_, hwait, applied_since happ⟩

end Runs

/-- A hash of 256 bits, by the time alone. -/
def stampHash (p : Packed) : BitVec 256 := BitVec.ofNat 256 p.timestamp

/-- Validator 1 proposes three seats; validators 1 and 2 apply for the vote, and two
days later they agree. -/
def threeSeatsCalls : List (Message (BitVec 256)) :=
  [1, 2, 3].map (fun a => ⟨{ sender := a, value := Staking.MINIMUM_STAKE_AMOUNT },
      .validatorSet .stakeValidator⟩) ++
    ⟨{ sender := 1, value := 5000 * ether, timestamp := 1000 },
      .createProposal [] "maxValidators" 3⟩ ::
    [1, 2].map (fun a => ⟨{ sender := a, timestamp := 1000 }, .startVoteProposal 1000⟩) ++
    [1, 2].map fun a =>
      ⟨{ sender := a, timestamp := 1000 + VOTE_TIME_LOCK }, .voteProposal 1000 "true"⟩

def threeSeats : History (BitVec 256) := ⟨threeSeatsCalls, by decide⟩

theorem threeSeats_passed :
    let s := run (exec stampHash) {} threeSeats.calls
    passed s.log = [1000] ∧ s.updates = [("maxValidators", 3)] ∧ s.balance = 1000 * ether ∧
      Throughout (exec stampHash) Fair {} threeSeats.calls := by
  have hfree : CollisionFree stampHash (threeSeats.calls.filterMap Message.packed) := by
    have hasked : threeSeats.calls.filterMap Message.packed = [⟨1, [], 1000⟩] := rfl
    intro p hp q hq _
    rw [hasked, mem_singleton] at hp hq
    rw [hp, hq]
  exact ⟨by decide +kernel, by decide +kernel, by decide +kernel,
    (voting_fair stampHash threeSeats hfree).1⟩

end Dexit.GovHub
