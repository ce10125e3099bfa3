import Dexit.Staking.Calls

/-! `GovHub`: proposals to change one of the two governed values of the validator
set, and the votes on them. -/

namespace Dexit.GovHub

open Solidity
open Function (update)
open Staking (Env ether nonPayable getCoins)

/-- Ten days. -/
def PROPOSAL_LASTING_PERIOD : Nat := 10 * 24 * 3600

/-- The 48 hours between applying for a vote and voting. -/
def VOTE_TIME_LOCK : Nat := 48 * 3600

structure ProposalInfo where
  proposer : Address := 0
  dst : Address := 0
  details : List UInt8 := []
  createTime : Nat := 0
  variable_name : String := ""
  variable_value : Nat := 0
  access : Bool := false
  votePowerOfAgree : Nat := 0
  votePowerOfDisagree : Nat := 0
  agree : Nat := 0
  reject : Nat := 0
  ispassed : Bool := false
  resultExist : Bool := false
  deriving DecidableEq, Repr

structure VoteInfo where
  voter : Address := 0
  voteTime : Nat := 0
  auth : Bool := false
  deriving DecidableEq, Repr

structure StartVoteInfo where
  voter : Address := 0
  voteTime : Nat := 0
  deriving DecidableEq, Repr

structure ActiveProposal where
  isEligible : Address → Bool := fun _ => false
  individualCoins : Address → Nat := fun _ => 0
  totalVotePower : Nat := 0

/-- What the id of a proposal is the hash of:
`abi.encodePacked(dst, dst, details, block.timestamp)`. All parts but `details`
have a fixed width, so the packing loses nothing. -/
structure Packed where
  dst : Address
  details : List UInt8
  timestamp : Nat
  deriving DecidableEq, Repr

inductive Event (ι : Type) where
  | LogCreateProposal (id : ι) (proposer dst : Address) (time : Nat)
  | LogVote (id : ι) (voter : Address) (auth : Bool) (time : Nat)
  | LogPassProposal (id : ι) (dst : Address) (time : Nat)
  | LogRejectProposal (id : ι) (dst : Address) (time : Nat)
  deriving DecidableEq, Repr

/-- Everything the contract reads or writes: its balance, what it has paid out
and which calls of `updateVotingValues` it has made, oldest first, the contract
at `VALIDATOR_CONTRACT_ADDR`, its own storage, and the events it has emitted. -/
structure State (ι : Type) where
  balance : Nat := 0
  payouts : List (Address × Nat) := []
  updates : List (String × Nat) := []
  validatorSet : Staking.State := Staking.postInit
  activeProposalMap : ι → ActiveProposal := fun _ => {}
  proposals : ι → ProposalInfo := fun _ => {}
  votes : Address → ι → VoteInfo := fun _ _ => {}
  userProposals : Address → List ι := fun _ => []
  pass : ι → Address → Bool := fun _ _ => false
  startvotes : Address → ι → StartVoteInfo := fun _ _ => {}
  maxValidators : Nat := 0
  minimumStakeAmount : Nat := 0
  highestValidators : List Address := []
  ProposalsArray : List ι := []
  votePower : Nat := 0
  log : List (Event ι) := []

variable {ι : Type} [DecidableEq ι] (s : State ι)

def State.setProposal (id : ι) (p : ProposalInfo) : State ι :=
  { s with proposals := update s.proposals id p }

def State.emit (e : Event ι) : State ι := { s with log := s.log ++ [e] }

/-- `payable(recipient).transfer(amount)`. -/
def transfer (env : Env) (recipient : Address) (amount : Nat) :
    Result (State ι) := do
  guardWith (amount ≤ s.balance ∧ env.accepts recipient = true) .transferFailed
  pure { s with balance := s.balance - amount, payouts := s.payouts ++ [(recipient, amount)] }

/-- A `uint16` counter goes up. -/
def count (n : Nat) : Result Nat := do
  guardWith (n + 1 < 2 ^ 16) .overflow
  pure (n + 1)

/-! ## Proposing -/

/-- An earlier proposal of the sender for the same variable has run out. -/
def checkEarlier (s : State ι) (env : Env) (vari_name : String) : List ι → Result Unit
  | [] => pure ()
  | id :: rest => do
    if (s.proposals id).variable_name = vari_name then
      let again ← add (s.proposals id).createTime PROPOSAL_LASTING_PERIOD
      require (again ≤ env.timestamp) "proposal created before"
    checkEarlier s env vari_name rest

/-- The most coins of a member; reading slot 0 of an empty list panics. -/
def highcoin (validatorSet : Staking.State) : List Address → Result Nat
  | [] => .error .outOfBounds
  | a :: rest => .ok (rest.foldl (fun high b =>
      if high < getCoins validatorSet b then getCoins validatorSet b else high)
      (getCoins validatorSet a))

/-- The value that will be stored. A minimum stake is proposed in whole ether. -/
def checkValue (vari_name : String) (value : Nat) : Result Nat :=
  if vari_name = "minimumStakeAmount" then do
    require (1 ≤ value) "minimumStakeAmount can't be less than 1"
    let value ← mul value ether
    let high ← highcoin s.validatorSet s.highestValidators
    require (value ≤ high) "set less than highcoin"
    pure value
  else if vari_name = "maxValidators" then do
    require (3 ≤ value ∧ value ≤ s.validatorSet.currentValidators.length ∧ value ≤ 51)
      "Invalid Value"
    pure value
  else pure value

/-- The contract notes the present value of the variable. -/
def notePresent (vari_name : String) : State ι :=
  if vari_name = "minimumStakeAmount" then
    { s with minimumStakeAmount := s.validatorSet.minimumStakeAmount }
  else if vari_name = "maxValidators" then
    { s with maxValidators := s.validatorSet.maxValidators }
  else s

/-- Every member becomes eligible with its present coins, which are summed up.
Nobody who was eligible before stops being it. -/
def recordEligible (validatorSet : Staking.State) :
    List Address → ActiveProposal → Nat → Result (ActiveProposal × Nat)
  | [], activeInfo, updateCoins => pure (activeInfo, updateCoins)
  | a :: rest, activeInfo, updateCoins => do
    let coins := getCoins validatorSet a
    let updateCoins ← add updateCoins coins
    recordEligible validatorSet rest { activeInfo with
      isEligible := update activeInfo.isEligible a true
      individualCoins := update activeInfo.individualCoins a coins } updateCoins

def createProposal (keccak : Packed → ι) (s : State ι) (env : Env) (details : List UInt8)
    (vari_name : String) (value : Nat) : Result (State ι) := do
  let s := { s with
    balance := s.balance + env.value
    highestValidators := s.validatorSet.highestValidators }
  let dst := env.sender
  require ((s.validatorSet.validatorInfo dst).status = .Staked) "Only Active Validator"
  require (vari_name = "maxValidators" ∨ vari_name = "minimumStakeAmount")
    "maxValidators & minimumStakeAmount Proposal Only"
  require (env.value = 5000 * ether) "Must pay 5000 DXT"
  checkEarlier s env vari_name (s.userProposals dst)
  let value ← checkValue s vari_name value
  let s := notePresent s vari_name
  let id := keccak ⟨dst, details, env.timestamp⟩
  require (details.length ≤ 100) "Details too long"
  let (activeInfo, updateCoins) ←
    recordEligible s.validatorSet s.highestValidators (s.activeProposalMap id) 0
  let proposal : ProposalInfo :=
    { proposer := dst, dst := dst, details := details, createTime := env.timestamp,
      variable_name := vari_name, variable_value := value, access := true }
  pure ({ s with
    activeProposalMap := update s.activeProposalMap id
      { activeInfo with totalVotePower := updateCoins }
    userProposals := update s.userProposals dst (s.userProposals dst ++ [id])
    proposals := update s.proposals id proposal
    ProposalsArray := s.ProposalsArray ++ [id]
    votePower := updateCoins }.emit (.LogCreateProposal id dst dst env.timestamp))

/-! ## Voting -/

/-- Apply for voting. -/
def startVoteProposal (env : Env) (id : ι) : Result (State ι) := do
  nonPayable env
  let p := s.proposals id
  let expiry ← add p.createTime PROPOSAL_LASTING_PERIOD
  require (env.timestamp < expiry) "Proposal Expired"
  require ((s.activeProposalMap id).isEligible env.sender = true) "Not Eligible"
  require ((s.startvotes env.sender id).voteTime = 0) "Already applied"
  require (p.createTime ≠ 0) "Proposal not exist"
  require (p.access = true) "Voting completed for this ID"
  require ((s.votes env.sender id).voteTime = 0) "You can't vote for a proposal twice"
  pure { s with
    startvotes := set₂ s.startvotes env.sender id ⟨env.sender, env.timestamp⟩ }

/-- Texts are compared by hash in the source. -/
def checkVote (vote : String) : Result Bool :=
  if vote = "true" then pure true
  else if vote = "false" then pure false
  else .error (.require "Invalid Vote")

/-- The vote is recorded and its weight added to one of the two sides. -/
def castVote (env : Env) (id : ι) (auth : Bool) : Result (State ι) := do
  let p := s.proposals id
  let icoin := (s.activeProposalMap id).individualCoins env.sender
  let p ← if auth then do
      let power ← add p.votePowerOfAgree icoin
      let agree ← count p.agree
      pure { p with votePowerOfAgree := power, agree := agree }
    else do
      let power ← add p.votePowerOfDisagree icoin
      let reject ← count p.reject
      pure { p with votePowerOfDisagree := power, reject := reject }
  pure ({ s.setProposal id p with
    votes := set₂ s.votes env.sender id ⟨env.sender, env.timestamp, auth⟩ }.emit
      (.LogVote id env.sender auth env.timestamp))

/-- The proposed value is handed to the validator set. -/
def authChangeValues (env : Env) (id : ι) : Result (State ι) := do
  let p := s.proposals id
  let s ← if p.variable_name = "minimumStakeAmount" ∨ p.variable_name = "maxValidators" then do
      let validatorSet ← Staking.updateVotingValues s.validatorSet
        { env with sender := GOV_HUB_ADDR, value := 0 } p.variable_name p.variable_value
      pure { s with
        validatorSet := validatorSet
        updates := s.updates ++ [(p.variable_name, p.variable_value)] }
    else pure s
  pure { s with pass := set₂ s.pass id env.sender false }

/-- A majority passes or rejects the proposal. -/
def countVotes (env : Env) (id : ι) : Result (State ι) :=
  let p := s.proposals id
  let totalVotePower := (s.activeProposalMap id).totalVotePower
  if s.pass id p.dst = true ∨ p.resultExist = true then pure s
  else if totalVotePower / 2 + 1 ≤ p.votePowerOfAgree then do
    let s := { s.setProposal id { p with resultExist := true } with
      pass := set₂ s.pass id p.dst true }
    let s ← transfer s env p.proposer (4000 * ether)
    let s ← authChangeValues s env id
    let s := s.setProposal id { s.proposals id with ispassed := true, access := false }
    pure (s.emit (.LogPassProposal id p.dst env.timestamp))
  else if totalVotePower / 2 + 1 ≤ p.votePowerOfDisagree then
    pure ((s.setProposal id
      { p with resultExist := true, ispassed := false, access := false }).emit
        (.LogRejectProposal id p.dst env.timestamp))
  else pure s

def voteProposal (env : Env) (id : ι) (vote : String) : Result (State ι) := do
  nonPayable env
  let p := s.proposals id
  let expiry ← add p.createTime PROPOSAL_LASTING_PERIOD
  require (env.timestamp < expiry) "Proposal Expired"
  require ((s.activeProposalMap id).isEligible env.sender = true) "Not Eligible"
  require ((s.startvotes env.sender id).voteTime ≠ 0) "Apply for vote first"
  let unlock ← add (s.startvotes env.sender id).voteTime VOTE_TIME_LOCK
  require (unlock ≤ env.timestamp) "Can't vote before time lock"
  require (p.createTime ≠ 0) "Proposal not exist"
  require (p.access = true) "Voting completed for this ID"
  require ((s.votes env.sender id).voteTime = 0) "You can't vote for a proposal twice"
  let auth ← checkVote vote
  let s ← castVote s env id auth
  countVotes s env id

/-! ## Calls -/

inductive Call (ι : Type) where
  | createProposal (details : List UInt8) (vari_name : String) (value : Nat)
  | startVoteProposal (id : ι)
  | voteProposal (id : ι) (vote : String)
  | validatorSet (call : Staking.Call)

structure Message (ι : Type) where
  env : Env
  call : Call ι

/-- One call of the contract, or of the validator set, by anybody. -/
def exec (keccak : Packed → ι) (s : State ι) (m : Message ι) : Result (State ι) :=
  match m.call with
  | .createProposal details vari_name value =>
    createProposal keccak s m.env details vari_name value
  | .startVoteProposal id => startVoteProposal s m.env id
  | .voteProposal id vote => voteProposal s m.env id vote
  | .validatorSet call => do
    let validatorSet ← Staking.exec s.validatorSet ⟨m.env, call⟩
    pure { s with validatorSet := validatorSet }

/-- What a call hashes. -/
def Message.packed (m : Message ι) : Option Packed :=
  match m.call with
  | .createProposal details _ _ => some ⟨m.env.sender, details, m.env.timestamp⟩
  | _ => none

/-- The hash tells the inputs that it is given apart. -/
def CollisionFree (keccak : Packed → ι) (asked : List Packed) : Prop :=
  ∀ p ∈ asked, ∀ q ∈ asked, keccak p = keccak q → p = q

end Dexit.GovHub
