import Dexit.Parlia.Transaction

/-! The miner executes whatever has a sender under the rules of the block. A
node that verifies the block sorts the system transactions out first. -/

namespace Dexit.Parlia

open Outcome List

/-- The chain configuration, as far as signers depend on it. -/
structure ChainConfig where
  chainID : Option ℕ
  homesteadBlock : Option ℕ
  eip155Block : Option ℕ
  berlinBlock : Option ℕ
  yoloV3Block : Option ℕ

def isForked (s : Option ℕ) (head : ℕ) : Bool :=
  match s with
  | none => false
  | some s => decide (s ≤ head)

namespace ChainConfig

def isHomestead (c : ChainConfig) (num : ℕ) : Bool := isForked c.homesteadBlock num
def isEIP155 (c : ChainConfig) (num : ℕ) : Bool := isForked c.eip155Block num
def isBerlin (c : ChainConfig) (num : ℕ) : Bool :=
  isForked c.berlinBlock num || isForked c.yoloV3Block num

/-- A missing chain id counts as zero. -/
def signerChainId (c : ChainConfig) : ℕ := c.chainID.getD 0

end ChainConfig

def makeSigner (config : ChainConfig) (blockNumber : ℕ) : Signer :=
  if config.isBerlin blockNumber then .eip2930Signer config.signerChainId
  else if config.isEIP155 blockNumber then .EIP155Signer config.signerChainId
  else if config.isHomestead blockNumber then .HomesteadSigner
  else .FrontierSigner

/-- The system contracts of the engine; the token manager is not one of them. -/
def systemContracts : List Address :=
  [VALIDATOR_CONTRACT_ADDR, SLASH_CONTRACT_ADDR, SYSTEM_REWARD_ADDR, LIGHT_CLIENT_ADDR,
    RELAYERHUB_CONTRACT_ADDR, GOV_HUB_ADDR, TOKEN_HUB_ADDR, INCENTIVIZE_ADDR,
    CROSS_CHAIN_CONTRACT_ADDR]

def isToSystemContract (recipient : Address) : Bool := systemContracts.contains recipient

section
variable (pubkeyAddress : SigHash → ℕ → ℕ → UInt8 → Option Address) (config : ChainConfig)
  (header : Header)

/-- The signer of the engine does not depend on the block. -/
def isSystemTransaction (tx : Tx) : Except Err Bool :=
  match tx.recipient with
  | none => .ok false
  | some recipient =>
    match (Signer.EIP155Signer config.signerChainId).sender pubkeyAddress tx with
    | none => .error .unauthorizedTransaction
    | some sender =>
      .ok (decide (sender = header.coinbase ∧ isToSystemContract recipient = true ∧
        tx.gasPrice = 0))

variable {World : Type} (applyTransaction : World → Address → Tx → Except Err World)

/-- `commitTransaction`; an error leaves the state as it was. -/
def commitTransaction (world : World) (tx : Tx) : Except Err World :=
  match (makeSigner config header.number).sender pubkeyAddress tx with
  | none => .error .invalidSender
  | some sender => applyTransaction world sender tx

/-- The loop of `commitTransactions`: a transaction that fails, and a replay
protected one before its time, is left out. -/
def commitTransactions (pool : List Tx) (work : World × List Tx) : World × List Tx :=
  pool.foldl (fun (world, txs) tx =>
    if tx.isProtected ∧ ¬ config.isEIP155 header.number then (world, txs)
    else
      match commitTransaction pubkeyAddress config header applyTransaction world tx with
      | .error _ => (world, txs)
      | .ok world => (world, txs ++ [tx])) work

/-- The loop of `Process`: the state, the common transactions, which are
executed, and the system transactions. -/
def process (world : World) : List Tx → Except Err (World × List Tx × List Tx)
  | [] => .ok (world, [], [])
  | tx :: rest => do
    let isSystemTx ← isSystemTransaction pubkeyAddress config header tx
    if isSystemTx then do
      let (world, commonTxs, systemTxs) ← process world rest
      pure (world, commonTxs, tx :: systemTxs)
    else do
      let world ← commitTransaction pubkeyAddress config header applyTransaction world tx
      let (world, commonTxs, systemTxs) ← process world rest
      pure (world, tx :: commonTxs, systemTxs)

end

/-- The engine sees a transaction of `sender` as the miner does: it creates a
contract, or it is a legacy transaction, with a low signature value before the
first fork, and not a free call of a system contract by the proposer. -/
def Ordinary (config : ChainConfig) (header : Header) (tx : Tx) (sender : Address) : Prop :=
  ∀ recipient, tx.recipient = some recipient → tx.type = .LegacyTxType ∧
    (makeSigner config header.number = .FrontierSigner → tx.s ≤ secp256k1halfN) ∧
    ¬ (sender = header.coinbase ∧ isToSystemContract recipient = true ∧ tx.gasPrice = 0)

/-! ## Senders -/

/-- The recovery ids of signatures without replay protection. -/
theorem recovery_id : ∀ v < 2 ^ 8, (UInt64.ofNat v - 27).toUInt8 = 0 ∨
    (UInt64.ofNat v - 27).toUInt8 = 1 → v = 27 ∨ v = 28 := by
  decide +kernel

section
variable {pubkeyAddress : SigHash → ℕ → ℕ → UInt8 → Option Address} {config : ChainConfig}
  {header : Header} {tx : Tx} {sender : Address} {homestead : Bool}

theorem plainSender_unprotected (h : plainSender pubkeyAddress tx homestead = some sender) :
    tx.type = .LegacyTxType ∧ tx.isProtected = false := by
  unfold plainSender at h
  split at h
  · cases h
  next htype =>
  rw [not_not] at htype
  unfold recoverPlain at h
  split at h
  · cases h
  next hlen =>
  simp only [Int.natAbs_natCast] at h hlen
  split at h
  next hvalid =>
    simp only [validateSignatureValues, decide_eq_true_eq] at hvalid
    have hv := recovery_id tx.v (by omega) hvalid.2.2.2.2.2
    refine ⟨htype, ?_⟩
    simp only [Tx.isProtected, htype, Tx.isProtectedV]
    obtain hv | hv := hv <;> rw [hv] <;> rfl
  · cases h

/-- The first fork only forbids high signature values. -/
theorem plainSender_homestead (h : plainSender pubkeyAddress tx false = some sender) :
    plainSender pubkeyAddress tx true = if tx.s ≤ secp256k1halfN then some sender else none := by
  unfold plainSender at h ⊢
  split at h
  · cases h
  next htype =>
  rw [if_neg htype]
  unfold recoverPlain at h ⊢
  split at h
  · cases h
  next hlen =>
  rw [if_neg hlen]
  simp only at h ⊢
  split at h
  next hvalid =>
    simp only [validateSignatureValues, decide_eq_true_eq] at hvalid
    by_cases hlow : tx.s ≤ secp256k1halfN
    · rw [if_pos hlow, if_pos, h]
      simp only [validateSignatureValues, decide_eq_true_eq]
      exact ⟨hvalid.1, hvalid.2.1, fun hs => absurd hlow (Nat.not_le_of_lt hs.2), hvalid.2.2.2⟩
    · rw [if_neg hlow, if_neg]
      simp only [validateSignatureValues, decide_eq_true_eq]
      exact fun hs => hs.2.2.1 ⟨trivial, not_le.mp hlow⟩
  · cases h

theorem eip155Sender_unprotected {chainId : ℕ} (htype : tx.type = .LegacyTxType)
    (h : tx.isProtected = false) :
    eip155Sender pubkeyAddress chainId tx = plainSender pubkeyAddress tx true := by
  unfold eip155Sender
  rw [if_neg (not_not.mpr htype), h, if_pos Bool.false_ne_true]

theorem makeSigner_cases (config : ChainConfig) (n : ℕ) :
    makeSigner config n = .eip2930Signer config.signerChainId ∨
      makeSigner config n = .EIP155Signer config.signerChainId ∨
      makeSigner config n = .HomesteadSigner ∨ makeSigner config n = .FrontierSigner := by
  unfold makeSigner
  split_ifs <;> simp

section
variable (h : (makeSigner config header.number).sender pubkeyAddress tx = some sender)
include h

/-- The sender that the engine finds, if the miner has found one. -/
theorem engineSender_eq : (Signer.EIP155Signer config.signerChainId).sender pubkeyAddress tx =
      if tx.type = .LegacyTxType ∧
        (makeSigner config header.number = .FrontierSigner → tx.s ≤ secp256k1halfN) then
        some sender
      else none := by
  have hengine : (Signer.EIP155Signer config.signerChainId).sender pubkeyAddress tx =
    eip155Sender pubkeyAddress config.signerChainId tx := rfl
  rw [hengine]
  obtain hsigner | hsigner | hsigner | hsigner := makeSigner_cases config header.number <;>
    rw [hsigner] at h ⊢
  · cases htype : tx.type with
    | LegacyTxType =>
      have hsame : eip2930Sender pubkeyAddress config.signerChainId tx =
          eip155Sender pubkeyAddress config.signerChainId tx := by
        simp only [eip2930Sender, eip155Sender, Tx.eip2930Hash, htype, ne_eq, not_true_eq_false,
          ↓reduceIte]
      rw [if_pos ⟨rfl, by simp⟩, ← hsame]
      exact h
    | AccessListTxType =>
      have hother : tx.type ≠ .LegacyTxType := by
        simp [htype]
      exact if_pos hother
  · have htype : tx.type = .LegacyTxType := by
      by_contra hother
      have hnone : eip155Sender pubkeyAddress config.signerChainId tx = none := if_pos hother
      have hsome : eip155Sender pubkeyAddress config.signerChainId tx = some sender := h
      rw [hnone] at hsome
      cases hsome
    rw [if_pos ⟨htype, by simp⟩]
    exact h
  · obtain ⟨htype, hplain⟩ := plainSender_unprotected h
    rw [eip155Sender_unprotected htype hplain, if_pos ⟨htype, by simp⟩]
    exact h
  · obtain ⟨htype, hplain⟩ := plainSender_unprotected h
    rw [eip155Sender_unprotected htype hplain, plainSender_homestead h]
    simp only [htype, true_and, forall_const]

/-- The engine takes a transaction that the miner can include for a common one
exactly when it is an ordinary one. -/
theorem isSystemTransaction_false_iff :
    isSystemTransaction pubkeyAddress config header tx = .ok false ↔
      Ordinary config header tx sender := by
  unfold isSystemTransaction Ordinary
  cases tx.recipient with
  | none => exact ⟨fun _ _ hnone => (nomatch hnone), fun _ => rfl⟩
  | some recipient =>
    simp only [engineSender_eq h, Option.some.injEq, forall_eq']
    by_cases hsame : tx.type = .LegacyTxType ∧
        (makeSigner config header.number = .FrontierSigner → tx.s ≤ secp256k1halfN)
    · rw [if_pos hsame]
      simp only [Except.ok.injEq, decide_eq_false_iff_not]
      exact ⟨fun hno => ⟨hsame.1, hsame.2, hno⟩, fun hord => hord.2.2⟩
    · rw [if_neg hsame]
      exact ⟨nofun, fun hord => absurd ⟨hord.1, hord.2.1⟩ hsame⟩

end

/-! ## Blocks -/

variable {World : Type} {applyTransaction : World → Address → Tx → Except Err World}
  {world world' : World} {txs : List Tx}

/-- What the miner has put into the block is executed in this order. -/
theorem commitTransactions_executed {pool : List Tx} {before : List Tx} {start : World}
    (hbefore : before.foldlM
      (commitTransaction pubkeyAddress config header applyTransaction) start = .ok world)
    (h : commitTransactions pubkeyAddress config header applyTransaction pool (world, before) =
      (world', txs)) :
    txs.foldlM (commitTransaction pubkeyAddress config header applyTransaction) start =
      .ok world' := by
  unfold commitTransactions at h
  induction pool generalizing world before with
  | nil =>
    cases h
    exact hbefore
  | cons tx pool ih =>
    rw [foldl_cons] at h
    simp only at h
    split at h
    · exact ih hbefore h
    split at h
    · exact ih hbefore h
    next next hnext =>
      refine ih ?_ h
      rw [foldlM_append, hbefore, ok_bind, foldlM_cons, hnext]
      rfl

section
variable (h : txs.foldlM (commitTransaction pubkeyAddress config header applyTransaction) world = .ok world')
include h

theorem executed_sender : ∀ tx ∈ txs, ∃ sender,
      (makeSigner config header.number).sender pubkeyAddress tx = some sender := by
  induction txs generalizing world with
  | nil => nofun
  | cons tx rest ih =>
    obtain ⟨next, hnext, h⟩ := bind_ok.mp h
    rw [forall_mem_cons]
    refine ⟨?_, ih h⟩
    unfold commitTransaction at hnext
    split at hnext
    · cases hnext
    next sender hsender =>
      exact ⟨sender, hsender⟩

/-- `Process` executes what the miner executed, all of it as common
transactions, exactly when it takes each of them for one. -/
theorem process_common_iff :
    process pubkeyAddress config header applyTransaction world txs = .ok (world', txs, []) ↔
      ∀ tx ∈ txs, isSystemTransaction pubkeyAddress config header tx = .ok false := by
  induction txs generalizing world with
  | nil =>
    cases h
    exact iff_of_true rfl nofun
  | cons tx rest ih =>
    obtain ⟨next, hnext, h⟩ := bind_ok.mp h
    rw [forall_mem_cons, ← ih h, process]
    cases hsystem : isSystemTransaction pubkeyAddress config header tx with
    | error e => exact ⟨nofun, fun hall => nomatch hall.1⟩
    | ok isSystemTx =>
      cases isSystemTx with
      | true =>
        refine ⟨?_, fun hall => nomatch hall.1⟩
        intro hprocess
        rw [ok_bind, if_pos rfl] at hprocess
        obtain ⟨⟨_, _, _⟩, _, hprocess⟩ := bind_ok.mp hprocess
        cases hprocess
      | false =>
        rw [ok_bind, if_neg Bool.false_ne_true, hnext, ok_bind]
        cases process pubkeyAddress config header applyTransaction next rest with
        | error e => exact ⟨nofun, fun hall => nomatch hall.2⟩
        | ok result =>
          obtain ⟨last, commonTxs, systemTxs⟩ := result
          simp only [ok_bind, pure_ok, Prod.mk.injEq, Except.ok.injEq, cons.injEq, true_and]

end

/-- Every transaction that the miner puts into a block is taken for a common
one, and executed as such, exactly when all of them are ordinary. -/
theorem committed_processed_iff {pool : List Tx}
    (h : commitTransactions pubkeyAddress config header applyTransaction pool (world, []) =
      (world', txs)) :
    (∀ tx ∈ txs, isSystemTransaction pubkeyAddress config header tx = .ok false) ∧
        process pubkeyAddress config header applyTransaction world txs = .ok (world', txs, []) ↔
      ∀ tx ∈ txs, ∀ sender,
        (makeSigner config header.number).sender pubkeyAddress tx = some sender →
          Ordinary config header tx sender := by
  have hexecuted := commitTransactions_executed rfl h
  rw [process_common_iff hexecuted, and_self_iff]
  refine forall_congr' fun tx => forall_congr' fun htx => ?_
  obtain ⟨sender, hsender⟩ := executed_sender hexecuted tx htx
  rw [isSystemTransaction_false_iff hsender, hsender]
  simp only [Option.some.injEq, forall_eq']

end

/-! ## A block with one transaction -/

/-- A chain on which every fork is active from the start. -/
def berlinChain : ChainConfig where
  chainID := some 56
  homesteadBlock := some 0
  eip155Block := some 0
  berlinBlock := some 0
  yoloV3Block := none

/-- A call of account 9 at the usual price. -/
def accessListCall (type : TxType) (v : ℕ) : Tx where
  type := type
  nonce := 0
  gasPrice := 5
  gas := 21000
  recipient := some 9
  value := 1
  data := .raw []
  chainIdField := 56
  accessList := []
  v := v
  r := 1
  s := 1

/-- Every signature is that of account 7. -/
def signedBySeven (_ : SigHash) (_ _ : ℕ) (_ : UInt8) : Option Address := some 7

theorem extra_length : (replicate 97 (0 : UInt8)).length < 2 ^ 63 := by decide

/-- A header of validator 1. -/
def berlinHeader : Header where
  parentHash := 0
  coinbase := 1
  difficulty := diffInTurn
  number := 1
  gasLimit := 30000000
  gasUsed := 0
  time := 3
  extra := ⟨List.replicate 97 0, extra_length⟩

/-- Counts the transactions that are executed. -/
def countTransactions (executed : ℕ) (_ : Address) (_ : Tx) : Except Err ℕ := .ok (executed + 1)

/-- A legacy transaction is executed on both sides. -/
theorem legacyCall_processed :
    commitTransactions signedBySeven berlinChain berlinHeader countTransactions
        [accessListCall .LegacyTxType 147] (0, []) = (1, [accessListCall .LegacyTxType 147]) ∧
      process signedBySeven berlinChain berlinHeader countTransactions 0
        [accessListCall .LegacyTxType 147] = .ok (1, [accessListCall .LegacyTxType 147], []) := by
  have hcommit : commitTransactions signedBySeven berlinChain berlinHeader countTransactions
      [accessListCall .LegacyTxType 147] (0, []) = (1, [accessListCall .LegacyTxType 147]) := by
    decide +kernel
  refine ⟨hcommit, ((committed_processed_iff hcommit).mpr ?_).2⟩
  intro tx htx sender _ recipient hrecipient
  rw [mem_singleton.mp htx] at hrecipient ⊢
  exact ⟨rfl, fun _ => by decide, fun h => absurd h.2.2 (by decide)⟩

/-- An access list transaction is mined, and the block is rejected. -/
theorem accessListCall_rejected :
    commitTransactions signedBySeven berlinChain berlinHeader countTransactions
        [accessListCall .AccessListTxType 0] (0, []) = (1, [accessListCall .AccessListTxType 0]) ∧
      isSystemTransaction signedBySeven berlinChain berlinHeader
        (accessListCall .AccessListTxType 0) = .error .unauthorizedTransaction ∧
      process signedBySeven berlinChain berlinHeader countTransactions 0
        [accessListCall .AccessListTxType 0] = .error .unauthorizedTransaction := by
  decide +kernel

end Dexit.Parlia
