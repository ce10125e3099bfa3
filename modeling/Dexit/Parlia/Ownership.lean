import Dexit.Parlia.Agreement
import Dexit.Parlia.Protocol
import Dexit.Staking.Rewards

/-! Which contract owners a block registers. The loop over the receipts runs
once for every transaction that creates a contract, so it pairs every receipt
with the sender of every such transaction. -/

namespace Dexit.Parlia

open Replay List
open Function (update)

section
variable {World : Type}

/-! ## What is issued -/

/-- The registrations issued between two states of a block. -/
def pushesIssued (s t : BlockState World) : List CallMsg :=
  (t.issued.drop s.issued.length).filter fun msg => msg.data.isPush

variable {net : Network World} {p : Node} {header : Header} {mining : Bool} {msg : CallMsg}
  {s t : BlockState World} {val : Address} {tx : Tx} {r : Receipt}

theorem apply_issued (net : Network World) (p : Node) (header : Header) (mining : Bool)
    (msg : CallMsg) (s : BlockState World) :
    (exec (applyTransaction net p header mining msg) s).2.issued = s.issued ++ [msg] ∧
      s.receipts.length ≤ (exec (applyTransaction net p header mining msg) s).2.receipts.length := by
  obtain ⟨received, ⟨e, hrun⟩ | ⟨tx, w, g, logs, -, -, hrun⟩⟩ :=
    apply_cases net p header mining msg s
  · rw [hrun]
    exact ⟨rfl, le_rfl⟩
  · rw [hrun]
    refine ⟨rfl, ?_⟩
    simp [record, BlockState.issue]

/-- The calls for one owner: every receipt is paired with it. -/
def pushesFor (header : Header) (owner : Address) (receipts : List Receipt) : List CallMsg :=
  receipts.map fun r => pushMessage header r.contractAddress owner

section
variable (net p header mining)

theorem pushLoop_issued (owner : Address) (receipts : List Receipt) (s : BlockState World) :
    ∃ t, exec (forEach (fun r : Receipt => swallow (pushOwner net p header mining r.contractAddress
        owner)) receipts) s = (.ok (), t) ∧
      t.issued = s.issued ++ pushesFor header owner receipts ∧
      s.receipts.length ≤ t.receipts.length := by
  induction receipts generalizing s with
  | nil => exact ⟨s, rfl, by simp [pushesFor], le_rfl⟩
  | cons r rest ih =>
    obtain ⟨hissued, hgrows⟩ :=
      apply_issued net p header mining (pushMessage header r.contractAddress owner) s
    obtain ⟨t, hrun, hissued', hgrows'⟩ := ih (exec (pushOwner net p header mining r.contractAddress
      owner) s).2
    refine ⟨t, (exec_bind_ok rfl).trans hrun, ?_, le_trans hgrows hgrows'⟩
    rw [hissued', pushOwner, hissued, append_assoc]
    rfl

theorem pushes_issued (txs : List Tx) (s : BlockState World) :
    ∃ t issued, exec (forEach (pushOwners net p header mining) txs) s = (.ok (), t) ∧
      t.issued = s.issued ++ issued ∧ (∀ msg ∈ issued, msg.data.isPush = true) ∧
      txs.length * s.receipts.length ≤ issued.length ∧ s.receipts.length ≤ t.receipts.length := by
  induction txs generalizing s with
  | nil => exact ⟨s, [], rfl, by simp, by simp, by simp, le_rfl⟩
  | cons tx rest ih =>
    obtain ⟨t, hrun, hissued, hgrows⟩ :=
      pushLoop_issued net p header mining (ownerOf net.pubkeyAddress tx) s.receipts s
    obtain ⟨u, issued, hrun', hissued', hpush, hcount, hgrows'⟩ := ih t
    refine ⟨u, pushesFor header (ownerOf net.pubkeyAddress tx) s.receipts ++ issued,
      (exec_bind_ok hrun).trans hrun', ?_, ?_, ?_, le_trans hgrows hgrows'⟩
    · rw [hissued', hissued, append_assoc]
    · intro msg hmsg
      obtain hmsg | hmsg := mem_append.mp hmsg
      · obtain ⟨r, -, rfl⟩ := mem_map.mp hmsg
        rfl
      · exact hpush msg hmsg
    · have hmono := Nat.mul_le_mul_left rest.length hgrows
      rw [length_append, pushesFor, length_map, length_cons, add_mul, one_mul]
      omega

end

/-- The registrations that a distribution issues are those of its loop. -/
theorem distribution_issued {pushes : List CallMsg}
    (hrun : exec (forEach (pushOwners net p header true) (s.txs.filter Tx.creates)) s = (.ok (), t))
    (hissued : t.issued = s.issued ++ pushes) (hpushes : ∀ msg ∈ pushes, msg.data.isPush = true) :
    pushesIssued s (exec (distributeIncoming net p header mining val) s).2 = pushes := by
  rw [exec_distributeIncoming, hrun, pushesIssued, rewardIfAny]
  split
  · rw [exec_pure, hissued, drop_left, filter_eq_self.mpr hpushes]
  · have hdeposit : (paid net header (net.db.getBalance s.world SystemAddress) t).issued = _ := hissued
    rw [exec_distributeReward, (apply_issued net p header mining _ _).1, hdeposit, append_assoc,
      drop_left, filter_append, filter_eq_self.mpr hpushes]
    exact append_nil pushes

theorem creations_none {txs : List Tx} (h : ∀ tx ∈ txs, tx.creates = false) :
    txs.filter Tx.creates = [] := by
  rw [filter_eq_nil_iff]
  intro tx htx
  simp [h tx htx]

theorem deployments_none {receipts : List Receipt} {txs : List Tx}
    (h : ∀ tx ∈ txs, tx.creates = false) : deployments net header txs receipts = [] := by
  rw [deployments, filter_eq_nil_iff.mpr]
  · rfl
  · intro e he
    simp [h e.1 (of_mem_zip he).1]

theorem deployments_single (hcreates : tx.creates = true) :
    deployments net header [tx] [r] = [(r.contractAddress, deployer net header tx)] := by
  simp [deployments, hcreates]

theorem exec_creation (htxs : s.txs = [tx]) (hr : s.receipts = [r]) (hcreates : tx.creates = true) :
    exec (forEach (pushOwners net p header true) (s.txs.filter Tx.creates)) s =
      (.ok (), (exec (pushOwner net p header true r.contractAddress
        (ownerOf net.pubkeyAddress tx)) s).2) := by
  have hfilter : s.txs.filter Tx.creates = [tx] := by
    simp [htxs, hcreates]
  rw [hfilter, exec_forEach_singleton, pushOwners, exec_bind_ok (exec_reads _ s), hr,
    exec_forEach_singleton]
  rfl

theorem issued_single (htxs : s.txs = [tx]) (hr : s.receipts = [r]) (hcreates : tx.creates = true) :
    pushesIssued s (exec (distributeIncoming net p header mining val) s).2 =
      [pushMessage header r.contractAddress (ownerOf net.pubkeyAddress tx)] := by
  apply distribution_issued (exec_creation htxs hr hcreates)
  · exact (apply_issued net p header true _ s).1
  · simp [pushMessage, getSystemMessage, Calldata.isPush]

/-- The calls are those that are due exactly when there is nothing to register
or the block has a single transaction, whose owner is its sender. -/
theorem issued_due_iff (hlen : s.receipts.length = s.txs.length) :
    pushesIssued s (exec (distributeIncoming net p header mining val) s).2 =
        registrations net header s.txs s.receipts ↔
      (∀ tx ∈ s.txs, tx.creates = false) ∨
        ∃ tx, s.txs = [tx] ∧ ownerOf net.pubkeyAddress tx = deployer net header tx := by
  by_cases hnone : ∀ tx ∈ s.txs, tx.creates = false
  · have hrun : exec (forEach (pushOwners net p header true) (s.txs.filter Tx.creates)) s =
        (.ok (), s) := by
      rw [creations_none hnone]
      rfl
    rw [distribution_issued hrun (append_nil _).symm nofun, registrations, deployments_none hnone]
    exact ⟨fun _ => .inl hnone, fun _ => rfl⟩
  have hsingle : ∀ tx, s.txs = [tx] → tx.creates = true ∧ ∃ r, s.receipts = [r] := by
    intro tx htxs
    refine ⟨?_, single_receipt hlen htxs⟩
    by_contra hcreates
    exact hnone (by simpa [htxs] using hcreates)
  constructor
  · intro heq
    obtain ⟨t, pushes, hrun, hissued, hkind, hcount, -⟩ :=
      pushes_issued net p header true (s.txs.filter Tx.creates) s
    have hcount : (s.txs.filter Tx.creates).length * s.txs.length ≤
        (s.txs.filter Tx.creates).length := by
      rwa [← distribution_issued hrun hissued hkind, heq, length_registrations hlen, hlen] at hcount
    obtain hnone' | ⟨tx, htxs, hcreates⟩ := single_creation hcount
    · exact absurd hnone' hnone
    obtain ⟨-, r, hr⟩ := hsingle tx htxs
    rw [issued_single htxs hr hcreates, registrations, htxs, hr, deployments_single hcreates] at heq
    have hdata := congrArg CallMsg.data (List.cons.inj heq).1
    exact .inr ⟨tx, htxs, (Calldata.pushContractOwner.inj hdata).2⟩
  · rintro (hnone' | ⟨tx, htxs, howner⟩)
    · exact absurd hnone' hnone
    · obtain ⟨hcreates, r, hr⟩ := hsingle tx htxs
      rw [issued_single htxs hr hcreates, registrations, htxs, hr, deployments_single hcreates,
        howner]
      rfl

/-! ## What the contracts record -/

/-- The EVM runs the contracts of the staking model: their storage is part of
the state, the two methods that the engine calls behave as modelled, the gas of
a system message suffices to register an owner, and nothing else that the engine
does touches the register. -/
structure RunsContracts (net : Network World) where
  staking : World → Staking.State
  env : BlockContext → CallMsg → World → Staking.Env
  env_sender : ∀ ctx msg w, (env ctx msg w).sender = msg.sender
  env_value : ∀ ctx msg w, (env ctx msg w).value = msg.value
  env_coinbase : ∀ ctx msg w, (env ctx msg w).coinbase = ctx.coinbase
  push : ∀ {ctx msg w c o t}, msg.recipient = VALIDATOR_CONTRACT_ADDR →
    msg.data = .pushContractOwner c o →
    Staking.pushContractOwner (staking w) (env ctx msg w) c o = .ok t →
    ∃ w' g logs, net.call ctx msg w = .ok (w', g, logs) ∧ staking w' = t
  deposit : ∀ {ctx msg w v contracts w' g logs}, msg.recipient = VALIDATOR_CONTRACT_ADDR →
    msg.data = .deposit v contracts → net.call ctx msg w = .ok (w', g, logs) →
    Staking.deposit (staking w) (env ctx msg w) v contracts = .ok (staking w')
  setNonce : ∀ w a n, (staking (net.db.setNonce w a n)).register = (staking w).register
  setBalance : ∀ w a n, (staking (net.db.setBalance w a n)).register = (staking w).register
  addBalance : ∀ w a n, (staking (net.db.addBalance w a n)).register = (staking w).register
  finalise : ∀ b w, (staking (net.db.finalise b w)).register = (staking w).register
  intermediateRoot : ∀ b w,
    (staking (net.db.intermediateRoot b w).1).register = (staking w).register

namespace RunsContracts
variable (C : RunsContracts net)

def contractsRecord (w : World) : Address → Address := (C.staking w).register.contractsRecord

theorem record_settled (before after : World) :
    C.contractsRecord (settled net header msg before after) = C.contractsRecord after := by
  have hclose : (C.staking (close net header after).1).register = (C.staking after).register := by
    unfold close
    split
    · exact C.finalise _ _
    · exact C.intermediateRoot _ _
  unfold contractsRecord settled
  rw [C.setNonce, hclose]

theorem reward_keeps_record {balance : ℕ} {val : Address} {contAddr : List Address}
    (R : Address → Address) :
    Preserves (fun t : BlockState World => C.contractsRecord t.world = R)
      (rewardIfAny net p header mining balance val contAddr) := by
  intro s hs
  unfold rewardIfAny
  split
  · exact hs
  rw [exec_distributeReward]
  have hpaid : C.contractsRecord (paid net header balance s).world = R := by
    rw [← hs]
    simp only [contractsRecord, paid, payOut, C.addBalance, C.setBalance]
  obtain ⟨received, ⟨e, hrun⟩ | ⟨tx, w, g, logs, -, hcall, hrun⟩⟩ :=
    apply_cases net p header mining (depositMessage header balance val contAddr)
      (paid net header balance s)
  · rw [hrun]
    exact hpaid
  · rw [hrun]
    refine (C.record_settled _ w).trans ?_
    rw [← hpaid]
    exact Staking.deposit_contractsRecord (C.deposit rfl rfl hcall)

theorem push_records {c o : Address} (hp : p.val = header.coinbase)
    (hsigns : ∀ a tx, ∃ tx', p.signTxFn.sign a tx net.chainId = .ok tx') (s : BlockState World) :
    C.contractsRecord (exec (pushOwner net p header true c o) s).2.world =
      update (C.contractsRecord s.world) c o := by
  let msg := pushMessage header c o
  obtain ⟨tx, htx⟩ := hsigns msg.sender (expectedTx net s.world msg)
  have hpush := Staking.pushContractOwner_ok (c := c) (o := o) (s := C.staking s.world).mpr
    ⟨C.env_value (newEVMBlockContext header) msg s.world,
      (C.env_sender _ _ _).trans (C.env_coinbase (newEVMBlockContext header) _ _).symm, rfl⟩
  obtain ⟨w, g, logs, hcall, hw⟩ := C.push rfl rfl hpush
  have hsigned : exec (applyTransaction net p header true msg) s =
      exec (execute net header msg tx) (s.issue msg) := exec_apply_signed ⟨hp.symm, rfl⟩ htx
  have hrun : exec (execute net header msg tx) (s.issue msg) = (.ok (), _) := exec_execute_ok hcall
  rw [pushOwner, hsigned, hrun]
  refine (C.record_settled _ w).trans ?_
  rw [contractsRecord, hw]
  rfl

end RunsContracts

/-- The deployments are on record, and no other entry has changed. -/
def Records (deployed : List (Address × Address)) (before after : Address → Address) : Prop :=
  (∀ e ∈ deployed, after e.1 = e.2) ∧ ∀ c, (∀ e ∈ deployed, e.1 ≠ c) → after c = before c

/-- One registration for every creation, of its own contract for its own sender,
and the record that follows from it. -/
theorem owners_registered_iff {val : Address} (hlen : s.receipts.length = s.txs.length) :
    (pushesIssued s (exec (distributeIncoming net p header mining val) s).2 =
        registrations net header s.txs s.receipts ∧
      ∀ C : RunsContracts net, p.val = header.coinbase →
        (∀ a tx, ∃ tx', p.signTxFn.sign a tx net.chainId = .ok tx') →
        Records (deployments net header s.txs s.receipts) (C.contractsRecord s.world)
          (C.contractsRecord (exec (distributeIncoming net p header mining val) s).2.world)) ↔
      (∀ tx ∈ s.txs, tx.creates = false) ∨
        ∃ tx, s.txs = [tx] ∧ ownerOf net.pubkeyAddress tx = deployer net header tx := by
  constructor
  · rintro ⟨hissued, -⟩
    exact (issued_due_iff hlen).mp hissued
  · intro h
    refine ⟨(issued_due_iff hlen).mpr h, ?_⟩
    intro C hp hsigns
    rw [exec_distributeIncoming]
    by_cases hnone : ∀ tx ∈ s.txs, tx.creates = false
    · rw [deployments_none hnone, creations_none hnone]
      refine ⟨by simp, fun c _ => ?_⟩
      exact congrFun (C.reward_keeps_record _ s rfl) c
    · obtain hnone' | ⟨tx, htxs, howner⟩ := h
      · exact absurd hnone' hnone
      have hcreates : tx.creates = true := by
        by_contra hcreates
        exact hnone (by simpa [htxs] using hcreates)
      obtain ⟨r, hr⟩ := single_receipt hlen htxs
      rw [exec_creation htxs hr hcreates]
      have hrecord : C.contractsRecord (exec (rewardIfAny net p header mining
          (net.db.getBalance s.world SystemAddress) val (calledContracts s.txs))
          (exec (pushOwner net p header true r.contractAddress
            (ownerOf net.pubkeyAddress tx)) s).2).2.world = update (C.contractsRecord s.world) _ _ :=
        C.reward_keeps_record _ _ (C.push_records hp hsigns s)
      rw [hrecord, htxs, hr, deployments_single hcreates, howner]
      refine ⟨by simp, fun c hc => ?_⟩
      exact Function.update_of_ne (Ne.symm (hc _ mem_cons_self)) _ _

end

/-! ## A chain with the contracts -/

structure ContractWorld where
  nonce : Address → UInt64
  balance : Address → ℕ
  staking : Staking.State

def contractEnv (ctx : BlockContext) (msg : CallMsg) : Staking.Env where
  sender := msg.sender
  value := msg.value
  coinbase := ctx.coinbase
  number := ctx.blockNumber
  timestamp := ctx.time.toNat

/-- The outcome of a method as the EVM reports it. -/
def returned (w : ContractWorld) (r : Solidity.Result Staking.State) :
    Except Err (ContractWorld × UInt64 × List Log) :=
  match r with
  | .ok t => .ok ({ w with staking := t }, systemGas - 50000, [])
  | .error _ => .error .failedCall

def contractCall (ctx : BlockContext) (msg : CallMsg) (w : ContractWorld) :
    Except Err (ContractWorld × UInt64 × List Log) :=
  match msg.data with
  | .pushContractOwner c o =>
    returned w (Staking.pushContractOwner w.staking (contractEnv ctx msg) c o)
  | .deposit v contracts => returned w (Staking.deposit w.staking (contractEnv ctx msg) v contracts)
  | _ => .ok (w, systemGas, [])

/-- A legacy transaction is signed by the address that its nonce names. -/
def signerOf : SigHash → Address
  | .replayProtected nonce _ _ _ _ _ _ => Fin.ofNat (2 ^ 160) nonce.toNat
  | _ => 0

def contractsNet : Network ContractWorld where
  chainId := 56
  parlia := plainConfig
  isByzantium _ := true
  isEIP158 _ := true
  signer _ := .EIP155Signer 56
  pubkeyAddress hash _ _ _ := some (signerOf hash)
  db := {
    getNonce := fun w a => w.nonce a
    setNonce := fun w a n => { w with nonce := update w.nonce a n }
    getBalance := fun w a => w.balance a
    setBalance := fun w a n => { w with balance := update w.balance a n }
    addBalance := fun w a n => { w with balance := update w.balance a (w.balance a + n) }
    finalise := fun _ w => w
    intermediateRoot := fun _ w => (w, 0) }
  call := contractCall
  chain := noChain
  getCurrentValidators _ := .ok [1]
  nextForkHash _ := noFork

def contractsNet_runs : RunsContracts contractsNet where
  staking w := w.staking
  env ctx msg _ := contractEnv ctx msg
  env_sender _ _ _ := rfl
  env_value _ _ _ := rfl
  env_coinbase _ _ _ := rfl
  push := by
    intro ctx msg w c o t _ hdata hpush
    refine ⟨{ w with staking := t }, systemGas - 50000, [], ?_, rfl⟩
    simp only [contractsNet, contractCall, hdata, hpush, returned]
  deposit := by
    intro ctx msg w v contracts w' g logs _ hdata hcall
    simp only [contractsNet, contractCall, hdata] at hcall
    cases hdep : Staking.deposit w.staking (contractEnv ctx msg) v contracts with
    | error e =>
      rw [hdep] at hcall
      cases hcall
    | ok t =>
      rw [hdep] at hcall
      cases hcall
      rfl
  setNonce _ _ _ := rfl
  setBalance _ _ _ := rfl
  addBalance _ _ _ := rfl
  finalise _ _ := rfl
  intermediateRoot _ _ := rfl

def creationBy (sender : UInt64) : Tx := { creation with nonce := sender }

def receiptOf (tx : Tx) (contract : Address) : Receipt where
  postState := none
  cumulativeGasUsed := 100000
  txHash := tx
  gasUsed := 100000
  logs := []
  blockNumber := 2
  transactionIndex := 0
  contractAddress := contract

/-- A block in which the senders created one contract each. -/
def created (creations : List (UInt64 × Address)) : BlockState ContractWorld where
  world := ⟨fun _ => 0, fun a => if a = SystemAddress then 100000 else 0, Staking.postInit⟩
  txs := creations.map fun e => creationBy e.1
  receipts := creations.map fun e => receiptOf (creationBy e.1) e.2
  receivedTxs := none
  usedGas := 100000
  issued := []

/-- The contract of a block with nothing else in it is registered as it should. -/
theorem one_creation_registered :
    Records [(0x42, 7)] (fun _ => 0) (contractsNet_runs.contractsRecord
      (exec (distributeIncoming contractsNet proposer secondHeader true 1)
        (created [(7, 0x42)])).2.world) := by
  have hdue := (@owners_registered_iff ContractWorld contractsNet proposer secondHeader true
    (created [(7, 0x42)]) 1 rfl).mpr (.inr ⟨_, rfl, rfl⟩)
  exact hdue.2 contractsNet_runs rfl fun _ _ => ⟨_, rfl⟩

/-- Two contracts of two senders: six calls are issued where two are due, and
the first contract ends up with the second sender. -/
theorem two_creations_misregistered :
    let s := created [(7, 0x42), (8, 0x43)]
    let t := (exec (distributeIncoming contractsNet proposer secondHeader true 1) s).2
    deployments contractsNet secondHeader s.txs s.receipts = [(0x42, 7), (0x43, 8)] ∧
    (pushesIssued s t).map CallMsg.data =
      [.pushContractOwner 0x42 7, .pushContractOwner 0x43 7, .pushContractOwner 0x42 8,
        .pushContractOwner 0x43 8, .pushContractOwner 0 8, .pushContractOwner 0 8] ∧
    contractsNet_runs.contractsRecord t.world 0x42 = 8 ∧
    contractsNet_runs.contractsRecord t.world 0 = 8 ∧
    ¬ Records (deployments contractsNet secondHeader s.txs s.receipts)
      (contractsNet_runs.contractsRecord s.world) (contractsNet_runs.contractsRecord t.world) := by
  refine ⟨rfl, rfl, rfl, rfl, ?_⟩
  rintro ⟨hrecord, -⟩
  have hwrong : (8 : Address) = 7 := hrecord (0x42, 7) mem_cons_self
  revert hwrong
  decide

end Dexit.Parlia
