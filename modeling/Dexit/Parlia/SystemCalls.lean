import Dexit.Parlia.Engine

/-! What one system message does to a block under construction: a node that
signs appends its own transaction, a node that verifies takes the next one
received, and a message that fails leaves the block as it was. -/

namespace Dexit.Parlia

open Replay

def Calldata.isPush : Calldata → Bool
  | pushContractOwner _ _ => true
  | _ => false

def Calldata.isDeposit : Calldata → Bool
  | deposit _ _ => true
  | _ => false

section
variable {World : Type}

namespace BlockState
variable (msg : CallMsg) (rest : List Tx) (s : BlockState World)

def issue : BlockState World := { s with issued := s.issued ++ [msg] }

/-- The state of a node that received the given system transactions. -/
def feed : BlockState World := { s with receivedTxs := some rest }

@[simp] theorem issue_world : (s.issue msg).world = s.world := rfl

@[simp] theorem issue_txs : (s.issue msg).txs = s.txs := rfl

@[simp] theorem issue_receivedTxs : (s.issue msg).receivedTxs = s.receivedTxs := rfl

@[simp] theorem feed_txs : (s.feed rest).txs = s.txs := rfl

end BlockState

variable {net : Network World} {p : Node} {header : Header} {snap : Snapshot} {mining : Bool}
  {msg : CallMsg} {s : BlockState World} {tx : Tx}

/-! ## Running a message -/

/-- The EVM runs the message without an error. -/
def Runs (net : Network World) (header : Header) (world : World) (msg : CallMsg) : Prop :=
  ∃ r, net.call (newEVMBlockContext header) msg world = .ok r

/-- The received transaction is the one that the message stands for. -/
def Matches (net : Network World) (world : World) (msg : CallMsg) (tx : Tx) : Prop :=
  tx.eip155Hash net.chainId = (expectedTx net world msg).eip155Hash net.chainId

instance (world : World) (msg : CallMsg) (tx : Tx) : Decidable (Matches net world msg tx) :=
  inferInstanceAs (Decidable (_ = _))

variable {world : World} {e : Err} {t : BlockState World} {val : Address}

/-- A transaction stands for one message of a sender. -/
theorem Matches.message_eq {msg' : CallMsg} (h : Matches net world msg tx)
    (h' : Matches net world msg' tx) (hsender : msg'.sender = msg.sender) : msg' = msg := by
  have heq := h'.symm.trans h
  simp only [expectedTx, Tx.newTransaction, Tx.eip155Hash, SigHash.replayProtected.injEq,
    Option.some.injEq] at heq
  cases msg'
  simp_all

theorem Matches.data (h : Matches net world msg tx) : tx.data = msg.data := by
  have heq : tx.eip155Hash net.chainId = (expectedTx net world msg).eip155Hash net.chainId := h
  simp only [expectedTx, Tx.newTransaction, Tx.eip155Hash, SigHash.replayProtected.injEq] at heq
  exact heq.2.2.2.2.2.1

theorem sign_matches {a : Address}
    (h : p.signTxFn.sign a (expectedTx net world msg) net.chainId = .ok tx) :
    Matches net world msg tx := by
  obtain ⟨v, r, s, rfl⟩ := p.signTxFn.keeps h
  rfl

theorem exec_execute_ok {w : World} {g : UInt64} {logs : List Log}
    (h : net.call (newEVMBlockContext header) msg s.world = .ok (w, g, logs)) :
    exec (execute net header msg tx) s = (.ok (), record net header msg tx s w g logs) := by
  unfold execute
  rw [exec_bind_ok (exec_reads _ s), h]
  rfl

theorem exec_execute_error (h : net.call (newEVMBlockContext header) msg s.world = .error e) :
    exec (execute net header msg tx) s = (.error e, s) := by
  unfold execute
  rw [exec_bind_ok (exec_reads _ s), h]
  rfl

/-- Either the call fails and nothing happens, or it is recorded. -/
theorem execute_cases (net : Network World) (header : Header) (msg : CallMsg) (tx : Tx)
    (s : BlockState World) :
    (∃ e, exec (execute net header msg tx) s = (.error e, s) ∧ ¬ Runs net header s.world msg) ∨
      ∃ w g logs, net.call (newEVMBlockContext header) msg s.world = .ok (w, g, logs) ∧
        exec (execute net header msg tx) s = (.ok (), record net header msg tx s w g logs) := by
  cases h : net.call (newEVMBlockContext header) msg s.world with
  | error e =>
    refine .inl ⟨e, exec_execute_error h, ?_⟩
    rintro ⟨r, hr⟩
    rw [h] at hr
    cases hr
  | ok r =>
    obtain ⟨w, g, logs⟩ := r
    exact .inr ⟨w, g, logs, rfl, exec_execute_ok h⟩

/-- Running a message does not look at what was received. -/
theorem execute_shadows (rest : List Tx) :
    Shadows (BlockState.feed rest) (execute net header msg tx) (execute net header msg tx) := by
  intro s
  cases hcall : net.call (newEVMBlockContext header) msg s.world with
  | error e =>
    rw [exec_execute_error hcall]
    exact exec_execute_error hcall
  | ok r =>
    rw [exec_execute_ok hcall]
    exact exec_execute_ok hcall

/-! ## Obtaining the transaction -/

/-- Either the next transaction received stands for the message or none does. -/
theorem next_cases (net : Network World) (msg : CallMsg) (s : BlockState World) :
    (∃ tx rest, s.receivedTxs = some (tx :: rest) ∧ Matches net s.world msg tx) ∨
      ∀ tx ∈ (s.receivedTxs.getD []).head?, ¬ Matches net s.world msg tx := by
  by_cases h : ∃ tx rest, s.receivedTxs = some (tx :: rest) ∧ Matches net s.world msg tx
  · exact .inl h
  refine .inr fun tx htx hm => ?_
  cases hr : s.receivedTxs with
  | none => simp [hr] at htx
  | some received =>
    cases received with
    | nil => simp [hr] at htx
    | cons next rest =>
      rw [hr] at htx
      cases htx
      exact h ⟨tx, rest, hr, hm⟩

theorem exec_apply (r : Except Err Tx)
    (h : exec (obtainTx net p mining msg) (s.issue msg) = (r, t)) :
    exec (applyTransaction net p header mining msg) s =
      match r with
      | .ok tx => exec (execute net header msg tx) t
      | .error e => (.error e, t) := by
  have hissue : exec (writes fun s : BlockState World => { s with issued := s.issued ++ [msg] } :
      Engine World Unit) s = (.ok (), s.issue msg) := rfl
  unfold applyTransaction
  rw [exec_bind_ok hissue]
  cases r with
  | ok tx => rw [exec_bind_ok h]
  | error e => rw [exec_bind_error h]

section
variable (hsign : msg.sender = p.val ∧ mining = true)
include hsign

theorem exec_obtain_own {r : Except Err Tx}
    (h : p.signTxFn.sign msg.sender (expectedTx net s.world msg) net.chainId = r) :
    exec (obtainTx net p mining msg) (s.issue msg) = (r, s.issue msg) := by
  unfold obtainTx
  rw [exec_bind_ok (exec_reads _ _), exec_bind_ok (exec_reads _ _), if_pos hsign,
    BlockState.issue_world, h]
  cases r <;> rfl

theorem exec_apply_signed
    (h : p.signTxFn.sign msg.sender (expectedTx net s.world msg) net.chainId = .ok tx) :
    exec (applyTransaction net p header mining msg) s =
      exec (execute net header msg tx) (s.issue msg) :=
  exec_apply (.ok tx) (exec_obtain_own hsign h)

theorem exec_apply_unsigned
    (h : p.signTxFn.sign msg.sender (expectedTx net s.world msg) net.chainId = .error e) :
    exec (applyTransaction net p header mining msg) s = (.error e, s.issue msg) :=
  exec_apply (.error e) (exec_obtain_own hsign h)

end

section
variable (hsign : ¬ (msg.sender = p.val ∧ mining = true))
include hsign

theorem exec_apply_taken {rest : List Tx} (hnext : s.receivedTxs = some (tx :: rest))
    (h : Matches net s.world msg tx) :
    exec (applyTransaction net p header mining msg) s =
      exec (execute net header msg tx) ((s.issue msg).feed rest) := by
  refine exec_apply (.ok tx) ?_
  unfold obtainTx
  rw [exec_bind_ok (exec_reads _ _), exec_bind_ok (exec_reads _ _), if_neg hsign]
  have hpos : tx.eip155Hash net.chainId =
      (expectedTx net (s.issue msg).world msg).eip155Hash net.chainId := h
  rw [BlockState.issue_receivedTxs, hnext]
  simp only
  rw [if_pos hpos]
  rfl

theorem exec_apply_refused
    (h : ∀ tx ∈ (s.receivedTxs.getD []).head?, ¬ Matches net s.world msg tx) :
    ∃ e, exec (applyTransaction net p header mining msg) s = (.error e, s.issue msg) := by
  suffices hobtain : ∃ e, exec (obtainTx net p mining msg) (s.issue msg) =
      (.error e, s.issue msg) by
    obtain ⟨e, he⟩ := hobtain
    exact ⟨e, exec_apply (.error e) he⟩
  unfold obtainTx
  rw [exec_bind_ok (exec_reads _ _), exec_bind_ok (exec_reads _ _), if_neg hsign]
  rw [BlockState.issue_receivedTxs]
  cases hr : s.receivedTxs with
  | none => exact ⟨_, rfl⟩
  | some received =>
    cases received with
    | nil => exact ⟨_, rfl⟩
    | cons tx rest =>
      rw [hr] at h
      have hneg : tx.eip155Hash net.chainId ≠
        (expectedTx net (s.issue msg).world msg).eip155Hash net.chainId := h tx rfl
      simp only
      rw [if_neg hneg]
      exact ⟨_, rfl⟩

/-- A verifier that gets through a message has taken the next transaction. -/
theorem apply_taken_of_ok (h : exec (applyTransaction net p header mining msg) s = (.ok (), t)) :
    ∃ tx rest, s.receivedTxs = some (tx :: rest) ∧ Matches net s.world msg tx ∧
      t.receivedTxs = some rest := by
  obtain ⟨tx, rest, hnext, hm⟩ | hnone := next_cases net msg s
  · refine ⟨tx, rest, hnext, hm, ?_⟩
    rw [exec_apply_taken hsign hnext hm] at h
    obtain ⟨e, hrun, -⟩ | ⟨w, g, logs, -, hrun⟩ :=
      execute_cases net header msg tx ((s.issue msg).feed rest)
    · rw [hrun] at h
      cases h
    · rw [hrun] at h
      cases h
      rfl
  · obtain ⟨e, he⟩ : ∃ e, exec (applyTransaction net p header mining msg) s =
        (.error e, s.issue msg) := exec_apply_refused hsign hnone
    rw [he] at h
    cases h

end

/-! ## The reward -/

/-- The rewards have left the system address. -/
def payOut (net : Network World) (header : Header) (balance : ℕ) (world : World) : World :=
  net.db.addBalance (net.db.setBalance world SystemAddress 0) header.coinbase balance

def paid (net : Network World) (header : Header) (balance : ℕ) (s : BlockState World) :
    BlockState World :=
  { s with world := payOut net header balance s.world }

theorem exec_distributeReward {balance : ℕ} {contAddr : List Address} :
    exec (distributeReward net p header mining balance val contAddr) s =
      exec (applyTransaction net p header mining (depositMessage header balance val contAddr))
        (paid net header balance s) :=
  exec_bind_ok (exec_writes _ s)

/-! ## The steps of a block -/

theorem pushes_run (txs : List Tx) (s : BlockState World) :
    exec (forEach (pushOwners net p header mining) txs) s =
      (.ok (), (exec (forEach (pushOwners net p header mining) txs) s).2) := by
  apply exec_forEach_ok
  intro tx s
  unfold pushOwners
  rw [exec_bind_ok (exec_reads _ s), exec_forEach_ok (fun _ _ => rfl)]

theorem exec_distributeIncoming :
    exec (distributeIncoming net p header mining val) s =
      exec (rewardIfAny net p header mining (net.db.getBalance s.world SystemAddress) val
        (calledContracts s.txs))
        (exec (forEach (pushOwners net p header true) (s.txs.filter Tx.creates)) s).2 := by
  unfold distributeIncoming
  rw [exec_bind_ok (exec_reads _ s), exec_bind_ok (exec_reads _ s), exec_bind_ok (pushes_run _ s)]

theorem exec_finalize {u : BlockState World} (hepoch : checkEpoch net header = .ok ()) :
    exec (finalize net p header snap) s = (.ok (), u) ↔
      exec (systemCalls net p header false snap header.coinbase) s = (.ok (), u) ∧
        u.receivedTxs.getD [] = [] := by
  have hcheck : exec (lifts (checkEpoch net header) : Engine World Unit) s = (.ok (), s) := by
    rw [hepoch]
    rfl
  unfold finalize
  rw [exec_bind_ok hcheck]
  cases hrun : exec (systemCalls net p header false snap header.coinbase) s with
  | mk r v =>
    cases r with
    | error e =>
      rw [exec_bind_error hrun]
      simp
    | ok _ =>
      rw [exec_bind_ok hrun, exec_bind_ok (exec_reads _ v)]
      by_cases hnil : v.receivedTxs.getD [] = []
      · rw [if_pos hnil]
        constructor
        · intro h
          cases h
          exact ⟨rfl, hnil⟩
        · rintro ⟨h, -⟩
          cases h
          rfl
      · rw [if_neg hnil]
        constructor
        · intro h
          cases h
        · rintro ⟨h, hu⟩
          cases h
          exact absurd hu hnil

/-! ## The transactions that are appended -/

/-- What a message does in any node: it is noted, and then it either fails and
changes nothing but the transactions still to come, or it is recorded. -/
theorem apply_cases (net : Network World) (p : Node) (header : Header) (mining : Bool)
    (msg : CallMsg) (s : BlockState World) :
    ∃ received, (∃ e, exec (applyTransaction net p header mining msg) s =
        (.error e, { s.issue msg with receivedTxs := received })) ∨
      ∃ tx w g logs, Matches net s.world msg tx ∧
        net.call (newEVMBlockContext header) msg s.world = .ok (w, g, logs) ∧
        exec (applyTransaction net p header mining msg) s =
          (.ok (), record net header msg tx { s.issue msg with receivedTxs := received } w g
            logs) := by
  by_cases hsign : msg.sender = p.val ∧ mining = true
  · refine ⟨s.receivedTxs, ?_⟩
    cases h : p.signTxFn.sign msg.sender (expectedTx net s.world msg) net.chainId with
    | error e => exact .inl ⟨e, exec_apply_unsigned hsign h⟩
    | ok tx =>
      rw [exec_apply_signed hsign h]
      obtain ⟨e, hrun, -⟩ | ⟨w, g, logs, hcall, hrun⟩ :=
        execute_cases net header msg tx (s.issue msg)
      · exact .inl ⟨e, hrun⟩
      · exact .inr ⟨tx, w, g, logs, sign_matches h, hcall, hrun⟩
  · obtain ⟨tx, rest, hnext, hm⟩ | hnone := next_cases net msg s
    · refine ⟨some rest, ?_⟩
      rw [exec_apply_taken hsign hnext hm]
      obtain ⟨e, hrun, -⟩ | ⟨w, g, logs, hcall, hrun⟩ :=
        execute_cases net header msg tx ((s.issue msg).feed rest)
      · exact .inl ⟨e, hrun⟩
      · exact .inr ⟨tx, w, g, logs, hm, hcall, hrun⟩
    · exact ⟨s.receivedTxs, .inl (exec_apply_refused hsign hnone)⟩

/-- A system transaction carries the data of its message. -/
theorem apply_appends (net : Network World) (p : Node) (header : Header) (mining : Bool)
    (msg : CallMsg) :
    Appends BlockState.txs (fun tx => tx.data = msg.data)
      (applyTransaction net p header mining msg) := by
  intro s
  obtain ⟨received, ⟨e, hrun⟩ | ⟨tx, w, g, logs, hm, -, hrun⟩⟩ :=
    apply_cases net p header mining msg s
  · rw [hrun]
    exact ⟨[], by simp, by simp⟩
  · rw [hrun]
    refine ⟨[tx], rfl, ?_⟩
    simpa using hm.data

end

end Dexit.Parlia
