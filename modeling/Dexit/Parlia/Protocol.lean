import Dexit.Parlia.SystemCalls

/-! Which system transactions the protocol prescribes for a block: the messages
that are due, each present unless it would fail. -/

namespace Dexit.Parlia

open List

section
variable {World : Type}

/-! ## Messages that are due -/

def dueInits (header : Header) : List CallMsg :=
  if header.number = 1 then initContracts.map (initMessage header) else []

def dueSlash (header : Header) (snap : Snapshot) : List CallMsg :=
  if header.difficulty = diffInTurn then []
  else
    match snap.supposeValidator with
    | .error _ => []
    | .ok spoiledVal =>
      if snap.signedRecently spoiledVal then [] else [slashMessage header spoiledVal]

/-- The sender of a transaction under the rules of the block. -/
def deployer (net : Network World) (header : Header) (tx : Tx) : Address :=
  ((net.signer header.number).sender net.pubkeyAddress tx).getD 0

/-- A created contract, from the receipt of the transaction, with its deployer. -/
def deployments (net : Network World) (header : Header) (txs : List Tx)
    (receipts : List Receipt) : List (Address × Address) :=
  ((txs.zip receipts).filter fun e => e.1.creates).map fun e =>
    (e.2.contractAddress, deployer net header e.1)

def registrations (net : Network World) (header : Header) (txs : List Tx)
    (receipts : List Receipt) : List CallMsg :=
  (deployments net header txs receipts).map fun e => pushMessage header e.1 e.2

def dueDeposit (header : Header) (balance : ℕ) (txs : List Tx) : List CallMsg :=
  if balance = 0 then []
  else [depositMessage header balance header.coinbase (calledContracts txs)]

/-! ## Transactions that stand for them -/

/-- The state and the transactions of a block so far. -/
@[ext] structure Stage (World : Type) where
  world : World
  txs : List Tx

def BlockState.stage (b : BlockState World) : Stage World := ⟨b.world, b.txs⟩

/-- A transaction is executed; one that fails leaves no trace. -/
def Stage.take (net : Network World) (header : Header) (msg : CallMsg) (tx : Tx)
    (s : Stage World) : Stage World :=
  match net.call (newEVMBlockContext header) msg s.world with
  | .error _ => s
  | .ok (world, _, _) => ⟨settled net header msg s.world world, s.txs ++ [tx]⟩

def Stage.pay (net : Network World) (header : Header) (balance : ℕ) (s : Stage World) :
    Stage World :=
  ⟨payOut net header balance s.world, s.txs⟩

/-- The transactions stand for the messages, in order; a message may be absent
only if it fails where its turn comes. -/
inductive Follows (net : Network World) (header : Header) :
    Stage World → List CallMsg → List Tx → Stage World → Prop
  | done (s : Stage World) : Follows net header s [] [] s
  | present {s t : Stage World} {msg : CallMsg} {msgs : List CallMsg} {tx : Tx} {txs : List Tx} :
      Matches net s.world msg tx → Follows net header (s.take net header msg tx) msgs txs t →
      Follows net header s (msg :: msgs) (tx :: txs) t
  | absent {s t : Stage World} {msg : CallMsg} {msgs : List CallMsg} {txs : List Tx} :
      ¬ Runs net header s.world msg → Follows net header s msgs txs t →
      Follows net header s (msg :: msgs) txs t

/-- The system transactions of a block are those that the protocol prescribes
after the common transactions. -/
def Prescribed (net : Network World) (header : Header) (snap : Snapshot) (b : BlockState World)
    (systemTxs : List Tx) : Prop :=
  ∃ inits slashes registered deposits s₁ s₂ s₃ s₄,
    systemTxs = inits ++ (slashes ++ (registered ++ deposits)) ∧
    Follows net header b.stage (dueInits header) inits s₁ ∧
    Follows net header s₁ (dueSlash header snap) slashes s₂ ∧
    Follows net header s₂ (registrations net header b.txs b.receipts) registered s₃ ∧
    Follows net header (s₃.pay net header (net.db.getBalance s₂.world SystemAddress))
      (dueDeposit header (net.db.getBalance s₂.world SystemAddress) s₂.txs) deposits s₄

variable {net : Network World} {header : Header} {snap : Snapshot} {s t : Stage World}
  {msgs : List CallMsg} {txs : List Tx} {msg : CallMsg}

theorem Stage.take_of_fails (h : ¬ Runs net header s.world msg) (tx : Tx) :
    s.take net header msg tx = s := by
  unfold Stage.take
  cases hcall : net.call (newEVMBlockContext header) msg s.world with
  | error e => rfl
  | ok r => exact absurd ⟨r, hcall⟩ h

theorem Follows.of_absent (h : ∀ msg ∈ msgs, ¬ Runs net header s.world msg) :
    Follows net header s msgs [] s := by
  induction msgs with
  | nil => exact .done s
  | cons msg rest ih =>
    apply Follows.absent (h msg mem_cons_self)
    apply ih
    intro m hm
    exact h m (mem_cons_of_mem _ hm)

theorem Follows.append {u : Stage World} {msgs' : List CallMsg} {txs' : List Tx}
    (h : Follows net header s msgs txs t) (h' : Follows net header t msgs' txs' u) :
    Follows net header s (msgs ++ msgs') (txs ++ txs') u := by
  induction h with
  | done => exact h'
  | present hm _ ih => exact .present hm (ih h')
  | absent hno _ ih => exact .absent hno (ih h')

/-- Where none of them is present, every message fails. -/
theorem Follows.none_taken (h : Follows net header s msgs txs t)
    (hdata : ∀ tx ∈ txs, ∀ msg ∈ msgs, tx.data ≠ msg.data) :
    txs = [] ∧ t = s ∧ ∀ msg ∈ msgs, ¬ Runs net header s.world msg := by
  induction h with
  | done => exact ⟨rfl, rfl, by simp⟩
  | present hm => exact absurd hm.data (hdata _ mem_cons_self _ mem_cons_self)
  | absent hno _ ih =>
    obtain ⟨hnil, heq, hrest⟩ := ih fun tx htx msg hmsg => hdata tx htx msg (mem_cons_of_mem _ hmsg)
    exact ⟨hnil, heq, forall_mem_cons.mpr ⟨hno, hrest⟩⟩

theorem Follows.length_le (h : Follows net header s msgs txs t) : txs.length ≤ msgs.length := by
  induction h with
  | done => exact le_rfl
  | present _ _ ih => exact Nat.succ_le_succ ih
  | absent _ _ ih => exact Nat.le_succ_of_le ih

theorem Follows.data_mem (h : Follows net header s msgs txs t) :
    ∀ tx ∈ txs, ∃ msg ∈ msgs, tx.data = msg.data := by
  induction h with
  | done => simp
  | present hm _ ih =>
    intro tx htx
    cases htx with
    | head => exact ⟨_, mem_cons_self, hm.data⟩
    | tail _ htx =>
      obtain ⟨msg, hmsg, hdata⟩ := ih tx htx
      exact ⟨msg, mem_cons_of_mem _ hmsg, hdata⟩
  | absent _ _ ih =>
    intro tx htx
    obtain ⟨msg, hmsg, hdata⟩ := ih tx htx
    exact ⟨msg, mem_cons_of_mem _ hmsg, hdata⟩

/-! ## Kinds of messages -/

theorem dueInits_data (h : msg ∈ dueInits header) : msg.data = .init := by
  unfold dueInits at h
  split at h
  · obtain ⟨c, -, rfl⟩ := mem_map.mp h
    rfl
  · cases h

theorem dueSlash_data (h : msg ∈ dueSlash header snap) : ∃ a, msg = slashMessage header a := by
  unfold dueSlash at h
  split at h
  · cases h
  split at h
  · cases h
  · split at h
    · cases h
    · exact ⟨_, mem_singleton.mp h⟩

theorem registrations_data {receipts : List Receipt}
    (h : msg ∈ registrations net header txs receipts) : ∃ c o, msg = pushMessage header c o := by
  obtain ⟨e, -, rfl⟩ := mem_map.mp h
  exact ⟨e.1, e.2, rfl⟩

theorem dueDeposit_data {balance : ℕ} (h : msg ∈ dueDeposit header balance txs) :
    msg = depositMessage header balance header.coinbase (calledContracts txs) := by
  unfold dueDeposit at h
  split at h
  · cases h
  · exact mem_singleton.mp h

/-- One registration for every transaction that creates a contract. -/
theorem length_registrations {receipts : List Receipt} (h : receipts.length = txs.length) :
    (registrations net header txs receipts).length = (txs.filter Tx.creates).length := by
  have hfst : (txs.zip receipts).map Prod.fst = txs := map_fst_zip h.ge
  have hfilter : ((txs.zip receipts).map Prod.fst).filter Tx.creates =
      ((txs.zip receipts).filter fun e => e.1.creates).map Prod.fst := filter_map
  rw [hfst] at hfilter
  rw [hfilter, registrations, deployments]
  simp only [length_map]

theorem single_receipt {receipts : List Receipt} {tx : Tx} (h : receipts.length = txs.length)
    (htxs : txs = [tx]) : ∃ r, receipts = [r] := by
  apply length_eq_one_iff.mp
  rw [h, htxs]
  rfl

/-- With a call for every creation and every receipt, one call for every
creation leaves room for a single transaction. -/
theorem single_creation (h : (txs.filter Tx.creates).length * txs.length ≤
    (txs.filter Tx.creates).length) :
    (∀ tx ∈ txs, tx.creates = false) ∨ ∃ tx, txs = [tx] ∧ tx.creates = true := by
  by_cases hnone : txs.filter Tx.creates = []
  · refine .inl fun tx htx => ?_
    simpa using filter_eq_nil_iff.mp hnone tx htx
  have hpos : 0 < (txs.filter Tx.creates).length := length_pos_iff.mpr hnone
  have hle : txs.length ≤ 1 := by
    apply Nat.le_of_mul_le_mul_left _ hpos
    rwa [mul_one]
  cases txs with
  | nil => exact absurd rfl hnone
  | cons tx rest =>
    cases rest with
    | cons other rest => simp at hle
    | nil =>
      refine .inr ⟨tx, rfl, ?_⟩
      by_contra hcreates
      exact hnone (by simp [hcreates])

end

end Dexit.Parlia
