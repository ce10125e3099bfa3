import Dexit.Miner.GasPool

/-!
# The gas of the system transactions

The miner keeps a constant amount of gas back. How many system calls a block
ends with depends on its transactions: one call registers an owner for every
receipt there is, once for every contract that was created, and each of these
calls adds a receipt itself.
-/

namespace Dexit.Miner

open Parlia Replay Types

/-- How much gas a call of each kind takes at most. -/
structure SystemCosts where
  init : ℕ
  slash : ℕ
  push : ℕ
  deposit : ℕ

def SystemCosts.of (c : SystemCosts) : Calldata → ℕ
  | .init => c.init
  | .slash _ => c.slash
  | .pushContractOwner _ _ => c.push
  | .deposit _ _ => c.deposit
  -- the engine packs nothing else, so nothing is assumed
  | .raw _ => 2 ^ 64

section
variable {World : Type}

/-- The messages that the engine sends in a block: it initialises its contracts,
slashes the validator whose turn it was, registers owners, and deposits for `val`,
with at most `n` called contracts. -/
inductive SystemMessage (header : Header) (snap : Snapshot) (val : Address) (n : ℕ) :
    CallMsg → Prop
  | init {a : Address} (h : a ∈ initContracts) :
      SystemMessage header snap val n (initMessage header a)
  | slash {v : Address} (h : snap.supposeValidator = .ok v) :
      SystemMessage header snap val n (slashMessage header v)
  | push (contract owner : Address) :
      SystemMessage header snap val n (pushMessage header contract owner)
  | deposit (amount : ℕ) {contAddr : List Address} (h : contAddr.length ≤ n) :
      SystemMessage header snap val n (depositMessage header amount val contAddr)

/-- In the states of `Inv` the engine's messages take no more gas than `c` says,
and neither they nor the payout of the fees lead out of these states. -/
structure Bounded (net : Network World) (header : Header) (snap : Snapshot) (val : Address) (n : ℕ)
    (Inv : World → Prop) (c : SystemCosts) : Prop where
  gas : ∀ {msg world w g logs}, SystemMessage header snap val n msg → Inv world →
    net.call (newEVMBlockContext header) msg world = .ok (w, g, logs) →
    (msg.gas - g).toNat ≤ c.of msg.data
  kept : ∀ {msg world w g logs}, SystemMessage header snap val n msg → Inv world →
    net.call (newEVMBlockContext header) msg world = .ok (w, g, logs) →
    Inv (settled net header msg world w)
  paid : ∀ {world balance}, Inv world → Inv (payOut net header balance world)

/-- From `s` to `t` at most `k` gas was used and `n` transactions with their
receipts were added, none of which creates a contract. -/
structure Within (Inv : World → Prop) (k n : ℕ) (s t : BlockState World) : Prop where
  inv : Inv t.world
  gas : t.usedGas.toNat ≤ s.usedGas.toNat + k
  receipts : t.receipts.length ≤ s.receipts.length + n
  txs : t.txs.length ≤ s.txs.length + n
  created : t.txs.filter Tx.creates = s.txs.filter Tx.creates

variable {net : Network World} {p : Node} {header : Header} {snap : Snapshot} {mining : Bool}
  {msg : CallMsg} {Inv : World → Prop} {c : SystemCosts} {s t u : BlockState World}
  {k l m n N : ℕ} {val : Address}

namespace Within

theorem refl (h : Inv s.world) : Within Inv 0 0 s s := ⟨h, le_rfl, le_rfl, le_rfl, rfl⟩

theorem trans (h : Within Inv k m s t) (h' : Within Inv l n t u) :
    Within Inv (k + l) (m + n) s u where
  inv := h'.inv
  gas := by have := h.gas; have := h'.gas; omega
  receipts := by have := h.receipts; have := h'.receipts; omega
  txs := by have := h.txs; have := h'.txs; omega
  created := h'.created.trans h.created

theorem mono (h : Within Inv k m s t) (hk : k ≤ l) (hm : m ≤ n) : Within Inv l n s t where
  inv := h.inv
  gas := by have := h.gas; omega
  receipts := by have := h.receipts; omega
  txs := by have := h.txs; omega
  created := h.created

/-- An error of the first part ends the run. -/
theorem bind {α : Type} {x : Engine World α} {f : α → Engine World Unit}
    (h : Within Inv k m s (exec x s).2)
    (hf : ∀ a t, Within Inv k m s t → Within Inv l n t (exec (f a) t).2) :
    Within Inv (k + l) (m + n) s (exec (x >>= f) s).2 := by
  cases hrun : exec x s with
  | mk r t =>
    rw [hrun] at h
    cases r with
    | error e =>
      rw [exec_bind_error hrun]
      exact h.mono (Nat.le_add_right ..) (Nat.le_add_right ..)
    | ok a =>
      rw [exec_bind_ok hrun]
      exact h.trans (hf a t h)

end Within

theorem matches_creates {world : World} {tx : Tx} (h : Matches net world msg tx) :
    tx.creates = false := by
  have heq : tx.eip155Hash net.chainId = (expectedTx net world msg).eip155Hash net.chainId := h
  simp only [expectedTx, Tx.newTransaction, Tx.eip155Hash, SigHash.replayProtected.injEq] at heq
  simp [Tx.creates, heq.2.2.2.1]

theorem toNat_add_le (a b : UInt64) : (a + b).toNat ≤ a.toNat + b.toNat := by
  exact Nat.mod_le ..

/-- One system message. -/
theorem apply_within (hb : Bounded net header snap val N Inv c) (p : Node) (mining : Bool)
    (hmsg : SystemMessage header snap val N msg) (hs : Inv s.world) :
    Within Inv (c.of msg.data) 1 s (exec (applyTransaction net p header mining msg) s).2 := by
  obtain ⟨received, ⟨e, hrun⟩ | ⟨tx, w, g, logs, hm, hcall, hrun⟩⟩ :=
    apply_cases net p header mining msg s
  · rw [hrun]
    exact ⟨hs, Nat.le_add_right .., Nat.le_add_right .., Nat.le_add_right .., rfl⟩
  rw [hrun]
  constructor
  case inv => exact hb.kept hmsg hs hcall
  case gas => exact (toNat_add_le ..).trans (Nat.add_le_add_left (hb.gas hmsg hs hcall) _)
  case receipts => simp [record, BlockState.issue]
  case txs => simp [record, BlockState.issue]
  case created => simp [record, BlockState.issue, matches_creates hm]

/-- A loop whose rounds are all bounded. -/
theorem forEach_within {α : Type} {body : α → Engine World Unit} {xs : List α}
    (h : ∀ a ∈ xs, ∀ s, Inv s.world → Within Inv k m s (exec (body a) s).2) (hs : Inv s.world) :
    Within Inv (xs.length * k) (xs.length * m) s (exec (forEach body xs) s).2 := by
  induction xs generalizing s with
  | nil => simpa [forEach] using Within.refl hs
  | cons a rest ih =>
    rw [forEach, List.length_cons, Nat.succ_mul, Nat.succ_mul, Nat.add_comm _ k, Nat.add_comm _ m]
    exact (h a List.mem_cons_self s hs).bind fun _ t ht =>
      ih (fun b hb => h b (List.mem_cons_of_mem _ hb)) ht.inv

/-- The calls for one created contract: one for each receipt. -/
theorem pushOwners_within (hb : Bounded net header snap val N Inv c) (tx : Tx) (hs : Inv s.world) :
    Within Inv (s.receipts.length * c.push) s.receipts.length s
      (exec (pushOwners net p header mining tx) s).2 := by
  have hround : ∀ rec ∈ s.receipts, ∀ s : BlockState World, Inv s.world →
      Within Inv c.push 1 s (exec (swallow (pushOwner net p header mining rec.contractAddress
        (ownerOf net.pubkeyAddress tx))) s).2 := by
    intro rec _ s hs
    exact apply_within hb p mining (.push rec.contractAddress (ownerOf net.pubkeyAddress tx)) hs
  have h := forEach_within hround hs
  unfold pushOwners
  rw [exec_bind_ok (exec_reads _ s)]
  simpa using h

theorem doubling (r n : ℕ) : r + 2 * r * (2 ^ n - 1) = r * (2 ^ (n + 1) - 1) := by
  obtain ⟨q, hq⟩ : ∃ q, 2 ^ n = q + 1 := Nat.exists_eq_add_one.mpr (Nat.two_pow_pos n)
  have hs : 2 ^ (n + 1) - 1 = 2 * q + 1 := by rw [Nat.pow_succ]; omega
  rw [hq, hs, Nat.add_sub_cancel, Nat.mul_add, Nat.mul_one, Nat.mul_comm 2 r, Nat.mul_assoc]
  omega

/-- With every created contract the number of receipts may double. -/
theorem pushes_within (hb : Bounded net header snap val N Inv c) (txs : List Tx) {r : ℕ}
    (hr : s.receipts.length ≤ r) (hs : Inv s.world) :
    Within Inv (r * (2 ^ txs.length - 1) * c.push) (r * (2 ^ txs.length - 1)) s
      (exec (forEach (pushOwners net p header mining) txs) s).2 := by
  induction txs generalizing s r with
  | nil => simpa [forEach] using Within.refl hs
  | cons tx rest ih =>
    have hfirst : Within Inv (r * c.push) r s (exec (pushOwners net p header mining tx) s).2 :=
      (pushOwners_within hb tx hs).mono (Nat.mul_le_mul_right _ hr) hr
    have hok : exec (pushOwners net p header mining tx) s =
        (.ok (), (exec (pushOwners net p header mining tx) s).2) := by
      have h : exec (forEach (pushOwners net p header mining) [tx]) s = (.ok (), _) :=
        pushes_run [tx] s
      rwa [exec_forEach_singleton] at h
    have hrest := ih (r := 2 * r) (by have := hfirst.receipts; omega) hfirst.inv
    rw [forEach, exec_bind_ok hok]
    refine (hfirst.trans hrest).mono (le_of_eq ?_) (le_of_eq (doubling r rest.length))
    rw [← Nat.add_mul, doubling]
    rfl

/-! ## All calls of a block -/

/-- The calls before the registrations: the first block initialises seven
contracts, and out of turn a validator is slashed. -/
def openingGas (c : SystemCosts) (header : Header) : ℕ :=
  (if header.number = 1 then initContracts.length * c.init else 0) +
    if header.difficulty ≠ diffInTurn then c.slash else 0

def openingCount (header : Header) : ℕ :=
  (if header.number = 1 then initContracts.length else 0) +
    if header.difficulty ≠ diffInTurn then 1 else 0

section
variable (hb : Bounded net header snap val N Inv c)
include hb

theorem initFirst_within (hs : Inv s.world) :
    Within Inv (if header.number = 1 then initContracts.length * c.init else 0)
      (if header.number = 1 then initContracts.length else 0) s
      (exec (initFirst net p header mining) s).2 := by
  unfold initFirst
  by_cases h : header.number = 1
  · have hround : ∀ a ∈ initContracts, ∀ s : BlockState World, Inv s.world →
        Within Inv c.init 1 s
          (exec (applyTransaction net p header mining (initMessage header a)) s).2 := by
      intro a ha s hs
      exact apply_within hb p mining (.init ha) hs
    simp only [if_pos h]
    simpa [initContract] using forEach_within hround hs
  · simp only [if_neg h]
    exact Within.refl hs

theorem slashSpoiled_within (hs : Inv s.world) :
    Within Inv (if header.difficulty ≠ diffInTurn then c.slash else 0)
      (if header.difficulty ≠ diffInTurn then 1 else 0) s
      (exec (slashSpoiled net p header mining snap) s).2 := by
  unfold slashSpoiled
  by_cases h : header.difficulty ≠ diffInTurn
  · simp only [if_pos h]
    cases hsup : snap.supposeValidator with
    | error e =>
      exact (Within.refl hs).mono (Nat.zero_le _) (Nat.zero_le _)
    | ok spoiledVal =>
      rw [exec_bind_ok (show exec (lifts (.ok spoiledVal)) s = (.ok spoiledVal, s) from rfl)]
      by_cases hrecent : snap.signedRecently spoiledVal = true
      · rw [if_pos hrecent]
        exact (Within.refl hs).mono (Nat.zero_le _) (Nat.zero_le _)
      · rw [if_neg hrecent]
        exact apply_within hb p mining (.slash hsup) hs
  · simp only [if_neg h]
    exact Within.refl hs

theorem rewardIfAny_within (p : Node) (mining : Bool) (balance : ℕ) {contAddr : List Address}
    (hlen : contAddr.length ≤ N) (hs : Inv s.world) :
    Within Inv c.deposit 1 s (exec (rewardIfAny net p header mining balance val contAddr) s).2 := by
  unfold rewardIfAny
  by_cases h : balance = 0
  · rw [if_pos h]
    exact (Within.refl hs).mono (Nat.zero_le _) (Nat.zero_le _)
  · rw [if_neg h, exec_distributeReward]
    have hpaid : Inv (paid net header balance s).world := hb.paid hs
    have h := apply_within hb p mining (.deposit balance hlen) hpaid
    exact { h with }

end

/-- The most gas that the system calls can take in a block with `txs`
transactions, `created` of which create a contract. -/
def systemGasBound (c : SystemCosts) (header : Header) (txs created : ℕ) : ℕ :=
  openingGas c header + (txs + openingCount header) * (2 ^ created - 1) * c.push + c.deposit

theorem systemCalls_gas
    (hb : Bounded net header snap val (s.txs.length + openingCount header) Inv c) (p : Node)
    (mining : Bool) (hs : Inv s.world) :
    (exec (systemCalls net p header mining snap val) s).2.usedGas.toNat ≤
      s.usedGas.toNat + systemGasBound c header s.receipts.length
        (s.txs.filter Tx.creates).length := by
  let pushes := (s.receipts.length + openingCount header) *
    (2 ^ (s.txs.filter Tx.creates).length - 1)
  have hrest (t : BlockState World)
      (h : Within Inv (openingGas c header) (openingCount header) s t) :
      Within Inv (pushes * c.push + c.deposit) (pushes + 1) t
        (exec (distributeIncoming net p header mining val) t).2 := by
    rw [exec_distributeIncoming, h.created]
    have hpush : Within Inv _ _ t
        (exec (forEach (pushOwners net p header true) (s.txs.filter Tx.creates)) t).2 :=
      pushes_within hb _ h.receipts h.inv
    have hcalled : (calledContracts t.txs).length ≤ s.txs.length + openingCount header :=
      (List.length_filterMap_le ..).trans h.txs
    exact hpush.trans (rewardIfAny_within hb p mining _ hcalled hpush.inv)
  have hopen : Within Inv (openingGas c header) (openingCount header) s
      (exec (openingCalls net p header mining snap) s).2 :=
    (initFirst_within hb hs).bind fun _ t ht => slashSpoiled_within hb ht.inv
  have hgas := (hopen.bind fun _ => hrest).gas
  unfold systemCalls systemGasBound
  simp only [pushes] at hgas
  omega

end

/-! ## The filled block -/

section
variable {World : Type} {chain : Chain World} {header : Header} {start w : Work World}

/-- What a block has used is no longer in its pool. -/
structure Filled (start w : Work World) : Prop where
  gas : w.gasUsed.toNat + w.gasPool.toNat ≤ start.gasPool.toNat
  receipts : w.receipts.length = w.txs.length

theorem Filled.step (h : Filled start w) (tx : Tx) : Filled start (step chain header w tx) := by
  have hbefore := h.gas
  have hfate := step_fate chain header w tx
  generalize Miner.step chain header w tx = w' at hfate ⊢
  cases hfate with
  | passed => exact h
  | skipped => exact { h with }
  | leaked hleaks =>
    obtain ⟨-, -, sender, -, hadmitted, -⟩ := hleaks
    refine ⟨?_, h.receipts⟩
    have hsub := UInt64.toNat_sub_of_le _ _ hadmitted.gas
    dsimp only [prepared] at hsub ⊢
    omega
  | @executed sender result s htried hgas hused hpool =>
    have hle : result.usedGas ≤ w.gasPool := UInt64.le_trans (UInt64.le_iff_toNat_le.mpr hused) hgas
    have hsub := UInt64.toNat_sub_of_le _ _ hle
    have hadd := toNat_add_le w.gasUsed result.usedGas
    have := UInt64.le_iff_toNat_le.mp hle
    constructor
    case gas =>
      simp only [included, prepared, hpool]
      omega
    case receipts => simp [included, prepared, h.receipts]

theorem makeCurrent_filled (chain : Chain World) (header : Header) (world : World)
    (offered : List Tx) :
    Filled (makeCurrent chain header world)
      (run chain header (makeCurrent chain header world) offered) := by
  induction offered using List.reverseRecOn with
  | nil => exact ⟨(Nat.zero_add _).le, rfl⟩
  | append_singleton offered tx ih =>
    rw [run_append]
    exact ih.step tx

theorem Filled.loop {A : Bids Address Tx} (h : Filled start w)
    (interrupted : TxSet Address Tx → Bool) (txs : TxSet Address Tx) :
    Filled start (commitTransactions chain header A interrupted txs w) := by
  obtain ⟨offered, hrun⟩ := commitTransactions_run chain header A interrupted txs w
  rw [hrun]
  clear hrun
  induction offered generalizing w with
  | nil => exact h
  | cons tx _ ih => exact ih (h.step tx)

/-- The loop runs for the local, the remote and any later transactions. -/
theorem rounds_filled (chain : Chain World) (header : Header) (A : Bids Address Tx)
    (world : World) (rounds : List ((TxSet Address Tx → Bool) × TxSet Address Tx)) :
    Filled (makeCurrent chain header world)
      (rounds.foldl (fun w r => commitTransactions chain header A r.1 r.2 w)
        (makeCurrent chain header world)) :=
  List.foldlRecOn rounds _ (makeCurrent_filled chain header world [])
    fun _ h r _ => h.loop r.1 r.2

/-- Everything comes from account 7. -/
def bidsOfSeven : Bids Address Tx where
  sender _ := 7
  price := Tx.gasPrice
  nonce tx := tx.nonce.toNat
  time _ := 0

/-- Two payments of one account. -/
def twoPayments : TxSet Address Tx where
  txs := AList.singleton 7 [payment 1 21000 0]
  heads := [payment 0 21000 49000]

/-- After a round that is interrupted at once, the next one takes both payments. -/
theorem twoPayments_filled :
    let start := makeCurrent accountsChain secondHeader solvent
    let w := [(fun _ => true, twoPayments), (fun _ => false, twoPayments)].foldl
      (fun w r => commitTransactions accountsChain secondHeader bidsOfSeven r.1 r.2 w) start
    w.txs = [payment 0 21000 49000, payment 1 21000 0] ∧ Filled start w :=
  ⟨by decide +kernel, rounds_filled accountsChain secondHeader bidsOfSeven solvent _⟩

/-- The block as it is handed to the engine. -/
def handedOver (w : Work World) : BlockState World where
  world := w.world
  txs := w.txs
  receipts := w.receipts
  receivedTxs := none
  usedGas := w.gasUsed
  issued := []

theorem initialPool_toNat (h : reserve chain header ≤ header.gasLimit) :
    (initialPool chain header).toNat = header.gasLimit.toNat - (reserve chain header).toNat := by
  have hlt : ¬ header.gasLimit < reserve chain header := UInt64.not_lt.mpr h
  rw [initialPool, subGas, if_neg hlt]
  exact UInt64.toNat_sub_of_le _ _ h

end

/-- A filled block can be finalised when the system calls that its transactions
bring about fit into the reserve. -/
theorem filled_block_within_limit {World : Type} (chain : Chain World) (p : Node)
    (header : Header) (snap : Snapshot) (world : World) (offered : List Tx) (w : Work World)
    (hw : w = run chain header (makeCurrent chain header world) offered)
    (Inv : World → Prop) (c : SystemCosts)
    (hb : Bounded chain.toNetwork header snap p.val (w.txs.length + openingCount header) Inv c)
    (hinv : Inv w.world) (hreserve : reserve chain header ≤ header.gasLimit)
    (hcost : systemGasBound c header w.txs.length (w.txs.filter Tx.creates).length ≤
      (reserve chain header).toNat) :
    (exec (finalizeAndAssemble chain.toNetwork p header snap) (handedOver w)).2.usedGas.toNat ≤
        header.gasLimit.toNat ∧
      ∀ e t, exec (finalizeAndAssemble chain.toNetwork p header snap) (handedOver w) =
          (.error e, t) →
        exec (systemCalls chain.toNetwork p header true snap p.val) (handedOver w) =
          (.error e, t) := by
  have hfilled := makeCurrent_filled chain header world offered
  rw [← hw] at hfilled
  have hused : w.gasUsed.toNat ≤ header.gasLimit.toNat - (reserve chain header).toNat := by
    have hgas := hfilled.gas
    have hpool := initialPool_toNat hreserve
    change w.gasUsed.toNat + w.gasPool.toNat ≤ (initialPool chain header).toNat at hgas
    omega
  have hstart : Inv (handedOver w).world := hinv
  have hbound := systemCalls_gas (s := handedOver w) hb p true hstart
  have hlimit := UInt64.le_iff_toNat_le.mp hreserve
  simp only [handedOver, hfilled.receipts] at hbound
  unfold finalizeAndAssemble
  cases hrun : exec (systemCalls chain.toNetwork p header true snap p.val) (handedOver w) with
  | mk r u =>
    have hgas : u.usedGas.toNat ≤ header.gasLimit.toNat := by
      simp only [handedOver] at hrun
      rw [hrun] at hbound
      dsimp only at hbound
      omega
    cases r with
    | error e =>
      rw [exec_bind_error hrun]
      refine ⟨hgas, fun _ _ h => ?_⟩
      cases h
      rfl
    | ok _ =>
      have hle : ¬ header.gasLimit < u.usedGas :=
        UInt64.not_lt.mpr (UInt64.le_iff_toNat_le.mpr hgas)
      rw [exec_bind_ok hrun, exec_bind_ok (exec_reads _ u), if_neg hle]
      exact ⟨hgas, nofun⟩

/-- A payment and the deposit of its fee. -/
theorem payment_within_limit :
    let w := run accountsChain secondHeader (makeCurrent accountsChain secondHeader solvent)
      [payment 0 21000 49000]
    (exec (finalizeAndAssemble accountsNet proposer secondHeader oneValidator)
      (handedOver w)).2.usedGas.toNat ≤ 30000000 := by
  have hb : Bounded accountsNet secondHeader oneValidator proposer.val 1 (fun _ => True)
      ⟨21000, 21000, 21000, 21000⟩ := by
    constructor
    case gas =>
      intro msg world w g logs _ _ hcall
      have hg : g = msg.gas - 21000 := by
        simp only [accountsNet] at hcall
        split at hcall
        · cases hcall
        · cases hcall; rfl
      have hused : msg.gas - g = 21000 := by rw [hg]; grind
      rw [hused]
      cases msg.data <;> simp [SystemCosts.of]
    case kept => exact fun _ _ _ => trivial
    case paid => exact fun _ => trivial
  exact (filled_block_within_limit accountsChain proposer secondHeader oneValidator solvent
    [payment 0 21000 49000] _ rfl (fun _ => True) ⟨21000, 21000, 21000, 21000⟩ hb trivial
    (by decide +kernel) (by decide +kernel)).1

/-! ## A deposit that does not fit -/

/-- An EVM whose contracts use up all their gas. -/
def burner : EVM Accounts where
  create _ _ _ _ _ w := ⟨w, 0, true⟩
  call _ _ _ _ _ _ w := ⟨w, 0, true⟩
  create_le := UInt64.zero_le
  call_le := UInt64.zero_le

/-- A deposit for a validator with many delegators takes two million gas. -/
def crowdedNet : Network Accounts :=
  { accountsNet with
    call := fun _ msg w =>
      if msg.data.isDeposit then .ok (w, msg.gas - 2000000, []) else .ok (w, msg.gas - 21000, []) }

def crowdedChain : Chain Accounts := { accountsChain with toNetwork := crowdedNet, evm := burner }

/-- One transaction uses the whole pool, and the deposit of its fee exceeds the
limit of the block. -/
theorem full_block_not_finalised :
    let w := run crowdedChain secondHeader
      (makeCurrent crowdedChain secondHeader ⟨fun _ => 0, fun _ => 30000000⟩)
      [payment 0 29500000 0]
    w.txs = [payment 0 29500000 0] ∧
      (exec (finalizeAndAssemble crowdedNet proposer secondHeader oneValidator)
        (handedOver w)).2.usedGas = 31500000 ∧
      (exec (finalizeAndAssemble crowdedNet proposer secondHeader oneValidator)
        (handedOver w)).1 = .error .gasLimitExceeded := by
  refine ⟨by decide +kernel, by decide +kernel, ?_⟩
  rfl

end Dexit.Miner
