import Dexit.Miner.Worker
import Dexit.Parlia.Agreement
import Dexit.Runs

/-!
# What a skipped transaction leaves

A transaction that fails before it may buy its gas changes nothing. One that
fails afterwards is undone in the state, but its gas stays out of the pool.
-/

namespace Dexit.Miner

open Parlia

section
variable {World : Type} (chain : Chain World) (header : Header)

/-- The gas does not cover the intrinsic cost, or what the sender has left after
paying for the gas does not cover the value. -/
def Unexecutable (sender : Address) (tx : Tx) (world : World) : Prop :=
  match txIntrinsicGas chain header tx with
  | .error _ => True
  | .ok gas => tx.gas < gas ∨ canTransfer chain sender tx world = false

/-- The transaction is tried and may buy its gas, and then cannot be executed. -/
def Leaks (w : Work World) (tx : Tx) : Prop :=
  tried chain header w tx = true ∧ 0 < tx.gas.toNat ∧
    ∃ sender, asMessage chain header tx = .ok sender ∧
      Admitted chain sender tx ⟨(prepared chain w tx).world, w.gasPool⟩ ∧
      Unexecutable chain header sender tx
        (bought chain sender tx ⟨(prepared chain w tx).world, w.gasPool⟩).world

/-- States that differ at most in the marks that the next transaction sets. -/
def SameState (s t : World) : Prop := ∀ tx i, chain.prepare s tx i = chain.prepare t tx i

/-- The block is the one that its own transactions give alone, and the pool
has lost what their receipts say. -/
structure NoTrace (start w : Work World) : Prop where
  world : SameState chain (run chain header start w.txs).world w.world
  gasUsed : (run chain header start w.txs).gasUsed = w.gasUsed
  txs : (run chain header start w.txs).txs = w.txs
  receipts : (run chain header start w.txs).receipts = w.receipts
  tcount : (run chain header start w.txs).tcount = w.tcount
  gasPool : (run chain header start w.txs).gasPool = w.gasPool
  accounted : w.gasPool.toNat + (w.receipts.map (·.gasUsed.toNat)).sum = start.gasPool.toNat

end

section
variable {World : Type} {chain : Chain World} {header : Header} {sender : Address} {tx : Tx}
  {start w : Work World}

theorem startingGas_error {world : World} :
    (∃ e, startingGas chain header sender tx world = .error e) ↔
      Unexecutable chain header sender tx world := by
  unfold startingGas Unexecutable
  cases txIntrinsicGas chain header tx with
  | error e => exact iff_of_true ⟨e, rfl⟩ trivial
  | ok gas =>
    by_cases hgas : tx.gas < gas
    · simp [hgas]
    · cases htransfer : canTransfer chain sender tx world <;> simp [hgas]

/-- The machine a transaction starts from. -/
def machine (chain : Chain World) (w : Work World) (tx : Tx) : Machine World :=
  ⟨(prepared chain w tx).world, w.gasPool⟩

/-- The four things that can become of a transaction that is offered. -/
inductive Fate (chain : Chain World) (header : Header) (w : Work World) (tx : Tx) :
    Work World → Prop
  | passed : Fate chain header w tx w
  | skipped : Fate chain header w tx (prepared chain w tx)
  | leaked : Leaks chain header w tx →
      Fate chain header w tx { prepared chain w tx with gasPool := w.gasPool - tx.gas }
  | executed {sender : Address} {result : ExecutionResult} {s : Machine World}
      (htried : tried chain header w tx = true) (hgas : tx.gas ≤ w.gasPool) (hused : result.usedGas.toNat ≤ tx.gas.toNat)
      (hpool : s.gasPool = w.gasPool - result.usedGas) :
      Fate chain header w tx
        (included chain header (prepared chain w tx) sender tx result.usedGas s)

theorem commit_failed (hsender : asMessage chain header tx = .ok sender) {e : CoreErr}
    {s : Machine World}
    (h : transitionDb chain header sender tx ⟨w.world, w.gasPool⟩ = (.error e, s)) :
    (commitTransaction chain header w tx).2 = { w with gasPool := s.gasPool } := by
  simp only [commitTransaction, hsender, h]

/-- A leak, as the step computes it. -/
theorem step_leaked (h : Leaks chain header w tx) :
    step chain header w tx = { prepared chain w tx with gasPool := w.gasPool - tx.gas } := by
  obtain ⟨htried, -, sender, hsender, hadmitted, hun⟩ := h
  obtain ⟨e, he⟩ := startingGas_error.mpr hun
  rw [step, if_pos htried]
  exact commit_failed hsender (transitionDb_failed hadmitted he)

theorem sub_gas_zero {a g : UInt64} (h : ¬ 0 < g.toNat) : a - g = a := by
  have hz : g = 0 := UInt64.toNat_inj.mp (by simpa using h)
  rw [hz]
  exact UInt64.sub_zero a

theorem step_fate (chain : Chain World) (header : Header) (w : Work World) (tx : Tx) :
    Fate chain header w tx (step chain header w tx) := by
  by_cases htried : tried chain header w tx = true
  · rw [step, if_pos htried]
    cases hsender : asMessage chain header tx with
    | error e =>
      have heq : (commitTransaction chain header (prepared chain w tx) tx).2 = prepared chain w tx := by
        simp only [commitTransaction, hsender]
      rw [heq]
      exact .skipped
    | ok sender =>
      by_cases hadmitted : Admitted chain sender tx (machine chain w tx)
      · cases hstart : startingGas chain header sender tx
          (bought chain sender tx (machine chain w tx)).world with
        | error e =>
          rw [commit_failed hsender (transitionDb_failed hadmitted hstart)]
          by_cases hpays : 0 < tx.gas.toNat
          · exact .leaked ⟨htried, hpays, sender, hsender, hadmitted,
              startingGas_error.mp ⟨e, hstart⟩⟩
          · have hsame : (bought chain sender tx (machine chain w tx)).gasPool = w.gasPool :=
              sub_gas_zero hpays
            rw [hsame]
            exact .skipped
        | ok gas =>
          have hrun : transitionDb chain header sender tx
            ⟨(prepared chain w tx).world, (prepared chain w tx).gasPool⟩ = _ :=
              transitionDb_executed hadmitted hstart
          simp only [commitTransaction, hsender, hrun]
          exact .executed htried hadmitted.gas (outcome_usedGas_le (startingGas_le hstart)) rfl
      · obtain ⟨e, he⟩ := transitionDb_refused header hadmitted
        rw [commit_failed hsender he]
        exact .skipped
  · rw [step, if_neg htried]
    exact .passed

theorem SameState.refl (s : World) : SameState chain s s := fun _ _ => rfl

theorem SameState.prepared {s : World} (h : SameState chain s w.world) :
    SameState chain s (prepared chain w tx).world := by
  intro tx' i
  exact (h tx' i).trans (chain.prepare_prepare w.world tx w.tcount tx' i).symm

theorem run_append (w : Work World) (pre : List Tx) (tx : Tx) :
    run chain header w (pre ++ [tx]) = step chain header (run chain header w pre) tx := by
  simp [run]

/-- To a transaction that is tried nothing tells the two blocks apart. -/
theorem NoTrace.step_eq (h : NoTrace chain header start w) (htried : tried chain header w tx = true) :
    step chain header (run chain header start w.txs) tx = step chain header w tx := by
  have hprepared : prepared chain (run chain header start w.txs) tx = prepared chain w tx := by
    unfold prepared
    rw [h.tcount, h.world tx w.tcount, h.gasPool, h.gasUsed, h.txs, h.receipts]
  have htried' : tried chain header (run chain header start w.txs) tx = true := by
    rw [tried, h.gasPool]
    exact htried
  rw [step, step, if_pos htried, if_pos htried', hprepared]

/-- A step that does not leak leaves no trace of what it skips. -/
theorem NoTrace.step (h : NoTrace chain header start w) (hleak : ¬ Leaks chain header w tx) :
    NoTrace chain header start (step chain header w tx) := by
  have hfate := step_fate chain header w tx
  generalize hw : Miner.step chain header w tx = w' at hfate ⊢
  cases hfate with
  | passed => exact h
  | skipped => exact { h with world := h.world.prepared }
  | leaked hleaks => exact absurd hleaks hleak
  | @executed sender result s htried hgas hused hpool =>
    have htxs : (included chain header (prepared chain w tx) sender tx result.usedGas s).txs =
        w.txs ++ [tx] := rfl
    have hrun : run chain header start (w.txs ++ [tx]) =
        included chain header (prepared chain w tx) sender tx result.usedGas s := by
      rw [run_append, h.step_eq htried, hw]
    have haccounted : (w.gasPool - result.usedGas).toNat + ((w.receipts.map (·.gasUsed.toNat)).sum +
        result.usedGas.toNat) = start.gasPool.toNat := by
      have hle : result.usedGas ≤ w.gasPool :=
        UInt64.le_trans (UInt64.le_iff_toNat_le.mpr hused) hgas
      have hbefore := h.accounted
      have := UInt64.le_iff_toNat_le.mp hle
      rw [UInt64.toNat_sub_of_le _ _ hle]
      omega
    constructor
    case world => rw [htxs, hrun]; exact SameState.refl _
    case accounted => simpa [included, prepared, receiptOf, hpool] using haccounted
    case txs => rw [htxs, hrun, htxs]
    all_goals rw [htxs, hrun]

end

/-- After every transaction that is offered the block and its pool are those of
the included transactions alone, exactly when no offered transaction leaks. -/
theorem skipped_leave_no_trace_iff {World : Type} (chain : Chain World) (header : Header)
    (world : World) (offered : List Tx) :
    (∀ pre, pre <+: offered → NoTrace chain header (makeCurrent chain header world)
      (run chain header (makeCurrent chain header world) pre)) ↔
    ∀ pre tx, pre ++ [tx] <+: offered →
      ¬ Leaks chain header (run chain header (makeCurrent chain header world) pre) tx := by
  refine Runs.foldl_prefixes_iff (fun _ => True) (fun _ => True) ?_ trivial
    ⟨SameState.refl _, rfl, rfl, rfl, rfl, rfl, rfl⟩ fun _ _ => trivial
  intro w tx _ hw _
  refine ⟨trivial, fun hafter hleak => ?_, hw.step⟩
  obtain ⟨-, hpays, sender, -, hadmitted, -⟩ := id hleak
  have hbefore := hw.accounted
  have haccounted := hafter.accounted
  have hle := UInt64.le_iff_toNat_le.mp hadmitted.gas
  rw [step_leaked hleak] at haccounted
  simp only [prepared, UInt64.toNat_sub_of_le _ _ hadmitted.gas] at haccounted
  dsimp only at hle
  omega

/-! ## An account that spends the same money twice -/

/-- An EVM that only moves the value. -/
def transfers : EVM Accounts where
  create _ _ _ gas _ w := ⟨w, gas, false⟩
  call _ sender recipient _ gas value w := ⟨w.move sender recipient value, gas, false⟩
  create_le := UInt64.le_refl _
  call_le := UInt64.le_refl _

def accountsChain : Chain Accounts where
  toNetwork := accountsNet
  isHomestead _ := true
  isEIP155 _ := true
  isIstanbul _ := true
  isBerlin _ := false
  isEuler _ := false
  subBalance w a n := { w with balance := Function.update w.balance a (w.balance a - n) }
  getRefund _ := 0
  getLogs _ _ := []
  prepareAccessList w _ _ _ := w
  prepare w _ _ := w
  prepare_prepare _ _ _ _ _ := rfl
  evm := transfers
  pack
    | .raw bytes => bytes
    | _ => []
  createAddress _ _ := 0x42

/-- A payment of account 7. -/
def payment (nonce gas : UInt64) (value : ℕ) : Tx where
  type := .LegacyTxType
  nonce := nonce
  gasPrice := 1
  gas := gas
  recipient := some 9
  value := value
  data := .raw []
  chainIdField := 0
  accessList := []
  v := 147
  r := 1
  s := 1

/-- Account 7 owns enough for each of its two payments. -/
def solvent : Accounts := ⟨fun _ => 0, fun a => if a = 7 then 100000 else 0⟩

/-- The first payment leaves the price of the gas of the second one and nothing
else: the second one is skipped, and the pool is short of its gas. -/
theorem second_payment_leaks :
    let w := run accountsChain secondHeader (makeCurrent accountsChain secondHeader solvent)
      [payment 0 21000 49000, payment 1 30000 1]
    w.txs = [payment 0 21000 49000] ∧ w.receipts.map Receipt.gasUsed = [21000] ∧
      (initialPool accountsChain secondHeader).toNat = 29500000 ∧
      w.gasPool.toNat + (w.receipts.map (·.gasUsed.toNat)).sum = 29470000 := by
  decide +kernel

end Dexit.Miner
