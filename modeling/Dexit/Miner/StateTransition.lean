import Dexit.Parlia.Engine

/-!
# The transition of a transaction

`TransitionDb` checks the nonce and buys the gas before it knows whether the
transaction can be executed. The gas comes from the balance of the sender and
from the pool of the block, and each later exit leaves both as they then are.
The EVM and the state database are parameters.
-/

namespace Dexit.Miner

open Parlia

def TxGas : UInt64 := 21000
def TxGasContractCreation : UInt64 := 53000
def TxDataZeroGas : UInt64 := 4
def TxDataNonZeroGasFrontier : UInt64 := 68
def TxDataNonZeroGasEIP2028 : UInt64 := 16
def TxAccessListAddressGas : UInt64 := 2400
def TxAccessListStorageKeyGas : UInt64 := 1900

/-- `math.MaxUint64 - amount`, as a number. -/
def headroom (amount : UInt64) : ℕ := 2 ^ 64 - 1 - amount.toNat

inductive CoreErr
  | invalidSender
  | txTypeNotSupported
  | nonceTooHigh
  | nonceTooLow
  | insufficientFunds
  | gasLimitReached
  | gasUintOverflow
  | intrinsicGas
  | insufficientFundsForTransfer
  | panic
deriving DecidableEq, Repr

/-! ## The gas pool -/

/-- The source panics when the pool would pass the largest number. -/
def addGas (gp amount : UInt64) : Option UInt64 :=
  if headroom amount < gp.toNat then none else some (gp + amount)

def subGas (gp amount : UInt64) : Except CoreErr UInt64 :=
  if gp < amount then .error .gasLimitReached else .ok (gp - amount)

/-! ## The environment -/

/-- What an execution leaves: the state, the gas that is left and whether it
ended with an error of the EVM. -/
structure Execution (World : Type) where
  world : World
  gas : UInt64
  failed : Bool

/-- The EVM never returns more gas than it was given. -/
structure EVM (World : Type) where
  create : BlockContext → Address → Calldata → UInt64 → ℕ → World → Execution World
  call : BlockContext → Address → Address → Calldata → UInt64 → ℕ → World → Execution World
  create_le : ∀ {ctx sender data gas value world},
    (create ctx sender data gas value world).gas ≤ gas
  call_le : ∀ {ctx sender recipient data gas value world},
    (call ctx sender recipient data gas value world).gas ≤ gas

/-- The chain a block is mined on, with the operations of its state database
that transactions use besides those of the engine. `prepare` sets the marks of
the next transaction and drops the access list, so that a second call replaces
the first. `pack` gives the bytes of the input data. -/
structure Chain (World : Type) extends Network World where
  isHomestead : ℕ → Bool
  isEIP155 : ℕ → Bool
  isIstanbul : ℕ → Bool
  isBerlin : ℕ → Bool
  isEuler : ℕ → Bool
  subBalance : World → Address → ℕ → World
  getRefund : World → UInt64
  getLogs : World → Tx → List Log
  prepareAccessList : World → Address → Option Address → List (Address × List Hash) → World
  prepare : World → Tx → ℕ → World
  prepare_prepare : ∀ world tx i tx' i', prepare (prepare world tx i) tx' i' = prepare world tx' i'
  evm : EVM World
  pack : Calldata → List UInt8
  createAddress : Address → UInt64 → Address

/-- Only a typed transaction has an access list. -/
def accessListOf (tx : Tx) : List (Address × List Hash) :=
  match tx.type with
  | .LegacyTxType => []
  | .AccessListTxType => tx.accessList

/-- The cost of the input bytes, on top of `gas`. -/
def dataGas (data : List UInt8) (isEIP2028 : Bool) (gas : UInt64) : Except CoreErr UInt64 :=
  let nz := UInt64.ofNat (data.countP (· ≠ 0))
  let nonZeroGas := if isEIP2028 then TxDataNonZeroGasEIP2028 else TxDataNonZeroGasFrontier
  if headroom gas / nonZeroGas.toNat < nz.toNat then .error .gasUintOverflow
  else
    let gas := gas + nz * nonZeroGas
    let z := UInt64.ofNat data.length - nz
    if headroom gas / TxDataZeroGas.toNat < z.toNat then .error .gasUintOverflow
    else .ok (gas + z * TxDataZeroGas)

/-- The cost of the access list is added without a check. -/
def intrinsicGas (data : List UInt8) (accessList : List (Address × List Hash))
    (isContractCreation isHomestead isEIP2028 : Bool) : Except CoreErr UInt64 := do
  let gas := if isContractCreation && isHomestead then TxGasContractCreation else TxGas
  let gas ← if data.isEmpty then .ok gas else dataGas data isEIP2028 gas
  let storageKeys := (accessList.map fun entry => entry.2.length).sum
  pure (gas + UInt64.ofNat accessList.length * TxAccessListAddressGas +
    UInt64.ofNat storageKeys * TxAccessListStorageKeyGas)

/-- What a transition changes: the state and the gas pool of the block. -/
structure Machine (World : Type) where
  world : World
  gasPool : UInt64

structure ExecutionResult where
  usedGas : UInt64
  failed : Bool
deriving DecidableEq, Repr

section
variable {World : Type} (chain : Chain World) (header : Header) (sender : Address) (tx : Tx)

/-- The price of an amount of gas. -/
def feeOf (gas : UInt64) : ℕ := gas.toNat * tx.gasPrice

/-- The price of all the gas that the transaction asks for. -/
def gasCost : ℕ := feeOf tx tx.gas

/-- Nothing has changed when this fails. -/
def buyGas (s : Machine World) : Except CoreErr (Machine World) :=
  if chain.db.getBalance s.world sender < gasCost tx then .error .insufficientFunds
  else do
    let gasPool ← subGas s.gasPool tx.gas
    pure ⟨chain.subBalance s.world sender (gasCost tx), gasPool⟩

def preCheck (s : Machine World) : Except CoreErr (Machine World) :=
  let stNonce := chain.db.getNonce s.world sender
  if stNonce < tx.nonce then .error .nonceTooHigh
  else if tx.nonce < stNonce then .error .nonceTooLow
  else buyGas chain sender tx s

/-- The intrinsic gas under the rules of the block. -/
def txIntrinsicGas : Except CoreErr UInt64 :=
  intrinsicGas (chain.pack tx.data) (accessListOf tx) tx.recipient.isNone
    (chain.isHomestead header.number) (chain.isIstanbul header.number)

/-- `CanTransfer`, where there is something to transfer. -/
def canTransfer (world : World) : Bool :=
  tx.value = 0 || decide (tx.value ≤ chain.db.getBalance world sender)

/-- Clauses 4 to 6, after the gas was bought: the gas left for the execution. -/
def startingGas (world : World) : Except CoreErr UInt64 := do
  let gas ← txIntrinsicGas chain header tx
  if tx.gas < gas then .error .intrinsicGas
  else if canTransfer chain sender tx world then .ok (tx.gas - gas)
  else .error .insufficientFundsForTransfer

def runEVM (world : World) (gas : UInt64) : Execution World :=
  let world := if chain.isBerlin header.number then
    chain.prepareAccessList world sender tx.recipient (accessListOf tx) else world
  match tx.recipient with
  | none => chain.evm.create (newEVMBlockContext header) sender tx.data gas tx.value world
  | some recipient =>
    let world := chain.db.setNonce world sender (chain.db.getNonce world sender + 1)
    chain.evm.call (newEVMBlockContext header) sender recipient tx.data gas tx.value world

/-- The refund is capped to half of the used gas. -/
def refundOf (execution : Execution World) : UInt64 :=
  let half := (tx.gas - execution.gas) / 2
  if chain.getRefund execution.world < half then chain.getRefund execution.world else half

/-- The gas that is left in the end goes back to the sender and into the pool. -/
def refundGas (execution : Execution World) (gasPool : UInt64) :
    Option (Execution World × UInt64) :=
  let gas := execution.gas + refundOf chain tx execution
  let world := chain.db.addBalance execution.world sender (feeOf tx gas)
  (addGas gasPool gas).map fun gasPool => (⟨world, gas, execution.failed⟩, gasPool)

/-- The fee for the used gas goes to the validators, once the rest was refunded. -/
def payFee (s : Machine World) :
    Option (Execution World × UInt64) → Except CoreErr ExecutionResult × Machine World
  | none => (.error .panic, s)
  | some (execution, gasPool) =>
    let gasUsed := tx.gas - execution.gas
    let world := chain.db.addBalance execution.world SystemAddress (feeOf tx gasUsed)
    (.ok ⟨gasUsed, execution.failed⟩, ⟨world, gasPool⟩)

/-- Next to an error stands what was changed before it. -/
def transitionDb (s : Machine World) : Except CoreErr ExecutionResult × Machine World :=
  match preCheck chain sender tx s with
  | .error e => (.error e, s)
  | .ok s =>
    match startingGas chain header sender tx s.world with
    | .error e => (.error e, s)
    | .ok gas =>
      payFee chain tx s
        (refundGas chain sender tx (runEVM chain header sender tx s.world gas) s.gasPool)

end

section
variable {World : Type} {chain : Chain World} {header : Header} {sender : Address} {tx : Tx}
  {s : Machine World} {gas : UInt64} {execution : Execution World}

/-- The sender may buy the gas: clauses 1 to 3. -/
structure Admitted (chain : Chain World) (sender : Address) (tx : Tx) (s : Machine World) :
    Prop where
  nonce : tx.nonce = chain.db.getNonce s.world sender
  funds : gasCost tx ≤ chain.db.getBalance s.world sender
  gas : tx.gas ≤ s.gasPool

/-- The machine after the gas was bought. -/
def bought (chain : Chain World) (sender : Address) (tx : Tx) (s : Machine World) :
    Machine World :=
  ⟨chain.subBalance s.world sender (gasCost tx), s.gasPool - tx.gas⟩

theorem preCheck_admitted (h : Admitted chain sender tx s) :
    preCheck chain sender tx s = .ok (bought chain sender tx s) := by
  have hfunds := not_lt.mpr h.funds
  have hgas : ¬ s.gasPool < tx.gas := UInt64.not_lt.mpr h.gas
  simp [preCheck, buyGas, subGas, h.nonce, hfunds, hgas, bought, pure, Except.pure, bind,
    Except.bind]

theorem preCheck_refused (h : ¬ Admitted chain sender tx s) :
    ∃ e, preCheck chain sender tx s = .error e := by
  unfold preCheck buyGas subGas
  dsimp only
  split
  next => exact ⟨_, rfl⟩
  next hhigh =>
  split
  next => exact ⟨_, rfl⟩
  next hlow =>
  split
  next => exact ⟨_, rfl⟩
  next hfunds =>
  split
  next => exact ⟨_, rfl⟩
  next hgas =>
    refine absurd ⟨?_, not_lt.mp hfunds, UInt64.not_lt.mp hgas⟩ h
    exact UInt64.le_antisymm (UInt64.not_lt.mp hhigh) (UInt64.not_lt.mp hlow)

/-! ## The execution -/

theorem startingGas_le {world : World}
    (h : startingGas chain header sender tx world = .ok gas) : gas.toNat ≤ tx.gas.toNat := by
  obtain ⟨intrinsic, _, h⟩ := Outcome.bind_ok.mp h
  split at h
  next => cases h
  next hge =>
  split at h
  next =>
    cases h
    rw [UInt64.toNat_sub_of_le _ _ (UInt64.not_lt.mp hge)]
    exact Nat.sub_le ..
  next => cases h

theorem runEVM_le (world : World) (gas : UInt64) :
    (runEVM chain header sender tx world gas).gas ≤ gas := by
  unfold runEVM
  dsimp only
  split
  next => exact chain.evm.create_le
  next => exact chain.evm.call_le

/-- The gas that is left after the refund. -/
def leftGas (chain : Chain World) (tx : Tx) (execution : Execution World) : UInt64 :=
  execution.gas + refundOf chain tx execution

theorem leftGas_le (chain : Chain World) (h : execution.gas.toNat ≤ tx.gas.toNat) :
    (leftGas chain tx execution).toNat ≤ tx.gas.toNat := by
  have hrefund : (refundOf chain tx execution).toNat ≤ (tx.gas.toNat - execution.gas.toNat) / 2 := by
    have hhalf : ((tx.gas - execution.gas) / 2).toNat =
        (tx.gas.toNat - execution.gas.toNat) / 2 := by
      rw [UInt64.toNat_div, UInt64.toNat_sub_of_le _ _ (UInt64.le_iff_toNat_le.mpr h)]
      rfl
    unfold refundOf
    dsimp only
    split
    next hlt => rw [← hhalf]; exact (UInt64.lt_iff_toNat_lt.mp hlt).le
    next => rw [hhalf]
  rw [leftGas, UInt64.toNat_add]
  omega

/-- What an execution that starts comes to: it does not depend on the pool. -/
def outcome (chain : Chain World) (header : Header) (sender : Address) (tx : Tx) (world : World)
    (gas : UInt64) : ExecutionResult × World :=
  let execution := runEVM chain header sender tx world gas
  let left := leftGas chain tx execution
  (⟨tx.gas - left, execution.failed⟩,
    chain.db.addBalance (chain.db.addBalance execution.world sender (feeOf tx left))
      SystemAddress (feeOf tx (tx.gas - left)))

theorem addGas_returned {gasPool left : UInt64} (hgas : tx.gas ≤ gasPool)
    (hleft : left.toNat ≤ tx.gas.toNat) :
    addGas (gasPool - tx.gas) left = some (gasPool - (tx.gas - left)) := by
  have hpool := UInt64.toNat_sub_of_le _ _ hgas
  have hused := UInt64.toNat_sub_of_le _ _ (UInt64.le_iff_toNat_le.mpr hleft)
  have hle := UInt64.le_iff_toNat_le.mp hgas
  have hlt := gasPool.toNat_lt
  have hroom : ¬ headroom left < (gasPool - tx.gas).toNat := by
    rw [headroom, hpool]
    omega
  rw [addGas, if_neg hroom]
  congr 1
  apply UInt64.toNat_inj.mp
  have hsub : (tx.gas - left) ≤ gasPool := UInt64.le_iff_toNat_le.mpr (by omega)
  rw [UInt64.toNat_add, hpool, UInt64.toNat_sub_of_le _ _ hsub, hused]
  omega

/-- A transaction that may not buy its gas changes nothing. -/
theorem transitionDb_refused (header : Header) (h : ¬ Admitted chain sender tx s) :
    ∃ e, transitionDb chain header sender tx s = (.error e, s) := by
  obtain ⟨e, he⟩ := preCheck_refused h
  exact ⟨e, by simp only [transitionDb, he]⟩

/-- One that fails later has taken its gas from the pool. -/
theorem transitionDb_failed (h : Admitted chain sender tx s) {e : CoreErr}
    (hstart : startingGas chain header sender tx (bought chain sender tx s).world = .error e) :
    transitionDb chain header sender tx s = (.error e, bought chain sender tx s) := by
  simp only [transitionDb, preCheck_admitted h, hstart]

/-- One that is executed takes from the pool what it used. -/
theorem transitionDb_executed (h : Admitted chain sender tx s)
    (hstart : startingGas chain header sender tx (bought chain sender tx s).world = .ok gas) :
    let r := outcome chain header sender tx (bought chain sender tx s).world gas
    transitionDb chain header sender tx s = (.ok r.1, ⟨r.2, s.gasPool - r.1.usedGas⟩) := by
  have hle : (runEVM chain header sender tx (bought chain sender tx s).world gas).gas.toNat ≤
      tx.gas.toNat :=
    (UInt64.le_iff_toNat_le.mp (runEVM_le _ gas)).trans (startingGas_le hstart)
  have hadd : addGas (bought chain sender tx s).gasPool _ = _ :=
    addGas_returned h.gas (leftGas_le chain hle)
  simp only [leftGas] at hadd
  simp only [transitionDb, preCheck_admitted h, hstart, refundGas, hadd, Option.map_some, payFee,
    outcome, leftGas]

theorem outcome_usedGas_le {world : World} (hgas : gas.toNat ≤ tx.gas.toNat) :
    (outcome chain header sender tx world gas).1.usedGas.toNat ≤ tx.gas.toNat := by
  have hle : (runEVM chain header sender tx world gas).gas.toNat ≤ tx.gas.toNat :=
    (UInt64.le_iff_toNat_le.mp (runEVM_le _ gas)).trans hgas
  have hleft := leftGas_le chain hle
  simp only [outcome]
  rw [UInt64.toNat_sub_of_le _ _ (UInt64.le_iff_toNat_le.mpr hleft)]
  exact Nat.sub_le ..

end

end Dexit.Miner
