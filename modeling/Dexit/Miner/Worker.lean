import Dexit.Miner.StateTransition
import Dexit.Types.PriceAndNonce

/-!
# Filling a block

The miner offers transactions to the block one after the other. One that fails
is undone in the state database, by a revert to the snapshot taken before it,
and the next one is tried. The state is what the getters of the database show,
so that a snapshot is the state itself.
-/

namespace Dexit.Miner

open Parlia Types

/-- The gas reserved for the system transactions. -/
def SystemTxsGas : UInt64 := 500000

/-- The block under construction; `gasUsed` is that of its header. -/
structure Work (World : Type) where
  world : World
  gasPool : UInt64
  gasUsed : UInt64
  txs : List Tx
  receipts : List Receipt
  tcount : ℕ

/-- Only the newest signer knows typed transactions. -/
def supports (signer : Signer) (tx : Tx) : Bool :=
  match signer, tx.type with
  | .eip2930Signer _, _ => true
  | _, .LegacyTxType => true
  | _, .AccessListTxType => false

section
variable {World : Type} (chain : Chain World) (header : Header)

/-- The gas kept back for the system transactions. -/
def reserve : UInt64 := if chain.isEuler header.number then SystemTxsGas * 3 else SystemTxsGas

/-- The pool of a new block. Where the limit is below the reserve the
subtraction fails, and its error is ignored. -/
def initialPool : UInt64 := (subGas header.gasLimit (reserve chain header)).toOption.getD header.gasLimit

/-- The block before its first transaction. -/
def makeCurrent (world : World) : Work World where
  world := world
  gasPool := initialPool chain header
  gasUsed := 0
  txs := []
  receipts := []
  tcount := 0

def asMessage (tx : Tx) : Except CoreErr Address :=
  match (chain.signer header.number).sender chain.pubkeyAddress tx with
  | some sender => .ok sender
  | none =>
    if supports (chain.signer header.number) tx then .error .invalidSender
    else .error .txTypeNotSupported

/-- The receipt of an executed transaction; `world` is the state it left. -/
def receiptOf (w : Work World) (sender : Address) (tx : Tx) (usedGas : UInt64) (world : World) :
    Receipt where
  postState := (close chain.toNetwork header world).2
  cumulativeGasUsed := w.gasUsed + usedGas
  txHash := tx
  gasUsed := usedGas
  logs := chain.getLogs (close chain.toNetwork header world).1 tx
  blockNumber := header.number
  transactionIndex := w.tcount
  contractAddress := if tx.recipient.isNone then chain.createAddress sender tx.nonce else 0

/-- The block with an executed transaction appended. -/
def included (w : Work World) (sender : Address) (tx : Tx) (usedGas : UInt64)
    (s : Machine World) : Work World where
  world := (close chain.toNetwork header s.world).1
  gasPool := s.gasPool
  gasUsed := w.gasUsed + usedGas
  txs := w.txs ++ [tx]
  receipts := w.receipts ++ [receiptOf chain header w sender tx usedGas s.world]
  tcount := w.tcount + 1

/-- `commitTransaction`: an error puts the state back, and only the state. -/
def commitTransaction (w : Work World) (tx : Tx) : Except CoreErr Unit × Work World :=
  match asMessage chain header tx with
  | .error e => (.error e, w)
  | .ok sender =>
    match transitionDb chain header sender tx ⟨w.world, w.gasPool⟩ with
    | (.error e, s) => (.error e, { w with gasPool := s.gasPool })
    | (.ok result, s) => (.ok (), included chain header w sender tx result.usedGas s)

/-- Whether the loop goes on with the transaction: there is gas for it and its
replay protection is in force. -/
def tried (w : Work World) (tx : Tx) : Bool :=
  decide (TxGas ≤ w.gasPool) && !(tx.isProtected && !chain.isEIP155 header.number)

def prepared (w : Work World) (tx : Tx) : Work World :=
  { w with world := chain.prepare w.world tx w.tcount }

/-- One transaction that is offered to the loop. -/
def step (w : Work World) (tx : Tx) : Work World :=
  if tried chain header w tx then (commitTransaction chain header (prepared chain w tx) tx).2
  else w

/-- The loop over the transactions that are offered to it, in their order. -/
def run (w : Work World) (offered : List Tx) : Work World := offered.foldl (step chain header) w

end

/-! ## The loop and its queue -/

section
variable {World : Type} (chain : Chain World) (header : Header) (A : Bids Address Tx)

/-- What becomes of the account after one of its transactions. -/
def advance (txs : TxSet Address Tx) (r : Except CoreErr Unit) : TxSet Address Tx :=
  -- neither operation panics where there is a transaction
  match r with
  | .error .gasLimitReached => (txs.pop A).getD txs
  | .error .nonceTooHigh => (txs.pop A).getD txs
  | .error .txTypeNotSupported => (txs.pop A).getD txs
  | _ => (txs.shift A).getD txs

section
variable {txs : TxSet Address Tx} {tx : Tx} (h : txs.peek = some tx)
include h

theorem pop_lt : ((txs.pop A).getD txs).size < txs.size := by
  obtain ⟨rest, hpop⟩ := TxSet.pop_of_peek A h
  rw [hpop]
  exact TxSet.size_pop A hpop

theorem advance_lt (r : Except CoreErr Unit) : (advance A txs r).size < txs.size := by
  unfold advance
  split
  · exact pop_lt A h
  · exact pop_lt A h
  · exact pop_lt A h
  · obtain ⟨rest, hshift⟩ := TxSet.shift_of_peek A h
    rw [hshift]
    exact TxSet.size_shift A hshift

end

/-- `commitTransactions`; an interrupt or the timer may end it at any time. -/
def commitTransactions (interrupted : TxSet Address Tx → Bool) (txs : TxSet Address Tx)
    (w : Work World) : Work World :=
  if interrupted txs then w
  else if w.gasPool < TxGas then w
  else
    match _h : txs.peek with
    | none => w
    | some tx =>
      if tx.isProtected && !chain.isEIP155 header.number then
        commitTransactions interrupted ((txs.pop A).getD txs) w
      else
        let committed := commitTransaction chain header (prepared chain w tx) tx
        commitTransactions interrupted (advance A txs committed.1) committed.2
termination_by txs.size
decreasing_by
  · exact pop_lt A _h
  · exact advance_lt A _h _

/-- Whatever the interrupts are, the loop is a run over some transactions. -/
theorem commitTransactions_run (interrupted : TxSet Address Tx → Bool) (txs : TxSet Address Tx)
    (w : Work World) : ∃ offered, commitTransactions chain header A interrupted txs w =
      run chain header w offered := by
  fun_induction commitTransactions chain header A interrupted txs w with
  | case1 => exact ⟨[], rfl⟩
  | case2 => exact ⟨[], rfl⟩
  | case3 => exact ⟨[], rfl⟩
  | case4 txs w _ _ tx _ _ ih => exact ih
  | case5 txs w _ hgas tx _ hprotected committed ih =>
    obtain ⟨offered, hoffered⟩ := ih
    refine ⟨tx :: offered, ?_⟩
    have htried : tried chain header w tx = true := by
      simp only [tried, Bool.and_eq_true, decide_eq_true_eq, Bool.not_eq_true']
      exact ⟨UInt64.not_lt.mp hgas, by simpa using hprotected⟩
    rw [hoffered, run, run, List.foldl_cons, step, if_pos htried]

end

end Dexit.Miner
