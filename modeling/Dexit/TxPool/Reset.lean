import Dexit.TxPool.Pool
import Dexit.TxPool.ReorgLoop

/-!
# Head resets

`reset` and `runReorg` (core/tx_pool.go). The pool sees the chain as blocks by hash
and number, states by root, and the fork rules. A block under a number has that
number, so the walks to the common ancestor are counted by the numbers; the parent of
a block with number 0 is asked for under 2^64 - 1, where there is none. The source
panics if the block of the new head is missing, which is an early return here.
The events that a run sends are left out.
-/

namespace Dexit.TxPool

open Go

variable {H Addr Tx : Type}

structure Header (H : Type) where
  hash : H
  parentHash : H
  number : ℕ
  root : H
  gasLimit : ℕ

structure Block (H Tx : Type) where
  hash : H
  parentHash : H
  number : ℕ
  txs : List Tx

/-- What the pool asks of the chain and its configuration. -/
structure Chain (H Addr Tx : Type) where
  getBlock : H → ℕ → Option (Block H Tx)
  stateAt : H → Option (StateDB Addr)
  isIstanbul : ℕ → Bool
  isBerlin : ℕ → Bool

namespace Chain

variable (c : Chain H Addr Tx)

/-- Goes down from a block, with the transactions of the blocks it leaves. -/
def descend : ℕ → Block H Tx → Option (List Tx × Block H Tx)
  | 0, b => some ([], b)
  | k + 1, b =>
    (c.getBlock b.parentHash (b.number - 1)).bind fun parent =>
      (descend k parent).map fun r => (b.txs ++ r.1, r.2)

variable [DecidableEq H]

/-- Goes down from two blocks of the same number to their common ancestor. -/
def meet : ℕ → Block H Tx → Block H Tx → Option (List Tx × List Tx)
  | 0, rem, add => if rem.hash = add.hash then some ([], []) else none
  | n + 1, rem, add =>
    if rem.hash = add.hash then some ([], [])
    else
      (c.getBlock rem.parentHash (rem.number - 1)).bind fun rem' =>
        (c.getBlock add.parentHash (add.number - 1)).bind fun add' =>
          (meet n rem' add').map fun r => (rem.txs ++ r.1, add.txs ++ r.2)

variable [DecidableEq Tx]

/-- The transactions that leave the chain with the old head; `none` where `reset`
returns. -/
def reinject (oldHead : Option (Header H)) (newHead : Header H) : Option (List Tx) :=
  match oldHead with
  | none => some []
  | some oldHead =>
    if oldHead.hash = newHead.parentHash then some []
    else if (oldHead.number - newHead.number) + (newHead.number - oldHead.number) > 64 then some []
    else
      match c.getBlock oldHead.hash oldHead.number with
      | none => if newHead.number ≥ oldHead.number then none else some []
      | some rem =>
        (c.getBlock newHead.hash newHead.number).bind fun add =>
          (c.descend (rem.number - add.number) rem).bind fun r =>
            (c.descend (add.number - rem.number) add).bind fun a =>
              (c.meet r.2.number r.2 a.2).map fun m =>
                -- `TxDifference` of what was discarded and what is included
                (r.1 ++ m.1).filter fun tx => tx ∉ a.1 ++ m.2

end Chain

namespace Pool

variable [DecidableEq H] [DecidableEq Addr] [DecidableEq Tx] (A : Attrs Addr Tx) (c : Chain H Addr Tx)

/-- The pool under another state. -/
def withState (pool : Pool Addr Tx) (state : StateDB Addr) (maxGas : ℕ) : Pool Addr Tx :=
  { pool with currentState := state, pendingNonces := .new state, currentMaxGas := maxGas }

/-- The part of `reset` behind the walk. -/
def setHead (pool : Pool Addr Tx) (newHead : Header H) (state : StateDB Addr) (txs : List Tx) : Pool Addr Tx :=
  { ((pool.withState state newHead.gasLimit).addTxsLocked A txs false).1 with
    istanbul := c.isIstanbul (newHead.number + 1), eip2718 := c.isBerlin (newHead.number + 1) }

def reset (pool : Pool Addr Tx) (oldHead : Option (Header H)) (newHead : Header H) : Pool Addr Tx :=
  match c.reinject oldHead newHead, c.stateAt newHead.root with
  | some txs, some state => pool.setHead A c newHead state txs
  | _, _ => pool

/-- The nonce after the last pending transaction of an account. `LastElement` panics on
an empty list, of which there is none. -/
def pendingEnd (pool : Pool Addr Tx) (addr : Addr) : Option ℕ :=
  (pool.pending.lookup addr).bind fun list =>
    (list.txs.lastElement A).map fun last => (A.nonce last + 1) % 2 ^ 64

/-- The loop that updates all accounts to the latest known pending nonce. -/
def syncNonces (pool : Pool Addr Tx) : Pool Addr Tx :=
  { pool with
    pendingNonces := pool.pending.keys.foldl (fun ns addr =>
      match pool.pendingEnd A addr with
      | none => ns
      | some nonce => ns.set addr nonce) pool.pendingNonces }

def runReorg (pool : Pool Addr Tx) (req : Option (ResetRequest (Header H)))
    (dirtyAccounts : Option (StructSet Addr)) : Pool Addr Tx :=
  match req with
  | some r =>
    let pool := pool.reset A c (some r.oldHead) r.newHead
    let pool := ((pool.promoteExecutables A pool.queue.keys).1).demoteUnexecutables A
    ((pool.truncatePending A).truncateQueue A).syncNonces A
  | none =>
    let promoteAddrs := (dirtyAccounts.map AList.keys).getD []
    let pool := (pool.promoteExecutables A promoteAddrs).1
    ((pool.truncatePending A).truncateQueue A).syncNonces A

end Pool

end Dexit.TxPool
