import Dexit.TxPool.Lookup
import Dexit.TxPool.TxList

/-!
# The transaction pool

`TxPool` (core/tx_pool.go): the pending and queued transactions of each account, the
lookup of all transactions, the priced list and the virtual nonces, with the
operations that move transactions between them. An operation runs under the pool's
lock from its start to its end, so it is a function here.

A list is written back to its map once it is done with, where the source changes it
in place. Meters, gauges, logs, the journal and the feed
are left out, and so is `queueTxEvent`, which the loop of `runReorg` is about.
-/

namespace Dexit.TxPool

open Go

variable {Addr Tx : Type}

/-- `TxPoolConfig`, as far as the operations read it. -/
structure Config where
  priceBump : ℕ
  accountSlots : ℕ
  globalSlots : ℕ
  accountQueue : ℕ
  globalQueue : ℕ

/-- `sanitize`. -/
def Config.sanitize (c : Config) : Config where
  priceBump := if c.priceBump < 1 then 10 else c.priceBump
  accountSlots := if c.accountSlots < 1 then 16 else c.accountSlots
  globalSlots := if c.globalSlots < 1 then 4096 else c.globalSlots
  accountQueue := if c.accountQueue < 1 then 64 else c.accountQueue
  globalQueue := if c.globalQueue < 1 then 1024 else c.globalQueue

theorem Config.one_le_accountSlots (c : Config) : 1 ≤ c.sanitize.accountSlots := by
  unfold sanitize
  dsimp only
  split <;> omega

def Config.capacity (c : Config) : ℕ := c.globalSlots + c.globalQueue

/-- What is read of a state. -/
structure StateDB (Addr : Type) where
  nonce : Addr → ℕ
  balance : Addr → ℕ

/-- `txNoncer`. That `get` remembers what it has read changes no answer. -/
structure Noncer (Addr : Type) where
  fallback : StateDB Addr
  nonces : Map Addr ℕ

namespace Noncer

variable [DecidableEq Addr]

def new (state : StateDB Addr) : Noncer Addr := ⟨state, ∅⟩

def get (ns : Noncer Addr) (addr : Addr) : ℕ := (ns.nonces.lookup addr).getD (ns.fallback.nonce addr)

def set (ns : Noncer Addr) (addr : Addr) (nonce : ℕ) : Noncer Addr :=
  { ns with nonces := ns.nonces.insert addr nonce }

def setIfLower (ns : Noncer Addr) (addr : Addr) (nonce : ℕ) : Noncer Addr :=
  if ns.get addr ≤ nonce then ns else ns.set addr nonce

theorem get_set (ns : Noncer Addr) (addr a : Addr) (nonce : ℕ) :
    (ns.set addr nonce).get a = if a = addr then nonce else ns.get a := by
  unfold get set
  split
  · next h => subst h; rw [AList.lookup_insert, Option.getD_some]
  · next h => rw [AList.lookup_insert_ne h]

theorem get_setIfLower (ns : Noncer Addr) (addr a : Addr) (nonce : ℕ) :
    (ns.setIfLower addr nonce).get a = if a = addr then min (ns.get a) nonce else ns.get a := by
  unfold setIfLower
  split
  · next hle =>
    split
    · next h => subst h; exact (min_eq_left hle).symm
    · rfl
  · rw [get_set]
    split
    · next h => subst h; exact (min_eq_right (by omega)).symm
    · rfl

end Noncer

inductive PoolErr where
  | alreadyKnown
  | txTypeNotSupported
  | oversizedData
  | negativeValue
  | gasLimit
  | invalidSender
  | underpriced
  | nonceTooLow
  | insufficientFunds
  | gasUintOverflow
  | intrinsicGas
  | txPoolOverflow
  | replaceUnderpriced
  deriving DecidableEq, Repr

/-- `TxPool`; `now` is what `time.Now` returns next. -/
structure Pool (Addr Tx : Type) where
  config : Config
  gasPrice : ℕ
  istanbul : Bool
  eip2718 : Bool
  currentState : StateDB Addr
  pendingNonces : Noncer Addr
  currentMaxGas : ℕ
  locals : StructSet Addr
  pending : Map Addr (TxList Tx)
  queue : Map Addr (TxList Tx)
  beats : Map Addr ℕ
  all : Lookup Tx
  priced : PricedList Tx
  now : ℕ

/-- What an empty pool is made with. -/
structure Setup (Addr : Type) where
  config : Config
  gasPrice : ℕ
  istanbul : Bool
  eip2718 : Bool
  state : StateDB Addr
  maxGas : ℕ
  locals : StructSet Addr
  now : ℕ

/-- A pool without transactions. -/
def Setup.empty (s : Setup Addr) : Pool Addr Tx where
  config := s.config
  gasPrice := s.gasPrice
  istanbul := s.istanbul
  eip2718 := s.eip2718
  currentState := s.state
  pendingNonces := ⟨s.state, ∅⟩
  currentMaxGas := s.maxGas
  locals := s.locals
  pending := ∅
  queue := ∅
  beats := ∅
  all := .new
  priced := ⟨[], 0⟩
  now := s.now

/-- The pool that `NewTxPool` makes. -/
def Setup.newTxPool (s : Setup Addr) : Pool Addr Tx := { s with config := s.config.sanitize }.empty

/-- `txMaxSize`. -/
def txMaxSize : ℕ := 4 * txSlotSize

namespace Pool

variable [DecidableEq Addr] [DecidableEq Tx] (A : Attrs Addr Tx)
variable (pool : Pool Addr Tx)

def validateTx (tx : Tx) (isLocal : Bool) : Except PoolErr Unit :=
  if !pool.eip2718 && !A.legacy tx then .error .txTypeNotSupported
  else if A.size tx > txMaxSize then .error .oversizedData
  else if A.value tx < 0 then .error .negativeValue
  else if pool.currentMaxGas < A.gas tx then .error .gasLimit
  else if !A.signed tx then .error .invalidSender
  else if !isLocal && decide (A.gasPrice tx < pool.gasPrice) then .error .underpriced
  else if pool.currentState.nonce (A.sender tx) > A.nonce tx then .error .nonceTooLow
  else if (pool.currentState.balance (A.sender tx) : ℤ) < A.cost tx then .error .insufficientFunds
  else
    match A.intrinsicGas tx pool.istanbul with
    | none => .error .gasUintOverflow
    | some intrGas => if A.gas tx < intrGas then .error .intrinsicGas else .ok ()

/-- `pool.locals.containsTx`. -/
def containsTx (tx : Tx) : Bool :=
  A.signed tx && decide (A.sender tx ∈ pool.locals)

/-- `pool.priced.Removed`. -/
def removed (count : ℕ) : Pool Addr Tx :=
  { pool with priced := pool.priced.removed A pool.all count }

/-- Drops a transaction that was replaced. -/
def forget : Option Tx → Pool Addr Tx
  | none => pool
  | some old => removed A { pool with all := pool.all.remove A old } 1

/-- Adds a transaction to the lookup and the priced list. -/
def record (tx : Tx) (isLocal : Bool) : Pool Addr Tx :=
  { pool with all := pool.all.add A tx isLocal, priced := pool.priced.put A tx isLocal }

def enqueueTx (tx : Tx) (isLocal addAll : Bool) : Pool Addr Tx × Except PoolErr Bool :=
  let src := A.sender tx
  let list := (pool.queue.lookup src).getD (.new false)
  match list.add A tx pool.config.priceBump with
  | none => ({ pool with queue := pool.queue.insert src list }, .error .replaceUnderpriced)
  | some (old, list) =>
    let pool := forget A { pool with queue := pool.queue.insert src list } old
    let pool := if addAll then pool.record A tx isLocal else pool
    ({ pool with beats := if src ∈ pool.beats then pool.beats else pool.beats.insert src pool.now },
      .ok old.isSome)

def promoteTx (addr : Addr) (tx : Tx) : Pool Addr Tx × Bool :=
  let list := (pool.pending.lookup addr).getD (.new true)
  match list.add A tx pool.config.priceBump with
  | none =>
    (removed A { pool with pending := pool.pending.insert addr list, all := pool.all.remove A tx } 1, false)
  | some (old, list) =>
    let pool := forget A { pool with pending := pool.pending.insert addr list } old
    ({ pool with
        pendingNonces := pool.pendingNonces.set addr ((A.nonce tx + 1) % 2 ^ 64)
        beats := pool.beats.insert addr pool.now }, true)

/-- Promotes transactions one by one, with those that were accepted. -/
def promoteEach (addr : Addr) (txs : List Tx) : Pool Addr Tx × List Tx :=
  txs.foldl (fun r tx =>
    let s := r.1.promoteTx A addr tx
    (s.1, if s.2 then r.2 ++ [tx] else r.2)) (pool, [])

/-- The part of `removeTx` for a transaction that is not pending. -/
def removeQueued (addr : Addr) (tx : Tx) : Pool Addr Tx :=
  match pool.queue.lookup addr with
  | none => pool
  | some future =>
    let future := (future.remove A tx).2.2
    if future.isEmpty then
      { pool with queue := pool.queue.erase addr, beats := pool.beats.erase addr }
    else { pool with queue := pool.queue.insert addr future }

/-- Moves transactions back to the queue. -/
def requeue (txs : List Tx) : Pool Addr Tx :=
  txs.foldl (fun pool tx => (pool.enqueueTx A tx false false).1) pool

/-- Stores a list of pending transactions, unless it is empty. -/
def setPending (addr : Addr) (list : TxList Tx) : Pool Addr Tx :=
  { pool with
    pending := if list.isEmpty then pool.pending.erase addr else pool.pending.insert addr list }

/-- The part of `removeTx` behind the lookup. -/
def unlist (addr : Addr) (tx : Tx) : Pool Addr Tx :=
  match pool.pending.lookup addr with
  | none => pool.removeQueued A addr tx
  | some pending =>
    let r := pending.remove A tx
    if r.1 then
      let pool := (pool.setPending addr r.2.2).requeue A r.2.1
      { pool with pendingNonces := pool.pendingNonces.setIfLower addr (A.nonce tx) }
    else pool.removeQueued A addr tx

def removeTx (tx : Tx) (outofbound : Bool) : Pool Addr Tx :=
  if pool.all.Has tx then
    let pool := { pool with all := pool.all.remove A tx }
    (if outofbound then pool.removed A 1 else pool).unlist A (A.sender tx) tx
  else pool

def removeEach (txs : List Tx) (outofbound : Bool) : Pool Addr Tx :=
  txs.foldl (fun pool tx => pool.removeTx A tx outofbound) pool

/-- What `add` does where the pool is full: nothing else is dropped than what is
cheaper. -/
def makeRoom (tx : Tx) (isLocal : Bool) : Pool Addr Tx × Option PoolErr :=
  if pool.all.count + A.numSlots tx > pool.config.capacity then
    let u := if isLocal then (false, pool.priced) else pool.priced.underpriced A pool.all tx
    let pool := { pool with priced := u.2 }
    if u.1 then (pool, some .underpriced)
    else
      let r := pool.priced.discard A pool.all (pool.all.slots - pool.config.capacity + A.numSlots tx) isLocal
      let pool := { pool with priced := r.2 }
      match r.1 with
      | none => (pool, some .txPoolOverflow)
      | some drop => (pool.removeEach A drop false, none)
  else (pool, none)

/-- `pool.locals.add`, with the migration of what the account has sent before. -/
def markLocal (addr : Addr) : Pool Addr Tx :=
  let pool := { pool with locals := pool.locals.insert addr () }
  let r := pool.all.remoteToLocals (pool.containsTx A)
  removed A { pool with all := r.2 } r.1

/-- The part of `add` behind the checks. -/
def place (tx : Tx) (isLocal asLocal : Bool) : Pool Addr Tx × Except PoolErr Bool :=
  let src := A.sender tx
  match (pool.pending.lookup src).filter (·.overlaps A tx) with
  | some list =>
    match list.add A tx pool.config.priceBump with
    | none => (pool, .error .replaceUnderpriced)
    | some (old, list) =>
      let pool := (forget A { pool with pending := pool.pending.insert src list } old).record A tx asLocal
      ({ pool with beats := pool.beats.insert src pool.now }, .ok old.isSome)
  | none =>
    let r := pool.enqueueTx A tx asLocal true
    match r.2 with
    | .error e => (r.1, .error e)
    | .ok replaced =>
      (if isLocal && decide (src ∉ r.1.locals) then r.1.markLocal A src else r.1, .ok replaced)

def add (tx : Tx) (isLocal : Bool) : Pool Addr Tx × Except PoolErr Bool :=
  if pool.all.Has tx then (pool, .error .alreadyKnown)
  else
    let asLocal := isLocal || pool.containsTx A tx
    match pool.validateTx A tx asLocal with
    | .error e => (pool, .error e)
    | .ok () =>
      let r := pool.makeRoom A tx asLocal
      match r.2 with
      | some e => (r.1, .error e)
      | none => r.1.place A tx isLocal asLocal

/-- `addTxsLocked`, with the senders of what is new. -/
def addTxsLocked (txs : List Tx) (isLocal : Bool) : Pool Addr Tx × StructSet Addr :=
  txs.foldl (fun r tx =>
    let s := r.1.add A tx isLocal
    (s.1, match s.2 with
      | .ok false => if A.signed tx then r.2.insert (A.sender tx) () else r.2
      | _ => r.2)) (pool, ∅)

/-- `SetGasPrice`. -/
def setGasPrice (price : ℕ) : Pool Addr Tx :=
  let r := PricedList.cap A pool.all price pool.priced
  removeEach A { pool with gasPrice := price, priced := r.2 } r.1 false

/-- Stores a list of queued transactions and drops others from the lookup. -/
def setQueue (addr : Addr) (list : TxList Tx) (drops : List Tx) : Pool Addr Tx :=
  { pool with queue := pool.queue.insert addr list, all := pool.all.removeAll A drops }

/-- What `promoteExecutables` takes out of a queue: what is too old or cannot be paid, and
what is ready. -/
def sift (addr : Addr) (list : TxList Tx) : List Tx × List Tx × TxList Tx :=
  let forwards := list.forward (pool.currentState.nonce addr)
  let drops := forwards.2.filter A (pool.currentState.balance addr) pool.currentMaxGas
  let readies := drops.2.2.ready (pool.pendingNonces.get addr)
  (forwards.1 ++ drops.1, readies)

/-- Cuts the queue of an account to its allowance, after others were dropped from it. -/
def cutQueue (addr : Addr) (list : TxList Tx) (dropped : ℕ) : Pool Addr Tx :=
  let caps := if addr ∈ pool.locals then ([], list) else list.cap pool.config.accountQueue
  let pool := (pool.setQueue A addr caps.2 caps.1).removed A (dropped + caps.1.length)
  if caps.2.isEmpty then
    { pool with queue := pool.queue.erase addr, beats := pool.beats.erase addr }
  else pool

/-- The body of the loop of `promoteExecutables`, with what is promoted. -/
def promoteAccount (addr : Addr) : Pool Addr Tx × List Tx :=
  match pool.queue.lookup addr with
  | none => (pool, [])
  | some list =>
    let r := pool.sift A addr list
    let s := (pool.setQueue A addr r.2.2 r.1).promoteEach A addr r.2.1
    (s.1.cutQueue A addr r.2.2 r.1.length, s.2)

def promoteExecutables (accounts : List Addr) : Pool Addr Tx × List Tx :=
  accounts.foldl (fun r addr =>
    let s := r.1.promoteAccount A addr
    (s.1, r.2 ++ s.2)) (pool, [])

/-- The number of pending transactions of an account. -/
def pendingLen (addr : Addr) : ℕ := ((pool.pending.lookup addr).map TxList.len).getD 0

/-- Drops the last pending transaction of an account. -/
def trim (addr : Addr) : Pool Addr Tx :=
  match pool.pending.lookup addr with
  | none => pool
  | some list =>
    let caps := list.cap (list.len - 1)
    removed A
      { pool with
        pending := pool.pending.insert addr caps.2
        all := pool.all.removeAll A caps.1
        pendingNonces := caps.1.foldl (fun ns tx => ns.setIfLower addr (A.nonce tx)) pool.pendingNonces }
      caps.1.length

def trimEach (offenders : List Addr) : Pool Addr Tx := offenders.foldl (trim A) pool

/-- The two loops of `truncatePending` that trim a number of accounts until there are
few enough pending transactions, or `last` has no more than `threshold`. -/
def trimAll (offenders : List Addr) (last : Addr) (threshold : ℕ) (pending : ℕ) (pool : Pool Addr Tx) :
    ℕ × Pool Addr Tx :=
  if pool.config.globalSlots < pending ∧ threshold < pool.pendingLen last ∧ offenders ≠ [] then
    trimAll offenders last threshold (pending - offenders.length) (pool.trimEach A offenders)
  else (pending, pool)
termination_by pending
decreasing_by
  rename_i h
  have := List.length_pos_iff.mpr h.2.2
  omega

/-- Cuts the offenders so far down to what the next one has. -/
def level (offender : Addr) (offenders : List Addr) (pending : ℕ) (pool : Pool Addr Tx) : ℕ × Pool Addr Tx :=
  match offenders with
  | [] => (pending, pool)
  | last :: _ => trimAll A offenders.reverse last (pool.pendingLen offender) pending pool

/-- The loop of `truncatePending` over the spammers, which the priority queue hands
out by the number of their transactions. The offenders are in reverse order. -/
def equalize : List Addr → List Addr → ℕ → Pool Addr Tx → List Addr × ℕ × Pool Addr Tx
  | [], offenders, pending, pool => (offenders, pending, pool)
  | offender :: spammers, offenders, pending, pool =>
    if pool.config.globalSlots < pending then
      let r := level A offender offenders pending pool
      equalize spammers (offender :: offenders) r.1 r.2
    else (offenders, pending, pool)

/-- The accounts over their allowance, the largest first. -/
def spammers : List Addr :=
  (pool.pending.keys.filter fun addr =>
    decide (addr ∉ pool.locals) && decide (pool.config.accountSlots < pool.pendingLen addr)).mergeSort
      fun a b => pool.pendingLen b ≤ pool.pendingLen a

def truncatePending : Pool Addr Tx :=
  let pending := (pool.pending.keys.map pool.pendingLen).sum
  if pending ≤ pool.config.globalSlots then pool
  else
    let r := equalize A pool.spammers [] pending pool
    match r.1 with
    | [] => r.2.2
    | last :: _ => (trimAll A r.1.reverse last pool.config.accountSlots r.2.1 r.2.2).2

/-- The loop of `truncateQueue` over the accounts, the last one first. -/
def truncateAccounts : List Addr → ℕ → Pool Addr Tx → Pool Addr Tx
  | [], _, pool => pool
  | addr :: addresses, drop, pool =>
    if drop = 0 then pool
    else
      match pool.queue.lookup addr with
      | none => truncateAccounts addresses drop pool
      | some list =>
        if list.len ≤ drop then
          truncateAccounts addresses (drop - list.len) (pool.removeEach A (list.flatten A) true)
        else
          truncateAccounts addresses 0 (pool.removeEach A ((list.flatten A).reverse.take drop) true)

def truncateQueue : Pool Addr Tx :=
  let queued := (pool.queue.keys.map fun addr => ((pool.queue.lookup addr).map TxList.len).getD 0).sum
  if queued ≤ pool.config.globalQueue then pool
  else
    let addresses := (pool.queue.keys.filter fun addr => addr ∉ pool.locals).mergeSort fun a b =>
      (pool.beats.lookup a).getD 0 ≤ (pool.beats.lookup b).getD 0
    truncateAccounts A addresses.reverse (queued - pool.config.globalQueue) pool

/-- The body of the loop of `demoteUnexecutables`. -/
def demoteAccount (addr : Addr) : Pool Addr Tx :=
  match pool.pending.lookup addr with
  | none => pool
  | some list =>
    let nonce := pool.currentState.nonce addr
    let olds := list.forward nonce
    let drops := olds.2.filter A (pool.currentState.balance addr) pool.currentMaxGas
    -- a gap in front: the rest is postponed
    let gapped :=
      if 0 < drops.2.2.len ∧ (drops.2.2.txs.get nonce).isNone then drops.2.2.cap 0 else ([], drops.2.2)
    let pool := removed A { pool.setPending addr gapped.2 with
      all := pool.all.removeAll A (olds.1 ++ drops.1) } (olds.1.length + drops.1.length)
    (pool.requeue A drops.2.1).requeue A gapped.1

def demoteUnexecutables : Pool Addr Tx :=
  pool.pending.keys.foldl (demoteAccount A) pool

end Pool

end Dexit.TxPool
