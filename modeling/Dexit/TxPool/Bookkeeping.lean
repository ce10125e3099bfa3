import Dexit.TxPool.Admission
import Dexit.TxPool.Executables
import Dexit.TxPool.Truncate

/-!
# The books of the pool

The operations of the pool in any order, between which the head of the chain, the
minimal price and the time change. `Step.booked` says that each of them keeps
`Booked` and leaves no pending list empty; the rest is a run of such steps.
-/

namespace Dexit.TxPool

open Go

variable {Addr Tx : Type} [DecidableEq Addr] [DecidableEq Tx] (A : Attrs Addr Tx)

/-- What may happen to a pool. -/
inductive Op (Addr Tx : Type) where
  | add (tx : Tx) (isLocal : Bool)
  | removeTx (tx : Tx) (outofbound : Bool)
  | promoteExecutables (accounts : List Addr)
  | demoteUnexecutables
  | truncatePending
  | truncateQueue
  | setGasPrice (price : ℕ)
  /-- What `reset` sets before it adds transactions, and after it. -/
  | head (state : StateDB Addr) (maxGas : ℕ) (istanbul eip2718 : Bool)
  | clock (now : ℕ)
  /-- The loops over the maps go through them in any order. -/
  | shuffle (pending queue : Map Addr (TxList Tx))

/-- One operation. -/
inductive Step : Op Addr Tx → Pool Addr Tx → Pool Addr Tx → Prop where
  | add (pool : Pool Addr Tx) (tx : Tx) (isLocal : Bool) :
      Step (.add tx isLocal) pool (pool.add A tx isLocal).1
  | removeTx (pool : Pool Addr Tx) (tx : Tx) (outofbound : Bool) :
      Step (.removeTx tx outofbound) pool (pool.removeTx A tx outofbound)
  | promoteExecutables (pool : Pool Addr Tx) (accounts : List Addr) :
      Step (.promoteExecutables accounts) pool (pool.promoteExecutables A accounts).1
  | demoteUnexecutables (pool : Pool Addr Tx) : Step .demoteUnexecutables pool (pool.demoteUnexecutables A)
  | truncatePending (pool : Pool Addr Tx) : Step .truncatePending pool (pool.truncatePending A)
  | truncateQueue (pool : Pool Addr Tx) : Step .truncateQueue pool (pool.truncateQueue A)
  | setGasPrice (pool : Pool Addr Tx) (price : ℕ) : Step (.setGasPrice price) pool (pool.setGasPrice A price)
  | head (pool : Pool Addr Tx) (state : StateDB Addr) (maxGas : ℕ) (istanbul eip2718 : Bool) :
      Step (.head state maxGas istanbul eip2718) pool { pool with
        currentState := state, pendingNonces := .new state, currentMaxGas := maxGas,
        istanbul := istanbul, eip2718 := eip2718 }
  | clock (pool : Pool Addr Tx) (now : ℕ) : Step (.clock now) pool { pool with now := now }
  | shuffle (pool : Pool Addr Tx) (pending queue : Map Addr (TxList Tx))
      (hp : ∀ a, pending.lookup a = pool.pending.lookup a) (hq : ∀ a, queue.lookup a = pool.queue.lookup a) :
      Step (.shuffle pending queue) pool { pool with pending := pending, queue := queue }

/-- The pools that are reached by operations allowed by `ok`. -/
inductive Run (ok : Pool Addr Tx → Op Addr Tx → Prop) (start : Pool Addr Tx) : Pool Addr Tx → Prop where
  | start : Run ok start start
  | step {pool pool' : Pool Addr Tx} {op : Op Addr Tx} :
      Run ok start pool → ok pool op → Step A op pool pool' → Run ok start pool'

variable {A} {pool pool' : Pool Addr Tx} {op : Op Addr Tx}

omit [DecidableEq Tx] in
theorem stored_congr {m m' : Map Addr (TxList Tx)} (h : ∀ a, m'.lookup a = m.lookup a) (tx : Tx) :
    Stored A m' tx ↔ Stored A m tx := by
  rw [Stored, Stored, h]

omit [DecidableEq Tx] in
theorem Shelf.congr {strict : Bool} {m m' : Map Addr (TxList Tx)} (h : Shelf A strict m)
    (hm : ∀ a, m'.lookup a = m.lookup a) : Shelf A strict m' where
  wf := fun a l hl => h.wf a l ((hm a).symm.trans hl)
  strict := fun a l hl => h.strict a l ((hm a).symm.trans hl)

namespace Pool

omit [DecidableEq Tx] in
theorem booked_empty (s : Setup Addr) : Booked A (s.empty : Pool Addr Tx) where
  shelved := {
    left := Shelf.empty
    right := Shelf.empty
    mem := fun tx => iff_of_false (by rintro (h | h) <;> exact nomatch h) (by
      rintro (h | h | h)
      · exact not_stored_empty h
      · exact not_stored_empty h
      · exact nomatch h)
    unique := fun tx _ h => by rcases h with h | h <;> exact nomatch h
    apart := fun tx h => absurd h not_stored_empty
    left_apart := nofun
    right_apart := nofun
    nodup := List.nodup_nil }
  all := Lookup.wf_new

/-- What an operation that adds nothing keeps. -/
structure Shrinks (A : Attrs Addr Tx) (pool pool' : Pool Addr Tx) : Prop where
  booked : Booked A pool'
  config : pool'.config = pool.config
  locals : pool'.locals = pool.locals
  all : ∀ t, pool'.all.Has t → pool.all.Has t
  filled : 1 ≤ pool.config.accountSlots → Filled pool.pending → Filled pool'.pending

omit [DecidableEq Tx] in
theorem Shrinks.refl (hb : Booked A pool) : Shrinks A pool pool := ⟨hb, rfl, rfl, fun _ => id, fun _ => id⟩

omit [DecidableEq Tx] in
theorem Shrinks.trans {pool'' : Pool Addr Tx} (h : Shrinks A pool pool') (h' : Shrinks A pool' pool'') :
    Shrinks A pool pool'' :=
  ⟨h'.booked, h'.config.trans h.config, h'.locals.trans h.locals, fun t ht => h.all t (h'.all t ht),
    fun hs hf => h'.filled (h.config ▸ hs) (h.filled hs hf)⟩

theorem promoteExecutables_shrinks (hb : Booked A pool) (accounts : List Addr) :
    Shrinks A pool (pool.promoteExecutables A accounts).1 := by
  -- the promoted transactions are collected on the way and matter to nothing here
  have hloop (front : List Tx) : Shrinks A pool (accounts.foldl (fun r addr =>
      let s := r.1.promoteAccount A addr
      (s.1, r.2 ++ s.2)) (pool, front)).1 := by
    induction accounts generalizing pool front with
    | nil => exact Shrinks.refl hb
    | cons addr accounts ih =>
      have h := promoteAccount_spec hb addr
      exact Shrinks.trans ⟨h.booked, h.frame.config, h.frame.locals, h.all, fun _ => h.filled⟩
        (ih h.booked _)
  exact hloop []

theorem demoteUnexecutables_shrinks (hb : Booked A pool) : Shrinks A pool (pool.demoteUnexecutables A) := by
  have hloop (accounts : List Addr) (pool : Pool Addr Tx) (hb : Booked A pool) :
      Shrinks A pool (accounts.foldl (demoteAccount A) pool) := by
    induction accounts generalizing pool with
    | nil => exact Shrinks.refl hb
    | cons addr accounts ih =>
      have h := demoteAccount_spec hb addr
      exact Shrinks.trans ⟨h.booked, h.frame.config, h.frame.locals, h.all, fun _ => h.filled⟩
        (ih _ h.booked)
  exact hloop _ pool hb

theorem removeEach_shrinks (hb : Booked A pool) (txs : List Tx) (outofbound : Bool) :
    Shrinks A pool (pool.removeEach A txs outofbound) := by
  obtain ⟨hb', hframe, hall, hfill⟩ := removeEach_booked hb txs outofbound
  exact ⟨hb', hframe.config, hframe.locals, fun t ht => ((hall t).mp ht).1, fun _ => hfill⟩

end Pool

open Pool

/-- Every operation other than `add`. -/
theorem Step.shrinks (h : Step A op pool pool') (hadd : ∀ tx isLocal, op ≠ .add tx isLocal)
    (hb : Booked A pool) : Shrinks A pool pool' := by
  cases h with
  | add _ tx isLocal => exact absurd rfl (hadd tx isLocal)
  | removeTx _ tx outofbound => exact removeEach_shrinks hb [tx] outofbound
  | promoteExecutables _ accounts => exact promoteExecutables_shrinks hb accounts
  | demoteUnexecutables => exact demoteUnexecutables_shrinks hb
  | truncatePending =>
    have h := truncatePending_trimmed hb
    exact ⟨h.booked, h.frame.config, h.frame.locals, h.all, truncatePending_filled hb⟩
  | truncateQueue =>
    have h := truncateQueue_spec hb
    exact ⟨h.booked, h.frame.config, h.frame.locals, h.all, fun _ hf => h.pending ▸ hf⟩
  | setGasPrice _ price =>
    have hb' : Booked A { pool with
        gasPrice := price, priced := (PricedList.cap A pool.all price pool.priced).2 } := { hb with }
    have h := removeEach_shrinks hb' (PricedList.cap A pool.all price pool.priced).1 false
    exact { h with }
  | head | clock => exact ⟨{ hb with }, rfl, rfl, fun _ => id, fun _ => id⟩
  | shuffle _ pending queue hp hq =>
    have hleft := hb.shelved.congr_left (hb.shelved.left.congr hp) (stored_congr hp)
    have hboth := hleft.swap.congr_left (hleft.right.congr hq) (stored_congr hq)
    exact ⟨⟨hboth.swap, hb.all⟩, rfl, rfl, fun _ => id, fun _ hf a l hl => hf a l ((hp a).symm.trans hl)⟩

theorem Step.booked (h : Step A op pool pool') (hb : Booked A pool) :
    Booked A pool' ∧ pool'.config = pool.config ∧
      (1 ≤ pool.config.accountSlots → Filled pool.pending → Filled pool'.pending) := by
  by_cases hadd : ∃ tx isLocal, op = .add tx isLocal
  · obtain ⟨tx, isLocal, rfl⟩ := hadd
    cases h
    obtain ⟨hb', hconfig, hfill⟩ := add_booked hb tx isLocal
    exact ⟨hb', hconfig, fun _ => hfill⟩
  · have hshrinks := h.shrinks (fun tx isLocal heq => hadd ⟨tx, isLocal, heq⟩) hb
    exact ⟨hshrinks.booked, hshrinks.config, hshrinks.filled⟩

theorem Run.booked {ok : Pool Addr Tx → Op Addr Tx → Prop} {start : Pool Addr Tx} (h : Run A ok start pool)
    (hb : Booked A start) (hslots : 1 ≤ start.config.accountSlots) (hfill : Filled start.pending) :
    Booked A pool ∧ pool.config = start.config ∧ Filled pool.pending := by
  induction h with
  | start => exact ⟨hb, rfl, hfill⟩
  | step _ _ hstep ih =>
    obtain ⟨hb, hconfig, hfill⟩ := ih
    obtain ⟨hb', hconfig', hfill'⟩ := hstep.booked hb
    exact ⟨hb', hconfig'.trans hconfig, hfill' (hconfig ▸ hslots) hfill⟩

/-- In every pool that is reached from an empty one, a transaction is in the lookup
exactly when one of the two maps has it under its sender and nonce, and then only one
has it; no nonce of an account is in both; no pending list is empty; and `slots` is
the sum over the lookup, in which no transaction occurs twice. -/
theorem pool_bookkeeping (s : Setup Addr) (hslots : 1 ≤ s.config.accountSlots)
    (h : Run A (fun _ _ => True) s.empty pool) :
    (∀ tx, pool.all.Has tx ↔ Stored A pool.pending tx ∧ ¬ Stored A pool.queue tx ∨
        Stored A pool.queue tx ∧ ¬ Stored A pool.pending tx) ∧
      (∀ addr l l' n, pool.pending.lookup addr = some l → pool.queue.lookup addr = some l' →
        n ∈ l.txs.items → n ∉ l'.txs.items) ∧
      (∀ addr l, pool.pending.lookup addr = some l → 0 < l.len) ∧
      pool.all.txs.Nodup ∧ pool.all.slots = ((pool.all.txs.map A.numSlots).sum : ℕ) := by
  obtain ⟨hb, -, hfill⟩ := h.booked (booked_empty s) hslots nofun
  refine ⟨?_, ?_, ?_, hb.all.nodup_txs, hb.all.slots⟩
  · intro tx
    have hapart := hb.shelved.apart tx
    rw [hb.mem]
    tauto
  · intro addr l l' n hl hl' hn hn'
    have hw := hb.shelved.left.wf addr l hl
    have hw' := hb.shelved.right.wf addr l' hl'
    obtain ⟨tx, htx⟩ := SortedMap.mem_keys_iff.mp hn
    obtain ⟨tx', htx'⟩ := SortedMap.mem_keys_iff.mp hn'
    have hs := hw.sender tx (hw.txs.has_of_get htx)
    have hs' := hw'.sender tx' (hw'.txs.has_of_get htx')
    have hin := (stored_of_lookup hl hs).mpr (hw.txs.has_of_get htx)
    have hin' := (stored_of_lookup hl' hs').mpr (hw'.txs.has_of_get htx')
    have heq := hb.shelved.unique tx tx' (hb.mem.mpr (Or.inl hin)) (hb.mem.mpr (Or.inr hin'))
      (hs.trans hs'.symm) ((hw.txs.keyed n tx htx).trans (hw'.txs.keyed n tx' htx').symm)
    exact hb.shelved.apart tx hin (heq ▸ hin')
  · intro addr l hl
    have hne := hfill addr l hl
    rw [TxList.isEmpty, beq_eq_false_iff_ne] at hne
    exact Nat.pos_of_ne_zero hne

scoped instance neZero_one : NeZero 1 := ⟨Nat.one_ne_zero⟩

/-- Four transactions of one account, of a slot each, with the nonces 0 to 3. -/
def fourTxs : Attrs (Fin 1) (Fin 4) where
  sender := fun _ => 0
  signed := fun _ => true
  legacy := fun _ => true
  nonce := fun tx => tx.val
  gasPrice := fun _ => 1
  gas := fun _ => 21000
  value := fun _ => 0
  size := fun _ => 110
  intrinsicGas := fun _ _ => some 21000
  nonce_lt := fun tx => lt_of_lt_of_le tx.isLt (by decide)

/-- A node with room for two pending and two queued transactions. -/
def smallSetup : Setup (Fin 1) where
  config := ⟨10, 1, 2, 2, 2⟩
  gasPrice := 1
  istanbul := true
  eip2718 := true
  state := ⟨fun _ => 0, fun _ => 10 ^ 9⟩
  maxGas := 30000000
  locals := ∅
  now := 0

theorem pool_bookkeeping_promoted :
    let pool := (((smallSetup.empty.add fourTxs 0 false).1.add fourTxs 2 false).1.promoteExecutables fourTxs [0]).1
    pool.all.txs = [2, 0] ∧
      ∀ tx, pool.all.Has tx ↔ Stored fourTxs pool.pending tx ∧ ¬ Stored fourTxs pool.queue tx ∨
        Stored fourTxs pool.queue tx ∧ ¬ Stored fourTxs pool.pending tx := by
  refine ⟨by decide +kernel, (pool_bookkeeping smallSetup (by decide) ?_).1⟩
  have hone := Run.step (@Run.start _ _ _ _ fourTxs (fun _ _ => True) _) trivial
    (Step.add (smallSetup.empty : Pool (Fin 1) (Fin 4)) 0 false)
  exact Run.step (Run.step hone trivial (Step.add _ 2 false)) trivial (Step.promoteExecutables _ [0])

end Dexit.TxPool
