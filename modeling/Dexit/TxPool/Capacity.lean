import Dexit.TxPool.Bookkeeping

/-!
# The capacity of the pool

`add` compares the number of transactions with the capacity, asks `Discard` for slots,
and `Discard` counts the entries of the price heap, of which a transaction may have
several. `Roomy` is where these agree: then a pool that takes remote transactions only
stays within its capacity.
-/

namespace Dexit.TxPool

open Pool List

variable {Addr Tx : Type} [DecidableEq Addr] [DecidableEq Tx] {A : Attrs Addr Tx}
  {pool pool' : Pool Addr Tx} {op : Op Addr Tx} {tx : Tx}

/-- The operations of a pool that receives remote transactions only. -/
def Op.isRemote : Op Addr Tx → Bool
  | .add _ isLocal => !isLocal
  | _ => true

variable (A) in
/-- The slots of the pool leave room for the transaction; or the pool counts as full,
and one slot is wanted at most or no transaction is in the price heap twice. -/
def Pool.Roomy (pool : Pool Addr Tx) (tx : Tx) : Prop :=
  pool.all.slots + A.numSlots tx ≤ pool.config.capacity ∨
    pool.config.capacity < pool.all.count + A.numSlots tx ∧
      (pool.all.slots + A.numSlots tx ≤ pool.config.capacity + 1 ∨
        ∀ t ∈ pool.all.remotes, pool.priced.remotes.count t ≤ 1)

variable (A) in
/-- Only remote transactions are added, where there is room for them. -/
def Pool.AddsRoomy (pool : Pool Addr Tx) (op : Op Addr Tx) : Prop :=
  op.isRemote = true ∧ ∀ tx isLocal, op = .add tx isLocal → pool.Roomy A tx

namespace Pool

/-- In a pool of transactions of one slot each there is always room. -/
theorem roomy_of_one_slot (hb : Booked A pool) (hone : ∀ t, A.numSlots t = 1)
    (hcap : pool.all.slots ≤ pool.config.capacity) (tx : Tx) : pool.Roomy A tx := by
  have hcount : pool.all.slots = pool.all.count := by
    have hsum : A.slotsOf pool.all.txs = pool.all.txs.length := by
      rw [Attrs.slotsOf, map_congr_left (fun t _ => hone t)]
      simp
    rw [hb.all.slots, hsum, Lookup.length_txs]
  by_cases hfits : pool.all.slots + A.numSlots tx ≤ pool.config.capacity
  · exact .inl hfits
  · have := hone tx
    exact .inr ⟨by omega, .inl (by omega)⟩

/-- What the dropped transactions leave is enough for the new one. -/
theorem slots_removeEach (hb : Booked A pool) {drop : List Tx} (hremote : ∀ t ∈ drop, t ∈ pool.all.remotes)
    (hheap : drop.Subperm pool.priced.remotes)
    (hslots : pool.all.slots - pool.config.capacity + A.numSlots tx ≤ A.slotsOf drop)
    (hroom : pool.Roomy A tx) (priced : PricedList Tx) :
    (removeEach A { pool with priced := priced } drop false).all.slots + A.numSlots tx ≤
      pool.config.capacity := by
  have hb' : Booked A { pool with priced := priced } := { hb with }
  obtain ⟨hbooked, -, hall, -⟩ := removeEach_booked hb' drop false
  have hsub : ∀ t, (removeEach A { pool with priced := priced } drop false).all.Has t → pool.all.Has t :=
    fun t ht => ((hall t).mp ht).1
  have hgone : ∀ t ∈ drop, pool.all.Has t ∧
      ¬ (removeEach A { pool with priced := priced } drop false).all.Has t :=
    fun t ht => ⟨.inr (hremote t ht), fun h => ((hall t).mp h).2 ht⟩
  rcases hroom with hfits | ⟨-, hone | honce⟩
  · have := hb.all.slots_mono hbooked.all hsub
    omega
  · -- one slot is wanted at most, so one transaction with a slot is enough
    by_cases hfits : pool.all.slots + A.numSlots tx ≤ pool.config.capacity
    · have := hb.all.slots_mono hbooked.all hsub
      omega
    obtain ⟨t, ht, hpos⟩ : ∃ t ∈ drop, 0 < A.numSlots t := by
      by_contra hnone
      have hzero : A.slotsOf drop = 0 := by
        refine sum_eq_zero ?_
        intro n hn
        obtain ⟨t, ht, rfl⟩ := mem_map.mp hn
        exact Nat.eq_zero_of_not_pos fun hpos => hnone ⟨t, ht, hpos⟩
      omega
    have hfree := hb.all.slots_le hbooked.all hsub (nodup_singleton t)
      fun t' ht' => hgone t' (mem_singleton.mp ht' ▸ ht)
    rw [Lookup.slotsOf_cons] at hfree
    omega
  · have hnodup : drop.Nodup := by
      rw [nodup_iff_count_le_one]
      intro t
      by_cases ht : t ∈ drop
      · exact (hheap.count_le t).trans (honce t (hremote t ht))
      · rw [count_eq_zero_of_not_mem ht]
        exact Nat.zero_le 1
    have := hb.all.slots_le hbooked.all hsub hnodup hgone
    omega

theorem add_slots (hb : Booked A pool) (hlocals : pool.locals = ∅) (hroom : pool.Roomy A tx)
    (hcap : pool.all.slots ≤ pool.config.capacity) :
    (pool.add A tx false).1.locals = ∅ ∧ (pool.add A tx false).1.all.slots ≤ pool.config.capacity := by
  have hremote : (false || pool.containsTx A tx) = false := by
    rw [containsTx, hlocals]
    simp
  rcases add_cases (A := A) pool tx false with ⟨e, heq, -⟩ | ⟨hnew, -, hmade⟩
  · rw [heq]
    exact ⟨hlocals, hcap⟩
  rw [hremote] at hmade
  obtain ⟨hb', hframe, hall, -⟩ := makeRoom_booked hb tx false
  have hslots := hb.all.slots_mono hb'.all hall
  rcases hmade with ⟨e, -, heq⟩ | ⟨hnone, heq⟩
  · rw [heq]
    exact ⟨hframe.locals.trans hlocals, hslots.trans hcap⟩
  obtain ⟨hplaces, hkeep⟩ := place_spec hb' (fun h => hnew (hall tx h)) false false
  have hgrow := hb'.all.slots_grow hplaces.booked.all hplaces.all
  rw [heq]
  refine ⟨(hkeep rfl).trans (hframe.locals.trans hlocals), hgrow.trans ?_⟩
  rcases makeRoom_cases (A := A) pool tx false with ⟨hcount, hsame⟩ | ⟨-, priced, ⟨e, hsome⟩ | ⟨drop, hdrop, hspec⟩⟩
  · rw [hsame]
    rcases hroom with hfits | ⟨hfull, -⟩
    · exact hfits
    · omega
  · rw [hsome] at hnone
    exact nomatch hnone
  · obtain ⟨hin, hheap, hwanted⟩ := hspec rfl
    rw [hdrop]
    exact slots_removeEach hb hin hheap hwanted hroom priced

end Pool

theorem Step.slots (h : Step A op pool pool') (hok : pool.AddsRoomy A op) (hb : Booked A pool)
    (hlocals : pool.locals = ∅) (hcap : pool.all.slots ≤ pool.config.capacity) :
    pool'.locals = ∅ ∧ pool'.all.slots ≤ pool'.config.capacity := by
  by_cases hadd : ∃ tx isLocal, op = .add tx isLocal
  · obtain ⟨tx, isLocal, rfl⟩ := hadd
    obtain rfl : isLocal = false := by simpa [Op.isRemote] using hok.1
    cases h
    obtain ⟨-, hconfig, -⟩ := add_booked hb tx false
    rw [hconfig]
    exact add_slots hb hlocals (hok.2 tx false rfl) hcap
  · have hshrinks := h.shrinks (fun tx isLocal heq => hadd ⟨tx, isLocal, heq⟩) hb
    rw [hshrinks.config]
    exact ⟨hshrinks.locals.trans hlocals, (hb.all.slots_mono hshrinks.booked.all hshrinks.all).trans hcap⟩

theorem Run.within (s : Setup Addr) (hlocals : s.locals = ∅)
    (h : Run A (Pool.AddsRoomy A) s.empty pool) :
    Booked A pool ∧ pool.locals = ∅ ∧ pool.all.slots ≤ pool.config.capacity := by
  induction h with
  | start => exact ⟨booked_empty s, hlocals, Int.natCast_nonneg _⟩
  | step _ hok hstep ih =>
    obtain ⟨hb, hl, hcap⟩ := ih
    exact ⟨(hstep.booked hb).1, hstep.slots hok hb hl hcap⟩

/-- A pool of transactions of one slot each always has room. -/
theorem Run.of_one_slot (s : Setup Addr) (hlocals : s.locals = ∅) (hone : ∀ t, A.numSlots t = 1)
    (h : Run A (fun _ op => op.isRemote = true) s.empty pool) :
    Run A (Pool.AddsRoomy A) s.empty pool := by
  induction h with
  | start => exact .start
  | step _ hremote hstep ih =>
    obtain ⟨hb, -, hcap⟩ := ih.within s hlocals
    exact .step ih ⟨hremote, fun tx _ _ => roomy_of_one_slot hb hone hcap tx⟩ hstep

/-- A pool that starts without local accounts and adds only remote transactions there is
room for stays within its capacity. -/
theorem remote_pool_capacity (s : Setup Addr) (hlocals : s.locals = ∅)
    (h : Run A (Pool.AddsRoomy A) s.empty pool) :
    pool.all.slots ≤ pool.config.globalSlots + pool.config.globalQueue := by
  exact_mod_cast (h.within s hlocals).2.2

/-- Remote transactions one after the other. -/
def addEach (A : Attrs Addr Tx) (pool : Pool Addr Tx) (txs : List Tx) : Pool Addr Tx :=
  txs.foldl (fun pool tx => (pool.add A tx false).1) pool

theorem Run.addEach {ok : Pool Addr Tx → Op Addr Tx → Prop} {start : Pool Addr Tx}
    (hok : ∀ pool tx, ok pool (.add tx false)) (h : Run A ok start pool) (txs : List Tx) :
    Run A ok start (addEach A pool txs) := by
  induction txs generalizing pool with
  | nil => exact h
  | cons tx txs ih => exact ih (h.step (hok _ _) (.add pool tx false))

/-- Transactions of one account, each at a higher price than the one before. -/
def sizedTxs (size : ℕ) : Attrs (Fin 1) (Fin 7) where
  sender := fun _ => 0
  signed := fun _ => true
  legacy := fun _ => true
  nonce := fun tx => tx.val
  gasPrice := fun tx => tx.val + 1
  gas := fun _ => 3000000
  value := fun _ => 0
  size := fun _ => size
  intrinsicGas := fun _ _ => some 2200000
  nonce_lt := fun tx => lt_of_lt_of_le tx.isLt (by decide)

/-- A node with a capacity of six slots. -/
def sixSlots : Setup (Fin 1) where
  config := ⟨10, 1, 4, 2, 2⟩
  gasPrice := 1
  istanbul := true
  eip2718 := true
  state := ⟨fun _ => 0, fun _ => 10 ^ 9⟩
  maxGas := 30000000
  locals := ∅
  now := 0

/-- Seven transactions of one slot each. -/
def fullPool : Pool (Fin 1) (Fin 7) := addEach (sizedTxs 1000) sixSlots.empty (finRange 7)

/-- The last one has taken the place of the cheapest. -/
theorem remote_pool_capacity_full : fullPool.all.remotes.keys = [6, 5, 4, 3, 2, 1] ∧
    fullPool.all.slots ≤ fullPool.config.globalSlots + fullPool.config.globalQueue := by
  have hone (tx : Fin 7) : (sizedTxs 1000).numSlots tx = 1 := by decide +revert
  have hrun : Run (sizedTxs 1000) (fun _ op => op.isRemote = true) sixSlots.empty fullPool :=
    .addEach (fun _ _ => rfl) .start _
  exact ⟨by decide +kernel, remote_pool_capacity sixSlots rfl (hrun.of_one_slot sixSlots rfl hone)⟩

/-- Two transactions of four slots each, the largest that are accepted, pass a test that
counts transactions. -/
theorem large_transactions_exceed_capacity :
    ∃ pool, sixSlots.locals = ∅ ∧
      Run (sizedTxs (4 * 32 * 1024)) (fun _ op => op.isRemote = true) sixSlots.empty pool ∧
        pool.all.slots = 8 ∧ pool.config.globalSlots + pool.config.globalQueue = 6 :=
  ⟨_, rfl, .addEach (fun _ _ => rfl) .start [0, 1], by decide +kernel, by decide +kernel⟩

end Dexit.TxPool
