import Dexit.TxPool.Shelves

/-!
# What the operations of the pool move

Each operation is described by the pool it returns, as an update of the fields it
changes, by the transactions that are pending and queued afterwards, and by `Shelved`
for the new maps. The specifications assume that the lists and the set of
transactions fit together; that they always do is shown from them.
-/

namespace Dexit.TxPool

open Go List

variable {Addr Tx : Type} [DecidableEq Addr] [DecidableEq Tx] {A : Attrs Addr Tx}

/-- The transaction that was taken out is not in the lookup any more. -/
theorem Shelved.removed {pending queue : Map Addr (TxList Tx)} {all : Lookup Tx} {tx : Tx}
    (h : Shelved A true pending queue all.Has [tx]) :
    Shelved A true pending queue (all.remove A tx).Has [] := by
  have hloose : Shelved A true pending queue all.Has ([tx] ++ []) := h
  exact hloose.drop fun t => Lookup.has_remove.trans (by simp)

namespace Pool

variable {pool : Pool Addr Tx} {S : Tx → Prop} {loose out : List Tx} {addr : Addr} {tx : Tx}

/-- A loose transaction goes to the queue, without a look at the lookup. -/
theorem enqueueTx_loose (isLocal : Bool) (h : Shelved A true pool.pending pool.queue S (tx :: loose)) :
    ∃ queue beats, (pool.enqueueTx A tx isLocal false).1 = { pool with queue := queue, beats := beats } ∧
      Shelved A true pool.pending queue S loose ∧
      ∀ t, Stored A queue t ↔ Stored A pool.queue t ∨ t = tx := by
  have hswap : Shelved A false pool.queue pool.pending S (tx :: loose) := h.swap
  obtain ⟨hget, hput, hstored⟩ := hswap.put
  refine ⟨_, if A.sender tx ∈ pool.beats then pool.beats else pool.beats.insert (A.sender tx) pool.now, ?_,
    hput.swap, hstored⟩
  rw [enqueueTx]
  rw [TxList.add_of_absent hget]
  rfl

theorem requeue_spec (txs : List Tx) (h : Shelved A true pool.pending pool.queue S (txs ++ loose)) :
    ∃ queue beats, pool.requeue A txs = { pool with queue := queue, beats := beats } ∧
      Shelved A true pool.pending queue S loose ∧
      ∀ t, Stored A queue t ↔ Stored A pool.queue t ∨ t ∈ txs := by
  induction txs generalizing pool with
  | nil => exact ⟨pool.queue, pool.beats, rfl, h, by simp⟩
  | cons tx txs ih =>
    obtain ⟨queue₁, beats₁, heq₁, hsh₁, hst₁⟩ := enqueueTx_loose false h
    obtain ⟨queue, beats, heq, hsh, hst⟩ := @ih { pool with queue := queue₁, beats := beats₁ } hsh₁
    refine ⟨queue, beats, ?_, hsh, ?_⟩
    · change requeue A (pool.enqueueTx A tx false false).1 txs = _
      rw [heq₁, heq]
    · intro t
      rw [hst, hst₁, mem_cons]
      tauto

/-- A loose transaction of `addr` becomes pending. -/
theorem promoteTx_loose (h : Shelved A true pool.pending pool.queue S (tx :: loose))
    (hs : A.sender tx = addr) :
    ∃ pending beats, pool.promoteTx A addr tx = ({ pool with
        pending := pending, beats := beats,
        pendingNonces := pool.pendingNonces.set addr ((A.nonce tx + 1) % 2 ^ 64) }, true) ∧
      Shelved A true pending pool.queue S loose ∧
      (∀ t, Stored A pending t ↔ Stored A pool.pending t ∨ t = tx) ∧
      (Filled pool.pending → Filled pending) := by
  subst hs
  obtain ⟨hget, hput, hstored⟩ := h.put
  refine ⟨_, pool.beats.insert (A.sender tx) pool.now, ?_, hput, hstored, fun hfill => hfill.insert ?_⟩
  · rw [promoteTx]
    rw [TxList.add_of_absent hget]
    rfl
  · have hw := hput.left.wf (A.sender tx) _ (AList.lookup_insert pool.pending)
    rw [Bool.eq_false_iff, ne_eq, hw.isEmpty_iff]
    intro hnone
    exact hnone tx (TxList.has_put.mpr (.inl rfl))

/-- The virtual nonces after transactions of `addr` were promoted one by one. -/
def advance (A : Attrs Addr Tx) (ns : Noncer Addr) (addr : Addr) (txs : List Tx) : Noncer Addr :=
  txs.foldl (fun ns tx => ns.set addr ((A.nonce tx + 1) % 2 ^ 64)) ns

theorem promoteEach_spec (txs : List Tx) (h : Shelved A true pool.pending pool.queue S (txs ++ loose))
    (hs : ∀ tx ∈ txs, A.sender tx = addr) :
    ∃ pending beats, pool.promoteEach A addr txs = ({ pool with
        pending := pending, beats := beats, pendingNonces := advance A pool.pendingNonces addr txs }, txs) ∧
      Shelved A true pending pool.queue S loose ∧
      (∀ t, Stored A pending t ↔ Stored A pool.pending t ∨ t ∈ txs) ∧
      (Filled pool.pending → Filled pending) := by
  -- the list that is returned grows at its end, so the induction is over any start of it
  have hloop (txs front : List Tx) (pool : Pool Addr Tx)
      (h : Shelved A true pool.pending pool.queue S (txs ++ loose)) (hs : ∀ tx ∈ txs, A.sender tx = addr) :
      ∃ pending beats, (txs.foldl (fun r tx =>
          let s := r.1.promoteTx A addr tx
          (s.1, if s.2 then r.2 ++ [tx] else r.2)) (pool, front)) = ({ pool with
            pending := pending, beats := beats,
            pendingNonces := advance A pool.pendingNonces addr txs }, front ++ txs) ∧
        Shelved A true pending pool.queue S loose ∧
        (∀ t, Stored A pending t ↔ Stored A pool.pending t ∨ t ∈ txs) ∧
        (Filled pool.pending → Filled pending) := by
    induction txs generalizing front pool with
    | nil => exact ⟨pool.pending, pool.beats, by simp [advance], h, by simp, id⟩
    | cons tx txs ih =>
      obtain ⟨pending₁, beats₁, heq₁, hsh₁, hst₁, hfill₁⟩ := promoteTx_loose h (hs tx mem_cons_self)
      obtain ⟨pending, beats, heq, hsh, hst, hfill⟩ := ih (front ++ [tx])
        { pool with
          pending := pending₁, beats := beats₁,
          pendingNonces := pool.pendingNonces.set addr ((A.nonce tx + 1) % 2 ^ 64) }
        hsh₁ fun t ht => hs t (mem_cons_of_mem _ ht)
      refine ⟨pending, beats, ?_, hsh, ?_, fun hf => hfill (hfill₁ hf)⟩
      · rw [foldl_cons]
        dsimp only
        rw [heq₁, if_pos rfl, heq, append_assoc]
        rfl
      · intro t
        rw [hst, hst₁, mem_cons]
        tauto
  exact hloop txs [] pool h hs

variable (A) in
/-- The lists and the lookup have the same transactions. -/
structure Booked (pool : Pool Addr Tx) : Prop where
  shelved : Shelved A true pool.pending pool.queue pool.all.Has []
  all : pool.all.Wf A

omit [DecidableEq Tx] in
theorem Booked.mem (hb : Booked A pool) :
    pool.all.Has tx ↔ Stored A pool.pending tx ∨ Stored A pool.queue tx := by
  rw [hb.shelved.mem]
  simp

theorem removeTx_absent (h : ¬ pool.all.Has tx) (outofbound : Bool) : pool.removeTx A tx outofbound = pool :=
  if_neg h

theorem removeTx_eq_unlist (h : pool.all.Has tx) (outofbound : Bool) :
    ∃ priced, pool.removeTx A tx outofbound =
      unlist A { pool with all := pool.all.remove A tx, priced := priced } (A.sender tx) tx := by
  cases outofbound with
  | false => exact ⟨pool.priced, if_pos h⟩
  | true => exact ⟨pool.priced.removed A (pool.all.remove A tx) 1, if_pos h⟩

/-- A pending transaction is taken out, and those after it go back to the queue. -/
theorem removeTx_pending (hb : Booked A pool) (hin : Stored A pool.pending tx) (outofbound : Bool) :
    ∃ pending queue beats priced, pool.removeTx A tx outofbound = { pool with
        all := pool.all.remove A tx, priced := priced,
        pending := pending, queue := queue, beats := beats,
        pendingNonces := pool.pendingNonces.setIfLower (A.sender tx) (A.nonce tx) } ∧
      Shelved A true pending queue (pool.all.remove A tx).Has [] ∧
      (∀ t, Stored A pending t ↔
        Stored A pool.pending t ∧ (A.sender t = A.sender tx → A.nonce t < A.nonce tx)) ∧
      (∀ t, Stored A queue t ↔ Stored A pool.queue t ∨
        Stored A pool.pending t ∧ A.sender t = A.sender tx ∧ A.nonce tx < A.nonce t) ∧
      (Filled pool.pending → Filled pending) := by
  have h := hb.shelved
  obtain ⟨priced, hunlist⟩ := removeTx_eq_unlist (A := A) (hb.mem.mpr (.inl hin)) outofbound
  obtain ⟨l, hl, hhas⟩ := hin
  have hw := h.left.wf _ l hl
  have hstrict := h.left.strict _ l hl
  rcases TxList.remove_spec hw tx with ⟨-, hnone⟩ | ⟨old, invalids, l', hrem, hnonce, htakes, -, habove, hbelow⟩
  · exact nomatch hnone.symm.trans hhas
  obtain rfl : old = tx := (htakes.mem mem_cons_self).unique hhas hnonce
  obtain ⟨htake, hst⟩ := h.take hl htakes
  obtain ⟨hshelf, hsame⟩ := h.left.unlessEmpty (htakes.wf hw) (htakes.strict.trans hstrict)
  have hloose :=
    (htake.congr_left hshelf hsame).perm (by simpa using (perm_append_singleton old invalids).symm)
  obtain ⟨queue, beats, heq, hsh, hstq⟩ := @requeue_spec _ _ _ _ _ (setPending
    { pool with all := pool.all.remove A old, priced := priced } (A.sender old) l') _ _ invalids hloose
  have hlist (t : Tx) (hs : A.sender t = A.sender old) : Stored A pool.pending t ↔ l.Has A t :=
    stored_of_lookup hl hs
  refine ⟨_, queue, beats, priced, ?_, hsh.removed, ?_, ?_, ?_⟩
  · rw [hunlist, unlist, hl]
    dsimp only
    rw [hrem]
    rw [if_pos rfl, heq]
    rfl
  · intro t
    refine (hsame t).trans ((hst t).trans (and_congr_right fun hin => ?_))
    constructor
    · intro hnot hs
      exact hbelow hstrict t ((htakes.has t).mpr ⟨(hlist t hs).mp hin, hnot⟩)
    · intro hlt hout
      have hs := hw.sender t (htakes.mem hout)
      rcases mem_cons.mp hout with rfl | hout
      · exact absurd (hlt rfl) (lt_irrefl _)
      · have := hlt hs
        have := habove t hout
        omega
  · intro t
    rw [hstq]
    refine or_congr_right ?_
    constructor
    · intro hout
      have hhas' := htakes.mem (mem_cons_of_mem old hout)
      have hs := hw.sender t hhas'
      exact ⟨(hlist t hs).mpr hhas', hs, habove t hout⟩
    · rintro ⟨hin, hs, hlt⟩
      by_contra hnot
      have hleft : l'.Has A t := by
        refine (htakes.has t).mpr ⟨(hlist t hs).mp hin, ?_⟩
        rw [mem_cons, not_or]
        refine ⟨?_, hnot⟩
        rintro rfl
        exact lt_irrefl _ hlt
      have := hbelow hstrict t hleft
      omega
  · intro hfill
    exact Filled.unlessEmpty fun a l' _ hl' => hfill a l' hl'

/-- A queued transaction is taken out. -/
theorem removeTx_queued (hb : Booked A pool) (hin : Stored A pool.queue tx) (outofbound : Bool) :
    ∃ queue beats priced, pool.removeTx A tx outofbound = { pool with
        all := pool.all.remove A tx, priced := priced, queue := queue, beats := beats } ∧
      Shelved A true pool.pending queue (pool.all.remove A tx).Has [] ∧
      ∀ t, Stored A queue t ↔ Stored A pool.queue t ∧ t ≠ tx := by
  have h := hb.shelved
  have htx := hb.mem.mpr (.inr hin)
  obtain ⟨priced, heq⟩ := removeTx_eq_unlist (A := A) htx outofbound
  have hunlist : pool.removeTx A tx outofbound = removeQueued A
      { pool with all := pool.all.remove A tx, priced := priced } (A.sender tx) tx := by
    rw [heq, unlist]
    cases hp : pool.pending.lookup (A.sender tx) with
    | none => rfl
    | some l =>
      have hw := h.left.wf _ l hp
      rcases TxList.remove_spec hw tx with ⟨hrem, -⟩ | ⟨old, _, _, -, hnonce, htakes, -⟩
      · dsimp only
        rw [hrem]
        rfl
      · have hhas := htakes.mem mem_cons_self
        have hs := hw.sender old hhas
        have hold := (stored_of_lookup hp hs).mpr hhas
        obtain rfl := h.unique old tx ((h.mem old).mpr (.inl hold)) htx hs hnonce
        exact absurd hin (h.apart old hold)
  obtain ⟨l, hl, hhas⟩ := hin
  have hw := h.right.wf _ l hl
  have hstrict := h.right.strict _ l hl
  rcases TxList.remove_spec hw tx with ⟨-, hnone⟩ | ⟨old, invalids, l', hrem, hnonce, htakes, hnil, -⟩
  · exact nomatch hnone.symm.trans hhas
  obtain rfl : old = tx := (htakes.mem mem_cons_self).unique hhas hnonce
  obtain rfl := hnil hstrict
  obtain ⟨htake, hst⟩ := h.swap.take hl htakes
  obtain ⟨hshelf, hsame⟩ := h.right.unlessEmpty (htakes.wf hw) (htakes.strict.trans hstrict)
  refine ⟨if l'.isEmpty then pool.queue.erase (A.sender old) else pool.queue.insert (A.sender old) l',
    if l'.isEmpty then pool.beats.erase (A.sender old) else pool.beats, priced, ?_, ?_, ?_⟩
  · rw [hunlist, removeQueued, hl]
    dsimp only
    rw [hrem]
    split <;> rfl
  · exact (htake.congr_left hshelf hsame).swap.removed
  · intro t
    refine (hsame t).trans ((hst t).trans ?_)
    simp

/-- The rules and the state that transactions are checked against. -/
structure SameRules (pool pool' : Pool Addr Tx) : Prop where
  config : pool'.config = pool.config := by rfl
  gasPrice : pool'.gasPrice = pool.gasPrice := by rfl
  istanbul : pool'.istanbul = pool.istanbul := by rfl
  eip2718 : pool'.eip2718 = pool.eip2718 := by rfl
  currentState : pool'.currentState = pool.currentState := by rfl
  currentMaxGas : pool'.currentMaxGas = pool.currentMaxGas := by rfl

/-- What no operation on the lists changes. -/
structure Frame (pool pool' : Pool Addr Tx) : Prop extends SameRules pool pool' where
  locals : pool'.locals = pool.locals := by rfl

section
omit [DecidableEq Addr] [DecidableEq Tx]

theorem SameRules.trans {pool pool' pool'' : Pool Addr Tx} (h : SameRules pool pool')
    (h' : SameRules pool' pool'') : SameRules pool pool'' :=
  ⟨h'.config.trans h.config, h'.gasPrice.trans h.gasPrice, h'.istanbul.trans h.istanbul,
    h'.eip2718.trans h.eip2718, h'.currentState.trans h.currentState,
    h'.currentMaxGas.trans h.currentMaxGas⟩

theorem Frame.trans {pool pool' pool'' : Pool Addr Tx} (h : Frame pool pool') (h' : Frame pool' pool'') :
    Frame pool pool'' :=
  ⟨h.toSameRules.trans h'.toSameRules, h'.locals.trans h.locals⟩

end

theorem removeTx_booked (hb : Booked A pool) (tx : Tx) (outofbound : Bool) :
    Booked A (pool.removeTx A tx outofbound) ∧ Frame pool (pool.removeTx A tx outofbound) ∧
      (∀ t, (pool.removeTx A tx outofbound).all.Has t ↔ pool.all.Has t ∧ t ≠ tx) ∧
      (Filled pool.pending → Filled (pool.removeTx A tx outofbound).pending) := by
  by_cases hhas : pool.all.Has tx
  · rcases hb.mem.mp hhas with hin | hin
    · obtain ⟨pending, queue, beats, priced, heq, hsh, -, -, hfill⟩ := removeTx_pending hb hin outofbound
      rw [heq]
      exact ⟨⟨hsh, hb.all.remove tx⟩, {}, fun t => Lookup.has_remove, hfill⟩
    · obtain ⟨queue, beats, priced, heq, hsh, -⟩ := removeTx_queued hb hin outofbound
      rw [heq]
      exact ⟨⟨hsh, hb.all.remove tx⟩, {}, fun t => Lookup.has_remove, id⟩
  · rw [removeTx_absent hhas]
    refine ⟨hb, {}, fun t => ⟨fun ht => ⟨ht, ?_⟩, And.left⟩, id⟩
    rintro rfl
    exact hhas ht

theorem removeEach_booked (hb : Booked A pool) (txs : List Tx) (outofbound : Bool) :
    Booked A (pool.removeEach A txs outofbound) ∧ Frame pool (pool.removeEach A txs outofbound) ∧
      (∀ t, (pool.removeEach A txs outofbound).all.Has t ↔ pool.all.Has t ∧ t ∉ txs) ∧
      (Filled pool.pending → Filled (pool.removeEach A txs outofbound).pending) := by
  induction txs generalizing pool with
  | nil => exact ⟨hb, {}, fun t => by simp [removeEach], id⟩
  | cons tx txs ih =>
    obtain ⟨hb₁, hframe₁, hall₁, hfill₁⟩ := removeTx_booked hb tx outofbound
    obtain ⟨hb₂, hframe₂, hall₂, hfill₂⟩ := ih hb₁
    refine ⟨hb₂, hframe₁.trans hframe₂, ?_, fun hf => hfill₂ (hfill₁ hf)⟩
    intro t
    refine (hall₂ t).trans ?_
    rw [hall₁, mem_cons]
    tauto

end Pool

end Dexit.TxPool
