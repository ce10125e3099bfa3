import Dexit.TxPool.Gapless

/-!
# Runs of additions and reorg passes

Adding transactions cuts the ranges of pending nonces at most, and a pass of
`runReorg` makes ranges of them again. With the new head an account may go back to a
lower nonce; then the transactions of the old branch that are put back have to bridge
the way to what is pending.
-/

namespace Dexit.TxPool

open Go List

variable {H Addr Tx : Type} [DecidableEq Addr] [DecidableEq Tx] {A : Attrs Addr Tx}

namespace Pool

variable {pool pool' pool'' : Pool Addr Tx} {a addr : Addr} {isLocal : Bool} {new new' : Tx → Prop}

section
omit [DecidableEq Addr] [DecidableEq Tx]

/-- What adding transactions leaves as it is. -/
structure Keeps (isLocal : Bool) (pool pool' : Pool Addr Tx) : Prop extends SameRules pool pool' where
  locals : isLocal = false → pool'.locals = pool.locals

theorem Frame.keeps (h : Frame pool pool') (isLocal : Bool) : Keeps isLocal pool pool' :=
  ⟨h.toSameRules, fun _ => h.locals⟩

theorem Keeps.trans (h : Keeps isLocal pool pool') (h' : Keeps isLocal pool' pool'') :
    Keeps isLocal pool pool'' :=
  ⟨h.toSameRules.trans h'.toSameRules, fun hl => (h'.locals hl).trans (h.locals hl)⟩

theorem Keeps.payable (h : Keeps isLocal pool pool') (t : Tx) :
    Payable A pool' a t ↔ Payable A pool a t := by
  rw [Payable, Payable, h.currentState, h.currentMaxGas]

theorem check_ok {p : Prop} [Decidable p] {e : PoolErr} {x : Except PoolErr Unit} :
    (if p then .error e else x) = .ok () ↔ ¬ p ∧ x = .ok () := by
  split
  · next h => exact iff_of_false nofun fun h' => h'.1 h
  · next h => exact (and_iff_right h).symm

/-- A transaction that is accepted is not too old and can be paid. -/
theorem payable_of_validateTx {tx : Tx} (h : pool.validateTx A tx isLocal = .ok ()) :
    Payable A pool (A.sender tx) tx := by
  simp only [validateTx, check_ok] at h
  obtain ⟨-, -, -, hgas, -, -, hnonce, hcost, -⟩ := h
  exact ⟨not_lt.mp hnonce, not_lt.mp hgas, Int.not_lt.mp hcost⟩

theorem numSlots_le_of_validateTx {tx : Tx} (h : pool.validateTx A tx isLocal = .ok ()) :
    A.numSlots tx ≤ 4 := by
  simp only [validateTx, check_ok] at h
  obtain ⟨-, hsize, -⟩ := h
  rw [txMaxSize, txSlotSize] at hsize
  rw [Attrs.numSlots, txSlotSize]
  omega

end

section
omit [DecidableEq Tx]

variable (A) in
/-- The checks that `add` makes of a transaction. -/
def Accepts (pool : Pool Addr Tx) (isLocal : Bool) (tx : Tx) : Prop :=
  pool.validateTx A tx (isLocal || pool.containsTx A tx) = .ok ()

theorem Keeps.accepts (h : Keeps isLocal pool pool') (tx : Tx) :
    Accepts A pool' isLocal tx ↔ Accepts A pool isLocal tx := by
  have hlocal : (isLocal || pool'.containsTx A tx) = (isLocal || pool.containsTx A tx) := by
    cases isLocal with
    | false => rw [containsTx, containsTx, h.locals rfl]
    | true => rfl
  rw [Accepts, Accepts, hlocal, validateTx, validateTx, h.gasPrice, h.istanbul, h.eip2718, h.currentState,
    h.currentMaxGas]

variable (A) in
/-- What adding transactions does to the lists; those of `new` may have been added. -/
structure Added (isLocal : Bool) (new : Tx → Prop) (pool pool' : Pool Addr Tx) : Prop where
  booked : Booked A pool'
  keeps : Keeps isLocal pool pool'
  filled : Filled pool.pending → Filled pool'.pending
  cut : Cut A pool pool'
  pending : ∀ t, Stored A pool'.pending t → Stored A pool.pending t ∨ new t
  queue : ∀ t, Stored A pool'.queue t → Stored A pool.queue t ∨ Stored A pool.pending t ∨ new t

theorem Added.refl (hb : Booked A pool) : Added A isLocal new pool pool :=
  ⟨hb, ⟨{}, fun _ => rfl⟩, id, Cut.refl pool, fun _ => .inl, fun _ => .inl⟩

theorem Added.trans (h : Added A isLocal new pool pool') (h' : Added A isLocal new pool' pool'') :
    Added A isLocal new pool pool'' where
  booked := h'.booked
  keeps := h.keeps.trans h'.keeps
  filled := fun hf => h'.filled (h.filled hf)
  cut := h.cut.trans h'.cut
  pending := fun t ht => (h'.pending t ht).elim (h.pending t) .inr
  queue := by
    intro t ht
    rcases h'.queue t ht with ht | ht | hnew
    · exact h.queue t ht
    · exact .inr (h.pending t ht)
    · exact .inr (.inr hnew)

theorem Added.mono (h : Added A isLocal new pool pool') (hnew : ∀ t, new t → new' t) :
    Added A isLocal new' pool pool' :=
  { h with
    pending := fun t ht => (h.pending t ht).imp_right (hnew t)
    queue := fun t ht => (h.queue t ht).imp_right (Or.imp_right (hnew t)) }

variable (A) in
/-- Transactions were added, and none was dropped for them. -/
structure Steady (pool pool' : Pool Addr Tx) : Prop where
  nonces : pool'.pendingNonces = pool.pendingNonces
  pends : ∀ a n, Pends A pool' a n ↔ Pends A pool a n
  queued : ∀ a n, Taken A (Stored A pool.queue) a n → Taken A (Stored A pool'.queue) a n

theorem Steady.refl (pool : Pool Addr Tx) : Steady A pool pool := ⟨rfl, fun _ _ => Iff.rfl, fun _ _ => id⟩

theorem Steady.trans (h : Steady A pool pool') (h' : Steady A pool' pool'') : Steady A pool pool'' :=
  ⟨h'.nonces.trans h.nonces, fun a n => (h'.pends a n).trans (h.pends a n),
    fun a n hn => h'.queued a n (h.queued a n hn)⟩

theorem Booked.taken_iff (hb : Booked A pool) {n : ℕ} :
    Taken A pool.all.Has a n ↔ Pends A pool a n ∨ Taken A (Stored A pool.queue) a n := by
  simp only [Pends, Taken, hb.mem, or_and_right, exists_or]

theorem Steady.taken (h : Steady A pool pool') (hb : Booked A pool) (hb' : Booked A pool') {n : ℕ}
    (ht : Taken A pool.all.Has a n) : Taken A pool'.all.Has a n := by
  rw [hb'.taken_iff, h.pends]
  exact (hb.taken_iff.mp ht).imp_right (h.queued a n)

variable (A) in
/-- What holds between the passes. -/
structure Gapless (pool : Pool Addr Tx) : Prop where
  booked : Booked A pool
  slots : 1 ≤ pool.config.accountSlots
  filled : Filled pool.pending
  ranged : Ranged A pool
  paid : Paid A pool
  young : ∀ t, Stored A pool.queue t → pool.currentState.nonce (A.sender t) ≤ A.nonce t

variable (A) in
/-- What promotion starts from after a reset of the head. -/
structure Primed (pool : Pool Addr Tx) : Prop where
  booked : Booked A pool
  slots : 1 ≤ pool.config.accountSlots
  filled : Filled pool.pending
  ready : ∀ a, Ready A pool a ∨ Blocked A pool a ∨ Refillable A pool a

theorem Gapless.primed (h : Gapless A pool) : Primed A pool :=
  ⟨h.booked, h.slots, h.filled, fun a => .inl (h.ranged.ready h.paid a)⟩

theorem Refillable.mem_queue (h : Refillable A pool a) : a ∈ pool.queue.keys := by
  obtain ⟨-, m, e, hm, -, -, hmissing⟩ := h
  obtain ⟨t, ⟨hs, ⟨l, hl, -⟩, -⟩, -⟩ := hmissing _ le_rfl hm
  exact Map.mem_iff_lookup.mpr ⟨l, hs ▸ hl⟩

end

/-! ## Adding transactions -/

theorem removeTx_added (hb : Booked A pool) (tx : Tx) (outofbound : Bool) :
    Added A isLocal new pool (pool.removeTx A tx outofbound) := by
  obtain ⟨hbooked, hframe, -, hfill⟩ := removeTx_booked hb tx outofbound
  by_cases hhas : pool.all.Has tx
  · rcases hb.mem.mp hhas with hin | hin
    · obtain ⟨pending, queue, beats, priced, heq, hsh, hst, hqueue, -⟩ := removeTx_pending hb hin outofbound
      rw [heq] at hbooked hframe hfill ⊢
      refine ⟨hbooked, hframe.keeps isLocal, hfill, ?_, fun t ht => .inl ((hst t).mp ht).1,
        fun t ht => ((hqueue t).mp ht).imp_right fun h => .inl h.1⟩
      intro a
      have hget : (pool.pendingNonces.setIfLower (A.sender tx) (A.nonce tx)).get a =
          if a = A.sender tx then min (pool.pendingNonces.get a) (A.nonce tx)
          else pool.pendingNonces.get a := Noncer.get_setIfLower _ _ _ _
      by_cases ha : a = A.sender tx
      · subst ha
        refine .inr ⟨A.nonce tx, ⟨tx, hin, rfl, rfl⟩, fun n => ?_, hget.trans (if_pos rfl)⟩
        constructor
        · rintro ⟨t, ht, hs, rfl⟩
          obtain ⟨ht, hlt⟩ := (hst t).mp ht
          exact ⟨⟨t, ht, hs, rfl⟩, hlt hs⟩
        · rintro ⟨⟨t, ht, hs, rfl⟩, hlt⟩
          exact ⟨t, (hst t).mpr ⟨ht, fun _ => hlt⟩, hs, rfl⟩
      · refine .inl ⟨fun n => ?_, hget.trans (if_neg ha)⟩
        constructor
        · rintro ⟨t, ht, hs, hn⟩
          exact ⟨t, ((hst t).mp ht).1, hs, hn⟩
        · rintro ⟨t, ht, hs, hn⟩
          exact ⟨t, (hst t).mpr ⟨ht, fun h => absurd (hs.symm.trans h) ha⟩, hs, hn⟩
    · obtain ⟨queue, beats, priced, heq, hsh, hqueue⟩ := removeTx_queued hb hin outofbound
      rw [heq] at hbooked hframe hfill ⊢
      exact ⟨hbooked, hframe.keeps isLocal, hfill, fun a => .inl ⟨fun _ => Iff.rfl, rfl⟩,
        fun _ => .inl, fun t ht => .inl ((hqueue t).mp ht).1⟩
  · rw [removeTx_absent hhas]
    exact Added.refl hb

theorem removeEach_added (hb : Booked A pool) (txs : List Tx) (outofbound : Bool) :
    Added A isLocal new pool (pool.removeEach A txs outofbound) := by
  induction txs generalizing pool with
  | nil => exact Added.refl hb
  | cons tx txs ih =>
    have hfirst : Added A isLocal new pool _ := removeTx_added hb tx outofbound
    exact hfirst.trans (ih hfirst.booked)

theorem makeRoom_added (hb : Booked A pool) (tx : Tx) (asLocal : Bool) :
    Added A isLocal new pool (pool.makeRoom A tx asLocal).1 := by
  have hpriced (priced : PricedList Tx) : Added A isLocal new pool { pool with priced := priced } :=
    ⟨{ hb with }, ⟨{}, fun _ => rfl⟩, id,
      fun a => .inl ⟨fun _ => Iff.rfl, rfl⟩, fun _ => .inl, fun _ => .inl⟩
  rcases makeRoom_cases (A := A) pool tx asLocal with ⟨-, heq⟩ | ⟨-, priced, ⟨e, heq⟩ | ⟨drop, heq, -⟩⟩
  · rw [heq]
    exact Added.refl hb
  · rw [heq]
    exact hpriced priced
  · rw [heq]
    exact (hpriced priced).trans (removeEach_added (hpriced priced).booked drop false)

theorem add_added (hb : Booked A pool) (tx : Tx) (isLocal : Bool) :
    Added A isLocal (fun t => t = tx ∧ Accepts A pool isLocal t) pool (pool.add A tx isLocal).1 := by
  rcases add_cases (A := A) pool tx isLocal with ⟨e, heq, -⟩ | ⟨hnew, hvalid, hmade⟩
  · rw [heq]
    exact Added.refl hb
  have hroom : Added A isLocal (fun t => t = tx ∧ Accepts A pool isLocal t) pool _ :=
    makeRoom_added hb tx (isLocal || pool.containsTx A tx)
  rcases hmade with ⟨e, -, heq⟩ | ⟨-, heq⟩
  · rw [heq]
    exact hroom
  obtain ⟨-, -, hall, -⟩ := makeRoom_booked hb tx (isLocal || pool.containsTx A tx)
  obtain ⟨hplaces, hlocals⟩ := place_spec hroom.booked (fun h => hnew (hall tx h)) isLocal
    (isLocal || pool.containsTx A tx)
  rw [heq]
  refine hroom.trans ⟨hplaces.booked, ⟨hplaces.toSameRules, hlocals⟩, hplaces.filled,
    fun a => .inl ⟨hplaces.pending a, by rw [hplaces.pendingNonces]⟩, fun t ht => ?_, fun t ht => ?_⟩
  · rcases hplaces.pending_of t ht with rfl | ht
    · exact .inr ⟨rfl, hvalid⟩
    · exact .inl ht
  · rcases hplaces.queue t ht with rfl | ht
    · exact .inr (.inr ⟨rfl, hvalid⟩)
    · exact .inl ht

/-- The loop of `addTxsLocked`. -/
theorem addTxsLocked_induction (isLocal : Bool) {P : Pool Addr Tx → List Tx → Pool Addr Tx → Prop}
    (hnil : ∀ pool, Booked A pool → P pool [] pool)
    (hcons : ∀ pool tx txs pool', Booked A pool → Booked A (pool.add A tx isLocal).1 →
      P (pool.add A tx isLocal).1 txs pool' → P pool (tx :: txs) pool')
    (hb : Booked A pool) (txs : List Tx) : P pool txs (pool.addTxsLocked A txs isLocal).1 := by
  -- whatever the loop does with the dirty accounts
  have hloop (f : Pool Addr Tx × StructSet Addr → Tx → Pool Addr Tx × StructSet Addr)
      (hf : ∀ r tx, (f r tx).1 = (r.1.add A tx isLocal).1) (dirty : StructSet Addr) :
      P pool txs (txs.foldl f (pool, dirty)).1 := by
    induction txs generalizing pool dirty with
    | nil => exact hnil pool hb
    | cons tx txs ih =>
      have hb' := (add_added hb tx isLocal).booked
      have hstep : f (pool, dirty) tx = ((pool.add A tx isLocal).1, (f (pool, dirty) tx).2) :=
        Prod.ext (hf _ tx) rfl
      rw [foldl_cons, hstep]
      exact hcons pool tx txs _ hb hb' (ih hb' _)
  exact hloop _ (fun _ _ => rfl) ∅

theorem addTxsLocked_added (hb : Booked A pool) (txs : List Tx) (isLocal : Bool) :
    Added A isLocal (fun t => t ∈ txs ∧ Accepts A pool isLocal t) pool (pool.addTxsLocked A txs isLocal).1 := by
  refine addTxsLocked_induction (A := A) isLocal
    (P := fun pool txs pool' => Added A isLocal (fun t => t ∈ txs ∧ Accepts A pool isLocal t) pool pool')
    (fun pool hb => Added.refl hb) (fun pool tx txs pool' hb _ ih => ?_) hb txs
  have hfirst := add_added hb tx isLocal
  refine (hfirst.mono ?_).trans (ih.mono ?_)
  · rintro t ⟨rfl, hacc⟩
    exact ⟨mem_cons_self, hacc⟩
  · rintro t ⟨hmem, hacc⟩
    exact ⟨mem_cons_of_mem _ hmem, (hfirst.keeps.accepts t).mp hacc⟩

/-! ## Adding where there is room -/

theorem add_steady (hb : Booked A pool) (tx : Tx) (hroom : pool.all.count + 4 ≤ pool.config.capacity) :
    Steady A pool (pool.add A tx false).1 ∧ (pool.add A tx false).1.all.count ≤ pool.all.count + 1 ∧
      (Accepts A pool false tx → Taken A (pool.add A tx false).1.all.Has (A.sender tx) (A.nonce tx)) := by
  rcases add_cases (A := A) pool tx false with ⟨e, heq, hwhy⟩ | ⟨hnew, hvalid, hmade⟩
  · rw [heq]
    refine ⟨Steady.refl pool, Nat.le_succ _, fun hacc => ?_⟩
    rcases hwhy with hhas | herr
    · exact ⟨tx, hhas, rfl, rfl⟩
    · exact nomatch hacc.symm.trans herr
  have hfits := numSlots_le_of_validateTx hvalid
  -- there is room already
  have hmake : pool.makeRoom A tx (false || pool.containsTx A tx) = (pool, none) := by
    rcases makeRoom_cases (A := A) pool tx (false || pool.containsTx A tx) with ⟨-, heq⟩ | ⟨hfull, -⟩
    · exact heq
    · omega
  rw [hmake] at hmade
  rcases hmade with ⟨e, hnone, -⟩ | ⟨-, heq⟩
  · exact nomatch hnone
  obtain ⟨hplaces, -⟩ := place_spec hb hnew false (false || pool.containsTx A tx)
  rw [heq]
  refine ⟨⟨hplaces.pendingNonces, hplaces.pending, hplaces.still⟩, ?_, fun _ => hplaces.taken⟩
  have hsub : (pool.place A tx false (false || pool.containsTx A tx)).1.all.txs ⊆ tx :: pool.all.txs := by
    intro t ht
    rw [mem_cons, Lookup.mem_txs]
    exact hplaces.all t (Lookup.mem_txs.mp ht)
  have hlen := (hplaces.booked.all.nodup_txs.subperm hsub).length_le
  rwa [length_cons, Lookup.length_txs, Lookup.length_txs] at hlen

/-- Where there is room for all of them, all that are accepted are known afterwards, or
others with their nonces. -/
theorem addTxsLocked_steady (hb : Booked A pool) (txs : List Tx)
    (hroom : pool.all.count + txs.length + 3 ≤ pool.config.capacity) :
    Steady A pool (pool.addTxsLocked A txs false).1 ∧ ∀ t ∈ txs, Accepts A pool false t →
      Taken A (pool.addTxsLocked A txs false).1.all.Has (A.sender t) (A.nonce t) := by
  have hadded := addTxsLocked_induction (A := A) false (P := fun pool txs pool' => Booked A pool' ∧
      (pool.all.count + txs.length + 3 ≤ pool.config.capacity →
        Steady A pool pool' ∧ ∀ t ∈ txs, Accepts A pool false t →
          Taken A pool'.all.Has (A.sender t) (A.nonce t)))
    (fun pool hb => ⟨hb, fun _ => ⟨Steady.refl pool, fun t ht => absurd ht not_mem_nil⟩⟩)
    (fun pool tx txs pool' hb hb₁ ih => ⟨ih.1, fun hroom => ?_⟩) hb txs
  · exact hadded.2 hroom
  obtain ⟨hbooked, hrest⟩ := ih
  have hkeeps := (add_added hb tx false).keeps
  rw [length_cons] at hroom
  obtain ⟨hfirst, hcount, htaken⟩ := add_steady hb tx (by omega)
  obtain ⟨hsteady, hall⟩ := hrest (by rw [hkeeps.config]; omega)
  refine ⟨hfirst.trans hsteady, fun t ht hacc => ?_⟩
  rcases mem_cons.mp ht with rfl | ht
  · exact hsteady.taken hb₁ hbooked (htaken hacc)
  · exact hall t ht ((hkeeps.accepts t).mpr hacc)

/-! ## The passes -/

theorem Gapless.addTxsLocked (h : Gapless A pool) (txs : List Tx) (isLocal : Bool) :
    Gapless A (pool.addTxsLocked A txs isLocal).1 := by
  have hadd := addTxsLocked_added h.booked txs isLocal
  refine ⟨hadd.booked, ?_, hadd.filled h.filled, h.ranged.cut hadd.cut hadd.keeps.currentState, ?_, ?_⟩
  · rw [hadd.keeps.config]
    exact h.slots
  · intro t ht
    rw [hadd.keeps.payable]
    rcases hadd.pending t ht with ht | ⟨-, hacc⟩
    · exact h.paid t ht
    · exact payable_of_validateTx hacc
  · intro t ht
    rw [hadd.keeps.currentState]
    rcases hadd.queue t ht with ht | ht | ⟨-, hacc⟩
    · exact h.young t ht
    · exact (h.paid t ht).1
    · exact (payable_of_validateTx hacc).1

variable (A) in
/-- What promotion of some accounts does. -/
structure Promoted (accounts : List Addr) (pool pool' : Pool Addr Tx) : Prop where
  booked : Booked A pool'
  frame : Frame pool pool'
  filled : Filled pool.pending → Filled pool'.pending
  pending : ∀ t, Stored A pool'.pending t → Stored A pool.pending t ∨ Payable A pool (A.sender t) t
  queue : ∀ t, Stored A pool'.queue t →
    Stored A pool.queue t ∧ (A.sender t ∈ accounts → Payable A pool (A.sender t) t)
  ready : ∀ a, Ready A pool a → Ready A pool' a
  blocked : ∀ a, Blocked A pool a → Blocked A pool' a
  refill : ∀ a ∈ accounts, Refillable A pool a → Ready A pool' a

section Passes
variable (hmax : ∀ tx, A.nonce tx + 1 < 2 ^ 64)
include hmax

theorem promoteExecutables_promoted (hb : Booked A pool)
    (accounts : List Addr) : Promoted A accounts pool (pool.promoteExecutables A accounts).1 := by
  have hloop (front : List Tx) : Promoted A accounts pool (accounts.foldl (fun r addr =>
      let s := r.1.promoteAccount A addr
      (s.1, r.2 ++ s.2)) (pool, front)).1 := by
    induction accounts generalizing pool front with
    | nil =>
      exact ⟨hb, {}, id, fun _ => .inl, fun t ht => ⟨ht, fun hmem => absurd hmem not_mem_nil⟩,
        fun _ => id, fun _ => id, fun a ha => absurd ha not_mem_nil⟩
    | cons addr accounts ih =>
      have hp := promoteAccount_spec hb addr
      have hrest := ih hp.booked (front ++ (pool.promoteAccount A addr).2)
      refine ⟨hrest.booked, hp.frame.trans hrest.frame, fun hf => hrest.filled (hp.filled hf), fun t ht => ?_,
        fun t ht => ?_, fun a h => hrest.ready a (h.promote hb hmax hp),
        fun a h => hrest.blocked a (h.promote hp), fun a ha h => ?_⟩
      · rcases hrest.pending t ht with ht | hpay
        · rcases (hp.pending t).mp ht with ht | ht
          · exact .inl ht
          · obtain ⟨hs, -, hpay⟩ := hp.ready t ht
            exact .inr (hs.symm ▸ hpay)
        · exact .inr ((hp.payable _ t).mp hpay)
      · obtain ⟨hin, hpay⟩ := hrest.queue t ht
        obtain ⟨hin, hpay'⟩ := hp.queue t hin
        refine ⟨hin, fun hmem => ?_⟩
        rcases mem_cons.mp hmem with hs | hmem
        · exact hs.symm ▸ hpay' hs
        · exact (hp.payable _ t).mp (hpay hmem)
      · by_cases heq : a = addr
        · subst heq
          exact hrest.ready a (h.promote hb hmax hp)
        · exact hrest.refill a (mem_of_ne_of_mem heq ha) (h.promote_ne hp heq)
  exact hloop []

/-- The end of a pass. -/
theorem gapless_of_settled (hb : Booked A pool)
    (hslots : 1 ≤ pool.config.accountSlots) (hfill : Filled pool.pending) (hset : ∀ a, Settled A pool a)
    (hpaid : Paid A pool) (hyoung : ∀ t, Stored A pool.queue t → pool.currentState.nonce (A.sender t) ≤ A.nonce t) :
    Gapless A (((pool.truncatePending A).truncateQueue A).syncNonces A) := by
  have htrim := truncatePending_trimmed hb
  have hfill' := truncatePending_filled hb hslots hfill
  have hdeq := truncateQueue_spec htrim.booked
  generalize pool.truncatePending A = pool' at htrim hfill' hdeq ⊢
  generalize pool'.truncateQueue A = pool'' at hdeq ⊢
  have hframe := htrim.frame.trans hdeq.frame
  have hfilled := hdeq.pending ▸ hfill'
  refine ⟨{ hdeq.booked with }, ?_, hfilled,
    Settled.sync hdeq.booked hmax hfilled fun a => ((hset a).trim htrim hfill').dequeue hdeq, ?_, ?_⟩
  · rw [syncNonces, hframe.config]
    exact hslots
  · intro t ht
    rw [syncNonces, hdeq.pending] at ht
    rw [Payable, syncNonces, hframe.currentState, hframe.currentMaxGas]
    exact hpaid t (htrim.sub t ht)
  · intro t ht
    rw [syncNonces, hframe.currentState]
    have hin := hdeq.queue t ht
    rw [htrim.queue] at hin
    exact hyoung t hin

theorem Gapless.promotePass (h : Gapless A pool) (accounts : List Addr) :
    Gapless A
      ((((pool.promoteExecutables A accounts).1).truncatePending A).truncateQueue A |>.syncNonces A) := by
  have hp := promoteExecutables_promoted hmax h.booked accounts
  have hpaid : Paid A (pool.promoteExecutables A accounts).1 := by
    intro t ht
    rw [Payable, hp.frame.currentState, hp.frame.currentMaxGas]
    rcases hp.pending t ht with ht | hpay
    · exact h.paid t ht
    · exact hpay
  refine gapless_of_settled hmax hp.booked (hp.frame.config.symm ▸ h.slots) (hp.filled h.filled) (fun a => ?_)
    hpaid fun t ht => ?_
  · refine (hp.ready a (h.ranged.ready h.paid a)).settled ?_
    rintro n ⟨t, ht, rfl, rfl⟩
    exact (hpaid t ht).1
  · rw [hp.frame.currentState]
    exact h.young t (hp.queue t ht).1

theorem Primed.demotePass (h : Primed A pool) :
    Gapless A ((((pool.promoteExecutables A pool.queue.keys).1).demoteUnexecutables A |>.truncatePending A)
      |>.truncateQueue A |>.syncNonces A) := by
  have hp := promoteExecutables_promoted hmax h.booked pool.queue.keys
  have hready : ∀ a, Ready A (pool.promoteExecutables A pool.queue.keys).1 a ∨
      Stuck A (pool.promoteExecutables A pool.queue.keys).1 a := by
    intro a
    rcases h.ready a with hready | hblocked | hrefill
    · exact .inl (hp.ready a hready)
    · exact .inr (hp.blocked a hblocked).1
    · exact .inl (hp.refill a hrefill.mem_queue hrefill)
  obtain ⟨hset, hpaid, hframe, hqueue⟩ := demoteUnexecutables_settled hp.booked hready
  have hshrinks := demoteUnexecutables_shrinks hp.booked
  have hslots := hp.frame.config.symm ▸ h.slots
  refine gapless_of_settled hmax hshrinks.booked (hframe.config.symm ▸ hslots)
    (hshrinks.filled hslots (hp.filled h.filled)) hset hpaid fun t ht => ?_
  rw [hframe.currentState]
  rcases hqueue t ht with hin | hle
  · obtain ⟨⟨l, hl, -⟩, hpay⟩ := hp.queue t hin
    rw [hp.frame.currentState]
    exact (hpay (Map.mem_iff_lookup.mpr ⟨l, hl⟩)).1
  · exact hle

end Passes

/-! ## Head resets -/

variable (A) in
/-- The account is not behind its old nonce; or no transaction with its new nonce is put
back; or there is room for all that is put back, and all from its new nonce to the old
one is. -/
def Bridged (pool fresh : Pool Addr Tx) (txs : List Tx) (a : Addr) : Prop :=
  pool.currentState.nonce a ≤ fresh.currentState.nonce a ∨
    (∀ t ∈ txs, Accepts A fresh false t → A.sender t = a → A.nonce t ≠ fresh.currentState.nonce a) ∨
    fresh.all.count + txs.length + 3 ≤ fresh.config.capacity ∧
      ∀ n, fresh.currentState.nonce a ≤ n → n < pool.currentState.nonce a →
        ∃ t ∈ txs, Accepts A fresh false t ∧ A.sender t = a ∧ A.nonce t = n

omit [DecidableEq Tx] in
theorem Gapless.withState (h : Gapless A pool) (state : StateDB Addr) (maxGas : ℕ) :
    Booked A (pool.withState state maxGas) :=
  { h.booked with }

section Reset
variable {state : StateDB Addr} {maxGas : ℕ} {txs : List Tx} (h : Gapless A pool)
include h

omit [DecidableEq Tx] in
/-- An account that is not behind may have old nonces in front, but no gap behind them. -/
theorem Gapless.above_withState (ha : a ∉ pool.pending ∨ pool.currentState.nonce a ≤ state.nonce a) (maxGas : ℕ) :
    ∃ e, Above A (pool.withState state maxGas) a e := by
  rcases ha with ha | hle
  · refine ⟨0, fun n _ => iff_of_false ?_ (Nat.not_lt_zero n)⟩
    rintro ⟨t, ⟨l, hl, -⟩, rfl, -⟩
    exact ha (Map.mem_iff_lookup.mpr ⟨l, hl⟩)
  · refine ⟨pool.pendingNonces.get a, fun n hn => (h.ranged a n).trans ?_⟩
    have hle' : state.nonce a ≤ n := hn
    omega

theorem Gapless.ready_reset (ha : a ∉ pool.pending ∨ pool.currentState.nonce a ≤ state.nonce a) :
    Ready A ((pool.withState state maxGas).addTxsLocked A txs false).1 a := by
  have hadd := addTxsLocked_added (h.withState state maxGas) txs false
  obtain ⟨e, he⟩ := h.above_withState ha maxGas
  obtain ⟨⟨e', he'⟩, hle⟩ := he.cut hadd.cut hadd.keeps.currentState
  refine ⟨e', he', .inl ?_⟩
  rw [hadd.keeps.currentState]
  exact hle

/-- Whatever is queued below the old nonce of its account has just been put back. -/
theorem Gapless.queue_reset {t : Tx}
    (ht : Stored A ((pool.withState state maxGas).addTxsLocked A txs false).1.queue t)
    (hlt : A.nonce t < pool.currentState.nonce (A.sender t)) :
    t ∈ txs ∧ Accepts A (pool.withState state maxGas) false t := by
  rcases (addTxsLocked_added (h.withState state maxGas) txs false).queue t ht with ht | ht | hnew
  · have := h.young t ht
    omega
  · have := (h.paid t ht).1
    omega
  · exact hnew

theorem Gapless.blocked_reset (hlt : state.nonce a < pool.currentState.nonce a)
    (hno : ∀ t ∈ txs, Accepts A (pool.withState state maxGas) false t → A.sender t = a →
      A.nonce t ≠ state.nonce a) :
    Blocked A ((pool.withState state maxGas).addTxsLocked A txs false).1 a := by
  have hadd := addTxsLocked_added (h.withState state maxGas) txs false
  have hstate : (pool.withState state maxGas).currentState.nonce a = state.nonce a := rfl
  have hnonce : (pool.withState state maxGas).pendingNonces.get a = state.nonce a := rfl
  rw [Blocked, Stuck, hadd.keeps.currentState, hstate]
  refine ⟨⟨?_, ?_⟩, ?_⟩
  · rcases hadd.cut a with ⟨-, heq⟩ | ⟨k, -, -, heq⟩ <;> omega
  · intro hpend
    have hold : Pends A pool a (state.nonce a) := by
      rcases hadd.cut a with ⟨hp, -⟩ | ⟨k, -, hp, -⟩
      · exact (hp _).mp hpend
      · exact ((hp _).mp hpend).1
    have := ((h.ranged a _).mp hold).1
    omega
  · rintro t ⟨rfl, hin, -⟩ hn
    obtain ⟨hmem, hacc⟩ := h.queue_reset hin (by omega)
    exact hno t hmem hacc rfl hn

theorem Gapless.refillable_reset (ha : a ∈ pool.pending)
    (hlt : state.nonce a < pool.currentState.nonce a)
    (hroom : pool.all.count + txs.length + 3 ≤ pool.config.capacity)
    (hall : ∀ n, state.nonce a ≤ n → n < pool.currentState.nonce a →
      ∃ t ∈ txs, Accepts A (pool.withState state maxGas) false t ∧ A.sender t = a ∧ A.nonce t = n) :
    Refillable A ((pool.withState state maxGas).addTxsLocked A txs false).1 a := by
  have hadd := addTxsLocked_added (h.withState state maxGas) txs false
  obtain ⟨hsteady, htaken⟩ := addTxsLocked_steady (h.withState state maxGas) txs hroom
  have hpends (n : ℕ) : Pends A ((pool.withState state maxGas).addTxsLocked A txs false).1 a n ↔
      pool.currentState.nonce a ≤ n ∧ n < pool.pendingNonces.get a := (hsteady.pends a n).trans (h.ranged a n)
  have hstate : (pool.withState state maxGas).currentState.nonce a = state.nonce a := rfl
  have hnonce : (pool.withState state maxGas).pendingNonces.get a = state.nonce a := rfl
  -- the account has something pending
  have hsome : pool.currentState.nonce a < pool.pendingNonces.get a := by
    obtain ⟨l, hl⟩ := Map.mem_iff_lookup.mp ha
    by_contra hge
    have hno : ∀ n, ¬ Pends A pool a n := fun n hn => by
      have := (h.ranged a n).mp hn
      omega
    exact nomatch hl.symm.trans (lookup_none_of_filled h.booked h.filled hno)
  rw [Refillable, hadd.keeps.currentState, hsteady.nonces, hstate]
  refine ⟨hnonce, _, _, hlt, hsome, fun n _ => hpends n, fun n hle hn => ?_⟩
  obtain ⟨t, hmem, hacc, rfl, rfl⟩ := hall n hle hn
  rcases hadd.booked.taken_iff.mp (htaken t hmem hacc) with hpend | ⟨u, hu, hs, hun⟩
  · have := (hpends _).mp hpend
    omega
  · obtain ⟨-, hacc⟩ := h.queue_reset hu (by rw [hs, hun]; exact hn)
    exact ⟨u, ⟨hs, hu, (hadd.keeps.payable u).mpr (hs ▸ payable_of_validateTx hacc)⟩, hun⟩

theorem Gapless.primed_reset (hbridged : ∀ a, a ∈ pool.pending → Bridged A pool (pool.withState state maxGas) txs a) :
    Primed A ((pool.withState state maxGas).addTxsLocked A txs false).1 := by
  have hadd := addTxsLocked_added (h.withState state maxGas) txs false
  refine ⟨hadd.booked, ?_, hadd.filled h.filled, fun a => ?_⟩
  · rw [hadd.keeps.config]
    exact h.slots
  by_cases ha : a ∉ pool.pending
  · exact .inl (h.ready_reset (.inl ha))
  by_cases hle : pool.currentState.nonce a ≤ state.nonce a
  · exact .inl (h.ready_reset (.inr hle))
  rcases hbridged a (not_not.mp ha) with hle' | hno | ⟨hroom, hall⟩
  · exact absurd hle' hle
  · exact .inr (.inl (h.blocked_reset (not_le.mp hle) hno))
  · exact .inr (.inr (h.refillable_reset (not_not.mp ha) (not_le.mp hle) hroom hall))

end Reset

variable [DecidableEq H] {c : Chain H Addr Tx}

variable (A c) in
/-- What a head reset puts back bridges the way to what is pending. -/
def Bridges (pool : Pool Addr Tx) (r : ResetRequest (Header H)) : Prop :=
  ∀ txs state, c.reinject (some r.oldHead) r.newHead = some txs → c.stateAt r.newHead.root = some state →
    ∀ a, a ∈ pool.pending → Bridged A pool (pool.withState state r.newHead.gasLimit) txs a

theorem Gapless.runReorg (hmax : ∀ tx, A.nonce tx + 1 < 2 ^ 64) (h : Gapless A pool)
    {req : Option (ResetRequest (Header H))} (hbridges : ∀ r, req = some r → Bridges A c pool r)
    (dirtyAccounts : Option (StructSet Addr)) : Gapless A (pool.runReorg A c req dirtyAccounts) := by
  cases req with
  | none => exact h.promotePass hmax _
  | some r =>
    suffices hprimed : Primed A (pool.reset A c (some r.oldHead) r.newHead) from
      hprimed.demotePass hmax
    rw [Pool.reset]
    split
    · next txs state htxs hstate =>
      have hprimed := h.primed_reset (hbridges r rfl txs state htxs hstate)
      exact ⟨{ hprimed.booked with }, hprimed.slots, hprimed.filled, hprimed.ready⟩
    · exact h.primed

end Pool

open Pool

/-- What may happen to a pool that gets transactions in batches. -/
inductive Act (H Addr Tx : Type) where
  | addTxsLocked (txs : List Tx) (isLocal : Bool)
  | runReorg (req : Option (ResetRequest (Header H))) (dirtyAccounts : Option (StructSet Addr))
  | clock (now : ℕ)
  /-- The loops over the maps go through them in any order. -/
  | shuffle (pending queue : Map Addr (TxList Tx))

variable [DecidableEq H] (A) in
inductive Does (c : Chain H Addr Tx) : Act H Addr Tx → Pool Addr Tx → Pool Addr Tx → Prop where
  | addTxsLocked (pool : Pool Addr Tx) (txs : List Tx) (isLocal : Bool) :
      Does c (.addTxsLocked txs isLocal) pool (pool.addTxsLocked A txs isLocal).1
  | runReorg (pool : Pool Addr Tx) (req : Option (ResetRequest (Header H)))
      (dirtyAccounts : Option (StructSet Addr)) :
      Does c (.runReorg req dirtyAccounts) pool (pool.runReorg A c req dirtyAccounts)
  | clock (pool : Pool Addr Tx) (now : ℕ) : Does c (.clock now) pool { pool with now := now }
  | shuffle (pool : Pool Addr Tx) (pending queue : Map Addr (TxList Tx))
      (hp : ∀ a, pending.lookup a = pool.pending.lookup a) (hq : ∀ a, queue.lookup a = pool.queue.lookup a) :
      Does c (.shuffle pending queue) pool { pool with pending := pending, queue := queue }

variable [DecidableEq H] (A) in
/-- The pools that are reached by acts allowed by `ok`. -/
inductive Acts (c : Chain H Addr Tx) (ok : Pool Addr Tx → Act H Addr Tx → Prop) (start : Pool Addr Tx) :
    Pool Addr Tx → Prop where
  | start : Acts c ok start start
  | act {pool pool' : Pool Addr Tx} {act : Act H Addr Tx} :
      Acts c ok start pool → ok pool act → Does A c act pool pool' → Acts c ok start pool'

variable [DecidableEq H] (A) in
/-- The condition on the head resets. -/
def Act.Bridges (c : Chain H Addr Tx) (pool : Pool Addr Tx) : Act H Addr Tx → Prop
  | .runReorg (some r) _ => pool.Bridges A c r
  | _ => True

variable {pool pool' : Pool Addr Tx} [DecidableEq H] {c : Chain H Addr Tx}

omit [DecidableEq Tx] in
theorem gapless_empty (s : Setup Addr) (hslots : 1 ≤ s.config.accountSlots) :
    Gapless A (s.empty : Pool Addr Tx) where
  booked := booked_empty s
  slots := hslots
  filled := nofun
  ranged := by
    intro a n
    refine iff_of_false ?_ fun h => absurd (lt_of_le_of_lt h.1 h.2) (lt_irrefl _)
    rintro ⟨t, ht, -⟩
    exact not_stored_empty ht
  paid := fun t ht => absurd ht not_stored_empty
  young := fun t ht => absurd ht not_stored_empty

theorem Does.gapless (hmax : ∀ tx, A.nonce tx + 1 < 2 ^ 64) {act : Act H Addr Tx} (h : Does A c act pool pool')
    (hok : act.Bridges A c pool) (hg : Gapless A pool) : Gapless A pool' := by
  cases h with
  | addTxsLocked _ txs isLocal => exact hg.addTxsLocked txs isLocal
  | runReorg _ req dirtyAccounts =>
    refine hg.runReorg hmax (fun r hr => ?_) dirtyAccounts
    subst hr
    exact hok
  | clock => exact ⟨{ hg.booked with }, hg.slots, hg.filled, hg.ranged, hg.paid, hg.young⟩
  | shuffle _ pending queue hp hq =>
    have hstep : Step A (.shuffle pending queue) pool { pool with pending := pending, queue := queue } :=
      Step.shuffle pool pending queue hp hq
    obtain ⟨hb, -, hfill⟩ := hstep.booked hg.booked
    have hpends (a : Addr) (n : ℕ) :
        Pends A { pool with pending := pending, queue := queue } a n ↔ Pends A pool a n := by
      simp only [Pends, Taken, stored_congr hp]
    exact ⟨hb, hg.slots, hfill hg.slots hg.filled, fun a n => (hpends a n).trans (hg.ranged a n),
      fun t ht => hg.paid t ((stored_congr hp t).mp ht),
      fun t ht => hg.young t ((stored_congr hq t).mp ht)⟩

theorem Acts.gapless (hmax : ∀ tx, A.nonce tx + 1 < 2 ^ 64) {start : Pool Addr Tx} (hstart : Gapless A start)
    (h : Acts A c (Act.Bridges A c) start pool) : Gapless A pool := by
  induction h with
  | start => exact hstart
  | act _ hok hdoes ih => exact hdoes.gapless hmax hok ih

/-- In every pool that is reached by batches of transactions and passes of `runReorg`
whose head resets bridge the way to what is pending, the pending nonces of an account
are a range that starts at its nonce in the current state and ends at its virtual
nonce. -/
theorem pending_gapless (s : Setup Addr) (hmax : ∀ tx, A.nonce tx + 1 < 2 ^ 64)
    (h : Acts A c (Act.Bridges A c) s.newTxPool pool) (addr : Addr) (l : TxList Tx)
    (hl : pool.pending.lookup addr = some l) :
    ∃ k, (∀ n, n ∈ l.txs.items ↔ pool.currentState.nonce addr ≤ n ∧ n < pool.currentState.nonce addr + k) ∧
      pool.pendingNonces.get addr = pool.currentState.nonce addr + k := by
  have hg := h.gapless hmax (gapless_empty _ s.config.one_le_accountSlots)
  have hw := hg.booked.shelved.left.wf addr l hl
  have hitems (n : ℕ) : n ∈ l.txs.items ↔ Pends A pool addr n := by
    refine SortedMap.mem_keys_iff.trans ⟨?_, ?_⟩
    · rintro ⟨t, ht⟩
      have hhas : l.Has A t := hw.txs.has_of_get ht
      have hs := hw.sender t hhas
      exact ⟨t, (stored_of_lookup hl hs).mpr hhas, hs, hw.txs.keyed n t ht⟩
    · rintro ⟨t, ht, hs, rfl⟩
      exact ⟨t, (stored_of_lookup hl hs).mp ht⟩
  obtain ⟨t, ht⟩ : ∃ t, l.Has A t := by
    by_contra hno
    have hempty := hw.isEmpty_iff.mpr (not_exists.mp hno)
    exact nomatch hempty.symm.trans (hg.filled addr l hl)
  have hs := hw.sender t ht
  have hrange := (hg.ranged addr (A.nonce t)).mp ⟨t, (stored_of_lookup hl hs).mpr ht, hs, rfl⟩
  refine ⟨pool.pendingNonces.get addr - pool.currentState.nonce addr, fun n => ?_, by omega⟩
  rw [hitems, hg.ranged]
  omega

scoped instance neZero_three : NeZero 3 := ⟨by decide⟩

scoped instance neZero_four : NeZero 4 := ⟨by decide⟩

/-- Three transactions of one account with the nonces 3, 4 and 5, the second of which
sends `value`. -/
def threeTxs (value : ℤ) : Attrs (Fin 1) (Fin 3) where
  sender := fun _ => 0
  signed := fun _ => true
  legacy := fun _ => true
  nonce := fun tx => tx.val + 3
  gasPrice := fun _ => 1
  gas := fun _ => 21000
  value := fun tx => if tx = 1 then value else 0
  size := fun _ => 110
  intrinsicGas := fun _ _ => some 21000
  nonce_lt := fun tx => by have := tx.isLt; omega

/-- The old head, block 1, has the first two transactions; the new one, block 2 of
another branch, has none of them, and the account has received less there. -/
def forkedChain : Chain (Fin 4) (Fin 1) (Fin 3) where
  getBlock := fun h n =>
    if h = 0 ∧ n = 0 then some ⟨0, 0, 0, []⟩
    else if h = 1 ∧ n = 1 then some ⟨1, 0, 1, [0, 1]⟩
    else if h = 2 ∧ n = 1 then some ⟨2, 0, 1, []⟩
    else if h = 3 ∧ n = 2 then some ⟨3, 2, 2, []⟩
    else none
  stateAt := fun root =>
    if root = 1 then some ⟨fun _ => 5, fun _ => 10 ^ 6⟩
    else if root = 3 then some ⟨fun _ => 3, fun _ => 10 ^ 6⟩
    else none
  isIstanbul := fun _ => true
  isBerlin := fun _ => true

def forkedSetup : Setup (Fin 1) where
  config := ⟨10, 16, 4096, 64, 1024⟩
  gasPrice := 1
  istanbul := true
  eip2718 := true
  state := ⟨fun _ => 5, fun _ => 10 ^ 6⟩
  maxGas := 30000000
  locals := ∅
  now := 0

/-- The transaction with nonce 5 is added on the old head. -/
def forkedPending (value : ℤ) : Pool (Fin 1) (Fin 3) :=
  ((forkedSetup.newTxPool.addTxsLocked (threeTxs value) [2] false).1).runReorg (threeTxs value)
    forkedChain none (some (AList.singleton 0 ()))

def forkedReset : ResetRequest (Header (Fin 4)) where
  oldHead := ⟨1, 0, 1, 1, 30000000⟩
  newHead := ⟨3, 2, 2, 3, 30000000⟩

/-- Then the head changes to the other branch. -/
def forkedAfter (value : ℤ) : Pool (Fin 1) (Fin 3) :=
  (forkedPending value).runReorg (threeTxs value) forkedChain (some forkedReset) none

theorem forkedAfter_acts {P : Pool (Fin 1) (Fin 3) → Act (Fin 4) (Fin 1) (Fin 3) → Prop} {value : ℤ}
    (hok : ∀ pool txs isLocal, P pool (.addTxsLocked txs isLocal))
    (hok' : ∀ pool dirty, P pool (.runReorg none dirty))
    (hreset : P (forkedPending value) (.runReorg (some forkedReset) none)) :
    Acts (threeTxs value) forkedChain P forkedSetup.newTxPool (forkedAfter value) := by
  have hadd := Acts.act Acts.start (hok _ [2] false)
    (Does.addTxsLocked (A := threeTxs value) (c := forkedChain) forkedSetup.newTxPool [2] false)
  have hpending := hadd.act (hok' _ _) (Does.runReorg _ none (some (AList.singleton 0 ())))
  exact hpending.act hreset (Does.runReorg _ (some forkedReset) none)

/-- The new head's state accepts both transactions that are put back. -/
theorem forked_bridges : Bridges (threeTxs 0) forkedChain (forkedPending 0) forkedReset := by
  intro txs state htxs hstate a _
  have hput : forkedChain.reinject (some forkedReset.oldHead) forkedReset.newHead = some [0, 1] := by
    decide +kernel
  obtain rfl : [0, 1] = txs := Option.some_inj.mp (hput.symm.trans htxs)
  obtain rfl : ⟨fun _ => 3, fun _ => 10 ^ 6⟩ = state := Option.some_inj.mp hstate
  obtain rfl : a = 0 := Subsingleton.elim a 0
  refine .inr (.inr ⟨by decide +kernel, ?_⟩)
  intro n hge hlt
  have hnonce : (forkedPending 0).currentState.nonce 0 = 5 := by decide +kernel
  rw [hnonce] at hlt
  obtain rfl | rfl : n = 3 ∨ n = 4 := by
    have hge : 3 ≤ n := hge
    omega
  · exact ⟨0, by decide, by unfold Accepts; decide +kernel, rfl, rfl⟩
  · exact ⟨1, by decide, by unfold Accepts; decide +kernel, rfl, rfl⟩

/-- All three transactions are pending after the change. -/
theorem pending_gapless_forked :
    ∃ l k, (forkedAfter 0).pending.lookup 0 = some l ∧ l.txs.items.keys = [4, 3, 5] ∧
      (∀ n, n ∈ l.txs.items ↔ (forkedAfter 0).currentState.nonce 0 ≤ n ∧
        n < (forkedAfter 0).currentState.nonce 0 + k) ∧
      (forkedAfter 0).pendingNonces.get 0 = (forkedAfter 0).currentState.nonce 0 + k := by
  have hacts := forkedAfter_acts (P := Act.Bridges (threeTxs 0) forkedChain) (fun _ _ _ => trivial)
    (fun _ _ => trivial) forked_bridges
  have hkeys : ((forkedAfter 0).pending.lookup 0).map (fun l => l.txs.items.keys) = some [4, 3, 5] := by
    decide +kernel
  obtain ⟨l, hl, hk⟩ := Option.map_eq_some_iff.mp hkeys
  obtain ⟨k, hrange⟩ := pending_gapless forkedSetup
    (fun tx => by have := tx.isLt; simp only [threeTxs]; omega) hacts 0 l hl
  exact ⟨l, k, hl, hk, hrange⟩

/-- The transaction with nonce 4 is refused by the new head's state: 3 and 5 are pending. -/
theorem reorg_leaves_gap :
    ∃ pool, Acts (threeTxs (10 ^ 9)) forkedChain (fun _ _ => True) forkedSetup.newTxPool pool ∧
      (pool.pending.lookup 0).map (fun l => l.txs.items.keys) = some [3, 5] ∧ pool.currentState.nonce 0 = 3 :=
  ⟨forkedAfter (10 ^ 9), forkedAfter_acts (fun _ _ _ => trivial) (fun _ _ => trivial) trivial,
    by decide +kernel, by decide +kernel⟩

end Dexit.TxPool
