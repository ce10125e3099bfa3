import Dexit.TxPool.Moves

/-!
# Cutting the pool to its limits

`truncatePending` and `truncateQueue` (core/tx_pool.go). The former takes the last
transactions of the accounts that have most, round by round, until there are few
enough. `trimAll_spec` and `equalize_spec` say that the accounts it works on have
the same number of transactions after each round, so that none is left without.
-/

namespace Dexit.TxPool

open List

variable {Addr Tx : Type} [DecidableEq Addr] {A : Attrs Addr Tx}

namespace Pool

variable {pool pool' pool'' : Pool Addr Tx} {addr a : Addr}

variable (A) in
/-- Last transactions were taken from pending lists. -/
structure Trimmed (pool pool' : Pool Addr Tx) : Prop where
  booked : Booked A pool'
  frame : Frame pool pool'
  queue : pool'.queue = pool.queue
  all : ∀ t, pool'.all.Has t → pool.all.Has t
  sub : ∀ t, Stored A pool'.pending t → Stored A pool.pending t
  down : ∀ t u, Stored A pool'.pending t → Stored A pool.pending u → A.sender u = A.sender t →
    A.nonce u ≤ A.nonce t → Stored A pool'.pending u
  keys : ∀ a, pool'.pending.lookup a = none ↔ pool.pending.lookup a = none
  nonces : ∀ a, pool.pending.lookup a = none → pool'.pendingNonces.get a = pool.pendingNonces.get a

theorem Trimmed.refl (hb : Booked A pool) : Trimmed A pool pool where
  booked := hb
  frame := {}
  queue := rfl
  all := fun _ => id
  sub := fun _ => id
  down := fun _ _ _ hu _ _ => hu
  keys := fun _ => Iff.rfl
  nonces := fun _ _ => rfl

theorem Trimmed.trans (h : Trimmed A pool pool') (h' : Trimmed A pool' pool'') : Trimmed A pool pool'' where
  booked := h'.booked
  frame := h.frame.trans h'.frame
  queue := h'.queue.trans h.queue
  all := fun t ht => h.all t (h'.all t ht)
  sub := fun t ht => h.sub t (h'.sub t ht)
  down := fun t u ht hu hs hn => h'.down t u ht (h.down t u (h'.sub t ht) hu hs hn) hs hn
  keys := fun a => (h'.keys a).trans (h.keys a)
  nonces := fun a ha => (h'.nonces a ((h.keys a).mpr ha)).trans (h.nonces a ha)

theorem pendingLen_of_lookup {l : TxList Tx} (hl : pool.pending.lookup addr = some l) :
    pool.pendingLen addr = l.len := by
  rw [pendingLen, hl]
  rfl

theorem get_lowered (ns : Noncer Addr) (txs : List Tx) (hne : a ≠ addr) :
    (txs.foldl (fun ns tx => ns.setIfLower addr (A.nonce tx)) ns).get a = ns.get a := by
  induction txs generalizing ns with
  | nil => rfl
  | cons tx txs ih => rw [foldl_cons, ih, Noncer.get_setIfLower, if_neg hne]

variable [DecidableEq Tx]

section
variable (hb : Booked A pool)
include hb

theorem trim_spec (addr : Addr) : Trimmed A pool (pool.trim A addr) ∧
      ∀ a, (pool.trim A addr).pendingLen a = if a = addr then pool.pendingLen a - 1 else pool.pendingLen a := by
  rw [trim]
  cases hl : pool.pending.lookup addr with
  | none =>
    refine ⟨Trimmed.refl hb, fun a => ?_⟩
    by_cases ha : a = addr
    · subst ha
      simp [pendingLen, hl]
    · rw [if_neg ha]
  | some list =>
    have hw := hb.shelved.left.wf addr list hl
    obtain ⟨htakes, hlen, hlt⟩ := TxList.cap_spec hw (list.len - 1)
    set caps := list.cap (list.len - 1)
    obtain ⟨htake, hst⟩ := hb.shelved.take hl htakes
    have hsh : Shelved A true (pool.pending.insert addr caps.2) pool.queue (pool.all.removeAll A caps.1).Has [] :=
      htake.drop fun t => Lookup.has_removeAll
    refine ⟨?_, ?_⟩
    · exact {
        booked := ⟨hsh, hb.all.removeAll caps.1⟩
        frame := {}
        queue := rfl
        all := fun t ht => (Lookup.has_removeAll.mp ht).1
        sub := fun t ht => ((hst t).mp ht).1
        down := by
          intro t u ht hu hs hn
          refine (hst u).mpr ⟨hu, fun hout => ?_⟩
          have hsu := hw.sender u (htakes.mem hout)
          obtain ⟨hin, hnot⟩ := (hst t).mp ht
          have hhas : caps.2.Has A t :=
            (htakes.has t).mpr ⟨(stored_of_lookup hl (hs.symm.trans hsu)).mp hin, hnot⟩
          have := hlt u hout t hhas
          omega
        keys := by
          intro a
          by_cases ha : a = addr
          · subst ha
            simp [removed, hl]
          · exact iff_of_eq (congrArg (· = none) (AList.lookup_insert_ne ha))
        nonces := by
          intro a ha
          refine get_lowered pool.pendingNonces caps.1 ?_
          rintro rfl
          exact nomatch ha.symm.trans hl }
    · intro a
      have hset : (pool.pending.insert addr caps.2).lookup addr = some caps.2 := AList.lookup_insert pool.pending
      by_cases ha : a = addr
      · subst ha
        rw [if_pos rfl, pendingLen_of_lookup hl]
        refine (pendingLen_of_lookup hset).trans ?_
        omega
      · rw [if_neg ha]
        exact congrArg (fun o => (Option.map TxList.len o).getD 0) (AList.lookup_insert_ne ha)

theorem trimEach_trimmed (offenders : List Addr) : Trimmed A pool (pool.trimEach A offenders) := by
  induction offenders generalizing pool with
  | nil => exact Trimmed.refl hb
  | cons addr offenders ih =>
    have htrim := (trim_spec hb addr).1
    exact htrim.trans (ih htrim.booked)

theorem trimAll_trimmed (offenders : List Addr) (last : Addr) (threshold pending : ℕ) :
    Trimmed A pool (trimAll A offenders last threshold pending pool).2 := by
  fun_induction trimAll A offenders last threshold pending pool with
  | case1 pending pool h ih =>
    have hround := trimEach_trimmed hb offenders
    exact hround.trans (ih hround.booked)
  | case2 pending pool h => exact Trimmed.refl hb

theorem equalize_trimmed (spammers offenders : List Addr) (pending : ℕ) :
    Trimmed A pool (equalize A spammers offenders pending pool).2.2 := by
  induction spammers generalizing pool offenders pending with
  | nil => exact Trimmed.refl hb
  | cons offender spammers ih =>
    rw [equalize]
    split
    · have hlevel : Trimmed A pool (level A offender offenders pending pool).2 := by
        cases offenders with
        | nil => exact Trimmed.refl hb
        | cons last offenders => exact trimAll_trimmed hb _ _ _ _
      exact hlevel.trans (ih hlevel.booked _ _)
    · exact Trimmed.refl hb

theorem truncatePending_trimmed : Trimmed A pool (pool.truncatePending A) := by
  rw [truncatePending]
  dsimp only
  split
  · exact Trimmed.refl hb
  have htrim := equalize_trimmed hb pool.spammers [] (pool.pending.keys.map pool.pendingLen).sum
  split
  · exact htrim
  · exact htrim.trans (trimAll_trimmed htrim.booked _ _ _ _)

/-! ## How many are left -/

variable {offenders : List Addr} {n : ℕ}

/-- A round takes one transaction from each of the accounts. -/
theorem pendingLen_trimEach (hnodup : offenders.Nodup) (a : Addr) :
    (pool.trimEach A offenders).pendingLen a =
      if a ∈ offenders then pool.pendingLen a - 1 else pool.pendingLen a := by
  induction offenders generalizing pool with
  | nil => simp [trimEach]
  | cons addr offenders ih =>
    obtain ⟨hnot, hnodup⟩ := nodup_cons.mp hnodup
    obtain ⟨htrim, hlen⟩ := trim_spec hb addr
    refine (ih htrim.booked hnodup).trans ?_
    rw [hlen]
    by_cases ha : a = addr
    · subst ha
      simp [hnot]
    · simp [ha]

/-- The accounts, which have the same number of transactions to begin with, have so
afterwards, and no fewer than the threshold. -/
theorem trimAll_spec (hnodup : offenders.Nodup) {last : Addr}
    (hlast : last ∈ offenders) {threshold : ℕ} (hlen : ∀ a ∈ offenders, pool.pendingLen a = n)
    (hle : threshold ≤ n) (pending : ℕ) :
    ∃ n', threshold ≤ n' ∧ (∀ a, (trimAll A offenders last threshold pending pool).2.pendingLen a =
        if a ∈ offenders then n' else pool.pendingLen a) ∧
      ((trimAll A offenders last threshold pending pool).1 ≤ pool.config.globalSlots ∨ n' = threshold) := by
  fun_induction trimAll A offenders last threshold pending pool generalizing n with
  | case1 pending pool h ih =>
    have hround := trimEach_trimmed hb offenders
    have hlen' := pendingLen_trimEach hb hnodup
    have hn := hlen last hlast
    have hstep : ∀ a ∈ offenders, (pool.trimEach A offenders).pendingLen a = n - 1 := by
      intro a ha
      rw [hlen', if_pos ha, hlen a ha]
    obtain ⟨n', hn', hlens, hend⟩ := ih hround.booked hstep (by omega)
    refine ⟨n', hn', ?_, ?_⟩
    · intro a
      rw [hlens]
      split
      · rfl
      · next ha => rw [hlen', if_neg ha]
    · rwa [hround.frame.config] at hend
  | case2 pending pool h =>
    refine ⟨n, hle, ?_, ?_⟩
    · intro a
      split
      · next ha => exact hlen a ha
      · rfl
    · have hne : offenders ≠ [] := ne_nil_of_mem hlast
      have hn := hlen last hlast
      by_cases hp : pool.config.globalSlots < pending
      · right
        by_contra hthr
        exact h ⟨hp, by omega, hne⟩
      · exact Or.inl (not_lt.mp hp)

/-- After the loop over the spammers either there are few enough transactions, or all
offenders have the same number of them, above the allowance. No account has lost its
last one. -/
theorem equalize_spec {floor : ℕ} {spammers : List Addr} (hnodup : (spammers ++ offenders).Nodup)
    (hsorted : spammers.Pairwise fun a b => pool.pendingLen b ≤ pool.pendingLen a)
    (hfloor : ∀ a ∈ spammers, floor < pool.pendingLen a)
    (hoff : ∀ a ∈ offenders, pool.pendingLen a = n) (hn : floor < n)
    (hbelow : offenders ≠ [] → ∀ a ∈ spammers, pool.pendingLen a ≤ n) (pending : ℕ) :
    let r := equalize A spammers offenders pending pool
    (∀ a, 0 < pool.pendingLen a → 0 < r.2.2.pendingLen a) ∧
      (r.2.1 ≤ pool.config.globalSlots ∨
        r.1.Nodup ∧ ∃ n', floor < n' ∧ ∀ a ∈ r.1, r.2.2.pendingLen a = n') := by
  dsimp only
  induction spammers generalizing pool offenders pending n with
  | nil => exact ⟨fun _ => id, Or.inr ⟨hnodup, n, hn, hoff⟩⟩
  | cons offender spammers ih =>
    rw [equalize]
    split
    swap
    · next hp => exact ⟨fun _ => id, Or.inl (not_lt.mp hp)⟩
    have hoffender := hfloor offender mem_cons_self
    obtain ⟨hfirst, hsorted⟩ := pairwise_cons.mp hsorted
    have hnodup' := (perm_middle.nodup_iff).mpr hnodup
    cases offenders with
    | nil =>
      have hrest : ∀ a ∈ spammers, floor < pool.pendingLen a := fun a ha =>
        hfloor a (mem_cons_of_mem _ ha)
      exact ih hb hnodup' hsorted hrest (by simp) hoffender (fun _ => hfirst) pending
    | cons last offenders =>
      rw [level]
      have hrev : (last :: offenders).reverse.Nodup :=
        nodup_reverse.mpr (nodup_append.mp (nodup_cons.mp hnodup).2).2.1
      have hmem (a : Addr) : a ∈ (last :: offenders).reverse ↔ a ∈ last :: offenders := mem_reverse
      have htrim := trimAll_trimmed hb (last :: offenders).reverse last (pool.pendingLen offender) pending
      obtain ⟨n', hn', hlens, hend⟩ := trimAll_spec hb hrev ((hmem last).mpr mem_cons_self)
        (fun a ha => hoff a ((hmem a).mp ha)) (hbelow (by simp) offender mem_cons_self) pending
      set r := trimAll A (last :: offenders).reverse last (pool.pendingLen offender) pending pool
      have hlens' (a : Addr) : r.2.pendingLen a = if a ∈ last :: offenders then n' else pool.pendingLen a := by
        rw [hlens]
        simp only [hmem]
      have halive : ∀ a, 0 < pool.pendingLen a → 0 < r.2.pendingLen a := by
        intro a ha
        rw [hlens']
        split
        · omega
        · exact ha
      have hapart : ∀ a ∈ offender :: spammers, a ∉ last :: offenders := by
        intro a ha hoff'
        exact (nodup_append.mp hnodup).2.2 a ha a hoff' rfl
      have hsame : ∀ a ∈ offender :: spammers, r.2.pendingLen a = pool.pendingLen a := by
        intro a ha
        rw [hlens', if_neg (hapart a ha)]
      rcases hend with hfew | rfl
      · -- few enough: the loop ends here, whoever is left
        have hstop : equalize A spammers (offender :: last :: offenders) r.1 r.2 =
            (offender :: last :: offenders, r.1, r.2) := by
          cases spammers with
          | nil => rfl
          | cons b bs =>
            rw [equalize, if_neg]
            rw [htrim.frame.config]
            omega
        rw [hstop]
        exact ⟨halive, Or.inl hfew⟩
      · have hsorted' : spammers.Pairwise fun a b => r.2.pendingLen b ≤ r.2.pendingLen a := by
          refine hsorted.imp_of_mem ?_
          intro a b ha hb hle
          rwa [hsame a (mem_cons_of_mem _ ha), hsame b (mem_cons_of_mem _ hb)]
        have hfloor' : ∀ a ∈ spammers, floor < r.2.pendingLen a := by
          intro a ha
          rw [hsame a (mem_cons_of_mem _ ha)]
          exact hfloor a (mem_cons_of_mem _ ha)
        have hoff' : ∀ a ∈ offender :: last :: offenders, r.2.pendingLen a = pool.pendingLen offender := by
          intro a ha
          rcases mem_cons.mp ha with rfl | ha
          · exact hsame a mem_cons_self
          · rw [hlens', if_pos ha]
        have hbelow' : ∀ a ∈ spammers, r.2.pendingLen a ≤ pool.pendingLen offender := by
          intro a ha
          rw [hsame a (mem_cons_of_mem _ ha)]
          exact hfirst a ha
        obtain ⟨halive', hend⟩ := ih htrim.booked hnodup' hsorted' hfloor' hoff' hoffender
          (fun _ => hbelow') r.1
        refine ⟨fun a ha => halive' a (halive a ha), ?_⟩
        rwa [htrim.frame.config] at hend

/-- No account loses its last pending transaction. -/
theorem pendingLen_truncatePending (hslots : 1 ≤ pool.config.accountSlots)
    (ha : 0 < pool.pendingLen a) : 0 < (pool.truncatePending A).pendingLen a := by
  rw [truncatePending]
  dsimp only
  split
  · exact ha
  have hperm : pool.spammers.Perm (pool.pending.keys.filter fun addr =>
      decide (addr ∉ pool.locals) && decide (pool.config.accountSlots < pool.pendingLen addr)) :=
    mergeSort_perm _ _
  have hnodup : (pool.spammers ++ []).Nodup := by
    rw [append_nil, hperm.nodup_iff]
    exact (pool.pending.keys_nodup).filter _
  have hsorted : pool.spammers.Pairwise fun a b => pool.pendingLen b ≤ pool.pendingLen a := by
    have hsort : pool.spammers.Pairwise fun a b => decide (pool.pendingLen b ≤ pool.pendingLen a) = true :=
      pairwise_mergeSort (fun a b c hab hbc => by simp only [decide_eq_true_eq] at *; omega)
        (fun a b => by simp only [Bool.or_eq_true, decide_eq_true_eq]; omega) _
    exact hsort.imp of_decide_eq_true
  have hfloor : ∀ a ∈ pool.spammers, pool.config.accountSlots < pool.pendingLen a := by
    intro a ha
    have := (mem_filter.mp (hperm.mem_iff.mp ha)).2
    simp only [Bool.and_eq_true, decide_eq_true_eq] at this
    exact this.2
  have htrim := equalize_trimmed hb pool.spammers [] (pool.pending.keys.map pool.pendingLen).sum
  obtain ⟨halive, hend⟩ := equalize_spec hb hnodup hsorted hfloor
    (by simp : ∀ a ∈ ([] : List Addr), pool.pendingLen a = pool.config.accountSlots + 1) (Nat.lt_succ_self _)
    (fun h => absurd rfl h) (pool.pending.keys.map pool.pendingLen).sum
  set r := equalize A pool.spammers [] (pool.pending.keys.map pool.pendingLen).sum pool
  cases hoff : r.1 with
  | nil => exact halive a ha
  | cons last offenders =>
    dsimp only
    rcases hend with hfew | ⟨hnodup', n, hn, hlens⟩
    · -- few enough: the last loop does nothing
      have hstop : trimAll A (last :: offenders).reverse last pool.config.accountSlots r.2.1 r.2.2 =
          (r.2.1, r.2.2) := by
        rw [trimAll, if_neg]
        rw [htrim.frame.config]
        omega
      rw [hstop]
      exact halive a ha
    · rw [hoff] at hnodup' hlens
      have hmem (a : Addr) : a ∈ (last :: offenders).reverse ↔ a ∈ last :: offenders := mem_reverse
      obtain ⟨n', hn', hlens', -⟩ := trimAll_spec htrim.booked (nodup_reverse.mpr hnodup')
        ((hmem last).mpr mem_cons_self) (fun a ha => hlens a ((hmem a).mp ha)) hn.le r.2.1
      rw [hlens']
      split
      · omega
      · exact halive a ha

theorem truncatePending_filled (hslots : 1 ≤ pool.config.accountSlots)
    (hfill : Filled pool.pending) : Filled (pool.truncatePending A).pending := by
  have htrim := truncatePending_trimmed hb
  intro a l' hl'
  have hpos (l : TxList Tx) : 0 < l.len ↔ l.isEmpty = false := by
    rw [TxList.isEmpty, beq_eq_false_iff_ne]
    exact Nat.pos_iff_ne_zero
  cases hl : pool.pending.lookup a with
  | none => simp [(htrim.keys a).mpr hl] at hl'
  | some l =>
    rw [← hpos, ← pendingLen_of_lookup hl']
    apply pendingLen_truncatePending hb hslots
    rw [pendingLen_of_lookup hl, hpos]
    exact hfill a l hl

end

variable (A) in
/-- Queued transactions were dropped. -/
structure Dequeued (pool pool' : Pool Addr Tx) : Prop where
  booked : Booked A pool'
  frame : Frame pool pool'
  pending : pool'.pending = pool.pending
  nonces : pool'.pendingNonces = pool.pendingNonces
  all : ∀ t, pool'.all.Has t → pool.all.Has t
  queue : ∀ t, Stored A pool'.queue t → Stored A pool.queue t

omit [DecidableEq Tx] in
theorem Dequeued.refl (hb : Booked A pool) : Dequeued A pool pool :=
  ⟨hb, {}, rfl, rfl, fun _ => id, fun _ => id⟩

omit [DecidableEq Tx] in
theorem Dequeued.trans (h : Dequeued A pool pool') (h' : Dequeued A pool' pool'') : Dequeued A pool pool'' :=
  ⟨h'.booked, h.frame.trans h'.frame, h'.pending.trans h.pending, h'.nonces.trans h.nonces,
    fun t ht => h.all t (h'.all t ht), fun t ht => h.queue t (h'.queue t ht)⟩

theorem removeEach_queued (hb : Booked A pool) {txs : List Tx} (hnodup : txs.Nodup)
    (hin : ∀ t ∈ txs, Stored A pool.queue t) (outofbound : Bool) :
    Dequeued A pool (pool.removeEach A txs outofbound) := by
  induction txs generalizing pool with
  | nil => exact Dequeued.refl hb
  | cons tx txs ih =>
    obtain ⟨hnot, hnodup⟩ := nodup_cons.mp hnodup
    obtain ⟨queue, beats, priced, heq, hsh, hst⟩ := removeTx_queued hb (hin tx mem_cons_self) outofbound
    have hfirst : Dequeued A pool (pool.removeTx A tx outofbound) := by
      rw [heq]
      exact ⟨⟨hsh, hb.all.remove tx⟩, {}, rfl, rfl,
        fun t ht => (Lookup.has_remove.mp ht).1, fun t ht => ((hst t).mp ht).1⟩
    refine hfirst.trans (ih hfirst.booked hnodup ?_)
    intro t ht
    rw [heq]
    refine (hst t).mpr ⟨hin t (mem_cons_of_mem _ ht), ?_⟩
    rintro rfl
    exact hnot ht

theorem truncateAccounts_spec (hb : Booked A pool) (addresses : List Addr) (drop : ℕ) :
    Dequeued A pool (truncateAccounts A addresses drop pool) := by
  induction addresses generalizing pool drop with
  | nil => exact Dequeued.refl hb
  | cons addr addresses ih =>
    rw [truncateAccounts]
    split
    · exact Dequeued.refl hb
    cases hl : pool.queue.lookup addr with
    | none => exact ih hb drop
    | some list =>
      have hw := hb.shelved.right.wf addr list hl
      have hin : ∀ t ∈ list.flatten A, Stored A pool.queue t := by
        intro t ht
        have hhas : list.Has A t := hw.txs.mem_flatten.mp ht
        exact (stored_of_lookup hl (hw.sender t hhas)).mpr hhas
      dsimp only
      split
      · have hall := removeEach_queued hb hw.txs.nodup_flatten hin true
        exact hall.trans (ih hall.booked _)
      · have hsome := removeEach_queued hb
          ((nodup_reverse.mpr hw.txs.nodup_flatten).sublist (take_sublist drop _))
          (fun t ht => hin t (mem_reverse.mp (mem_of_mem_take ht))) true
        exact hsome.trans (ih hsome.booked 0)

theorem truncateQueue_spec (hb : Booked A pool) : Dequeued A pool (pool.truncateQueue A) := by
  rw [truncateQueue]
  split
  · exact Dequeued.refl hb
  · exact truncateAccounts_spec hb _ _

end Pool

end Dexit.TxPool
