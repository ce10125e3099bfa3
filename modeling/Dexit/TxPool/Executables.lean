import Dexit.TxPool.Moves

/-!
# Promotion and demotion

`promoteExecutables` and `demoteUnexecutables` (core/tx_pool.go), account by account:
which transactions become pending, which stay so, and which are queued afterwards.
-/

namespace Dexit.TxPool

open Go List

variable {Addr Tx : Type} [DecidableEq Addr] (A : Attrs Addr Tx)

namespace Pool

/-- A transaction is not too old for its account, and can be paid. -/
def Payable (pool : Pool Addr Tx) (addr : Addr) (tx : Tx) : Prop :=
  pool.currentState.nonce addr ≤ A.nonce tx ∧
    TxList.Affordable A (pool.currentState.balance addr) pool.currentMaxGas tx

/-- What an account has in its queue that may be promoted. -/
def Candidate (pool : Pool Addr Tx) (addr : Addr) (tx : Tx) : Prop :=
  A.sender tx = addr ∧ Stored A pool.queue tx ∧ Payable A pool addr tx

variable [DecidableEq Tx]

/-- What one round of `promoteExecutables` does. -/
structure Promotes (pool pool' : Pool Addr Tx) (addr : Addr) (readies : List Tx) : Prop where
  booked : Booked A pool'
  frame : Frame pool pool'
  all : ∀ t, pool'.all.Has t → pool.all.Has t
  filled : Filled pool.pending → Filled pool'.pending
  nonces : pool'.pendingNonces = advance A pool.pendingNonces addr readies
  ready : ∀ t ∈ readies, Candidate A pool addr t
  /-- The candidates with the lowest nonces are ready, up to the first gap, unless they
  are all above the next nonce. -/
  lowest : (readies = [] ∧ ∀ t, Candidate A pool addr t → pool.pendingNonces.get addr < A.nonce t) ∨
    ∃ low, low ≤ pool.pendingNonces.get addr ∧ (∃ t, Candidate A pool addr t ∧ A.nonce t = low) ∧
      (∀ t, Candidate A pool addr t → low ≤ A.nonce t) ∧
      readies.map A.nonce = List.range' low readies.length ∧
      ∀ t, Candidate A pool addr t → A.nonce t ≠ low + readies.length
  pending : ∀ t, Stored A pool'.pending t ↔ Stored A pool.pending t ∨ t ∈ readies
  queue : ∀ t, Stored A pool'.queue t → Stored A pool.queue t ∧ (A.sender t = addr → Payable A pool addr t)
  others : ∀ t, A.sender t ≠ addr → (Stored A pool'.queue t ↔ Stored A pool.queue t)

variable {A} {pool : Pool Addr Tx}

omit [DecidableEq Tx] in
/-- The candidates are what is left of a queue when the old and the unpaid have been
dropped; some of them are ready. -/
theorem sift_spec (pool : Pool Addr Tx) {addr : Addr} {list : TxList Tx} (hw : list.Wf A addr) (hstrict : list.strict = false) :
    ∃ l dropped readies l', pool.sift A addr list = (dropped, readies, l') ∧
      TxList.Takes A list dropped l ∧ TxList.Takes A l readies l' ∧
      (∀ t, l.Has A t ↔ list.Has A t ∧ Payable A pool addr t) ∧
      ((readies = [] ∧ ∀ t, l.Has A t → pool.pendingNonces.get addr < A.nonce t) ∨
        ∃ low, low ≤ pool.pendingNonces.get addr ∧ (∃ t, l.Has A t ∧ A.nonce t = low) ∧
          (∀ t, l.Has A t → low ≤ A.nonce t) ∧
          readies.map A.nonce = range' low readies.length ∧
          ∀ t, l.Has A t → A.nonce t ≠ low + readies.length) := by
  obtain ⟨hfwd, hyoung⟩ := TxList.forward_spec hw (pool.currentState.nonce addr)
  set forwards := list.forward (pool.currentState.nonce addr) with hforwards
  have hw₁ := hfwd.wf hw
  obtain ⟨drops, invalids, l, hfilter, hdrop, hnil, hpaid⟩ :=
    TxList.filter_spec hw₁ (pool.currentState.balance addr) pool.currentMaxGas
  obtain rfl := hnil (hfwd.strict.trans hstrict)
  rw [append_nil] at hdrop
  have hwl := hdrop.wf hw₁
  obtain ⟨hready, hrun⟩ := TxList.ready_spec hwl (pool.pendingNonces.get addr)
  refine ⟨l, forwards.1 ++ drops, _, _, ?_, hfwd.trans hdrop, hready, ?_, ?_⟩
  · rw [sift, ← hforwards, hfilter]
  · intro t
    rw [hpaid, hyoung, and_assoc, Payable, and_iff_left (b := _ → _)]
    exact fun h => nomatch h.symm.trans (hfwd.strict.trans hstrict)
  · rcases hrun with hnone | ⟨low, hle, hfirst, hall, hrange, hend⟩
    · exact .inl hnone
    · exact .inr ⟨low, hle, hfirst, hall, hrange, (TxList.get_eq_none_iff hwl).mp hend⟩

/-- Cutting a queue only drops transactions of its account. -/
theorem cutQueue_spec (hb : Booked A pool) {addr : Addr} {list : TxList Tx}
    (hl : pool.queue.lookup addr = some list) (dropped : ℕ) :
    ∃ queue beats all priced, pool.cutQueue A addr list dropped = { pool with
        queue := queue, beats := beats, all := all, priced := priced } ∧
      Shelved A true pool.pending queue all.Has [] ∧ all.Wf A ∧ (∀ t, all.Has t → pool.all.Has t) ∧
      (∀ t, Stored A queue t → Stored A pool.queue t) ∧
      ∀ t, A.sender t ≠ addr → (Stored A queue t ↔ Stored A pool.queue t) := by
  have hw := hb.shelved.right.wf addr list hl
  obtain ⟨caps, l, hcaps, hcap⟩ : ∃ caps l,
      (if addr ∈ pool.locals then ([], list) else list.cap pool.config.accountQueue) = (caps, l) ∧
        TxList.Takes A list caps l := by
    split
    · exact ⟨[], list, rfl, TxList.Takes.refl hw⟩
    · exact ⟨_, _, rfl, (TxList.cap_spec hw pool.config.accountQueue).1⟩
  obtain ⟨htake, hst⟩ := hb.shelved.swap.take hl hcap
  have hdrop : Shelved A false (pool.queue.insert addr l) pool.pending (pool.all.removeAll A caps).Has [] :=
    htake.drop fun t => Lookup.has_removeAll
  obtain ⟨hshelf, hstored⟩ := hb.shelved.right.unlessEmpty (hcap.wf hw)
    (hcap.strict.trans (hb.shelved.right.strict addr list hl))
  refine ⟨_, if l.isEmpty then pool.beats.erase addr else pool.beats, pool.all.removeAll A caps,
    pool.priced.removed A (pool.all.removeAll A caps) (dropped + caps.length), ?_,
    (hdrop.congr_left hshelf hstored).swap, hb.all.removeAll caps, fun t ht => (Lookup.has_removeAll.mp ht).1,
    fun t ht => ((hst t).mp ((hstored t).mp ht)).1, ?_⟩
  · rw [cutQueue, hcaps, ← Map.erase_insert (m := pool.queue) (v := l)]
    cases l.isEmpty <;> rfl
  · intro t hs
    have hnot : t ∉ caps := fun hout => hs (hw.sender t (hcap.mem hout))
    rw [hstored, hst]
    tauto

theorem promoteAccount_spec (hb : Booked A pool) (addr : Addr) :
    Promotes A pool (pool.promoteAccount A addr).1 addr (pool.promoteAccount A addr).2 := by
  rw [promoteAccount]
  cases hl : pool.queue.lookup addr with
  | none =>
    exact {
      booked := hb
      frame := {}
      all := fun _ => id
      filled := id
      nonces := rfl
      ready := nofun
      lowest := .inl ⟨rfl, fun t ht => absurd ht.2.1 (not_stored_of_lookup hl ht.1)⟩
      pending := by simp
      queue := fun t ht => ⟨ht, fun hs => absurd ht (not_stored_of_lookup hl hs)⟩
      others := fun t _ => Iff.rfl }
  | some list =>
    have hw := hb.shelved.right.wf addr list hl
    obtain ⟨l, dropped, readies, l', hsift, hdrop, hready, hpay, hrun⟩ :=
      sift_spec pool hw (hb.shelved.right.strict addr list hl)
    have hwl := hdrop.wf hw
    have hcand (t : Tx) : l.Has A t ↔ Candidate A pool addr t := by
      rw [hpay]
      constructor
      · rintro ⟨hin, hp⟩
        have hs := hw.sender t hin
        exact ⟨hs, (stored_of_lookup hl hs).mpr hin, hp⟩
      · rintro ⟨hs, hin, hp⟩
        exact ⟨(stored_of_lookup hl hs).mp hin, hp⟩
    -- the queue is written back, and what was dropped leaves the lookup
    obtain ⟨htake, hst⟩ := hb.shelved.swap.take hl (hdrop.trans hready)
    have hloose : Shelved A true pool.pending (pool.queue.insert addr l')
        (pool.all.removeAll A dropped).Has (readies ++ []) := by
      rw [append_assoc] at htake
      exact (htake.drop fun t => Lookup.has_removeAll).swap
    obtain ⟨pending, beats, heach, hsh, hpend, hfill⟩ := @promoteEach_spec _ _ _ _ A
      (pool.setQueue A addr l' dropped) _ [] addr readies hloose fun t ht => hwl.sender t (hready.mem ht)
    set promoted : Pool Addr Tx := { pool.setQueue A addr l' dropped with
      pending := pending, beats := beats, pendingNonces := advance A pool.pendingNonces addr readies }
    have hb' : Booked A promoted := ⟨hsh, hb.all.removeAll dropped⟩
    obtain ⟨queue, beats', all, priced, hcut, hsh', hall, hsub, hqueue, hothers⟩ :=
      cutQueue_spec hb' (AList.lookup_insert pool.queue) dropped.length
    dsimp only
    rw [hsift]
    rw [heach]
    change Promotes A pool (cutQueue A promoted addr l' dropped.length) addr readies
    rw [hcut]
    exact {
      booked := ⟨hsh', hall⟩
      frame := {}
      all := fun t ht => (Lookup.has_removeAll.mp (hsub t ht)).1
      filled := hfill
      nonces := rfl
      ready := fun t ht => (hcand t).mp (hready.mem ht)
      lowest := by simpa only [hcand] using hrun
      pending := hpend
      queue := by
        intro t ht
        obtain ⟨hin, hnot⟩ := (hst t).mp (hqueue t ht)
        refine ⟨hin, fun hs => ?_⟩
        have hleft : l.Has A t := (hdrop.has t).mpr
          ⟨(stored_of_lookup hl hs).mp hin, fun hout => hnot (mem_append_left _ hout)⟩
        exact ((hcand t).mp hleft).2.2
      others := by
        intro t hs
        have hnot : t ∉ dropped ++ readies := fun hout => hs (hw.sender t ((hdrop.trans hready).mem hout))
        refine (hothers t hs).trans ((hst t).trans ?_)
        tauto }

variable (A) in
/-- A pending transaction that stays so unless there is a gap in front: it is not too
old, and neither it nor one before it is too expensive. -/
def Kept (pool : Pool Addr Tx) (addr : Addr) (tx : Tx) : Prop :=
  Stored A pool.pending tx ∧ A.sender tx = addr ∧ Payable A pool addr tx ∧
    ∀ r, Stored A pool.pending r → A.sender r = addr → pool.currentState.nonce addr ≤ A.nonce r →
      ¬ Payable A pool addr r → A.nonce tx < A.nonce r

variable (A) in
/-- What one round of `demoteUnexecutables` does. -/
structure Demotes (pool pool' : Pool Addr Tx) (addr : Addr) : Prop where
  booked : Booked A pool'
  frame : Frame pool pool'
  all : ∀ t, pool'.all.Has t → pool.all.Has t
  filled : Filled pool.pending → Filled pool'.pending
  nonces : pool'.pendingNonces = pool.pendingNonces
  pending : ∀ t, Stored A pool'.pending t ↔ Stored A pool.pending t ∧ (A.sender t = addr →
    Kept A pool addr t ∧ ∃ first, Kept A pool addr first ∧ A.nonce first = pool.currentState.nonce addr)
  queue : ∀ t, Stored A pool'.queue t → Stored A pool.queue t ∨
    Stored A pool.pending t ∧ A.sender t = addr ∧ pool.currentState.nonce addr ≤ A.nonce t

omit [DecidableEq Addr] [DecidableEq Tx] in
/-- The list of an account without a gap in front, or else nothing of it. -/
theorem postpone_spec {addr : Addr} {l : TxList Tx} (hw : l.Wf A addr) (nonce : ℕ) :
    ∃ gapped l', (if 0 < l.len ∧ (l.txs.get nonce).isNone then l.cap 0 else ([], l)) = (gapped, l') ∧
      TxList.Takes A l gapped l' ∧
      ∀ t, l'.Has A t ↔ l.Has A t ∧ ∃ first, l.Has A first ∧ A.nonce first = nonce := by
  split
  · next h =>
    obtain ⟨htakes, hlen, -⟩ := TxList.cap_spec hw 0
    refine ⟨_, _, rfl, htakes, fun t => iff_of_false ?_ ?_⟩
    · have hempty : (l.cap 0).2.isEmpty = true := by
        rw [TxList.isEmpty, hlen, Nat.zero_min]
        rfl
      exact (htakes.wf hw).isEmpty_iff.mp hempty t
    · rintro ⟨-, first, hfirst, rfl⟩
      rw [Option.isNone_iff_eq_none] at h
      cases h.2.symm.trans hfirst
  · next h =>
    refine ⟨[], l, rfl, TxList.Takes.refl hw, fun t => ⟨fun ht => ⟨ht, ?_⟩, And.left⟩⟩
    have hpos : 0 < l.len := hw.txs.len_pos.mpr ⟨t, ht⟩
    cases hget : l.txs.get nonce with
    | none => exact absurd ⟨hpos, by rw [hget]; rfl⟩ h
    | some first => exact ⟨first, hw.txs.has_of_get hget, hw.txs.keyed nonce first hget⟩

theorem demoteAccount_spec (hb : Booked A pool) (addr : Addr) :
    Demotes A pool (pool.demoteAccount A addr) addr := by
  rw [demoteAccount]
  cases hl : pool.pending.lookup addr with
  | none =>
    exact {
      booked := hb
      frame := {}
      all := fun _ => id
      filled := id
      nonces := rfl
      pending := fun t => ⟨fun ht => ⟨ht, fun hs => absurd ht (not_stored_of_lookup hl hs)⟩, And.left⟩
      queue := fun t => .inl }
  | some list =>
    have hw := hb.shelved.left.wf addr list hl
    have hstrict := hb.shelved.left.strict addr list hl
    obtain ⟨hfwd, hyoung⟩ := TxList.forward_spec hw (pool.currentState.nonce addr)
    set olds := list.forward (pool.currentState.nonce addr)
    have hw₁ := hfwd.wf hw
    obtain ⟨drops, invalids, l₂, hfilter, hdrop, -, hpaid⟩ :=
      TxList.filter_spec hw₁ (pool.currentState.balance addr) pool.currentMaxGas
    obtain ⟨gapped, l₃, hgap, hpost, hleft⟩ := postpone_spec (hdrop.wf hw₁) (pool.currentState.nonce addr)
    have htaken := (hfwd.trans hdrop).trans hpost
    have hlist (t : Tx) (hs : A.sender t = addr) : Stored A pool.pending t ↔ list.Has A t :=
      stored_of_lookup hl hs
    have hkept (t : Tx) : l₂.Has A t ↔ Kept A pool addr t := by
      rw [hpaid, hyoung]
      constructor
      · rintro ⟨⟨hin, hle⟩, hpay, hbelow⟩
        have hs := hw.sender t hin
        refine ⟨(hlist t hs).mpr hin, hs, ⟨hle, hpay⟩, fun r hr hsr hler hnot => ?_⟩
        exact hbelow (hfwd.strict.trans hstrict) r ((hyoung r).mpr ⟨(hlist r hsr).mp hr, hler⟩)
          fun hpay => hnot ⟨hler, hpay⟩
      · rintro ⟨hin, hs, ⟨hle, hpay⟩, hbelow⟩
        refine ⟨⟨(hlist t hs).mp hin, hle⟩, hpay, fun _ r hr hnot => ?_⟩
        obtain ⟨hr, hler⟩ := (hyoung r).mp hr
        have hsr := hw.sender r hr
        exact hbelow r ((hlist r hsr).mpr hr) hsr hler fun hp => hnot hp.2
    -- the list is written back, what was dropped leaves the lookup, and the rest is queued
    obtain ⟨htake, hst⟩ := hb.shelved.take hl htaken
    obtain ⟨hshelf, hsame⟩ := hb.shelved.left.unlessEmpty (htaken.wf hw) (htaken.strict.trans hstrict)
    set all := pool.all.removeAll A (olds.1 ++ drops)
    set pool₁ : Pool Addr Tx := removed A { pool.setPending addr l₃ with all := all }
      (olds.1.length + drops.length) with hpool₁
    have hloose : Shelved A true pool₁.pending pool₁.queue all.Has (invalids ++ (gapped ++ [])) := by
      have h := htake.congr_left hshelf hsame
      rw [← append_assoc, append_assoc, append_assoc] at h
      exact h.drop fun t => Lookup.has_removeAll
    obtain ⟨queue₂, beats₂, heq₂, hsh₂, hst₂⟩ := requeue_spec invalids hloose
    obtain ⟨queue₃, beats₃, heq₃, hsh₃, hst₃⟩ := @requeue_spec _ _ _ _ A
      { pool₁ with queue := queue₂, beats := beats₂ } _ [] gapped hsh₂
    dsimp only
    rw [hfilter]
    rw [hgap]
    rw [heq₂, heq₃]
    exact {
      booked := ⟨hsh₃, hb.all.removeAll _⟩
      frame := {}
      all := fun t ht => (Lookup.has_removeAll.mp ht).1
      filled := fun hf => Filled.unlessEmpty fun a l _ hl => hf a l hl
      nonces := rfl
      pending := by
        intro t
        have hin := (hsame t).trans (hst t)
        refine hin.trans (and_congr_right fun hp => ?_)
        by_cases hs : A.sender t = addr
        · have hl₃ : l₃.Has A t ↔ t ∉ olds.1 ++ (drops ++ invalids) ++ gapped := by
            rw [htaken.has, and_iff_right ((hlist t hs).mp hp)]
          rw [← hl₃, hleft]
          simp only [hkept, hs, true_implies]
        · refine iff_of_true (fun hout => hs (hw.sender t (htaken.mem hout))) fun h => absurd h hs
      queue := by
        intro t ht
        have hback : t ∈ invalids ∨ t ∈ gapped → Stored A pool.pending t ∧ A.sender t = addr ∧
            pool.currentState.nonce addr ≤ A.nonce t := by
          intro h
          have h₁ : olds.2.Has A t := by
            rcases h with h | h
            · exact hdrop.mem (mem_append_right _ h)
            · exact hdrop.has_of (hpost.mem h)
          obtain ⟨hin, hle⟩ := (hyoung t).mp h₁
          have hs := hw.sender t hin
          exact ⟨(hlist t hs).mpr hin, hs, hle⟩
        rcases (hst₃ t).mp ht with ht | ht
        · rcases (hst₂ t).mp ht with ht | ht
          · exact .inl ht
          · exact .inr (hback (.inl ht))
        · exact .inr (hback (.inr ht)) }

end Pool

end Dexit.TxPool
