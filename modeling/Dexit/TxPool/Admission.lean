import Dexit.TxPool.Moves

/-!
# Adding a transaction

`add` (core/tx_pool.go) in three parts: the checks, the room that is made for the
transaction where the pool is full, and its place in the pending list or the queue of
its sender, where it may replace one with the same nonce.
-/

namespace Dexit.TxPool

variable {Addr Tx : Type} [DecidableEq Addr] [DecidableEq Tx] {A : Attrs Addr Tx}

namespace Pool

variable {pool pool' : Pool Addr Tx} {tx : Tx}

/-- The ways out of `add`. -/
theorem add_cases (pool : Pool Addr Tx) (tx : Tx) (isLocal : Bool) :
    let asLocal := isLocal || pool.containsTx A tx
    let room := pool.makeRoom A tx asLocal
    (∃ e, (pool.add A tx isLocal).1 = pool ∧
        (pool.all.Has tx ∨ pool.validateTx A tx asLocal = .error e)) ∨
      ¬ pool.all.Has tx ∧ pool.validateTx A tx asLocal = .ok () ∧
        ((∃ e, room.2 = some e ∧ (pool.add A tx isLocal).1 = room.1) ∨
          room.2 = none ∧ (pool.add A tx isLocal).1 = (room.1.place A tx isLocal asLocal).1) := by
  rw [add]
  split
  · next hhas => exact .inl ⟨.alreadyKnown, rfl, .inl hhas⟩
  next hhas =>
  dsimp only
  cases hv : pool.validateTx A tx (isLocal || pool.containsTx A tx) with
  | error e => exact .inl ⟨e, rfl, .inr rfl⟩
  | ok _ =>
    refine .inr ⟨hhas, rfl, ?_⟩
    rcases pool.makeRoom A tx (isLocal || pool.containsTx A tx) with ⟨room, _ | e⟩
    · exact .inr ⟨rfl, rfl⟩
    · exact .inl ⟨e, rfl, rfl⟩

/-- The ways out of the room making. What is dropped for a remote transaction is
remote, and has, entry by entry, the slots that are wanted. -/
theorem makeRoom_cases (pool : Pool Addr Tx) (tx : Tx) (asLocal : Bool) :
    (pool.all.count + A.numSlots tx ≤ pool.config.capacity ∧ pool.makeRoom A tx asLocal = (pool, none)) ∨
      pool.config.capacity < pool.all.count + A.numSlots tx ∧ ∃ priced,
        (∃ e, pool.makeRoom A tx asLocal = ({ pool with priced := priced }, some e)) ∨
          ∃ drop, pool.makeRoom A tx asLocal = (removeEach A { pool with priced := priced } drop false, none) ∧
            (asLocal = false → (∀ t ∈ drop, t ∈ pool.all.remotes) ∧ drop.Subperm pool.priced.remotes ∧
              pool.all.slots - pool.config.capacity + A.numSlots tx ≤ A.slotsOf drop) := by
  rw [makeRoom]
  split
  swap
  · next hfits => exact .inl ⟨not_lt.mp hfits, rfl⟩
  next hfull =>
  refine .inr ⟨hfull, ?_⟩
  dsimp only
  set u := if asLocal then (false, pool.priced) else pool.priced.underpriced A pool.all tx with hu
  have hsub : u.2.remotes.Subperm pool.priced.remotes := by
    rw [hu]
    split
    · exact List.Subperm.refl _
    · rw [PricedList.underpriced]
      split <;> exact PricedList.dropStale_subperm pool.all pool.priced
  split
  · exact ⟨u.2, .inl ⟨_, rfl⟩⟩
  set r := u.2.discard A pool.all (pool.all.slots - pool.config.capacity + A.numSlots tx) asLocal with hr
  refine ⟨r.2, ?_⟩
  cases hdrop : r.1 with
  | none => exact .inl ⟨_, rfl⟩
  | some drop =>
    refine .inr ⟨drop, rfl, ?_⟩
    rintro rfl
    have hdiscard : u.2.discard A pool.all (pool.all.slots - pool.config.capacity + A.numSlots tx) false =
        (some drop, r.2) := by rw [← hr, ← hdrop]
    obtain ⟨hremote, hheap, hslots⟩ := PricedList.discard_spec hdiscard
    exact ⟨hremote, hheap.trans hsub, hslots⟩

theorem makeRoom_booked (hb : Booked A pool) (tx : Tx) (asLocal : Bool) :
    Booked A (pool.makeRoom A tx asLocal).1 ∧ Frame pool (pool.makeRoom A tx asLocal).1 ∧
      (∀ t, (pool.makeRoom A tx asLocal).1.all.Has t → pool.all.Has t) ∧
      (Filled pool.pending → Filled (pool.makeRoom A tx asLocal).1.pending) := by
  rcases makeRoom_cases (A := A) pool tx asLocal with ⟨-, heq⟩ | ⟨-, priced, ⟨e, heq⟩ | ⟨drop, heq, -⟩⟩
  · rw [heq]
    exact ⟨hb, {}, fun _ => id, id⟩
  · rw [heq]
    exact ⟨{ hb with }, {}, fun _ => id, id⟩
  · have hb' : Booked A { pool with priced := priced } := { hb with }
    obtain ⟨hbooked, hframe, hall, hfill⟩ := removeEach_booked hb' drop false
    rw [heq]
    exact ⟨hbooked, { hframe with }, fun t ht => ((hall t).mp ht).1, hfill⟩

variable (A) in
/-- Some transaction of the account has the nonce. -/
def Taken (S : Tx → Prop) (addr : Addr) (n : ℕ) : Prop := ∃ t, S t ∧ A.sender t = addr ∧ A.nonce t = n

variable (A) in
/-- A transaction was placed, or refused in favour of one with the same nonce. -/
structure Places (pool pool' : Pool Addr Tx) (tx : Tx) : Prop extends SameRules pool pool' where
  booked : Booked A pool'
  pendingNonces : pool'.pendingNonces = pool.pendingNonces := by rfl
  filled : Filled pool.pending → Filled pool'.pending
  all : ∀ t, pool'.all.Has t → t = tx ∨ pool.all.Has t
  pending : ∀ addr n, Taken A (Stored A pool'.pending) addr n ↔ Taken A (Stored A pool.pending) addr n
  pending_of : ∀ t, Stored A pool'.pending t → t = tx ∨ Stored A pool.pending t
  queue : ∀ t, Stored A pool'.queue t → t = tx ∨ Stored A pool.queue t
  still : ∀ addr n, Taken A (Stored A pool.queue) addr n → Taken A (Stored A pool'.queue) addr n
  taken : Taken A pool'.all.Has (A.sender tx) (A.nonce tx)

omit [DecidableEq Addr] [DecidableEq Tx] in
/-- Replacing a transaction by one with the same nonce changes no nonce. -/
theorem taken_replace {S S' : Tx → Prop} {old : Tx} (hold : S old) (hsender : A.sender old = A.sender tx)
    (hnonce : A.nonce old = A.nonce tx) (hS : ∀ t, S' t ↔ t = tx ∨ S t ∧ t ≠ old) (addr : Addr) (n : ℕ) :
    Taken A S' addr n ↔ Taken A S addr n := by
  constructor
  · rintro ⟨t, ht, hs, hn⟩
    rcases (hS t).mp ht with rfl | ⟨ht, -⟩
    · exact ⟨old, hold, hsender.trans hs, hnonce.trans hn⟩
    · exact ⟨t, ht, hs, hn⟩
  · rintro ⟨t, ht, hs, hn⟩
    by_cases heq : t = old
    · subst heq
      exact ⟨tx, (hS tx).mpr (.inl rfl), hsender.symm.trans hs, hnonce.symm.trans hn⟩
    · exact ⟨t, (hS t).mpr (.inr ⟨ht, heq⟩), hs, hn⟩

omit [DecidableEq Addr] in
theorem has_swapped (all : Lookup Tx) (old tx : Tx) (isLocal : Bool) (t : Tx) :
    ((all.remove A old).add A tx isLocal).Has t ↔ t = tx ∨ all.Has t ∧ t ≠ old := by
  rw [Lookup.has_add, Lookup.has_remove]

omit [DecidableEq Addr] in
theorem wf_swapped {all : Lookup Tx} (hw : all.Wf A) (hnew : ¬ all.Has tx) (old : Tx) (isLocal : Bool) :
    ((all.remove A old).add A tx isLocal).Wf A :=
  (hw.remove old).add (fun h => hnew (Lookup.has_remove.mp h).1) isLocal

/-- The two results of `enqueueTx` for a new transaction whose nonce is not pending. -/
theorem enqueueTx_new (hb : Booked A pool) (hnew : ¬ pool.all.Has tx)
    (hfree : ¬ Taken A (Stored A pool.pending) (A.sender tx) (A.nonce tx)) (isLocal : Bool) :
    Places A pool (pool.enqueueTx A tx isLocal true).1 tx ∧
      (pool.enqueueTx A tx isLocal true).1.locals = pool.locals := by
  have hswap : Shelved A false pool.queue pool.pending pool.all.Has [] := hb.shelved.swap
  obtain ⟨hw, hstrict, hhas⟩ := hswap.left.getD (A.sender tx)
  rw [enqueueTx]
  set list := (pool.queue.lookup (A.sender tx)).getD (.new false) with hlist
  -- where the nonce is queued, the list is stored
  have hlookup {old : Tx} (hget : list.txs.get (A.nonce tx) = some old) :
      pool.queue.lookup (A.sender tx) = some list := by
    cases hl : pool.queue.lookup (A.sender tx) with
    | none =>
      rw [hlist, hl] at hget
      cases hget
    | some l => rw [hlist, hl, Option.getD_some]
  rcases TxList.add_cases (A := A) list tx pool.config.priceBump with ⟨hadd, old, hget⟩ | ⟨old, hadd, hget⟩
  · rw [hadd]
    have hl := hlookup hget
    have hold : list.Has A old := hw.txs.has_of_get hget
    have hstored : ∀ t, Stored A (pool.queue.insert (A.sender tx) list) t ↔ Stored A pool.queue t := by
      intro t
      rw [stored_insert]
      by_cases hs : A.sender t = A.sender tx
      · rw [hhas t hs]
        simp [hs]
      · simp [hs]
    have hin : Stored A pool.queue old := (stored_of_lookup hl (hw.sender old hold)).mpr hold
    refine ⟨?_, rfl⟩
    exact {
      booked := ⟨(hswap.congr_left (hswap.left.insert hw hstrict) hstored).swap, hb.all⟩
      filled := id
      all := fun t => .inr
      pending := fun _ _ => Iff.rfl
      pending_of := fun t => .inr
      queue := fun t ht => .inr ((hstored t).mp ht)
      still := fun _ _ h => h.imp fun t ht => ht.imp_left (hstored t).mpr
      taken := ⟨old, hb.mem.mpr (.inr hin), hw.sender old hold, hw.txs.keyed _ old hget⟩ }
  · rw [hadd]
    cases old with
    | none =>
      have hfree' : ∀ t, pool.all.Has t → A.sender t = A.sender tx → A.nonce t ≠ A.nonce tx := by
        intro t ht hs hn
        rcases hb.mem.mp ht with ht | ht
        · exact hfree ⟨t, ht, hs, hn⟩
        · exact (TxList.get_eq_none_iff hw).mp hget t ((hhas t hs).mpr ht) hn
      have hall (t : Tx) : (pool.all.add A tx isLocal).Has t ↔ t = tx ∨ pool.all.Has t := Lookup.has_add
      obtain ⟨-, hput, hst⟩ := (hswap.enter hnew hfree' hall).put
      refine ⟨?_, rfl⟩
      exact {
        booked := ⟨hput.swap, hb.all.add hnew isLocal⟩
        filled := id
        all := fun t ht => (hall t).mp ht
        pending := fun _ _ => Iff.rfl
        pending_of := fun t => .inr
        queue := fun t ht => ((hst t).mp ht).symm
        still := fun _ _ h => h.imp fun t ht => ht.imp_left fun hq => (hst t).mpr (.inl hq)
        taken := ⟨tx, (hall tx).mpr (.inl rfl), rfl, rfl⟩ }
    | some old =>
      have hall (t : Tx) := has_swapped (A := A) pool.all old tx isLocal t
      obtain ⟨hput, hst⟩ := hswap.replace (hlookup hget) hget hnew hall
      have hold : list.Has A old := hw.txs.has_of_get hget
      have hsender := hw.sender old hold
      have hnonce := hw.txs.keyed _ old hget
      have hold' : Stored A pool.queue old := (hhas old hsender).mp hold
      refine ⟨?_, rfl⟩
      exact {
        booked := ⟨hput.swap, wf_swapped hb.all hnew old isLocal⟩
        filled := id
        all := fun t ht => ((hall t).mp ht).imp_right And.left
        pending := fun _ _ => Iff.rfl
        pending_of := fun t => .inr
        queue := fun t ht => ((hst t).mp ht).imp_right And.left
        still := fun addr n => (taken_replace hold' hsender hnonce hst addr n).mpr
        taken := ⟨tx, (hall tx).mpr (.inl rfl), rfl, rfl⟩ }

/-- Marking an account as local changes no list. -/
theorem Places.markLocal (h : Places A pool pool' tx) (addr : Addr) :
    Places A pool (pool'.markLocal A addr) tx := by
  have hall (t : Tx) : (pool'.markLocal A addr).all.Has t ↔ pool'.all.Has t := Lookup.has_remoteToLocals
  exact { h with
    booked := ⟨h.booked.shelved.of_iff hall, h.booked.all.remoteToLocals _⟩
    all := fun t ht => h.all t ((hall t).mp ht)
    taken := h.taken.imp fun t ht => ⟨(hall t).mpr ht.1, ht.2⟩ }

theorem place_spec (hb : Booked A pool) (hnew : ¬ pool.all.Has tx) (isLocal asLocal : Bool) :
    Places A pool (pool.place A tx isLocal asLocal).1 tx ∧
      (isLocal = false → (pool.place A tx isLocal asLocal).1.locals = pool.locals) := by
  rw [place]
  dsimp only
  cases hp : (pool.pending.lookup (A.sender tx)).filter (·.overlaps A tx) with
  | some list =>
    obtain ⟨hl, hover⟩ := Option.filter_eq_some_iff.mp hp
    have hw := hb.shelved.left.wf _ list hl
    obtain ⟨old, hget⟩ := Option.isSome_iff_exists.mp hover
    have hold : list.Has A old := hw.txs.has_of_get hget
    have hsender := hw.sender old hold
    have hnonce := hw.txs.keyed _ old hget
    have hin : Stored A pool.pending old := (stored_of_lookup hl hsender).mpr hold
    have hall : pool.all.Has old := hb.mem.mpr (.inl hin)
    dsimp only
    rcases TxList.add_cases (A := A) list tx pool.config.priceBump with ⟨hadd, -⟩ | ⟨old', hadd, hget'⟩
    · rw [hadd]
      refine ⟨?_, fun _ => rfl⟩
      exact {
        booked := hb
        filled := id
        all := fun t => .inr
        pending := fun _ _ => Iff.rfl
        pending_of := fun t => .inr
        queue := fun t => .inr
        still := fun _ _ => id
        taken := ⟨old, hall, hsender, hnonce⟩ }
    · obtain rfl : some old = old' := hget.symm.trans hget'
      rw [hadd]
      have hhas (t : Tx) := has_swapped (A := A) pool.all old tx asLocal t
      obtain ⟨hput, hst⟩ := hb.shelved.replace hl hget hnew hhas
      refine ⟨?_, fun _ => rfl⟩
      exact {
        booked := ⟨hput, wf_swapped hb.all hnew old asLocal⟩
        filled := by
          intro hfill
          refine hfill.insert ?_
          rw [Bool.eq_false_iff, ne_eq, (hw.put rfl).isEmpty_iff]
          exact fun hnone => hnone tx (TxList.has_put.mpr (.inl rfl))
        all := fun t ht => ((hhas t).mp ht).imp_right And.left
        pending := taken_replace hin hsender hnonce hst
        pending_of := fun t ht => ((hst t).mp ht).imp_right And.left
        queue := fun t => .inr
        still := fun _ _ => id
        taken := ⟨tx, (hhas tx).mpr (.inl rfl), rfl, rfl⟩ }
  | none =>
    have hfree : ¬ Taken A (Stored A pool.pending) (A.sender tx) (A.nonce tx) := by
      rintro ⟨t, ⟨l, hl, ht⟩, hs, hn⟩
      rw [hs] at hl
      rw [hl, Option.filter_eq_none_iff] at hp
      refine hp l rfl ?_
      have hget : l.txs.get (A.nonce t) = some t := ht
      rw [TxList.overlaps, ← hn, hget]
      rfl
    obtain ⟨hplaces, hlocals⟩ := enqueueTx_new hb hnew hfree asLocal
    cases (pool.enqueueTx A tx asLocal true).2 with
    | error e => exact ⟨hplaces, fun _ => hlocals⟩
    | ok replaced =>
      dsimp only
      split
      · refine ⟨hplaces.markLocal _, ?_⟩
        rintro rfl
        simp_all
      · exact ⟨hplaces, fun _ => hlocals⟩

theorem add_booked (hb : Booked A pool) (tx : Tx) (isLocal : Bool) :
    Booked A (pool.add A tx isLocal).1 ∧ (pool.add A tx isLocal).1.config = pool.config ∧
      (Filled pool.pending → Filled (pool.add A tx isLocal).1.pending) := by
  rcases add_cases (A := A) pool tx isLocal with ⟨e, heq, -⟩ | ⟨hnew, -, ⟨e, -, heq⟩ | ⟨-, heq⟩⟩
  · rw [heq]
    exact ⟨hb, rfl, id⟩
  · obtain ⟨hb', hframe, -, hfill⟩ := makeRoom_booked hb tx (isLocal || pool.containsTx A tx)
    rw [heq]
    exact ⟨hb', hframe.config, hfill⟩
  · obtain ⟨hb', hframe, hall, hfill⟩ := makeRoom_booked hb tx (isLocal || pool.containsTx A tx)
    obtain ⟨hplaces, -⟩ := place_spec hb' (fun h => hnew (hall tx h)) isLocal (isLocal || pool.containsTx A tx)
    rw [heq]
    exact ⟨hplaces.booked, hplaces.config.trans hframe.config, fun hf => hplaces.filled (hfill hf)⟩

end Pool

end Dexit.TxPool
