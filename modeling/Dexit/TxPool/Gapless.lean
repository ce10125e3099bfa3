import Dexit.TxPool.Bookkeeping
import Dexit.TxPool.Reset

/-!
# Gapless pending transactions

Between two passes the pending nonces of an account are a range from its nonce in the
current state to its virtual nonce (`Ranged`). Within a pass less is known: `Above`
describes the nonces that are not too old, and `Ready` says where the virtual nonce may
be. An account that went back to a lower nonce is `Refillable`, if all it misses is in
its queue, or `Blocked`, if the first nonce is missing. `Settled` is what truncation
keeps and what the last loop of `runReorg` turns into a range again.
-/

namespace Dexit.TxPool

open Go List

variable {H Addr Tx : Type} [DecidableEq Addr] (A : Attrs Addr Tx)

namespace Pool

/-- The account has a pending transaction with the nonce. -/
def Pends (pool : Pool Addr Tx) (a : Addr) (n : ℕ) : Prop := Taken A (Stored A pool.pending) a n

/-- The pending nonces go from the state nonce to the virtual one. -/
def Ranged (pool : Pool Addr Tx) : Prop :=
  ∀ a n, Pends A pool a n ↔ pool.currentState.nonce a ≤ n ∧ n < pool.pendingNonces.get a

/-- All pending transactions can be paid. -/
def Paid (pool : Pool Addr Tx) : Prop := ∀ t, Stored A pool.pending t → Payable A pool (A.sender t) t

/-- From the state nonce on, the pending nonces are those below `e`. -/
def Above (pool : Pool Addr Tx) (a : Addr) (e : ℕ) : Prop :=
  ∀ n, pool.currentState.nonce a ≤ n → (Pends A pool a n ↔ n < e)

/-- The virtual nonce has not moved beyond the state nonce, or it is within the pending
nonces, and those below it can be paid. -/
def Ready (pool : Pool Addr Tx) (a : Addr) : Prop :=
  ∃ e, Above A pool a e ∧ (pool.pendingNonces.get a ≤ pool.currentState.nonce a ∨
    pool.pendingNonces.get a ≤ e ∧ ∀ t, Stored A pool.pending t → A.sender t = a →
      pool.currentState.nonce a ≤ A.nonce t → A.nonce t < pool.pendingNonces.get a → Payable A pool a t)

/-- The state nonce is not pending, so nothing of the account stays pending. -/
def Stuck (pool : Pool Addr Tx) (a : Addr) : Prop :=
  pool.pendingNonces.get a ≤ pool.currentState.nonce a ∧ ¬ Pends A pool a (pool.currentState.nonce a)

/-- The state nonce is not pending and not to be promoted. -/
def Blocked (pool : Pool Addr Tx) (a : Addr) : Prop :=
  Stuck A pool a ∧ ∀ t, Candidate A pool a t → A.nonce t ≠ pool.currentState.nonce a

/-- All that is missing in front of the pending nonces is to be promoted. -/
def Refillable (pool : Pool Addr Tx) (a : Addr) : Prop :=
  pool.pendingNonces.get a = pool.currentState.nonce a ∧ ∃ m e, pool.currentState.nonce a < m ∧ m < e ∧
    (∀ n, pool.currentState.nonce a ≤ n → (Pends A pool a n ↔ m ≤ n ∧ n < e)) ∧
    ∀ n, pool.currentState.nonce a ≤ n → n < m → ∃ t, Candidate A pool a t ∧ A.nonce t = n

/-- The pending nonces are a range from the state nonce on; if there are none the virtual
nonce is not above. -/
def Settled (pool : Pool Addr Tx) (a : Addr) : Prop :=
  (∃ e, ∀ n, Pends A pool a n ↔ pool.currentState.nonce a ≤ n ∧ n < e) ∧
    ((∀ n, ¬ Pends A pool a n) → pool.pendingNonces.get a ≤ pool.currentState.nonce a)

/-- The last pending nonces of some accounts were taken away, and the virtual nonces
lowered. -/
def Cut (pool pool' : Pool Addr Tx) : Prop :=
  ∀ a, ((∀ n, Pends A pool' a n ↔ Pends A pool a n) ∧
      pool'.pendingNonces.get a = pool.pendingNonces.get a) ∨
    ∃ k, Pends A pool a k ∧ (∀ n, Pends A pool' a n ↔ Pends A pool a n ∧ n < k) ∧
      pool'.pendingNonces.get a = min (pool.pendingNonces.get a) k

variable {A} {pool pool' pool'' : Pool Addr Tx} {a addr : Addr} {e : ℕ} {t : Tx}

/-- A bounded set of numbers from `lo` on without a gap is a range. -/
theorem exists_end {P : ℕ → Prop} {lo hi : ℕ} (hbound : ∀ n, P n → lo ≤ n ∧ n < hi)
    (hdown : ∀ n m, P n → lo ≤ m → m ≤ n → P m) : ∃ e, ∀ n, P n ↔ lo ≤ n ∧ n < e := by
  induction hi with
  | zero => exact ⟨0, fun n => ⟨fun h => absurd (hbound n h).2 (Nat.not_lt_zero n), fun h => by omega⟩⟩
  | succ hi ih =>
    by_cases hlast : P hi
    · refine ⟨hi + 1, fun n => ⟨hbound n, fun h => hdown hi n hlast h.1 (by omega)⟩⟩
    refine ih fun n hn => ?_
    have hne : n ≠ hi := by
      rintro rfl
      exact hlast hn
    have := hbound n hn
    omega

theorem Cut.refl (pool : Pool Addr Tx) : Cut A pool pool := fun _ => .inl ⟨fun _ => Iff.rfl, rfl⟩

theorem Cut.trans (h : Cut A pool pool') (h' : Cut A pool' pool'') : Cut A pool pool'' := by
  intro a
  rcases h a with ⟨hp, hn⟩ | ⟨k, hk, hp, hn⟩ <;> rcases h' a with ⟨hp', hn'⟩ | ⟨k', hk', hp', hn'⟩
  · exact .inl ⟨fun n => (hp' n).trans (hp n), hn'.trans hn⟩
  · exact .inr ⟨k', (hp k').mp hk', fun n => by rw [hp', hp], by rw [hn', hn]⟩
  · exact .inr ⟨k, hk, fun n => by rw [hp', hp], by rw [hn', hn]⟩
  · have hlt := ((hp k').mp hk').2
    refine .inr ⟨k', ((hp k').mp hk').1, fun n => ?_, by omega⟩
    rw [hp', hp]
    constructor
    · exact fun h => ⟨h.1.1, h.2⟩
    · exact fun h => ⟨⟨h.1, by omega⟩, h.2⟩

theorem Ranged.cut (h : Ranged A pool) (hcut : Cut A pool pool')
    (hstate : pool'.currentState = pool.currentState) : Ranged A pool' := by
  intro a n
  rw [hstate]
  rcases hcut a with ⟨hp, hn⟩ | ⟨k, -, hp, hn⟩
  · rw [hp, hn, h]
  · rw [hp, hn, h]
    omega

/-- Where the virtual nonces have not moved since the head was set. -/
theorem Above.cut (h : Above A pool a e) (hcut : Cut A pool pool')
    (hstate : pool'.currentState = pool.currentState) :
    (∃ e', Above A pool' a e') ∧ pool'.pendingNonces.get a ≤ pool.pendingNonces.get a := by
  rcases hcut a with ⟨hp, hn⟩ | ⟨k, -, hp, hn⟩
  · refine ⟨⟨e, fun n hle => ?_⟩, by omega⟩
    rw [hstate] at hle
    rw [hp, h n hle]
  · refine ⟨⟨min e k, fun n hle => ?_⟩, by omega⟩
    rw [hstate] at hle
    rw [hp, h n hle]
    omega

theorem Ranged.ready (h : Ranged A pool) (hpaid : Paid A pool) (a : Addr) : Ready A pool a := by
  refine ⟨pool.pendingNonces.get a, fun n hle => ?_, .inr ⟨le_rfl, ?_⟩⟩
  · rw [h]
    omega
  · rintro t ht rfl - -
    exact hpaid t ht

theorem Ready.settled (h : Ready A pool a) (hlow : ∀ n, Pends A pool a n → pool.currentState.nonce a ≤ n) :
    Settled A pool a := by
  obtain ⟨e, habove, hnonce⟩ := h
  refine ⟨⟨e, fun n => ⟨fun hn => ⟨hlow n hn, (habove n (hlow n hn)).mp hn⟩, fun hn => ?_⟩⟩, fun hnone => ?_⟩
  · exact (habove n hn.1).mpr hn.2
  · rcases hnonce with hle | ⟨hend, -⟩
    · exact hle
    · by_contra hgt
      exact hnone (pool.currentState.nonce a) ((habove _ le_rfl).mpr (by omega))

/-! ## Promotion -/

/-- The virtual nonce after consecutive nonces were promoted. -/
theorem get_advance (hmax : ∀ tx, A.nonce tx + 1 < 2 ^ 64) (ns : Noncer Addr) (txs : List Tx) {low : ℕ}
    (hrange : txs.map A.nonce = List.range' low txs.length) :
    (advance A ns addr txs).get addr = if txs = [] then ns.get addr else low + txs.length := by
  induction txs generalizing ns low with
  | nil => rfl
  | cons tx txs ih =>
    rw [map_cons, length_cons, range'_succ, List.cons.injEq] at hrange
    obtain ⟨hlow, hrest⟩ := hrange
    have hset : (ns.set addr ((A.nonce tx + 1) % 2 ^ 64)).get addr = low + 1 := by
      rw [Noncer.get_set, if_pos rfl, Nat.mod_eq_of_lt (hmax tx), hlow]
    change (advance A (ns.set addr ((A.nonce tx + 1) % 2 ^ 64)) addr txs).get addr = _
    rw [ih _ hrest, hset, if_neg (cons_ne_nil tx txs), length_cons]
    split
    · next hnil => rw [hnil, length_nil]
    · omega

theorem get_advance_ne (ns : Noncer Addr) (txs : List Tx) (hne : a ≠ addr) :
    (advance A ns addr txs).get a = ns.get a := by
  induction txs generalizing ns with
  | nil => rfl
  | cons tx txs ih =>
    change (advance A (ns.set addr _) addr txs).get a = _
    rw [ih, Noncer.get_set, if_neg hne]

variable {readies : List Tx}

section
variable (h : Promotes A pool pool' addr readies)
include h

theorem Promotes.payable (b : Addr) (t : Tx) : Payable A pool' b t ↔ Payable A pool b t := by
  rw [Payable, Payable, h.frame.currentState, h.frame.currentMaxGas]

theorem Promotes.pends_ne (hne : a ≠ addr) (n : ℕ) : Pends A pool' a n ↔ Pends A pool a n := by
  constructor
  · rintro ⟨t, ht, hs, hn⟩
    rcases (h.pending t).mp ht with ht | ht
    · exact ⟨t, ht, hs, hn⟩
    · exact absurd (hs.symm.trans (h.ready t ht).1) hne
  · rintro ⟨t, ht, hs, hn⟩
    exact ⟨t, (h.pending t).mpr (.inl ht), hs, hn⟩

theorem Promotes.pends (n : ℕ) :
    Pends A pool' addr n ↔ Pends A pool addr n ∨ n ∈ readies.map A.nonce := by
  constructor
  · rintro ⟨t, ht, hs, hn⟩
    rcases (h.pending t).mp ht with ht | ht
    · exact .inl ⟨t, ht, hs, hn⟩
    · exact .inr (mem_map.mpr ⟨t, ht, hn⟩)
  · rintro (⟨t, ht, hs, hn⟩ | hmem)
    · exact ⟨t, (h.pending t).mpr (.inl ht), hs, hn⟩
    · obtain ⟨t, ht, hn⟩ := mem_map.mp hmem
      exact ⟨t, (h.pending t).mpr (.inr ht), (h.ready t ht).1, hn⟩

end

/-- No candidate has a pending nonce. -/
theorem Booked.not_pends (hb : Booked A pool) (ht : Candidate A pool addr t) :
    ¬ Pends A pool addr (A.nonce t) := by
  rintro ⟨u, hu, hs, hn⟩
  have heq := hb.shelved.unique u t (hb.mem.mpr (.inl hu)) (hb.mem.mpr (.inr ht.2.1))
    (hs.trans ht.1.symm) hn
  exact hb.shelved.apart u hu (heq ▸ ht.2.1)

theorem Promotes.candidate_ne (h : Promotes A pool pool' addr readies) (hne : a ≠ addr) (t : Tx) :
    Candidate A pool' a t ↔ Candidate A pool a t := by
  refine and_congr_right fun hs => and_congr (h.others t ?_) (h.payable a t)
  exact fun hs' => hne (hs.symm.trans hs')

/-- The nonces after promotion, where there is something to promote. -/
theorem Promotes.range (hmax : ∀ tx, A.nonce tx + 1 < 2 ^ 64) (h : Promotes A pool pool' addr readies) {low : ℕ}
    {first : Tx} (hfirst : Candidate A pool addr first) (hlow : A.nonce first = low)
    (hrange : readies.map A.nonce = List.range' low readies.length)
    (hgap : ∀ t, Candidate A pool addr t → A.nonce t ≠ low + readies.length) :
    pool'.pendingNonces.get addr = low + readies.length ∧
      ∀ n, Pends A pool' addr n ↔ Pends A pool addr n ∨ low ≤ n ∧ n < low + readies.length := by
  have hsome : readies ≠ [] := by
    rintro rfl
    exact hgap first hfirst (by simpa using hlow)
  refine ⟨?_, fun n => ?_⟩
  · rw [h.nonces, get_advance hmax _ _ hrange, if_neg hsome]
  · rw [h.pends, hrange, mem_range'_1]

/-- Where nothing is promoted for the account. -/
theorem Ready.promote_of_stored (h : Promotes A pool pool' addr readies) (hready : Ready A pool a)
    (hnonce : pool'.pendingNonces.get a = pool.pendingNonces.get a)
    (hstored : ∀ t, A.sender t = a → (Stored A pool'.pending t ↔ Stored A pool.pending t)) : Ready A pool' a := by
  obtain ⟨e, habove, hend⟩ := hready
  refine ⟨e, fun n hle => ?_, ?_⟩
  · rw [h.frame.currentState] at hle
    rw [← habove n hle]
    exact exists_congr fun t => ⟨fun ⟨ht, hs, hn⟩ => ⟨(hstored t hs).mp ht, hs, hn⟩,
      fun ⟨ht, hs, hn⟩ => ⟨(hstored t hs).mpr ht, hs, hn⟩⟩
  · rw [h.frame.currentState, hnonce]
    refine hend.imp_right fun ⟨hle, hpaid⟩ => ⟨hle, fun t ht hs hle hlt => ?_⟩
    exact (h.payable a t).mpr (hpaid t ((hstored t hs).mp ht) hs hle hlt)

theorem Ready.promote (hb : Booked A pool) (hmax : ∀ tx, A.nonce tx + 1 < 2 ^ 64)
    (h : Promotes A pool pool' addr readies) (hready : Ready A pool a) : Ready A pool' a := by
  by_cases hne : a ≠ addr
  · refine hready.promote_of_stored h (by rw [h.nonces, get_advance_ne _ _ hne]) fun t hs => ?_
    rw [h.pending]
    exact or_iff_left fun ht => hne (hs.symm.trans (h.ready t ht).1)
  rw [not_not] at hne
  subst hne
  rcases h.lowest with ⟨rfl, -⟩ | ⟨low, hlow, ⟨first, hfirst, hfirstn⟩, hall, hrange, hgap⟩
  · refine hready.promote_of_stored h (by rw [h.nonces]; rfl) fun t _ => ?_
    rw [h.pending]
    exact or_iff_left not_mem_nil
  obtain ⟨e, habove, hnonce⟩ := hready
  have hstate := h.frame.currentState
  obtain ⟨hnew, hpends⟩ := h.range hmax hfirst hfirstn hrange hgap
  -- the lowest candidate is not pending, so the pending nonces end at or before it
  have hslow : pool.currentState.nonce a ≤ low := hfirstn ▸ hfirst.2.2.1
  have hend : e ≤ low := by
    by_contra hlt
    have hpend := (habove low hslow).mpr (by omega)
    exact hb.not_pends hfirst (hfirstn ▸ hpend)
  refine ⟨low + readies.length, fun n hle => ?_, .inr ⟨hnew.le, fun t ht hs hle _ => ?_⟩⟩
  · rw [hstate] at hle
    rw [hpends, habove n hle]
    omega
  · rw [h.payable]
    rw [hstate] at hle
    rcases (h.pending t).mp ht with ht | ht
    · have hpend : Pends A pool a (A.nonce t) := ⟨t, ht, hs, rfl⟩
      have hlt := (habove _ hle).mp hpend
      rcases hnonce with hfresh | ⟨-, hpaid⟩
      · omega
      · exact hpaid t ht hs hle (by omega)
    · exact (h.ready t ht).2.2

theorem Blocked.promote (h : Promotes A pool pool' addr readies) (hblocked : Blocked A pool a) :
    Blocked A pool' a := by
  obtain ⟨⟨hle, hnot⟩, hno⟩ := hblocked
  rw [Blocked, Stuck, h.frame.currentState]
  by_cases hne : a ≠ addr
  · rw [h.nonces, get_advance_ne _ _ hne, h.pends_ne hne]
    exact ⟨⟨hle, hnot⟩, fun t ht => hno t ((h.candidate_ne hne t).mp ht)⟩
  rw [not_not] at hne
  subst hne
  rcases h.lowest with ⟨rfl, -⟩ | ⟨low, hlow, ⟨first, hfirst, hfirstn⟩, -⟩
  · rw [h.nonces, h.pends]
    refine ⟨⟨hle, fun hor => ?_⟩, fun t ht => hno t ⟨ht.1, (h.queue t ht.2.1).1, (h.payable a t).mp ht.2.2⟩⟩
    rcases hor with hpend | hmem
    · exact hnot hpend
    · exact absurd hmem not_mem_nil
  · -- a candidate at or below the virtual nonce would have the state nonce
    have hslow := hfirst.2.2.1
    exact absurd (by omega) (hno first hfirst)

theorem Refillable.promote_ne (h : Promotes A pool pool' addr readies) (hne : a ≠ addr)
    (hrefill : Refillable A pool a) : Refillable A pool' a := by
  obtain ⟨hnonce, m, e, hm, he, hpends, hmissing⟩ := hrefill
  rw [Refillable, h.frame.currentState, h.nonces, get_advance_ne _ _ hne]
  refine ⟨hnonce, m, e, hm, he, fun n hle => ?_, fun n hle hlt => ?_⟩
  · rw [h.pends_ne hne, hpends n hle]
  · obtain ⟨t, ht, hn⟩ := hmissing n hle hlt
    exact ⟨t, (h.candidate_ne hne t).mpr ht, hn⟩

/-- What is missing is filled in, up to the pending nonces. -/
theorem Refillable.promote (hb : Booked A pool) (hmax : ∀ tx, A.nonce tx + 1 < 2 ^ 64)
    (h : Promotes A pool pool' addr readies) (hrefill : Refillable A pool addr) : Ready A pool' addr := by
  obtain ⟨hnonce, m, e, hm, he, hpends, hmissing⟩ := hrefill
  have hstate := h.frame.currentState
  obtain ⟨t, ht, htn⟩ := hmissing _ le_rfl hm
  obtain ⟨low, hlow, ⟨first, hfirst, hfirstn⟩, -, hrange, hgap⟩ :=
    h.lowest.resolve_left fun hhigh => absurd (hhigh.2 t ht) (by omega)
  have hslow : low = pool.currentState.nonce addr := by
    have := hfirst.2.2.1
    omega
  obtain ⟨hnew, hpends'⟩ := h.range hmax hfirst hfirstn hrange hgap
  -- the first gap is where the pending nonces begin
  have hgap' : m ≤ low + readies.length := by
    by_contra hlt
    obtain ⟨u, hu, hun⟩ := hmissing (low + readies.length) (by omega) (by omega)
    exact hgap u hu hun
  have hready : ∀ n, low ≤ n → n < low + readies.length → n ≠ m := by
    rintro n hle hlt rfl
    have hmem : n ∈ readies.map A.nonce := by
      rw [hrange, mem_range'_1]
      exact ⟨hle, hlt⟩
    obtain ⟨u, hu, rfl⟩ := mem_map.mp hmem
    exact hb.not_pends (h.ready u hu) ((hpends _ (by omega)).mpr ⟨le_rfl, he⟩)
  have hlen : low + readies.length = m := by
    by_contra hne
    exact hready m (by omega) (by omega) rfl
  refine ⟨e, fun n hle => ?_, .inr ⟨by omega, fun u hu hs hle hlt => ?_⟩⟩
  · rw [hstate] at hle
    rw [hpends', hpends n hle]
    omega
  · rw [h.payable]
    rw [hstate] at hle
    rcases (h.pending u).mp hu with hu | hu
    · have := (hpends _ hle).mp ⟨u, hu, hs, rfl⟩
      omega
    · exact (h.ready u hu).2.2

/-! ## Demotion -/

theorem Demotes.pends_ne (h : Demotes A pool pool' addr) (hne : a ≠ addr) (n : ℕ) :
    Pends A pool' a n ↔ Pends A pool a n := by
  constructor
  · rintro ⟨t, ht, hs, hn⟩
    exact ⟨t, ((h.pending t).mp ht).1, hs, hn⟩
  · rintro ⟨t, ht, hs, hn⟩
    exact ⟨t, (h.pending t).mpr ⟨ht, fun hs' => absurd (hs.symm.trans hs') hne⟩, hs, hn⟩

theorem Demotes.payable (h : Demotes A pool pool' addr) (b : Addr) (t : Tx) :
    Payable A pool' b t ↔ Payable A pool b t := by
  rw [Payable, Payable, h.frame.currentState, h.frame.currentMaxGas]

/-- Whatever comes before a transaction that is kept is kept as well. -/
theorem Kept.down (habove : Above A pool addr e) (ht : Kept A pool addr t) {m : ℕ}
    (hle : pool.currentState.nonce addr ≤ m) (hm : m ≤ A.nonce t) :
    ∃ u, Kept A pool addr u ∧ A.nonce u = m := by
  obtain ⟨hin, hs, hpay, hbelow⟩ := ht
  have hlt := (habove _ hpay.1).mp ⟨t, hin, hs, rfl⟩
  obtain ⟨u, hu, hsu, rfl⟩ := (habove m hle).mpr (by omega)
  have hupay : Payable A pool addr u := by
    by_contra hnot
    have := hbelow u hu hsu hle hnot
    omega
  refine ⟨u, ⟨hu, hsu, hupay, fun r hr hsr hler hnot => ?_⟩, rfl⟩
  have := hbelow r hr hsr hler hnot
  omega

section
variable (h : Demotes A pool pool' addr)
include h

theorem Demotes.pends (habove : Above A pool addr e) (n : ℕ) :
    Pends A pool' addr n ↔ ∃ t, Kept A pool addr t ∧ A.nonce t = n := by
  constructor
  · rintro ⟨t, ht, hs, hn⟩
    exact ⟨t, (((h.pending t).mp ht).2 hs).1, hn⟩
  · rintro ⟨t, ht, hn⟩
    refine ⟨t, (h.pending t).mpr ⟨ht.1, fun _ => ⟨ht, ?_⟩⟩, ht.2.1, hn⟩
    exact ht.down habove le_rfl ht.2.2.1.1

theorem Ready.demote (hready : Ready A pool addr) : Settled A pool' addr := by
  obtain ⟨e, habove, hnonce⟩ := hready
  rw [Settled, h.frame.currentState, h.nonces]
  constructor
  · have hbound : ∀ n, Pends A pool' addr n → pool.currentState.nonce addr ≤ n ∧ n < e := by
      intro n hn
      obtain ⟨t, ht, rfl⟩ := (h.pends habove n).mp hn
      exact ⟨ht.2.2.1.1, (habove _ ht.2.2.1.1).mp ⟨t, ht.1, ht.2.1, rfl⟩⟩
    refine exists_end hbound fun n m hn hle hm => ?_
    obtain ⟨t, ht, rfl⟩ := (h.pends habove n).mp hn
    exact (h.pends habove m).mpr (ht.down habove hle hm)
  · intro hnone
    rcases hnonce with hfresh | ⟨hend, hpaid⟩
    · exact hfresh
    -- otherwise the first one can be paid, and is kept
    by_contra hgt
    obtain ⟨t, ht, hs, hn⟩ := (habove _ le_rfl).mpr (by omega)
    refine hnone _ ((h.pends habove _).mpr ⟨t, ⟨ht, hs, hpaid t ht hs (by omega) (by omega), ?_⟩, hn⟩)
    intro r hr hsr hler hnot
    by_contra hge
    exact hnot (hpaid r hr hsr hler (by omega))

/-- Without the state nonce all that is pending is put back. -/
theorem Stuck.demote (hstuck : Stuck A pool addr) : Settled A pool' addr := by
  obtain ⟨hle, hnot⟩ := hstuck
  have hnone : ∀ n, ¬ Pends A pool' addr n := by
    rintro n ⟨t, ht, hs, -⟩
    obtain ⟨-, first, hfirst, hn⟩ := ((h.pending t).mp ht).2 hs
    exact hnot ⟨first, hfirst.1, hfirst.2.1, hn⟩
  rw [Settled, h.frame.currentState, h.nonces]
  exact ⟨⟨0, fun n => iff_of_false (hnone n) (by omega)⟩, fun _ => hle⟩

theorem Stuck.demote_ne (hne : a ≠ addr) (hstuck : Stuck A pool a) : Stuck A pool' a := by
  rwa [Stuck, h.frame.currentState, h.nonces, h.pends_ne hne]

theorem Ready.demote_ne (hne : a ≠ addr) (hready : Ready A pool a) : Ready A pool' a := by
  obtain ⟨e, habove, hnonce⟩ := hready
  refine ⟨e, fun n hle => ?_, ?_⟩
  · rw [h.frame.currentState] at hle
    rw [h.pends_ne hne, habove n hle]
  · rw [h.frame.currentState, h.nonces]
    refine hnonce.imp_right fun ⟨hend, hpaid⟩ => ⟨hend, fun t ht hs hle hlt => ?_⟩
    exact (h.payable a t).mpr (hpaid t ((h.pending t).mp ht).1 hs hle hlt)

theorem Settled.demote_ne (hne : a ≠ addr) (hset : Settled A pool a) : Settled A pool' a := by
  rw [Settled, h.frame.currentState, h.nonces]
  simpa only [h.pends_ne hne, Settled] using hset

end

theorem not_pends_of_lookup (hl : pool.pending.lookup a = none) (n : ℕ) : ¬ Pends A pool a n :=
  fun ⟨_, ht, hs, _⟩ => not_stored_of_lookup hl hs ht

theorem settled_of_none (h : Ready A pool a ∨ Stuck A pool a) (hl : pool.pending.lookup a = none) :
    Settled A pool a := by
  have hnone := not_pends_of_lookup (A := A) hl
  rcases h with hready | ⟨hle, -⟩
  · exact hready.settled fun n hn => absurd hn (hnone n)
  · exact ⟨⟨0, fun n => iff_of_false (hnone n) (by omega)⟩, fun _ => hle⟩

variable [DecidableEq Tx]

/-- After `demoteUnexecutables` every account is settled, all that is pending can be paid,
and what was put back into the queue is not old. -/
theorem demoteUnexecutables_settled (hb : Booked A pool) (hready : ∀ a, Ready A pool a ∨ Stuck A pool a) :
    (∀ a, Settled A (pool.demoteUnexecutables A) a) ∧ Paid A (pool.demoteUnexecutables A) ∧
      Frame pool (pool.demoteUnexecutables A) ∧
      ∀ t, Stored A (pool.demoteUnexecutables A).queue t →
        Stored A pool.queue t ∨ pool.currentState.nonce (A.sender t) ≤ A.nonce t := by
  have hloop (accounts : List Addr) (hnodup : accounts.Nodup) (pool : Pool Addr Tx) (hb : Booked A pool)
      (htodo : ∀ a ∈ accounts, Ready A pool a ∨ Stuck A pool a)
      (hdone : ∀ a, a ∉ accounts → Settled A pool a)
      (hpaid : ∀ t, Stored A pool.pending t → A.sender t ∉ accounts → Payable A pool (A.sender t) t) :
      (∀ a, Settled A (accounts.foldl (demoteAccount A) pool) a) ∧
        Paid A (accounts.foldl (demoteAccount A) pool) ∧ Frame pool (accounts.foldl (demoteAccount A) pool) ∧
        ∀ t, Stored A (accounts.foldl (demoteAccount A) pool).queue t →
          Stored A pool.queue t ∨ pool.currentState.nonce (A.sender t) ≤ A.nonce t := by
    induction accounts generalizing pool with
    | nil =>
      exact ⟨fun a => hdone a not_mem_nil, fun t ht => hpaid t ht not_mem_nil, {}, fun _ => .inl⟩
    | cons addr accounts ih =>
      obtain ⟨hnot, hnodup⟩ := nodup_cons.mp hnodup
      have h := demoteAccount_spec hb addr
      have hfirst := (htodo addr mem_cons_self).elim (Ready.demote h) (Stuck.demote h)
      have htodo' : ∀ a ∈ accounts,
          Ready A (pool.demoteAccount A addr) a ∨ Stuck A (pool.demoteAccount A addr) a := by
        intro a ha
        have hne : a ≠ addr := by
          rintro rfl
          exact hnot ha
        exact (htodo a (mem_cons_of_mem _ ha)).imp (Ready.demote_ne h hne) (Stuck.demote_ne h hne)
      have hdone' : ∀ a, a ∉ accounts → Settled A (pool.demoteAccount A addr) a := by
        intro a ha
        by_cases heq : a = addr
        · exact heq ▸ hfirst
        · exact (hdone a (not_mem_cons_of_ne_of_not_mem heq ha)).demote_ne h heq
      have hpaid' : ∀ t, Stored A (pool.demoteAccount A addr).pending t → A.sender t ∉ accounts →
          Payable A (pool.demoteAccount A addr) (A.sender t) t := by
        intro t ht ha
        obtain ⟨hin, hkept⟩ := (h.pending t).mp ht
        rw [h.payable]
        by_cases heq : A.sender t = addr
        · exact heq.symm ▸ (hkept heq).1.2.2.1
        · exact hpaid t hin (not_mem_cons_of_ne_of_not_mem heq ha)
      obtain ⟨hset, hpaid, hframe, hqueue⟩ := ih hnodup _ h.booked htodo' hdone' hpaid'
      refine ⟨hset, hpaid, h.frame.trans hframe, fun t ht => ?_⟩
      rcases hqueue t ht with ht | hle
      · exact (h.queue t ht).imp_right fun ⟨_, hs, hle⟩ => hs.symm ▸ hle
      · rw [h.frame.currentState] at hle
        exact .inr hle
  refine hloop pool.pending.keys pool.pending.keys_nodup pool hb (fun a _ => hready a) ?_ ?_
  · intro a ha
    exact settled_of_none (hready a) (AList.lookup_eq_none.mpr ha)
  · rintro t ⟨l, hl, -⟩ ha
    exact absurd (Map.mem_iff_lookup.mpr ⟨l, hl⟩) ha

/-! ## Truncation and the last loop of a pass -/

omit [DecidableEq Tx] in
theorem lookup_none_of_filled (hb : Booked A pool) (hfill : Filled pool.pending)
    (hnone : ∀ n, ¬ Pends A pool a n) : pool.pending.lookup a = none := by
  cases hl : pool.pending.lookup a with
  | none => rfl
  | some l =>
    have hw := hb.shelved.left.wf a l hl
    have hempty : l.isEmpty = true := by
      rw [hw.isEmpty_iff]
      intro t ht
      have hs := hw.sender t ht
      exact hnone (A.nonce t) ⟨t, (stored_of_lookup hl hs).mpr ht, hs, rfl⟩
    exact nomatch hempty.symm.trans (hfill a l hl)

omit [DecidableEq Tx] in
theorem Settled.trim (h : Trimmed A pool pool') (hfill : Filled pool'.pending) (hset : Settled A pool a) :
    Settled A pool' a := by
  obtain ⟨⟨e, hpends⟩, hnone⟩ := hset
  rw [Settled, h.frame.currentState]
  have hsub : ∀ n, Pends A pool' a n → Pends A pool a n := fun n ⟨t, ht, hs, hn⟩ => ⟨t, h.sub t ht, hs, hn⟩
  constructor
  · refine exists_end (fun n hn => (hpends n).mp (hsub n hn)) fun n m hn hle hm => ?_
    have hlt := ((hpends n).mp (hsub n hn)).2
    obtain ⟨t, ht, hs, rfl⟩ := hn
    obtain ⟨u, hu, hsu, rfl⟩ := (hpends m).mpr ⟨hle, by omega⟩
    exact ⟨u, h.down t u ht hu (hsu.trans hs.symm) hm, hsu, rfl⟩
  · intro hnone'
    have hl := (h.keys a).mp (lookup_none_of_filled h.booked hfill hnone')
    rw [h.nonces a hl]
    exact hnone (not_pends_of_lookup hl)

omit [DecidableEq Tx] in
theorem Settled.dequeue (h : Dequeued A pool pool') (hset : Settled A pool a) : Settled A pool' a := by
  have hpends (n : ℕ) : Pends A pool' a n ↔ Pends A pool a n := by rw [Pends, h.pending, Pends]
  rw [Settled, h.frame.currentState, h.nonces]
  simpa only [hpends, Settled] using hset

omit [DecidableEq Tx] in
theorem get_sync (f : Addr → Option ℕ) (accounts : List Addr) (ns : Noncer Addr) (a : Addr) :
    (accounts.foldl (fun ns addr =>
      match f addr with
      | none => ns
      | some nonce => ns.set addr nonce) ns).get a =
        if a ∈ accounts then (f a).getD (ns.get a) else ns.get a := by
  induction accounts generalizing ns with
  | nil => rfl
  | cons addr accounts ih =>
    rw [foldl_cons, ih]
    by_cases ha : a = addr
    · subst ha
      cases hf : f a with
      | none => simp
      | some nonce => simp [Noncer.get_set]
    · cases hf : f addr with
      | none => simp [ha]
      | some nonce => simp [Noncer.get_set, ha]

omit [DecidableEq Tx] in
theorem Settled.sync (hb : Booked A pool) (hmax : ∀ tx, A.nonce tx + 1 < 2 ^ 64) (hfill : Filled pool.pending)
    (hset : ∀ a, Settled A pool a) : Ranged A (pool.syncNonces A) := by
  intro a n
  change Pends A pool a n ↔ pool.currentState.nonce a ≤ n ∧ n < (pool.syncNonces A).pendingNonces.get a
  have hget : (pool.syncNonces A).pendingNonces.get a =
      if a ∈ pool.pending.keys then (pool.pendingEnd A a).getD (pool.pendingNonces.get a)
      else pool.pendingNonces.get a := get_sync (pool.pendingEnd A) _ _ a
  obtain ⟨⟨e, hpends⟩, hnone⟩ := hset a
  cases hl : pool.pending.lookup a with
  | none =>
    have hno := not_pends_of_lookup (A := A) hl
    have hle := hnone hno
    have hmem : a ∉ pool.pending.keys := AList.lookup_eq_none.mp hl
    rw [hget, if_neg hmem]
    exact iff_of_false (hno n) (by omega)
  | some l =>
    have hw := hb.shelved.left.wf a l hl
    obtain ⟨t, ht⟩ : ∃ t, l.Has A t := by
      by_contra hno
      have hempty := hw.isEmpty_iff.mpr (not_exists.mp hno)
      exact nomatch hempty.symm.trans (hfill a l hl)
    obtain ⟨last, hlast, hhas, hhigh⟩ := hw.txs.lastElement ht
    have hpend (n : ℕ) : Pends A pool a n ↔ ∃ t, l.Has A t ∧ A.nonce t = n := by
      constructor
      · rintro ⟨t, hin, hs, hn⟩
        exact ⟨t, (stored_of_lookup hl hs).mp hin, hn⟩
      · rintro ⟨t, ht, hn⟩
        have hs := hw.sender t ht
        exact ⟨t, (stored_of_lookup hl hs).mpr ht, hs, hn⟩
    have hend : e = A.nonce last + 1 := by
      have hlt := ((hpends _).mp ((hpend _).mpr ⟨last, hhas, rfl⟩))
      by_contra hne
      obtain ⟨u, hu, hun⟩ := (hpend _).mp ((hpends (A.nonce last + 1)).mpr ⟨by omega, by omega⟩)
      have := hhigh u hu
      omega
    have hmem : a ∈ pool.pending.keys := Map.mem_iff_lookup.mpr ⟨l, hl⟩
    have hpe : pool.pendingEnd A a = some e := by
      rw [pendingEnd, hl, Option.bind_some, hlast, Option.map_some, Nat.mod_eq_of_lt (hmax last), hend]
    rw [hget, if_pos hmem, hpe, Option.getD_some, hpends]

end Pool

end Dexit.TxPool
