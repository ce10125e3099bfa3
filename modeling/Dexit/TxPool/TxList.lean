import Dexit.TxPool.SortedMap

/-!
# The transactions of one account

`txList` (core/tx_list.go): on top of the map by nonces the price bump, the caps on
cost and gas and the strict mode, in which nothing is left after a gap. Again what
leaves a list is described by `Takes`.
-/

namespace Dexit.TxPool

open List

variable {Addr Tx : Type} (A : Attrs Addr Tx)

/-- `txList`. -/
structure TxList (Tx : Type) where
  strict : Bool
  txs : SortedMap Tx
  costcap : ℤ
  gascap : ℕ

namespace TxList
variable (l : TxList Tx)

def new (strict : Bool) : TxList Tx := ⟨strict, .new, 0, 0⟩

def len : ℕ := l.txs.len

def isEmpty : Bool := l.len == 0

def overlaps (tx : Tx) : Bool := (l.txs.get (A.nonce tx)).isSome

/-- Whether the price of `tx` is enough to replace `old`. -/
def outbids (priceBump : ℕ) (old tx : Tx) : Bool :=
  let threshold := (100 + priceBump) * A.gasPrice old / 100
  !(decide (A.gasPrice old ≥ A.gasPrice tx) || decide (A.gasPrice tx < threshold))

def put (tx : Tx) : TxList Tx where
  strict := l.strict
  txs := l.txs.put A tx
  costcap := if l.costcap < A.cost tx then A.cost tx else l.costcap
  gascap := if l.gascap < A.gas tx then A.gas tx else l.gascap

/-- `Add`: `none` where an older transaction is better, otherwise the list with the
transaction it replaced. -/
def add (tx : Tx) (priceBump : ℕ) : Option (Option Tx × TxList Tx) :=
  match l.txs.get (A.nonce tx) with
  | none => some (none, l.put A tx)
  | some old => if outbids A priceBump old tx then some (some old, l.put A tx) else none

def forward (threshold : ℕ) : List Tx × TxList Tx :=
  let r := l.txs.forward threshold
  (r.1, { l with txs := r.2 })

/-- The lowest of some nonces; above any nonce where there is none. -/
def lowest (txs : List Tx) : ℕ := txs.foldl (fun low tx => min low (A.nonce tx)) (2 ^ 64 - 1)

/-- `Filter`: what is too expensive, and in strict mode what comes after it. -/
def filter (costLimit : ℤ) (gasLimit : ℕ) : List Tx × List Tx × TxList Tx :=
  if l.costcap ≤ costLimit ∧ l.gascap ≤ gasLimit then ([], [], l)
  else
    let r := l.txs.filter fun tx => decide (A.gas tx > gasLimit) || decide (A.cost tx > costLimit)
    let l := { l with costcap := costLimit, gascap := gasLimit, txs := r.2 }
    if r.1.length = 0 then ([], [], l)
    else
      if l.strict then
        let s := l.txs.filterItems fun tx => decide (A.nonce tx > lowest A r.1)
        (r.1, s.1, { l with txs := s.2.reheap })
      else (r.1, [], { l with txs := l.txs.reheap })

def cap (threshold : ℕ) : List Tx × TxList Tx :=
  let r := l.txs.cap threshold
  (r.1, { l with txs := r.2 })

/-- `Remove`: whether the nonce was there, and what comes after it in strict mode. -/
def remove (tx : Tx) : Bool × List Tx × TxList Tx :=
  let r := l.txs.remove (A.nonce tx)
  if r.1 then
    if l.strict then
      let s := r.2.filter fun tx' => decide (A.nonce tx' > A.nonce tx)
      (true, s.1, { l with txs := s.2 })
    else (true, [], { l with txs := r.2 })
  else (false, [], l)

def ready (start : ℕ) : List Tx × TxList Tx :=
  let r := l.txs.ready start
  (r.1, { l with txs := r.2 })

def flatten : List Tx := l.txs.flatten A

def Has (tx : Tx) : Prop := l.txs.Has A tx

/-- A list of the account `addr`; the caps bound what it holds. -/
structure Wf (addr : Addr) (l : TxList Tx) : Prop where
  txs : l.txs.Wf A
  sender : ∀ tx, l.Has A tx → A.sender tx = addr
  cost : ∀ tx, l.Has A tx → A.cost tx ≤ l.costcap
  gas : ∀ tx, l.Has A tx → A.gas tx ≤ l.gascap

/-- The transactions `out` were taken out of `l`, which left `l'`. -/
structure Takes (l : TxList Tx) (out : List Tx) (l' : TxList Tx) : Prop where
  txs : SortedMap.Takes A l.txs out l'.txs
  strict : l'.strict = l.strict
  cost : ∀ tx, l'.Has A tx → A.cost tx ≤ l'.costcap
  gas : ∀ tx, l'.Has A tx → A.gas tx ≤ l'.gascap

/-- Neither the cost nor the gas of a transaction is over the limits. -/
def Affordable (costLimit : ℤ) (gasLimit : ℕ) (tx : Tx) : Prop :=
  A.gas tx ≤ gasLimit ∧ A.cost tx ≤ costLimit

variable {A} {l l' l'' : TxList Tx} {out out' : List Tx} {tx tx' : Tx} {addr : Addr}

theorem wf_new (strict : Bool) : (new strict : TxList Tx).Wf A addr where
  txs := SortedMap.wf_new
  sender := nofun
  cost := nofun
  gas := nofun

theorem not_has_new (strict : Bool) : ¬ (new strict : TxList Tx).Has A tx := SortedMap.not_has_new

theorem Has.unique (h : l.Has A tx) (h' : l.Has A tx') (hn : A.nonce tx = A.nonce tx') : tx = tx' :=
  SortedMap.Has.unique h h' hn

theorem Wf.isEmpty_iff (hw : l.Wf A addr) : l.isEmpty = true ↔ ∀ tx, ¬ l.Has A tx := by
  have hpos := hw.txs.len_pos
  rw [isEmpty, beq_iff_eq, len, ← not_exists]
  constructor
  · intro h0 h
    exact absurd (hpos.mpr h) (by omega)
  · intro h
    by_contra h0
    exact h (hpos.mp (Nat.pos_of_ne_zero h0))

theorem has_put : (l.put A tx).Has A tx' ↔ tx' = tx ∨ l.Has A tx' ∧ A.nonce tx' ≠ A.nonce tx :=
  SortedMap.has_put

theorem Wf.put (hw : l.Wf A addr) (hs : A.sender tx = addr) : (l.put A tx).Wf A addr where
  txs := hw.txs.put tx
  sender := by
    intro tx' htx'
    rcases has_put.mp htx' with rfl | ⟨h, -⟩
    · exact hs
    · exact hw.sender tx' h
  cost := by
    intro tx' htx'
    unfold TxList.put
    rcases has_put.mp htx' with rfl | ⟨h, -⟩
    · dsimp only
      split <;> omega
    · have := hw.cost tx' h
      dsimp only
      split <;> omega
  gas := by
    intro tx' htx'
    unfold TxList.put
    rcases has_put.mp htx' with rfl | ⟨h, -⟩
    · dsimp only
      split <;> omega
    · have := hw.gas tx' h
      dsimp only
      split <;> omega

/-- The two ways out of `Add`. -/
theorem add_cases (l : TxList Tx) (tx : Tx) (priceBump : ℕ) :
    (l.add A tx priceBump = none ∧ ∃ old, l.txs.get (A.nonce tx) = some old) ∨
      ∃ old, l.add A tx priceBump = some (old, l.put A tx) ∧ l.txs.get (A.nonce tx) = old := by
  unfold add
  cases h : l.txs.get (A.nonce tx) with
  | none => exact .inr ⟨none, rfl, rfl⟩
  | some old =>
    dsimp only
    split
    · exact .inr ⟨some old, rfl, rfl⟩
    · exact .inl ⟨rfl, old, rfl⟩

theorem add_of_absent {priceBump : ℕ} (h : l.txs.get (A.nonce tx) = none) :
    l.add A tx priceBump = some (none, l.put A tx) := by
  rw [add, h]

theorem get_eq_none_iff (hw : l.Wf A addr) {n : ℕ} :
    l.txs.get n = none ↔ ∀ tx, l.Has A tx → A.nonce tx ≠ n := by
  constructor
  · rintro h tx htx rfl
    exact nomatch h.symm.trans htx
  · intro h
    cases hget : l.txs.get n with
    | none => rfl
    | some tx => exact absurd (hw.txs.keyed n tx hget) (h tx (hw.txs.has_of_get hget))

namespace Takes

theorem has (h : Takes A l out l') (tx : Tx) : l'.Has A tx ↔ l.Has A tx ∧ tx ∉ out := h.txs.has tx

theorem mem (h : Takes A l out l') (htx : tx ∈ out) : l.Has A tx := h.txs.mem tx htx

theorem has_of (h : Takes A l out l') (htx : l'.Has A tx) : l.Has A tx := h.txs.has_of htx

theorem refl (hw : l.Wf A addr) : Takes A l [] l := ⟨.refl hw.txs, rfl, hw.cost, hw.gas⟩

theorem trans (h : Takes A l out l') (h' : Takes A l' out' l'') : Takes A l (out ++ out') l'' :=
  ⟨h.txs.trans h'.txs, h'.strict.trans h.strict, h'.cost, h'.gas⟩

theorem wf (h : Takes A l out l') (hw : l.Wf A addr) : l'.Wf A addr where
  txs := h.txs.wf
  sender := fun tx htx => hw.sender tx (h.has_of htx)
  cost := h.cost
  gas := h.gas

/-- Taking out under the same caps. -/
theorem of_txs (hw : l.Wf A addr) {m : SortedMap Tx} (h : SortedMap.Takes A l.txs out m) :
    Takes A l out { l with txs := m } where
  txs := h
  strict := rfl
  cost := fun tx htx => hw.cost tx (h.has_of htx)
  gas := fun tx htx => hw.gas tx (h.has_of htx)

end Takes

theorem forward_spec (hw : l.Wf A addr) (threshold : ℕ) :
    Takes A l (l.forward threshold).1 (l.forward threshold).2 ∧
      ∀ tx, (l.forward threshold).2.Has A tx ↔ l.Has A tx ∧ threshold ≤ A.nonce tx := by
  obtain ⟨htakes, hleft⟩ := SortedMap.forward_spec hw.txs threshold
  exact ⟨Takes.of_txs hw htakes, hleft⟩

theorem cap_spec (hw : l.Wf A addr) (threshold : ℕ) :
    Takes A l (l.cap threshold).1 (l.cap threshold).2 ∧
      (l.cap threshold).2.len = min threshold l.len ∧
      ∀ tx ∈ (l.cap threshold).1, ∀ tx', (l.cap threshold).2.Has A tx' → A.nonce tx' < A.nonce tx := by
  obtain ⟨htakes, hlen, hlt⟩ := hw.txs.cap_spec threshold
  exact ⟨Takes.of_txs hw htakes, hlen, hlt⟩

theorem ready_spec (hw : l.Wf A addr) (start : ℕ) :
    Takes A l (l.ready start).1 (l.ready start).2 ∧
      (((l.ready start).1 = [] ∧ ∀ tx, l.Has A tx → start < A.nonce tx) ∨
        ∃ low, low ≤ start ∧ (∃ tx, l.Has A tx ∧ A.nonce tx = low) ∧ (∀ tx, l.Has A tx → low ≤ A.nonce tx) ∧
          (l.ready start).1.map A.nonce = range' low (l.ready start).1.length ∧
          l.txs.get (low + (l.ready start).1.length) = none) := by
  obtain ⟨htakes, hready⟩ := SortedMap.ready_spec hw.txs start
  exact ⟨Takes.of_txs hw htakes, hready⟩

theorem remove_spec (hw : l.Wf A addr) (tx : Tx) :
    (l.remove A tx = (false, [], l) ∧ l.txs.get (A.nonce tx) = none) ∨
      ∃ old invalids l', l.remove A tx = (true, invalids, l') ∧ A.nonce old = A.nonce tx ∧
        Takes A l (old :: invalids) l' ∧
        (l.strict = false → invalids = []) ∧ (∀ tx' ∈ invalids, A.nonce tx < A.nonce tx') ∧
        (l.strict = true → ∀ tx', l'.Has A tx' → A.nonce tx' < A.nonce tx) := by
  rcases SortedMap.remove_spec hw.txs tx with ⟨hremove, hget⟩ | ⟨old, m, hremove, hnonce, htakes⟩
  · exact .inl ⟨by simp [remove, hremove], hget⟩
  right
  cases hstrict : l.strict with
  | false =>
    refine ⟨old, [], { l with txs := m }, by simp [remove, hremove, hstrict], hnonce,
      Takes.of_txs hw htakes, fun _ => rfl, nofun, nofun⟩
  | true =>
    obtain ⟨hrest, hout, hleft⟩ :=
      SortedMap.filter_spec htakes.wf fun tx' => decide (A.nonce tx' > A.nonce tx)
    set s := m.filter fun tx' => decide (A.nonce tx' > A.nonce tx) with hs
    refine ⟨old, s.1, { l with txs := s.2 }, by simp only [remove, hremove, hstrict, if_true, hs], hnonce,
      Takes.of_txs hw (htakes.trans hrest), nofun, fun tx' htx' => of_decide_eq_true (hout tx' htx'), ?_⟩
    intro _ tx' htx'
    have hle := of_decide_eq_false (hleft tx' htx')
    have hne : A.nonce tx' ≠ A.nonce old := by
      intro heq
      obtain ⟨hhas, hnot⟩ := (htakes.has tx').mp (hrest.has_of htx')
      exact hnot (mem_singleton.mpr (hhas.unique (htakes.mem old mem_cons_self) heq))
    omega

theorem lowest_spec {txs : List Tx} (hne : txs ≠ []) :
    (∃ tx ∈ txs, A.nonce tx = lowest A txs) ∧ ∀ tx ∈ txs, lowest A txs ≤ A.nonce tx := by
  have hfold (txs : List Tx) (low : ℕ) :
      let r := txs.foldl (fun low tx => min low (A.nonce tx)) low
      (r = low ∨ ∃ tx ∈ txs, A.nonce tx = r) ∧ r ≤ low ∧ ∀ tx ∈ txs, r ≤ A.nonce tx := by
    induction txs generalizing low with
    | nil => exact ⟨.inl rfl, le_rfl, nofun⟩
    | cons tx txs ih =>
      obtain ⟨hfrom, hle, hall⟩ := ih (min low (A.nonce tx))
      rw [foldl_cons]
      refine ⟨?_, by omega, ?_⟩
      · rcases hfrom with heq | ⟨tx', htx', heq⟩
        · rcases le_total low (A.nonce tx) with h | h
          · exact .inl (heq.trans (min_eq_left h))
          · exact .inr ⟨tx, mem_cons_self, (heq.trans (min_eq_right h)).symm⟩
        · exact .inr ⟨tx', mem_cons_of_mem _ htx', heq⟩
      · intro tx' htx'
        rcases mem_cons.mp htx' with rfl | htx'
        · omega
        · exact hall tx' htx'
  obtain ⟨hfrom, -, hall⟩ := hfold txs (2 ^ 64 - 1)
  refine ⟨?_, hall⟩
  rcases hfrom with heq | hfrom
  · obtain ⟨tx, htx⟩ := exists_mem_of_ne_nil txs hne
    have hle := hall tx htx
    have hlt := A.nonce_lt tx
    refine ⟨tx, htx, ?_⟩
    rw [lowest]
    omega
  · exact hfrom

/-- `Filter` takes out what cannot be paid and, in strict mode, what comes after it. -/
theorem filter_spec (hw : l.Wf A addr) (costLimit : ℤ) (gasLimit : ℕ) :
    ∃ removed invalids l', l.filter A costLimit gasLimit = (removed, invalids, l') ∧
      Takes A l (removed ++ invalids) l' ∧ (l.strict = false → invalids = []) ∧
      ∀ tx, l'.Has A tx ↔ l.Has A tx ∧ Affordable A costLimit gasLimit tx ∧ (l.strict = true →
        ∀ r, l.Has A r → ¬ Affordable A costLimit gasLimit r → A.nonce tx < A.nonce r) := by
  unfold filter
  split
  · have hpay : ∀ tx, l.Has A tx → Affordable A costLimit gasLimit tx := by
      intro tx htx
      have hcost := hw.cost tx htx
      have hgas := hw.gas tx htx
      exact ⟨by omega, by omega⟩
    refine ⟨[], [], l, rfl, Takes.refl hw, fun _ => rfl, fun tx => ⟨fun htx => ?_, And.left⟩⟩
    exact ⟨htx, hpay tx htx, fun _ r hr hnot => absurd (hpay r hr) hnot⟩
  obtain ⟨htakes, hout, hleft⟩ := SortedMap.filter_spec hw.txs
    fun tx => decide (A.gas tx > gasLimit) || decide (A.cost tx > costLimit)
  set r := l.txs.filter fun tx => decide (A.gas tx > gasLimit) || decide (A.cost tx > costLimit)
  have htest (tx : Tx) : (decide (A.gas tx > gasLimit) || decide (A.cost tx > costLimit)) = false ↔
      Affordable A costLimit gasLimit tx := by
    rw [Affordable, Bool.or_eq_false_iff, decide_eq_false_iff_not, decide_eq_false_iff_not]
    omega
  have hunpaid : ∀ tx ∈ r.1, ¬ Affordable A costLimit gasLimit tx := by
    intro tx htx h
    exact nomatch (hout tx htx).symm.trans ((htest tx).mpr h)
  have hpaid : ∀ tx, r.2.Has A tx ↔ l.Has A tx ∧ Affordable A costLimit gasLimit tx := by
    intro tx
    constructor
    · exact fun htx => ⟨htakes.has_of htx, (htest tx).mp (hleft tx htx)⟩
    · rintro ⟨htx, hpay⟩
      exact (htakes.has tx).mpr ⟨htx, fun h => hunpaid tx h hpay⟩
  have hremoved : ∀ tx, l.Has A tx → ¬ Affordable A costLimit gasLimit tx → tx ∈ r.1 := by
    intro tx htx hnot
    by_contra h
    exact hnot ((hpaid tx).mp ((htakes.has tx).mpr ⟨htx, h⟩)).2
  -- whatever comes out afterwards, the new caps bound what is left
  have hcapped {out : List Tx} {m : SortedMap Tx} (h : SortedMap.Takes A l.txs out m)
      (hsub : ∀ tx, m.Has A tx → r.2.Has A tx) :
      Takes A l out { l with costcap := costLimit, gascap := gasLimit, txs := m } :=
    ⟨h, rfl, fun tx htx => ((hpaid tx).mp (hsub tx htx)).2.2, fun tx htx => ((hpaid tx).mp (hsub tx htx)).2.1⟩
  dsimp only
  split
  · next h0 =>
    have hnil : r.1 = [] := eq_nil_of_length_eq_zero h0
    rw [hnil] at htakes hremoved
    refine ⟨[], [], _, rfl, hcapped htakes fun _ => id, fun _ => rfl, fun tx => (hpaid tx).trans ?_⟩
    refine and_congr_right fun _ => (and_iff_left_of_imp fun _ => ?_).symm
    exact fun _ r' hr' hnot => absurd (hremoved r' hr' hnot) not_mem_nil
  next hpos =>
  have hne : r.1 ≠ [] := fun h => hpos (by rw [h]; rfl)
  split
  · next hstrict =>
    obtain ⟨⟨low, hlowmem, hlow⟩, hmin⟩ := lowest_spec (A := A) hne
    obtain ⟨-, hrest, -⟩ := htakes.wf.filterItems fun tx => decide (A.nonce tx > lowest A r.1)
    have hmore := htakes.wf.takes_filterItems fun tx => decide (A.nonce tx > lowest A r.1)
    refine ⟨r.1, _, _, rfl, hcapped (htakes.trans hmore) (fun tx htx => hmore.has_of htx),
      fun h => (nomatch h.symm.trans hstrict), fun tx => (hrest tx).trans ?_⟩
    rw [hpaid, and_assoc, decide_eq_false_iff_not, not_lt]
    refine and_congr_right fun htx => and_congr_right fun hpay => ?_
    constructor
    · intro hle _ r' hr' hnot
      have hlt : A.nonce tx ≠ A.nonce low := fun heq =>
        hunpaid low hlowmem (htx.unique (htakes.mem low hlowmem) heq ▸ hpay)
      have := hmin r' (hremoved r' hr' hnot)
      omega
    · intro hbelow
      have := hbelow hstrict low (htakes.mem low hlowmem) (hunpaid low hlowmem)
      omega
  · next hstrict =>
    have hsame : r.2.reheap.Wf A := SortedMap.wf_reheap htakes.wf.keyed
    have htakes' : SortedMap.Takes A l.txs r.1 r.2.reheap := ⟨hsame, htakes.nodup, htakes.mem, htakes.has⟩
    refine ⟨r.1, [], _, rfl, ?_, fun _ => rfl, fun tx => (hpaid tx).trans ?_⟩
    · rw [append_nil]
      exact hcapped htakes' fun _ => id
    · exact and_congr_right fun _ => (and_iff_left_of_imp fun _ h => absurd h hstrict).symm

end TxList

end Dexit.TxPool
