import Dexit.Types.PriceAndNonce

/-!
# The order in which the miner sees transactions

Sets of transactions in memory, where `Copy` makes a new map and a new array of heads
and every other operation writes through the pointers of the set it is called on. The
slices kept in the maps are only ever cut, so they are plain lists here; what an array
has beyond the length of its slice is not read again.

`Memory.view_run` says that a set is what the operations on itself, and on the set it
was copied from up to then, make of the first one.
-/

namespace Dexit.Types

open Go List Option

variable {Addr Tx : Type}

/-- The operations that change a set. -/
inductive Act (Tx : Type) where
  | shift
  | pop
  | forward (tx : Option Tx)

/-- An operation on set `k`; a copy becomes the last set. -/
inductive Op (Tx : Type) where
  | act (k : ℕ) (a : Act Tx)
  | copy (k : ℕ)

/-- A `TransactionsByPriceAndNonce`: its map, its slice of heads as the array and the
length. -/
structure Ref where
  txs : ℕ
  heads : ℕ
  len : ℕ

structure Memory (Addr Tx : Type) where
  maps : List (Map Addr (List Tx))
  arrays : List (List Tx)
  sets : List Ref

/-- The operations that make up each set: its own, after those of the set it was copied
from until then. -/
def lineage (ls : List (List (Act Tx))) : Op Tx → List (List (Act Tx))
  | .act k a => ls.modify k (· ++ [a])
  | .copy k => ls ++ [ls[k]?.getD []]

def lineages (ops : List (Op Tx)) : List (List (Act Tx)) := ops.foldl lineage [[]]

namespace Memory

/-- The set that a reference stands for. -/
def load (mem : Memory Addr Tx) (r : Ref) : Option (TxSet Addr Tx) := do
  let txs ← mem.maps[r.txs]?
  let heads ← mem.arrays[r.heads]?
  some ⟨txs, heads.take r.len⟩

def view (mem : Memory Addr Tx) (k : ℕ) : Option (TxSet Addr Tx) := do
  let r ← mem.sets[k]?
  mem.load r

/-- Writes a set through the pointers of set `k`. -/
def store (mem : Memory Addr Tx) (k : ℕ) (r : Ref) (t : TxSet Addr Tx) : Memory Addr Tx where
  maps := mem.maps.set r.txs t.txs
  arrays := mem.arrays.modify r.heads fun a => t.heads ++ a.drop t.heads.length
  sets := mem.sets.set k { r with len := t.heads.length }

/-- `Copy`. -/
def copy (mem : Memory Addr Tx) (t : TxSet Addr Tx) : Memory Addr Tx where
  maps := mem.maps ++ [t.txs]
  arrays := mem.arrays ++ [t.heads]
  sets := mem.sets ++ [⟨mem.maps.length, mem.arrays.length, t.heads.length⟩]

/-- The memory after a set was made. -/
def start (t : TxSet Addr Tx) : Memory Addr Tx := copy ⟨[], [], []⟩ t

/-- Sets have neither a map nor an array in common. -/
structure Separate (mem : Memory Addr Tx) : Prop where
  loads : ∀ r ∈ mem.sets, r.txs < mem.maps.length ∧ r.heads < mem.arrays.length
  maps : ∀ (i j : ℕ) (r r' : Ref), mem.sets[i]? = some r → mem.sets[j]? = some r' → i ≠ j → r.txs ≠ r'.txs
  arrays : ∀ (i j : ℕ) (r r' : Ref), mem.sets[i]? = some r → mem.sets[j]? = some r' → i ≠ j →
    r.heads ≠ r'.heads

section Lemmas
variable {mem : Memory Addr Tx} {k j : ℕ} {r : Ref} {t : TxSet Addr Tx}

theorem view_eq (h : mem.sets[k]? = some r) : mem.view k = mem.load r := by
  rw [view, h]
  rfl

theorem view_eq_none (h : mem.sets[k]? = none) : mem.view k = none := by
  rw [view, h]
  rfl

theorem Separate.store (hsep : mem.Separate) (hr : mem.sets[k]? = some r) :
    (mem.store k r t).Separate := by
  -- the pointers are those before
  have hold : ∀ (i : ℕ) (q : Ref), (mem.store k r t).sets[i]? = some q →
      ∃ q', mem.sets[i]? = some q' ∧ q.txs = q'.txs ∧ q.heads = q'.heads := by
    intro i q hq
    have hset : (mem.sets.set k { r with len := t.heads.length })[i]? = some q := hq
    rw [getElem?_set] at hset
    split at hset
    · next hki =>
      subst hki
      split at hset
      · obtain rfl := some.inj hset
        exact ⟨r, hr, rfl, rfl⟩
      · exact nomatch hset
    · exact ⟨q, hset, rfl, rfl⟩
  refine ⟨?_, ?_, ?_⟩
  · intro q hq
    obtain ⟨i, hi⟩ := mem_iff_getElem?.mp hq
    obtain ⟨q', hq', htxs, hheads⟩ := hold i q hi
    have hloads := hsep.loads q' (mem_iff_getElem?.mpr ⟨i, hq'⟩)
    simpa [Memory.store, htxs, hheads] using hloads
  · intro i j q q' hq hq' hij
    obtain ⟨p, hp, htxs, -⟩ := hold i q hq
    obtain ⟨p', hp', htxs', -⟩ := hold j q' hq'
    rw [htxs, htxs']
    exact hsep.maps i j p p' hp hp' hij
  · intro i j q q' hq hq' hij
    obtain ⟨p, hp, -, hheads⟩ := hold i q hq
    obtain ⟨p', hp', -, hheads'⟩ := hold j q' hq'
    rw [hheads, hheads']
    exact hsep.arrays i j p p' hp hp' hij

/-- A write is seen by the set it is for and by no other. -/
theorem view_store (hsep : mem.Separate) (hr : mem.sets[k]? = some r) (j : ℕ) :
    (mem.store k r t).view j = if j = k then some t else mem.view j := by
  have hk : k < mem.sets.length := (List.getElem?_eq_some_iff.mp hr).1
  obtain ⟨htxs, hheads⟩ := hsep.loads r (mem_iff_getElem?.mpr ⟨k, hr⟩)
  split
  · next hjk =>
    subst hjk
    have hset : (mem.store j r t).sets[j]? = some { r with len := t.heads.length } := by
      simp [store, hk]
    rw [view_eq hset]
    simp [load, store, htxs, hheads]
  · next hjk =>
    cases hq : mem.sets[j]? with
    | none =>
      have hset : (mem.store k r t).sets[j]? = none := by
        rw [store, getElem?_set_ne (Ne.symm hjk), hq]
      rw [view_eq_none hset, view_eq_none hq]
    | some q =>
      have hset : (mem.store k r t).sets[j]? = some q := by
        rw [store, getElem?_set_ne (Ne.symm hjk), hq]
      rw [view_eq hset, view_eq hq]
      have hm := hsep.maps k j r q hr hq (Ne.symm hjk)
      have ha := hsep.arrays k j r q hr hq (Ne.symm hjk)
      simp [load, store, getElem?_set_ne hm, ha]

theorem Separate.copy (hsep : mem.Separate) : (mem.copy t).Separate := by
  have hcases : ∀ (i : ℕ) (q : Ref), (mem.copy t).sets[i]? = some q →
      mem.sets[i]? = some q ∧ q.txs < mem.maps.length ∧ q.heads < mem.arrays.length ∨
      i = mem.sets.length ∧ q.txs = mem.maps.length ∧ q.heads = mem.arrays.length := by
    intro i q hq
    have happ : (mem.sets ++ [⟨mem.maps.length, mem.arrays.length, t.heads.length⟩])[i]? = some q := hq
    rw [getElem?_append] at happ
    split at happ
    · exact .inl ⟨happ, hsep.loads q (mem_iff_getElem?.mpr ⟨i, happ⟩)⟩
    next hi =>
    rw [getElem?_singleton] at happ
    split at happ
    · obtain rfl := some.inj happ
      exact .inr ⟨by omega, rfl, rfl⟩
    · exact nomatch happ
  refine ⟨?_, ?_, ?_⟩
  · intro q hq
    obtain ⟨i, hi⟩ := mem_iff_getElem?.mp hq
    simp only [Memory.copy, length_append, length_singleton]
    rcases hcases i q hi with ⟨-, h₁, h₂⟩ | ⟨-, h₁, h₂⟩ <;> omega
  · intro i j q q' hq hq' hij
    rcases hcases i q hq with ⟨ho, h₁, -⟩ | ⟨hi, h₁, -⟩ <;>
      rcases hcases j q' hq' with ⟨ho', h₁', -⟩ | ⟨hj, h₁', -⟩
    · exact hsep.maps i j q q' ho ho' hij
    all_goals omega
  · intro i j q q' hq hq' hij
    rcases hcases i q hq with ⟨ho, -, h₁⟩ | ⟨hi, -, h₁⟩ <;>
      rcases hcases j q' hq' with ⟨ho', -, h₁'⟩ | ⟨hj, -, h₁'⟩
    · exact hsep.arrays i j q q' ho ho' hij
    all_goals omega

/-- A copy is a new set, and the others are as before. -/
theorem view_copy (hsep : mem.Separate) (j : ℕ) :
    (mem.copy t).view j = if j = mem.sets.length then some t else mem.view j := by
  split
  · next hj =>
    subst hj
    have hset : (mem.copy t).sets[mem.sets.length]? =
        some ⟨mem.maps.length, mem.arrays.length, t.heads.length⟩ := by simp [copy]
    rw [view_eq hset]
    simp [load, copy]
  · cases hq : mem.sets[j]? with
    | none =>
      have hset : (mem.copy t).sets[j]? = none := by
        rw [getElem?_eq_none_iff] at hq ⊢
        simp only [copy, length_append, length_singleton]
        omega
      rw [view_eq_none hset, view_eq_none hq]
    | some q =>
      have hlt : j < mem.sets.length := (List.getElem?_eq_some_iff.mp hq).1
      have hset : (mem.copy t).sets[j]? = some q := by
        rw [copy, getElem?_append_left hlt, hq]
      obtain ⟨htxs, hheads⟩ := hsep.loads q (mem_iff_getElem?.mpr ⟨j, hq⟩)
      rw [view_eq hset, view_eq hq]
      simp [load, copy, getElem?_append_left htxs, getElem?_append_left hheads]

theorem separate_empty : Separate (⟨[], [], []⟩ : Memory Addr Tx) := ⟨by simp, by simp, by simp⟩

theorem view_start (t : TxSet Addr Tx) : (start t).view 0 = some t := by
  rw [start, view_copy separate_empty]
  rfl

end Lemmas

end Memory

variable [DecidableEq Addr]

theorem TxSet.Wf.shift {A : Bids Addr Tx} {t t' : TxSet Addr Tx} (hwf : t.Wf A) (h : t.shift A = some t') :
    t'.Wf A ∧ ∀ acc, t'.rest A acc <:+ t.rest A acc := by
  cases hx : t.peek with
  | none =>
    have hnil : t.heads = [] := head?_eq_none_iff.mp hx
    simp [TxSet.shift, hnil] at h
  | some x =>
    obtain ⟨t₁, ht₁, hwf₁, hrest⟩ := TxSet.shift_spec hwf hx
    obtain rfl := some.inj (ht₁.symm.trans h)
    refine ⟨hwf₁, fun acc => ?_⟩
    rw [hrest acc]
    split
    · exact tail_suffix _
    · exact suffix_refl _

theorem TxSet.Wf.shifts {A : Bids Addr Tx} {t t' : TxSet Addr Tx} {k : ℕ} (hwf : t.Wf A)
    (h : TxSet.shifts A k t = some t') :
    t'.Wf A ∧ ∀ acc, t'.rest A acc <:+ t.rest A acc := by
  induction k generalizing t with
  | zero =>
    obtain rfl := some.inj h
    exact ⟨hwf, fun acc => suffix_refl _⟩
  | succ k ih =>
    rw [TxSet.shifts, bind_eq_some_iff] at h
    obtain ⟨u, hu, h⟩ := h
    obtain ⟨hwu, hru⟩ := hwf.shift hu
    obtain ⟨hw', hr'⟩ := ih hwu h
    exact ⟨hw', fun acc => (hr' acc).trans (hru acc)⟩

variable [DecidableEq Tx] (A : Bids Addr Tx)

def TxSet.act (t : TxSet Addr Tx) : Act Tx → Option (TxSet Addr Tx)
  | .shift => t.shift A
  | .pop => t.pop A
  | .forward tx => t.forward A tx

/-- A set after some operations, `none` after a panic. -/
def TxSet.play (t : TxSet Addr Tx) (acts : List (Act Tx)) : Option (TxSet Addr Tx) :=
  acts.foldlM (TxSet.act A) t

namespace Memory

def step (mem : Memory Addr Tx) : Op Tx → Option (Memory Addr Tx)
  | .act k a => do
    let r ← mem.sets[k]?
    let t ← mem.load r
    let t' ← t.act A a
    some (mem.store k r t')
  | .copy k => do
    let t ← mem.view k
    some (mem.copy t)

def run (mem : Memory Addr Tx) (ops : List (Op Tx)) : Option (Memory Addr Tx) :=
  ops.foldlM (step A) mem

/-- Each set is the first one after the operations of its lineage. -/
structure Follows (t₀ : TxSet Addr Tx) (ls : List (List (Act Tx))) (mem : Memory Addr Tx) : Prop where
  separate : mem.Separate
  length : ls.length = mem.sets.length
  views : ∀ (k : ℕ) (acts : List (Act Tx)), ls[k]? = some acts → t₀.play A acts = mem.view k

section Run
variable {A} {mem mem' : Memory Addr Tx} {t₀ : TxSet Addr Tx} {ls : List (List (Act Tx))}

theorem follows_start : Follows A t₀ [[]] (start t₀) where
  separate := separate_empty.copy
  length := rfl
  views := by
    intro k acts h
    obtain rfl : k = 0 := by
      have := (List.getElem?_eq_some_iff.mp h).1
      simp at this
      exact this
    obtain rfl : [] = acts := some.inj h
    rw [view_start]
    rfl

theorem Follows.step (h : Follows A t₀ ls mem) {op : Op Tx} (hs : mem.step A op = some mem') :
    Follows A t₀ (lineage ls op) mem' := by
  cases op with
  | act k a =>
    simp only [Memory.step, bind_eq_bind, bind_eq_some_iff, some.injEq] at hs
    obtain ⟨r, hr, t, ht, t', ha, rfl⟩ := hs
    refine ⟨h.separate.store hr, by simpa [lineage, Memory.store] using h.length, ?_⟩
    intro j acts hj
    rw [view_store h.separate hr]
    simp only [lineage, getElem?_modify, Option.map_eq_map, Option.map_eq_some_iff] at hj
    obtain ⟨before, hbefore, rfl⟩ := hj
    have hview := h.views j before hbefore
    by_cases hjk : j = k
    · subst hjk
      rw [view_eq hr, ht] at hview
      rw [if_pos rfl, if_pos rfl, TxSet.play, foldlM_append, ← TxSet.play, hview]
      simpa using ha
    · rw [if_neg (Ne.symm hjk), if_neg hjk]
      exact hview
  | copy k =>
    simp only [Memory.step, bind_eq_bind, bind_eq_some_iff, some.injEq] at hs
    obtain ⟨t, ht, rfl⟩ := hs
    refine ⟨h.separate.copy, by simp [lineage, Memory.copy, h.length], ?_⟩
    intro j acts hj
    rw [view_copy h.separate, ← h.length]
    rw [lineage, getElem?_append] at hj
    split at hj
    · rw [if_neg (by omega)]
      exact h.views j acts hj
    · rw [getElem?_singleton] at hj
      split at hj
      · rw [if_pos (by omega), ← ht]
        have hk : k < ls.length := by
          rw [h.length]
          cases hr : mem.sets[k]? with
          | none => simp [view, hr] at ht
          | some r => exact (List.getElem?_eq_some_iff.mp hr).1
        rw [getElem?_eq_getElem hk, getD_some] at hj
        obtain rfl := some.inj hj
        exact h.views k _ (getElem?_eq_getElem hk)
      · exact nomatch hj

theorem Follows.run (h : Follows A t₀ ls mem) {ops : List (Op Tx)} (hs : mem.run A ops = some mem') :
    Follows A t₀ (ops.foldl lineage ls) mem' := by
  induction ops generalizing mem ls with
  | nil =>
    obtain rfl := some.inj hs
    exact h
  | cons op ops ih =>
    rw [Memory.run, foldlM_cons, bind_eq_bind, bind_eq_some_iff] at hs
    obtain ⟨mem₁, hstep, hs⟩ := hs
    exact ih (h.step hstep) hs

end Run

end Memory

/-! ## The order -/

namespace TxSet
variable {A} {t t' : TxSet Addr Tx}

/-- An operation leaves a set in which each account goes on with a part of what it had
to come. -/
theorem Wf.act (hwf : t.Wf A) {a : Act Tx} (h : t.act A a = some t') :
    t'.Wf A ∧ ∀ acc, t'.rest A acc <:+ t.rest A acc := by
  cases a with
  | shift => exact hwf.shift h
  | pop =>
    cases hx : t.peek with
    | none =>
      have hnil : t.heads = [] := head?_eq_none_iff.mp hx
      simp [TxSet.act, pop, hnil, Heap.pop_nil] at h
    | some x =>
      obtain ⟨t₁, ht₁, hwf₁, hrest⟩ := pop_spec hwf hx
      obtain rfl := some.inj (ht₁.symm.trans h)
      refine ⟨hwf₁, fun acc => ?_⟩
      rw [hrest acc]
      split
      · exact nil_suffix
      · exact suffix_refl _
  | forward tx =>
    cases tx with
    | none =>
      obtain rfl := some.inj h
      refine ⟨⟨fun p c _ _ hc => absurd hc (Nat.not_lt_zero c), nodup_nil, hwf.tails⟩, fun acc => ?_⟩
      exact nil_suffix
    | some tx =>
      obtain ⟨hcome, hstay, hpanic⟩ := forward_spec hwf tx
      by_cases htx : tx ∈ t.rest A (A.sender tx)
      · obtain ⟨t₁, ht₁, k, u, hk, -, hu, -⟩ := hcome htx
        obtain rfl := some.inj (ht₁.symm.trans h)
        obtain ⟨hwu, hru⟩ := hwf.shifts hk
        obtain ⟨hw', hr'⟩ := hwu.shift hu
        exact ⟨hw', fun acc => (hr' acc).trans (hru acc)⟩
      · by_cases horphan : Orphaned A t tx
        · cases (hpanic horphan).symm.trans h
        · obtain rfl := some.inj ((hstay htx horphan).symm.trans h)
          exact ⟨hwf, fun acc => suffix_refl _⟩

theorem Wf.play (hwf : t.Wf A) {acts : List (Act Tx)} (h : t.play A acts = some t') :
    t'.Wf A ∧ ∀ acc, t'.rest A acc <:+ t.rest A acc := by
  induction acts generalizing t with
  | nil =>
    obtain rfl := some.inj h
    exact ⟨hwf, fun acc => suffix_refl _⟩
  | cons a acts ih =>
    rw [TxSet.play, foldlM_cons, bind_eq_bind, bind_eq_some_iff] at h
    obtain ⟨u, hu, h⟩ := h
    obtain ⟨hwu, hru⟩ := hwf.act hu
    obtain ⟨hw', hr'⟩ := ih hwu h
    exact ⟨hw', fun acc => (hr' acc).trans (hru acc)⟩

/-- The order that a set keeps, `m` being the lists it was made of. -/
structure InOrder (A : Bids Addr Tx) (m : Map Addr (List Tx)) (t : TxSet Addr Tx) : Prop where
  /-- What is to come of an account is an end of its list, in the order of the nonces. -/
  rest_suffix : ∀ acc, t.rest A acc <:+ (m.lookup acc).getD []
  sorted : ∀ acc, (t.rest A acc).Pairwise fun x y => A.nonce x < A.nonce y
  /-- `Peek` has nothing only where nothing is to come. -/
  peek_none : t.peek = none → ∀ acc, t.rest A acc = []
  /-- `Peek` is the next one of its account, and no account's next one has a higher price. -/
  peek_next : ∀ x, t.peek = some x → (t.rest A (A.sender x)).head? = some x
  peek_price : ∀ x, t.peek = some x → ∀ acc y, (t.rest A acc).head? = some y → A.price y ≤ A.price x
  /-- `Shift` goes on by one transaction of this account. -/
  shift_next : ∀ x, t.peek = some x → ∃ t', t.shift A = some t' ∧ ∀ acc, t'.rest A acc =
    if acc = A.sender x then (t.rest A acc).tail else t.rest A acc
  /-- After `Pop` nothing of this account is to come, -/
  pop_next : ∀ x, t.peek = some x → ∃ t', t.pop A = some t' ∧ ∀ acc, t'.rest A acc =
    if acc = A.sender x then [] else t.rest A acc
  /-- and it stays so. -/
  later : ∀ acts t', t.play A acts = some t' → ∀ acc, t'.rest A acc <:+ t.rest A acc

/-- `Forward(tx)` ends just after `tx` where it is still to come, and changes nothing
otherwise. -/
def Forwards (A : Bids Addr Tx) (t : TxSet Addr Tx) (tx : Tx) : Prop :=
  (tx ∈ t.rest A (A.sender tx) → ∃ t', t.forward A (some tx) = some t' ∧ JustAfter A t tx t') ∧
  (tx ∉ t.rest A (A.sender tx) → t.forward A (some tx) = some t)

theorem Wf.inOrder {m : Map Addr (List Tx)} (hwf : t.Wf A)
    (hrest : ∀ acc, t.rest A acc <:+ (m.lookup acc).getD [])
    (hsorted : ∀ acc list, m.lookup acc = some list →
      list.Pairwise fun x y => A.nonce x < A.nonce y) : t.InOrder A m where
  rest_suffix := hrest
  sorted := by
    intro acc
    have hsuffix := hrest acc
    cases hl : m.lookup acc with
    | none =>
      rw [hl] at hsuffix
      rw [suffix_nil.mp hsuffix]
      exact List.Pairwise.nil
    | some list =>
      rw [hl] at hsuffix
      exact (hsorted acc list hl).sublist hsuffix.sublist
  peek_none := by
    intro h acc
    have hnil : t.heads = [] := head?_eq_none_iff.mp h
    exact rest_of_notMem (by simp [hnil])
  peek_next := fun x hx => by rw [rest_of_peek hwf hx, head?_cons]
  peek_price := by
    intro x hx acc y hy
    obtain ⟨ys, hys⟩ := head?_eq_some_iff.mp hy
    exact price_le_of_peek hwf hx (mem_heads_of_rest hys)
  shift_next := fun x hx => by
    obtain ⟨t', ht', -, hr⟩ := shift_spec hwf hx
    exact ⟨t', ht', hr⟩
  pop_next := fun x hx => by
    obtain ⟨t', ht', -, hr⟩ := pop_spec hwf hx
    exact ⟨t', ht', hr⟩
  later := fun acts t' h => (hwf.play h).2

theorem Wf.forwards_iff (hwf : t.Wf A) (tx : Tx) : t.Forwards A tx ↔ ¬ Orphaned A t tx := by
  obtain ⟨hcome, hstay, hpanic⟩ := forward_spec hwf tx
  constructor
  · rintro ⟨-, hunchanged⟩ horphan
    have hout : tx ∉ t.rest A (A.sender tx) := by
      rw [rest_of_notMem horphan.2]
      exact not_mem_nil
    exact nomatch (hpanic horphan).symm.trans (hunchanged hout)
  · intro hnot
    exact ⟨hcome, fun htx => hstay htx hnot⟩

end TxSet

/-- Every set in memory after any operations keeps the order, is what its own lineage of
operations makes of the new set, and goes forward to a transaction as it should
exactly when that one is not kept for an account that was dropped. -/
theorem mining_order (A : Bids Addr Tx) (m : Map Addr (List Tx))
    (hne : ∀ acc list, m.lookup acc = some list → list ≠ [])
    (hsorted : ∀ acc list, m.lookup acc = some list → list.Pairwise fun x y => A.nonce x < A.nonce y)
    (hfrom : ∀ acc list, m.lookup acc = some list → ∀ tx ∈ list, A.sender tx = acc) :
    ∃ t₀, TxSet.new A m = some t₀ ∧ (∀ acc, t₀.rest A acc = (m.lookup acc).getD []) ∧
      ∀ ops mem, (Memory.start t₀).run A ops = some mem → ∀ (k : ℕ) t, mem.view k = some t →
        t.InOrder A m ∧ (∃ acts, (lineages ops)[k]? = some acts ∧ t₀.play A acts = some t) ∧
        ∀ tx, t.Forwards A tx ↔ ¬ TxSet.Orphaned A t tx := by
  obtain ⟨t₀, hnew, hwf, hrest⟩ := TxSet.new_spec hne hfrom
  refine ⟨t₀, hnew, hrest, ?_⟩
  intro ops mem hrun k t hview
  have hfollows := Memory.follows_start.run hrun
  have hk : k < (lineages ops).length := by
    have hlen : (lineages ops).length = mem.sets.length := hfollows.length
    rw [hlen]
    by_contra hge
    rw [Memory.view_eq_none (getElem?_eq_none (not_lt.mp hge))] at hview
    exact nomatch hview
  have hacts := getElem?_eq_getElem hk
  have hplay := (hfollows.views k _ hacts).trans hview
  obtain ⟨hwf', hsuffix⟩ := hwf.play hplay
  refine ⟨hwf'.inOrder (fun acc => ?_) hsorted, ⟨_, hacts, hplay⟩, hwf'.forwards_iff⟩
  rw [← hrest acc]
  exact hsuffix acc

/-- Account 1 with two transactions and account 2 with one; a transaction is its sender,
nonce and price. -/
def threeTxs : Map ℕ (List (ℕ × ℕ × ℕ)) where
  entries := [⟨1, [(1, 0, 9), (1, 1, 9)]⟩, ⟨2, [(2, 0, 5)]⟩]
  nodupKeys := by simp

def tripleBids : Bids ℕ (ℕ × ℕ × ℕ) where
  sender := fun tx => tx.1
  price := fun tx => tx.2.2
  nonce := fun tx => tx.2.1
  time := fun _ => 0

/-- A copy, `Shift` of the copy and `Pop` of the first set: each goes its own way. -/
theorem mining_order_threeTxs : ∃ t₀ mem t, TxSet.new tripleBids threeTxs = some t₀ ∧
    (Memory.start t₀).run tripleBids [.copy 0, .act 1 .shift, .act 0 .pop] = some mem ∧
      (mem.view 0).bind TxSet.peek = some (2, 0, 5) ∧
        mem.view 1 = some t ∧ t.peek = some (1, 1, 9) ∧ t.InOrder tripleBids threeTxs := by
  have hall : ∀ acc list, threeTxs.lookup acc = some list →
      list ≠ [] ∧ (list.Pairwise fun x y => x.2.1 < y.2.1) ∧ ∀ tx ∈ list, tx.1 = acc := by
    intro acc list h
    have hmem := AList.mem_lookup_iff.mp h
    have hentries : ∀ e ∈ threeTxs.entries,
        e.2 ≠ [] ∧ (e.2.Pairwise fun x y => x.2.1 < y.2.1) ∧ ∀ tx ∈ e.2, tx.1 = e.1 := by
      decide +kernel
    exact hentries _ hmem
  obtain ⟨t₀, hnew, -, hruns⟩ := mining_order tripleBids threeTxs
    (fun acc list h => (hall acc list h).1) (fun acc list h => (hall acc list h).2.1)
    (fun acc list h => (hall acc list h).2.2)
  have hpeeks : (TxSet.new tripleBids threeTxs).bind (fun t₀ =>
      ((Memory.start t₀).run tripleBids [.copy 0, .act 1 .shift, .act 0 .pop]).map fun mem =>
        ((mem.view 0).bind TxSet.peek, (mem.view 1).bind TxSet.peek)) =
      some (some (2, 0, 5), some (1, 1, 9)) := by
    decide +kernel
  rw [hnew, bind_some, map_eq_some_iff] at hpeeks
  obtain ⟨mem, hrun, hpeeks⟩ := hpeeks
  obtain ⟨hfirst, hcopy⟩ := Prod.mk.inj hpeeks
  obtain ⟨t, hview, hpeek⟩ := bind_eq_some_iff.mp hcopy
  exact ⟨t₀, mem, t, hnew, hrun, hfirst, hview, hpeek, (hruns _ mem hrun 1 t hview).1⟩

/-- After `Pop` of the first transaction, `Forward` of the second one, which is not to
come any more, panics. -/
theorem forward_after_pop_panics :
    (TxSet.new tripleBids threeTxs).bind TxSet.peek = some (1, 0, 9) ∧
    ((TxSet.new tripleBids threeTxs).bind (TxSet.pop tripleBids)).bind TxSet.peek =
      some (2, 0, 5) ∧
    ((TxSet.new tripleBids threeTxs).bind (TxSet.pop tripleBids)).map
      (fun t => t.rest tripleBids 1) = some [] ∧
    ((TxSet.new tripleBids threeTxs).bind (TxSet.pop tripleBids)).bind
      (fun t => t.forward tripleBids (some (1, 1, 9))) = none := by
  refine ⟨by decide +kernel, by decide +kernel, by decide +kernel, ?_⟩
  exact isNone_iff_eq_none.mp (by decide +kernel)

end Dexit.Types
