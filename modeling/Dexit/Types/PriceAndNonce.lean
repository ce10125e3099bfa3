import Mathlib.Algebra.GroupWithZero.Nat
import Dexit.Go.Heap
import Dexit.Go.Map

/-!
# Transactions by price and nonce

`TransactionsByPriceAndNonce` (core/types/transaction.go): a heap with the next
transaction of each account, and the lists of those that follow. A transaction is a
pointer, so it is compared by identity; its sender (the zero address where it cannot
be derived), gas price, nonce and time are given. An operation is `none` where it
panics.

`rest` is what a set stands for: the transactions of each account that are still to
come. `shift_spec` and `pop_spec` say what the operations do to it.
-/

namespace Dexit.Types

open Go List Option AList Heap

/-- What the order of transactions depends on. -/
structure Bids (Addr Tx : Type) where
  sender : Tx → Addr
  price : Tx → ℕ
  nonce : Tx → ℕ
  time : Tx → ℕ

/-- `TransactionsByPriceAndNonce`. -/
structure TxSet (Addr Tx : Type) where
  txs : Map Addr (List Tx)
  heads : List Tx

variable {Addr Tx : Type} (A : Bids Addr Tx)

/-- `TxByPriceAndTime.Less`. -/
def Bids.less (a b : Tx) : Bool :=
  if A.price a = A.price b then decide (A.time a < A.time b) else decide (A.price a > A.price b)

theorem Bids.lawful : Heap.Lawful A.less where
  asymm := by
    intro a b
    unfold Bids.less
    split <;> split <;> simp <;> omega
  trans := by
    intro a b c
    unfold Bids.less
    split <;> split <;> split <;> simp <;> omega

namespace TxSet

def peek (t : TxSet Addr Tx) : Option Tx := t.heads.head?

theorem peek_eq_some {t : TxSet Addr Tx} {x : Tx} (h : t.peek = some x) : ∃ xs, t.heads = x :: xs := by
  cases hh : t.heads with
  | nil => simp [peek, hh] at h
  | cons y ys =>
    obtain rfl : y = x := by simpa [peek, hh] using h
    exact ⟨ys, rfl⟩

theorem mem_heads_of_peek {t : TxSet Addr Tx} {x : Tx} (h : t.peek = some x) : x ∈ t.heads := by
  obtain ⟨xs, hxs⟩ := peek_eq_some h
  rw [hxs]
  exact mem_cons_self

def pop (t : TxSet Addr Tx) : Option (TxSet Addr Tx) :=
  (Heap.pop A.less t.heads).map fun r => { t with heads := r.2 }

/-- The number of transactions held. -/
def size (t : TxSet Addr Tx) : ℕ :=
  t.heads.length + (t.txs.entries.map fun e => e.2.length).sum

theorem size_pop {t t' : TxSet Addr Tx} (h : t.pop A = some t') : t'.size < t.size := by
  rw [pop, map_eq_some_iff] at h
  obtain ⟨⟨y, rest⟩, hpop, rfl⟩ := h
  have hlen := length_pop hpop
  simp only [size]
  omega

/-- Only an empty set panics. -/
theorem pop_of_peek {t : TxSet Addr Tx} {x : Tx} (h : t.peek = some x) :
    ∃ t', t.pop A = some t' := by
  obtain ⟨heads, hpop, -⟩ := pop_spec h
  exact ⟨{ t with heads := heads }, by rw [pop, hpop]; rfl⟩

variable [DecidableEq Addr]

/-- The loop of `NewTransactionsByPriceAndNonce` over the accounts. -/
def collect (t : TxSet Addr Tx) : List ((_ : Addr) × List Tx) → Option (TxSet Addr Tx)
  | [] => some t
  | ⟨_, []⟩ :: _ => none
  | ⟨acc, head :: accTxs⟩ :: rest =>
    if A.sender head ≠ acc then collect { t with txs := t.txs.erase acc } rest
    else collect ⟨t.txs.insert acc accTxs, t.heads ++ [head]⟩ rest

/-- `NewTransactionsByPriceAndNonce`. -/
def new (txs : Map Addr (List Tx)) : Option (TxSet Addr Tx) :=
  (collect A ⟨txs, []⟩ txs.entries).map fun t => { t with heads := Heap.init A.less t.heads }

/-- The transactions of an account after its next one. -/
def tail (t : TxSet Addr Tx) (acc : Addr) : List Tx := (t.txs.lookup acc).getD []

def shift (t : TxSet Addr Tx) : Option (TxSet Addr Tx) :=
  match t.heads with
  | [] => none
  | head :: _ =>
    match t.tail (A.sender head) with
    | tx :: txs =>
      some ⟨t.txs.insert (A.sender head) txs, Heap.fix A.less (t.heads.set 0 tx) 0⟩
    | [] => t.pop A

theorem shift_of_peek {t : TxSet Addr Tx} {x : Tx} (h : t.peek = some x) :
    ∃ t', t.shift A = some t' := by
  obtain ⟨xs, hxs⟩ := peek_eq_some h
  rw [shift, hxs]
  dsimp only
  split
  · exact ⟨_, rfl⟩
  · exact pop_of_peek A h

variable {m : Map Addr (List Tx)} {txs : List Tx}

theorem size_insert {acc : Addr} {tx : Tx} (h : (m.lookup acc).getD [] = tx :: txs) :
    ((m.insert acc txs).entries.map fun e => e.2.length).sum + 1 =
      (m.entries.map fun e => e.2.length).sum := by
  have hlookup : m.lookup acc = some (tx :: txs) := by
    cases hl : m.lookup acc with
    | none => simp [hl] at h
    | some list => simpa [hl] using h
  have hkey : acc ∈ m.entries.keys := mem_keys.mpr (Map.mem_iff_lookup.mpr ⟨_, hlookup⟩)
  obtain ⟨list, l₁, l₂, hnot, hsplit, herase⟩ := exists_of_kerase hkey
  have hlist : list = tx :: txs := by
    have hfound : m.lookup acc = some list := by
      rw [AList.lookup, hsplit, dlookup_append, dlookup_eq_none.mpr hnot]
      simp
    exact some.inj (hfound.symm.trans hlookup)
  rw [entries_insert, herase, hsplit, hlist]
  simp
  omega

theorem size_shift {t t' : TxSet Addr Tx} (h : t.shift A = some t') : t'.size < t.size := by
  unfold shift at h
  split at h
  · cases h
  next head rest hheads =>
  split at h
  · next tx txs htail =>
    obtain rfl := some.inj h
    have hsum := size_insert htail
    have hlen : (fix A.less (t.heads.set 0 tx) 0).length = t.heads.length := by
      rw [(perm_fix _ 0).length_eq, length_set]
    simp only [size, hlen]
    omega
  · exact size_pop A h

/-- The transactions of an account that are still to come. -/
def rest (t : TxSet Addr Tx) (acc : Addr) : List Tx :=
  match t.heads.find? fun x => A.sender x = acc with
  | some x => x :: t.tail acc
  | none => []

/-- The heads are a heap with at most one transaction of each account, and what follows
is from the account it is kept for. -/
structure Wf (t : TxSet Addr Tx) : Prop where
  heap : Heap.Ordered A.less t.heads
  senders : (t.heads.map A.sender).Nodup
  tails : ∀ acc, ∀ tx ∈ t.tail acc, A.sender tx = acc

section Lemmas
variable {A} {t t' : TxSet Addr Tx} {x tx : Tx} {acc : Addr}

theorem rest_of_notMem (h : acc ∉ t.heads.map A.sender) : t.rest A acc = [] := by
  have hnone : (t.heads.find? fun x => A.sender x = acc) = none := by
    rw [find?_eq_none]
    intro x hx hacc
    exact h (mem_map.mpr ⟨x, hx, of_decide_eq_true hacc⟩)
  rw [rest, hnone]

theorem rest_of_mem (hnodup : (t.heads.map A.sender).Nodup) (hx : x ∈ t.heads) :
    t.rest A (A.sender x) = x :: t.tail (A.sender x) := by
  cases hfind : t.heads.find? fun y => A.sender y = A.sender x with
  | none =>
    rw [find?_eq_none] at hfind
    exact absurd (decide_eq_true rfl) (hfind x hx)
  | some y =>
    have hy : A.sender y = A.sender x := by simpa using find?_some hfind
    obtain rfl : y = x := inj_on_of_nodup_map hnodup (mem_of_find?_eq_some hfind) hx hy
    rw [rest, hfind]

theorem mem_heads_of_rest (h : t.rest A acc = x :: txs) : x ∈ t.heads := by
  rw [rest] at h
  split at h
  · next y hfind =>
    obtain ⟨rfl, -⟩ := List.cons.inj h
    exact mem_of_find?_eq_some hfind
  · exact nomatch h

/-- A set is known by the heads as a collection and the tails. -/
theorem rest_congr (hnodup : (t.heads.map A.sender).Nodup) (hperm : t.heads.Perm t'.heads)
    (htail : t.tail acc = t'.tail acc) : t.rest A acc = t'.rest A acc := by
  have hnodup' : (t'.heads.map A.sender).Nodup := (hperm.map A.sender).nodup_iff.mp hnodup
  by_cases hacc : acc ∈ t.heads.map A.sender
  · obtain ⟨x, hx, rfl⟩ := mem_map.mp hacc
    rw [rest_of_mem hnodup hx, rest_of_mem hnodup' (hperm.mem_iff.mp hx), htail]
  · rw [rest_of_notMem hacc, rest_of_notMem fun h => hacc ((hperm.map A.sender).mem_iff.mpr h)]

variable {heads : List Tx}

/-- The rest after the next transaction `x` was taken off the heads. -/
theorem rest_of_removed (hwf : t.Wf A) (hperm : t.heads.Perm (x :: heads)) (acc : Addr) :
    TxSet.rest A { t with heads := heads } acc = if acc = A.sender x then [] else t.rest A acc := by
  have hnodup : ((x :: heads).map A.sender).Nodup := (hperm.map A.sender).nodup_iff.mp hwf.senders
  rw [map_cons, nodup_cons] at hnodup
  split
  · next hacc =>
    subst hacc
    exact rest_of_notMem hnodup.1
  · next hacc =>
    by_cases hmem : acc ∈ heads.map A.sender
    · obtain ⟨y, hy, rfl⟩ := mem_map.mp hmem
      rw [rest_of_mem hwf.senders (hperm.mem_iff.mpr (mem_cons_of_mem x hy))]
      exact rest_of_mem hnodup.2 hy
    · rw [rest_of_notMem hmem, rest_of_notMem]
      intro h
      rw [(hperm.map A.sender).mem_iff, map_cons, mem_cons] at h
      exact h.elim hacc hmem

section
variable (hwf : t.Wf A) (h : t.peek = some x)
include hwf h

theorem rest_of_peek : t.rest A (A.sender x) = x :: t.tail (A.sender x) :=
  rest_of_mem hwf.senders (mem_heads_of_peek h)

/-- The next transaction has the highest price of those that could be next. -/
theorem price_le_of_peek {y : Tx} (hy : y ∈ t.heads) : A.price y ≤ A.price x := by
  have hless := hwf.heap.head_le A.lawful h hy
  unfold Bids.less at hless
  split at hless
  · next heq => exact Nat.le_of_eq heq
  · simpa using hless

theorem pop_spec : ∃ t', t.pop A = some t' ∧ t'.Wf A ∧
      ∀ acc, t'.rest A acc = if acc = A.sender x then [] else t.rest A acc := by
  obtain ⟨heads, hpop, hperm, hord⟩ := Heap.pop_spec h
  refine ⟨{ t with heads := heads }, by rw [pop, hpop]; rfl, ⟨hord A.lawful hwf.heap, ?_, hwf.tails⟩,
    rest_of_removed hwf hperm⟩
  have hnodup := (hperm.map A.sender).nodup_iff.mp hwf.senders
  exact (nodup_cons.mp hnodup).2

end

theorem tail_insert (m : Map Addr (List Tx)) (txs : List Tx) (heads : List Tx) (acc acc' : Addr) :
    TxSet.tail ⟨m.insert acc txs, heads⟩ acc' =
      if acc' = acc then txs else TxSet.tail ⟨m, heads⟩ acc' := by
  unfold tail
  split
  · next h => subst h; rw [lookup_insert]; rfl
  · next h => rw [lookup_insert_ne h]

/-- The rest after the next transaction `x` was replaced by the one that follows it. -/
theorem rest_of_replaced {xs ys : List Tx} {y : Tx} (hwf : t.Wf A) (hheads : t.heads = x :: xs)
    (htail : t.tail (A.sender x) = y :: ys) (hperm : heads.Perm (y :: xs)) :
    (heads.map A.sender).Nodup ∧ ∀ acc, TxSet.rest A ⟨t.txs.insert (A.sender x) ys, heads⟩ acc =
      if acc = A.sender x then (t.rest A acc).tail else t.rest A acc := by
  have hy : A.sender y = A.sender x := hwf.tails _ y (by rw [htail]; exact mem_cons_self)
  have hmap : (heads.map A.sender).Perm (t.heads.map A.sender) := by
    rw [hheads, map_cons, ← hy]
    exact hperm.map A.sender
  have hnodup : (heads.map A.sender).Nodup := hmap.nodup_iff.mpr hwf.senders
  have hin : ∀ z ∈ heads, TxSet.rest A ⟨t.txs.insert (A.sender x) ys, heads⟩ (A.sender z) =
      z :: TxSet.tail ⟨t.txs.insert (A.sender x) ys, heads⟩ (A.sender z) := fun z hz =>
    rest_of_mem hnodup hz
  refine ⟨hnodup, fun acc => ?_⟩
  by_cases hacc : acc = A.sender x
  · have hx : x ∈ t.heads := by
      rw [hheads]
      exact mem_cons_self
    have hnew := hin y (hperm.mem_iff.mpr mem_cons_self)
    rw [hy, tail_insert, if_pos rfl] at hnew
    rw [if_pos hacc, hacc, hnew, rest_of_mem hwf.senders hx, tail_cons, htail]
  · rw [if_neg hacc]
    by_cases hmem : acc ∈ t.heads.map A.sender
    · obtain ⟨z, hz, rfl⟩ := mem_map.mp hmem
      have hz' : z ∈ heads := by
        rw [hheads] at hz
        rw [hperm.mem_iff]
        refine mem_cons_of_mem y ((mem_cons.mp hz).resolve_left ?_)
        rintro rfl
        exact hacc rfl
      rw [hin z hz', tail_insert, if_neg hacc, rest_of_mem hwf.senders hz]
      rfl
    · rw [rest_of_notMem hmem, rest_of_notMem fun h => hmem (hmap.mem_iff.mp h)]

theorem shift_spec (hwf : t.Wf A) (h : t.peek = some x) :
    ∃ t', t.shift A = some t' ∧ t'.Wf A ∧
      ∀ acc, t'.rest A acc = if acc = A.sender x then (t.rest A acc).tail else t.rest A acc := by
  obtain ⟨xs, hheads⟩ := peek_eq_some h
  cases htail : t.tail (A.sender x) with
  | nil =>
    -- the last one of its account: the same as `Pop`
    obtain ⟨t', hpop, hwf', hrest'⟩ := pop_spec hwf h
    refine ⟨t', ?_, hwf', ?_⟩
    · rw [shift, hheads]
      simp only [htail]
      exact hpop
    · intro acc
      rw [hrest' acc]
      split
      · next hacc => rw [hacc, rest_of_peek hwf h, htail, tail_cons]
      · rfl
  | cons y ys =>
    have hperm : (fix A.less (t.heads.set 0 y) 0).Perm (y :: xs) := by
      rw [hheads]
      exact perm_fix _ 0
    have hpos : 0 < t.heads.length := by
      rw [hheads]
      exact Nat.succ_pos _
    obtain ⟨hnodup, hrest⟩ := rest_of_replaced hwf hheads htail hperm
    refine ⟨⟨t.txs.insert (A.sender x) ys, fix A.less (t.heads.set 0 y) 0⟩, ?_,
      ⟨(hwf.heap.loose_set A.lawful hpos y).fix A.lawful (by simpa using hpos), hnodup, ?_⟩, hrest⟩
    · rw [shift, hheads]
      simp only [htail]
    · intro acc z hz
      rw [tail_insert] at hz
      split at hz
      · next hacc =>
        rw [hacc]
        exact hwf.tails _ z (by rw [htail]; exact mem_cons_of_mem _ hz)
      · exact hwf.tails acc z hz

theorem exists_peek_of_rest (h : t.rest A acc ≠ []) : ∃ x, t.peek = some x := by
  obtain ⟨y, ys, hy⟩ := exists_cons_of_ne_nil h
  have hmem := mem_heads_of_rest hy
  cases hh : t.heads with
  | nil => simp [hh] at hmem
  | cons x xs => exact ⟨x, by simp [peek, hh]⟩

/-- A transaction other than the next one is still to come after a `Shift` exactly when
it was before. -/
theorem mem_rest_shift (hwf : t.Wf A) (hx : t.peek = some x)
    (hne : x ≠ tx) (hrest : ∀ acc, t'.rest A acc =
      if acc = A.sender x then (t.rest A acc).tail else t.rest A acc) :
    tx ∈ t'.rest A (A.sender tx) ↔ tx ∈ t.rest A (A.sender tx) := by
  rw [hrest]
  split
  · next hacc => rw [hacc, rest_of_peek hwf hx, tail_cons, mem_cons, or_iff_right (Ne.symm hne)]
  · rfl

theorem mem_rest_iff (hwf : t.Wf A) : tx ∈ t.rest A (A.sender tx) ↔
    tx ∈ t.heads ∨ tx ∈ t.tail (A.sender tx) ∧ A.sender tx ∈ t.heads.map A.sender := by
  by_cases hacc : A.sender tx ∈ t.heads.map A.sender
  · obtain ⟨x, hx, hsame⟩ := mem_map.mp hacc
    have hrest := rest_of_mem hwf.senders hx
    rw [hsame] at hrest
    rw [hrest, mem_cons, and_iff_left hacc]
    refine or_congr_left ⟨?_, ?_⟩
    · rintro rfl
      exact hx
    · intro htx
      exact inj_on_of_nodup_map hwf.senders htx hx hsame.symm
  · rw [rest_of_notMem hacc]
    refine iff_of_false not_mem_nil ?_
    rintro (htx | ⟨-, h⟩)
    · exact hacc (mem_map_of_mem htx)
    · exact hacc h

/-! ## The start -/

/-- The loop over the accounts puts the first transaction of each list with the heads. -/
theorem collect_spec {es : List ((_ : Addr) × List Tx)}
    (hne : ∀ e ∈ es, e.2 ≠ []) (hfrom : ∀ e ∈ es, ∀ tx ∈ e.2, A.sender tx = e.1)
    (hkeys : es.NodupKeys) (hout : ∀ e ∈ es, e.1 ∉ t.heads.map A.sender)
    (hnodup : (t.heads.map A.sender).Nodup)
    (hlists : ∀ e ∈ es, t.tail e.1 = e.2) (htails : ∀ acc, ∀ tx ∈ t.tail acc, A.sender tx = acc) :
    ∃ t', collect A t es = some t' ∧ (t'.heads.map A.sender).Nodup ∧
      (∀ acc, ∀ tx ∈ t'.tail acc, A.sender tx = acc) ∧
      ∀ acc, t'.rest A acc = if acc ∈ es.keys then t.tail acc else t.rest A acc := by
  induction es generalizing t with
  | nil => exact ⟨t, rfl, hnodup, htails, fun acc => by simp⟩
  | cons e es ih =>
    obtain ⟨acc, list⟩ := e
    cases list with
    | nil => exact absurd rfl (hne _ mem_cons_self)
    | cons head accTxs =>
      have hhead : A.sender head = acc := hfrom _ mem_cons_self head mem_cons_self
      have hacc := hlists _ mem_cons_self
      have haccout := hout _ mem_cons_self
      rw [nodupKeys_cons] at hkeys
      have hother : ∀ e ∈ es, e.1 ≠ acc := by
        rintro e he rfl
        exact hkeys.1 (mem_map.mpr ⟨e, he, rfl⟩)
      have hfirst : TxSet.rest A ⟨t.txs.insert acc accTxs, t.heads ++ [head]⟩ acc = head :: accTxs := by
        have hnone : (t.heads.find? fun y => A.sender y = acc) = none := by
          rw [find?_eq_none]
          intro y hy hyacc
          exact haccout (mem_map.mpr ⟨y, hy, of_decide_eq_true hyacc⟩)
        rw [rest, find?_append, hnone]
        simp [hhead, tail]
      have hsame : ∀ a, a ≠ acc →
          TxSet.rest A ⟨t.txs.insert acc accTxs, t.heads ++ [head]⟩ a = t.rest A a := by
        intro a ha
        have hlast : ([head].find? fun y => A.sender y = a) = none := by
          simp [hhead, Ne.symm ha]
        rw [rest, find?_append, hlast, or_none, tail_insert, if_neg ha]
        rfl
      obtain ⟨t', hcollect, hnodup', htails', hrest⟩ :=
        ih (t := ⟨t.txs.insert acc accTxs, t.heads ++ [head]⟩)
          (fun e he => hne e (mem_cons_of_mem _ he))
          (fun e he => hfrom e (mem_cons_of_mem _ he)) hkeys.2
          (by
            intro e he
            rw [map_append, mem_append, not_or]
            refine ⟨hout e (mem_cons_of_mem _ he), ?_⟩
            simpa [hhead] using hother e he)
          (by
            rw [map_append, nodup_append]
            refine ⟨hnodup, nodup_singleton _, ?_⟩
            rintro a ha b hb rfl
            obtain rfl : a = acc := (mem_singleton.mp hb).trans hhead
            exact haccout ha)
          (by
            intro e he
            rw [tail_insert, if_neg (hother e he)]
            exact hlists e (mem_cons_of_mem _ he))
          (by
            intro a tx htx
            rw [tail_insert] at htx
            split at htx
            · next ha =>
              rw [ha]
              exact hfrom _ mem_cons_self tx (mem_cons_of_mem _ htx)
            · exact htails a tx htx)
      refine ⟨t', ?_, hnodup', htails', ?_⟩
      · rw [collect, if_neg (not_not.mpr hhead)]
        exact hcollect
      · intro a
        rw [hrest a, keys_cons]
        by_cases ha : a = acc
        · subst ha
          rw [if_neg hkeys.1, hfirst, if_pos mem_cons_self, hacc]
        · rw [hsame a ha, tail_insert, if_neg ha]
          simp only [mem_cons, ha, false_or]
          rfl

/-- A new set has all transactions still to come. -/
theorem new_spec (hne : ∀ acc list, m.lookup acc = some list → list ≠ [])
    (hfrom : ∀ acc list, m.lookup acc = some list → ∀ tx ∈ list, A.sender tx = acc) :
    ∃ t, new A m = some t ∧ t.Wf A ∧ ∀ acc, t.rest A acc = (m.lookup acc).getD [] := by
  have hlookup : ∀ e ∈ m.entries, m.lookup e.1 = some e.2 := fun e he =>
    mem_lookup_iff.mpr he
  obtain ⟨t, hcollect, hnodup, htails, hrest⟩ := collect_spec (A := A) (t := ⟨m, []⟩)
    (fun e he => hne e.1 e.2 (hlookup e he)) (fun e he => hfrom e.1 e.2 (hlookup e he))
    m.nodupKeys (fun e _ => not_mem_nil) nodup_nil
    (fun e he => by rw [tail, hlookup e he, getD_some])
    (by
      intro acc tx htx
      cases hl : m.lookup acc with
      | none => simp [tail, hl] at htx
      | some list => exact hfrom acc list hl tx (by simpa [tail, hl] using htx))
  have hperm : (init A.less t.heads).Perm t.heads := perm_init t.heads
  have hnodup' := (hperm.map A.sender).nodup_iff.mpr hnodup
  refine ⟨{ t with heads := init A.less t.heads }, by rw [new, hcollect]; rfl,
    ⟨ordered_init A.lawful _, hnodup', htails⟩, ?_⟩
  intro acc
  have hsame : TxSet.rest A { t with heads := init A.less t.heads } acc = t.rest A acc :=
    rest_congr hnodup' hperm rfl
  rw [hsame, hrest acc]
  split
  · rfl
  · next hout =>
    have hnone : m.lookup acc = none := lookup_eq_none.mpr hout
    rw [hnone]
    rfl

end Lemmas

/-! ## Forward -/

variable [DecidableEq Tx]

/-- The loop of `Forward`: shift until `tx` is next, and once more. -/
def seek (tx : Tx) (t : TxSet Addr Tx) : Option (TxSet Addr Tx) :=
  if t.peek = some tx then t.shift A
  else
    match _h : t.shift A with
    | none => none
    | some t' => seek tx t'
termination_by t.size
decreasing_by exact size_shift A _h

def forward (t : TxSet Addr Tx) : Option Tx → Option (TxSet Addr Tx)
  | none => some { t with heads := [] }
  | some tx =>
    if tx ∈ t.heads then seek A tx t
    else if tx ∈ t.tail (A.sender tx) then seek A tx t
    else some t

/-- `tx` is kept for an account of which nothing is next any more. -/
def Orphaned (t : TxSet Addr Tx) (tx : Tx) : Prop :=
  tx ∈ t.tail (A.sender tx) ∧ A.sender tx ∉ t.heads.map A.sender

/-- `k` calls of `Shift`. -/
def shifts : ℕ → TxSet Addr Tx → Option (TxSet Addr Tx)
  | 0, t => some t
  | k + 1, t => (t.shift A).bind (shifts k)

/-- `t'` is the set after `tx` has come for the first time and was shifted. -/
def JustAfter (t : TxSet Addr Tx) (tx : Tx) (t' : TxSet Addr Tx) : Prop :=
  ∃ k u, shifts A k t = some u ∧ u.peek = some tx ∧ u.shift A = some t' ∧
    ∀ i < k, ∀ v, shifts A i t = some v → v.peek ≠ some tx

section ForwardLemmas
variable {A} {t : TxSet Addr Tx} {tx : Tx}

theorem seek_of_peek (h : t.peek = some tx) : seek A tx t = t.shift A := by
  rw [seek, if_pos h]

theorem seek_of_shift {t' : TxSet Addr Tx} (h : t.peek ≠ some tx) (hs : t.shift A = some t') :
    seek A tx t = seek A tx t' := by
  rw [seek, if_neg h]
  split
  · next hnone => exact nomatch hnone.symm.trans hs
  · next u hu =>
    obtain rfl := some.inj (hu.symm.trans hs)
    rfl

theorem seek_spec (hwf : t.Wf A) (htx : tx ∈ t.rest A (A.sender tx)) :
    ∃ t', seek A tx t = some t' ∧ JustAfter A t tx t' := by
  induction hn : t.size using Nat.strongRecOn generalizing t with
  | _ n ih =>
    obtain ⟨x, hx⟩ := exists_peek_of_rest (ne_nil_of_mem htx)
    obtain ⟨t₁, hshift, hwf₁, hrest₁⟩ := shift_spec hwf hx
    by_cases hxt : x = tx
    · subst hxt
      exact ⟨t₁, (seek_of_peek hx).trans hshift, 0, t, rfl, hx, hshift, fun i hi => absurd hi (Nat.not_lt_zero i)⟩
    have hpeek : t.peek ≠ some tx := fun h => hxt (some.inj (hx.symm.trans h))
    have hlt : t₁.size < n := hn ▸ size_shift A hshift
    obtain ⟨t', hseek, k, u, hk, hu, hut, hfirst⟩ :=
      ih t₁.size hlt hwf₁ ((mem_rest_shift hwf hx hxt hrest₁).mpr htx) rfl
    refine ⟨t', (seek_of_shift hpeek hshift).trans hseek, k + 1, u, ?_, hu, hut, ?_⟩
    · rw [shifts, hshift, bind_some, hk]
    · intro i hi v hv
      cases i with
      | zero =>
        obtain rfl := some.inj hv
        exact hpeek
      | succ i =>
        rw [shifts, hshift, bind_some] at hv
        exact hfirst i (Nat.lt_of_succ_lt_succ hi) v hv

/-- The loop runs the set empty and panics where `tx` does not come. -/
theorem seek_panics (hwf : t.Wf A) (htx : tx ∉ t.rest A (A.sender tx)) : seek A tx t = none := by
  induction hn : t.size using Nat.strongRecOn generalizing t with
  | _ n ih =>
    cases hx : t.peek with
    | none =>
      have hnil : t.heads = [] := head?_eq_none_iff.mp hx
      rw [seek, if_neg (by simp [hx])]
      split
      · rfl
      · next u hu => simp [shift, hnil] at hu
    | some x =>
      have hxt : x ≠ tx := by
        rintro rfl
        exact htx (by rw [rest_of_peek hwf hx]; exact mem_cons_self)
      obtain ⟨t₁, hshift, hwf₁, hrest₁⟩ := shift_spec hwf hx
      have hpeek : t.peek ≠ some tx := fun h => hxt (some.inj (hx.symm.trans h))
      rw [seek_of_shift hpeek hshift]
      exact ih t₁.size (hn ▸ size_shift A hshift) hwf₁
        (fun h => htx ((mem_rest_shift hwf hx hxt hrest₁).mp h)) rfl

/-- `Forward` of a transaction that is still to come ends just after it, of one that is
in none of the lists changes nothing, and panics on an orphaned one. -/
theorem forward_spec (hwf : t.Wf A) (tx : Tx) :
    (tx ∈ t.rest A (A.sender tx) → ∃ t', t.forward A (some tx) = some t' ∧ JustAfter A t tx t') ∧
    (tx ∉ t.rest A (A.sender tx) → ¬ Orphaned A t tx → t.forward A (some tx) = some t) ∧
    (Orphaned A t tx → t.forward A (some tx) = none) := by
  have hforward : tx ∈ t.heads ∨ tx ∈ t.tail (A.sender tx) → t.forward A (some tx) = seek A tx t := by
    intro h
    rw [forward]
    split
    · rfl
    · next hheads => rw [if_pos (h.resolve_left hheads)]
  refine ⟨?_, ?_, ?_⟩
  · intro htx
    rw [hforward (((mem_rest_iff hwf).mp htx).imp_right And.left)]
    exact seek_spec hwf htx
  · intro htx hnot
    rw [mem_rest_iff hwf, not_or, not_and] at htx
    have htail : tx ∉ t.tail (A.sender tx) := fun h => hnot ⟨h, htx.2 h⟩
    rw [forward, if_neg htx.1, if_neg htail]
  · rintro ⟨htail, hout⟩
    rw [hforward (.inr htail)]
    refine seek_panics hwf ?_
    rw [rest_of_notMem hout]
    exact not_mem_nil

end ForwardLemmas

end TxSet
end Dexit.Types
