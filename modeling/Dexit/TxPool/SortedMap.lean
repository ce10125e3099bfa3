import Mathlib.Algebra.GroupWithZero.Nat
import Mathlib.Data.List.Perm.Subperm
import Dexit.Go.Heap
import Dexit.Go.Map

/-!
# Transactions by nonce

`txSortedMap` (core/tx_list.go): a map from nonces to transactions with a heap of its
nonces. The cached flat order (`cache`) is what `flatten` computes and is left out,
with the pool of slices behind it.

Everything that leaves a map is described by `Takes`: which transactions went out,
and that the others stayed.
-/

namespace Dexit.TxPool

open Go List

/-- What the pool reads of a transaction: its sender (the zero address where `signed`
is false, that is, where none can be derived), its type, its fields, its size, and the
gas it needs at least under the rules before and after Istanbul (`none` where the sum
overflows). A nonce is a `uint64`. Transactions are equal when their hashes are. -/
structure Attrs (Addr Tx : Type) where
  sender : Tx → Addr
  signed : Tx → Bool
  legacy : Tx → Bool
  nonce : Tx → ℕ
  gasPrice : Tx → ℕ
  gas : Tx → ℕ
  value : Tx → ℤ
  size : Tx → ℕ
  intrinsicGas : Tx → Bool → Option ℕ
  nonce_lt : ∀ tx, nonce tx < 2 ^ 64

variable {Addr Tx : Type} (A : Attrs Addr Tx)

/-- `tx.Cost()`. -/
def Attrs.cost (tx : Tx) : ℤ := A.gasPrice tx * A.gas tx + A.value tx

structure SortedMap (Tx : Type) where
  items : Map ℕ Tx
  index : List ℕ

/-- `nonceHeap.Less`. -/
def nonceLess (a b : ℕ) : Bool := decide (a < b)

theorem nonceLess_lawful : Heap.Lawful nonceLess where
  asymm := by
    intro a b
    simp only [nonceLess, decide_eq_true_eq, decide_eq_false_iff_not]
    omega
  trans := by
    intro a b c
    simp only [nonceLess, decide_eq_false_iff_not]
    omega

variable (m : SortedMap Tx)
namespace SortedMap

def new : SortedMap Tx := ⟨∅, []⟩

def get (nonce : ℕ) : Option Tx := m.items.lookup nonce

def put (tx : Tx) : SortedMap Tx where
  items := m.items.insert (A.nonce tx) tx
  index :=
    if (m.get (A.nonce tx)).isNone then Heap.push nonceLess m.index (A.nonce tx) else m.index

/-- The transactions, in no particular order. -/
def txs : List Tx := m.items.entries.map Sigma.snd

def len : ℕ := m.items.keys.length

/-- `Forward`: what `heap.Pop` returns is the first element of the index. -/
def forward (m : SortedMap Tx) (threshold : ℕ) : List Tx × SortedMap Tx :=
  match _hpop : Heap.pop nonceLess m.index with
  | none => ([], m)
  | some (nonce, rest) =>
    if nonce < threshold then
      let r := forward ⟨m.items.erase nonce, rest⟩ threshold
      ((m.items.lookup nonce).toList ++ r.1, r.2)
    else ([], m)
termination_by m.index.length
decreasing_by exact Heap.length_pop _hpop

def reheap : SortedMap Tx := { m with index := Heap.init nonceLess m.items.keys }

/-- `filter`, which leaves the index alone. -/
def filterItems (drop : Tx → Bool) : List Tx × SortedMap Tx :=
  (m.txs.filter drop, { m with items := m.items.filterVals fun tx => !drop tx })

def filter (drop : Tx → Bool) : List Tx × SortedMap Tx :=
  let r := m.filterItems drop
  (r.1, if r.1.length > 0 then r.2.reheap else r.2)

def cap (threshold : ℕ) : List Tx × SortedMap Tx :=
  if m.len ≤ threshold then ([], m)
  else
    let index := m.index.mergeSort
    let high := (index.drop threshold).reverse
    (high.filterMap m.items.lookup,
      ⟨m.items.deleteAll high, Heap.init nonceLess (index.take threshold)⟩)

def remove (nonce : ℕ) : Bool × SortedMap Tx :=
  match m.items.lookup nonce with
  | none => (false, m)
  | some _ =>
    (true, ⟨m.items.erase nonce,
      if nonce ∈ m.index then Heap.remove nonceLess m.index (m.index.idxOf nonce) else m.index⟩)

/-- The loop of `Ready`. -/
def readyFrom (m : SortedMap Tx) (next : ℕ) : List Tx × SortedMap Tx :=
  match _hpop : Heap.pop nonceLess m.index with
  | none => ([], m)
  | some (nonce, rest) =>
    if nonce = next then
      let r := readyFrom ⟨m.items.erase next, rest⟩ (next + 1)
      ((m.items.lookup next).toList ++ r.1, r.2)
    else ([], m)
termination_by m.index.length
decreasing_by exact Heap.length_pop _hpop

def ready (start : ℕ) : List Tx × SortedMap Tx :=
  match m.index.head? with
  | none => ([], m)
  | some low => if low > start then ([], m) else m.readyFrom low

def flatten : List Tx := m.txs.mergeSort fun a b => A.nonce a ≤ A.nonce b

/-- `LastElement`, which panics where there is none. -/
def lastElement : Option Tx := (m.flatten A).getLast?

/-- A transaction is stored under its nonce. -/
def Has (tx : Tx) : Prop := m.get (A.nonce tx) = some tx

structure Wf (m : SortedMap Tx) : Prop where
  keyed : ∀ n tx, m.get n = some tx → A.nonce tx = n
  index : m.index.Perm m.items.keys
  heap : Heap.Ordered nonceLess m.index

/-- The transactions `out` were taken out of `m`, which left `m'`. -/
structure Takes (m : SortedMap Tx) (out : List Tx) (m' : SortedMap Tx) : Prop where
  wf : m'.Wf A
  nodup : out.Nodup
  mem : ∀ tx ∈ out, m.Has A tx
  has : ∀ tx, m'.Has A tx ↔ m.Has A tx ∧ tx ∉ out

variable {A} {m m' m'' : SortedMap Tx} {out out' : List Tx} {tx tx' : Tx} {n : ℕ}

theorem Has.unique (h : m.Has A tx) (h' : m.Has A tx') (hn : A.nonce tx = A.nonce tx') : tx = tx' := by
  rw [Has, hn, h'] at h
  exact (Option.some.inj h).symm

theorem Wf.has_of_get (hw : m.Wf A) (h : m.get n = some tx) : m.Has A tx := by
  rw [Has, hw.keyed n tx h, h]

theorem mem_keys_iff : n ∈ m.items.keys ↔ ∃ tx, m.get n = some tx := Map.mem_iff_lookup

theorem Wf.mem_index (hw : m.Wf A) : n ∈ m.index ↔ ∃ tx, m.get n = some tx := by
  rw [hw.index.mem_iff, mem_keys_iff]

theorem Wf.mem_txs (hw : m.Wf A) : tx ∈ m.txs ↔ m.Has A tx := by
  rw [txs, mem_map]
  constructor
  · rintro ⟨⟨n, tx⟩, he, rfl⟩
    exact hw.has_of_get (AList.mem_lookup_iff.mpr he)
  · intro h
    exact ⟨⟨A.nonce tx, tx⟩, AList.mem_lookup_iff.mp h, rfl⟩

theorem Wf.nonces (hw : m.Wf A) : m.txs.map A.nonce = m.items.keys := by
  rw [txs, map_map]
  apply map_congr_left
  rintro ⟨n, tx⟩ he
  exact hw.keyed n tx (AList.mem_lookup_iff.mpr he)

theorem Wf.nodup_txs (hw : m.Wf A) : m.txs.Nodup := by
  have hkeys : (m.txs.map A.nonce).Nodup := by
    rw [hw.nonces]
    exact m.items.keys_nodup
  exact hkeys.of_map _

theorem length_txs : m.txs.length = m.len := by
  simp [txs, len, AList.keys, keys]

theorem Wf.len_index (hw : m.Wf A) : m.index.length = m.len := hw.index.length_eq

theorem Wf.len_pos (hw : m.Wf A) : 0 < m.len ↔ ∃ tx, m.Has A tx := by
  rw [← length_txs, length_pos_iff_exists_mem]
  exact exists_congr fun _ => hw.mem_txs

theorem wf_new : (new : SortedMap Tx).Wf A where
  keyed := nofun
  index := List.Perm.refl _
  heap := by
    intro p c _ _ hc
    exact absurd hc (Nat.not_lt_zero c)

theorem not_has_new : ¬ (new : SortedMap Tx).Has A tx := nofun

theorem Wf.put (hw : m.Wf A) (tx : Tx) : (m.put A tx).Wf A where
  keyed := by
    intro n tx' hget
    by_cases hn : n = A.nonce tx
    · subst hn
      obtain rfl : tx = tx' := by simpa [SortedMap.put, get] using hget
      rfl
    · exact hw.keyed n tx' (by simpa [SortedMap.put, get, AList.lookup_insert_ne hn] using hget)
  index := by
    have hkeys : (m.items.insert (A.nonce tx) tx).keys = A.nonce tx :: m.items.keys.erase (A.nonce tx) :=
      AList.keys_insert m.items
    simp only [SortedMap.put, hkeys]
    split
    · next h =>
      have hnot : A.nonce tx ∉ m.items.keys := AList.lookup_eq_none.mp (Option.isNone_iff_eq_none.mp h)
      rw [erase_of_not_mem hnot]
      exact (Heap.perm_push _ _).trans (hw.index.cons _)
    · next h =>
      have hmem : A.nonce tx ∈ m.items.keys :=
        mem_keys_iff.mpr (Option.ne_none_iff_exists'.mp fun hnone => h (by rw [hnone]; rfl))
      exact hw.index.trans (perm_cons_erase hmem)
  heap := by
    unfold SortedMap.put
    split
    · exact hw.heap.push nonceLess_lawful _
    · exact hw.heap

theorem has_put : (m.put A tx).Has A tx' ↔ tx' = tx ∨ m.Has A tx' ∧ A.nonce tx' ≠ A.nonce tx := by
  by_cases hn : A.nonce tx' = A.nonce tx
  · have hget : (m.put A tx).get (A.nonce tx') = some tx := by rw [hn]; exact AList.lookup_insert m.items
    rw [Has, hget]
    simp [hn, eq_comm]
  · have hne : tx' ≠ tx := by
      rintro rfl
      exact hn rfl
    simp [Has, get, SortedMap.put, AList.lookup_insert_ne hn, hn, hne]

namespace Takes

theorem refl (hw : m.Wf A) : Takes A m [] m where
  wf := hw
  nodup := nodup_nil
  mem := nofun
  has := by simp

theorem trans (h : Takes A m out m') (h' : Takes A m' out' m'') : Takes A m (out ++ out') m'' where
  wf := h'.wf
  nodup := by
    refine h.nodup.append h'.nodup ?_
    intro tx hout hout'
    exact ((h.has tx).mp (h'.mem tx hout')).2 hout
  mem := by
    intro tx htx
    rcases mem_append.mp htx with hout | hout'
    · exact h.mem tx hout
    · exact ((h.has tx).mp (h'.mem tx hout')).1
  has := by
    intro tx
    rw [h'.has, h.has, mem_append, not_or, and_assoc]

theorem has_of (h : Takes A m out m') (hhas : m'.Has A tx) : m.Has A tx := ((h.has tx).mp hhas).1

end Takes

/-- Taking one transaction out, with any heap of the nonces that are left. -/
theorem Wf.takes_erase (hw : m.Wf A) (hget : m.get n = some tx) {index : List ℕ}
    (hperm : m.index.Perm (n :: index)) (hheap : Heap.Ordered nonceLess index) :
    Takes A m [tx] ⟨m.items.erase n, index⟩ where
  wf := {
    keyed := fun k tx' hk => hw.keyed k tx' (Map.lookup_erase_some.mp hk).1
    index := by
      have hkeys := AList.keys_erase n m.items
      rw [hkeys]
      have h := (hperm.symm.trans hw.index).erase n
      rwa [erase_cons_head] at h
    heap := hheap }
  nodup := nodup_singleton tx
  mem := by
    intro tx' htx'
    obtain rfl := mem_singleton.mp htx'
    exact hw.has_of_get hget
  has := by
    intro tx'
    have hlook : (⟨m.items.erase n, index⟩ : SortedMap Tx).Has A tx' ↔
        m.Has A tx' ∧ A.nonce tx' ≠ n := Map.lookup_erase_some
    rw [hlook, mem_singleton]
    refine and_congr_right fun hhas => not_congr ?_
    rw [← hw.keyed n tx hget]
    constructor
    · exact hhas.unique (hw.has_of_get hget)
    · rintro rfl
      rfl

theorem Wf.head_le (hw : m.Wf A) {low : ℕ} (hlow : m.index.head? = some low) (h : m.Has A tx) :
    low ≤ A.nonce tx := by
  have hmem : A.nonce tx ∈ m.index := hw.mem_index.mpr ⟨tx, h⟩
  have := hw.heap.head_le nonceLess_lawful hlow hmem
  simpa [nonceLess] using this

/-- What a pop of the index leaves. -/
theorem Wf.takes_pop (hw : m.Wf A) {rest : List ℕ} (hpop : Heap.pop nonceLess m.index = some (n, rest)) :
    m.index.head? = some n ∧ ∃ tx, m.items.lookup n = some tx ∧
      Takes A m [tx] ⟨m.items.erase n, rest⟩ := by
  have hhead := (Heap.perm_pop hpop).1
  obtain ⟨rest', hpop', hperm, hord⟩ := @Heap.pop_spec _ nonceLess _ _ hhead
  obtain rfl : rest' = rest := (Prod.mk.inj (Option.some.inj (hpop'.symm.trans hpop))).2
  obtain ⟨tx, htx⟩ := hw.mem_index.mp (mem_of_head? hhead)
  exact ⟨hhead, tx, htx, hw.takes_erase htx hperm (hord nonceLess_lawful hw.heap)⟩

theorem no_items_of_pop (hw : m.Wf A) (hpop : Heap.pop nonceLess m.index = none) : ¬ m.Has A tx := by
  intro hhas
  have hmem : A.nonce tx ∈ m.index := hw.mem_index.mpr ⟨tx, hhas⟩
  obtain ⟨low, hlow⟩ : ∃ low, m.index.head? = some low := by
    cases hi : m.index with
    | nil => rw [hi] at hmem; exact absurd hmem not_mem_nil
    | cons low rest => exact ⟨low, rfl⟩
  obtain ⟨rest, hsome, -, -⟩ := @Heap.pop_spec _ nonceLess _ _ hlow
  exact nomatch hpop.symm.trans hsome

/-- What `Forward` takes out and leaves. -/
theorem forward_spec (hw : m.Wf A) (threshold : ℕ) :
    Takes A m (m.forward threshold).1 (m.forward threshold).2 ∧
      ∀ tx, (m.forward threshold).2.Has A tx ↔ m.Has A tx ∧ threshold ≤ A.nonce tx := by
  fun_induction forward m threshold with
  | case1 m hpop =>
    exact ⟨Takes.refl hw, fun tx => (and_iff_left_of_imp fun h => absurd h (no_items_of_pop hw hpop)).symm⟩
  | case2 m nonce rest hpop hlt r ih =>
    obtain ⟨-, tx, htx, htakes⟩ := hw.takes_pop hpop
    obtain ⟨hrest, hleft⟩ := ih htakes.wf
    rw [htx]
    refine ⟨htakes.trans hrest, fun tx' => (hleft tx').trans (and_congr_left fun hle => ?_)⟩
    rw [htakes.has, and_iff_left_iff_imp, mem_singleton]
    rintro - rfl
    have := hw.keyed nonce tx' htx
    omega
  | case3 m nonce rest hpop hge =>
    obtain ⟨hhead, -⟩ := hw.takes_pop hpop
    refine ⟨Takes.refl hw, fun tx => (and_iff_left_of_imp fun htx => ?_).symm⟩
    have := hw.head_le hhead htx
    omega

theorem wf_reheap (keyed : ∀ n tx, m.get n = some tx → A.nonce tx = n) : m.reheap.Wf A where
  keyed := keyed
  index := Heap.perm_init _
  heap := Heap.ordered_init nonceLess_lawful _

/-- The transactions `filter` takes out and leaves, the index apart. -/
theorem Wf.filterItems (hw : m.Wf A) (drop : Tx → Bool) :
    (∀ tx, tx ∈ (m.filterItems drop).1 ↔ m.Has A tx ∧ drop tx = true) ∧
      (∀ tx, (m.filterItems drop).2.Has A tx ↔ m.Has A tx ∧ drop tx = false) ∧
      ∀ n tx, (m.filterItems drop).2.get n = some tx → A.nonce tx = n := by
  have hget (n : ℕ) (tx : Tx) : (m.filterItems drop).2.get n = some tx ↔
      m.get n = some tx ∧ drop tx = false := by
    refine (Map.lookup_filterVals (m := m.items)).trans ?_
    simp [get]
  refine ⟨?_, fun tx => hget _ tx, ?_⟩
  · intro tx
    rw [SortedMap.filterItems, mem_filter, hw.mem_txs]
  · intro n tx h
    exact hw.keyed n tx ((hget n tx).mp h).1

theorem Wf.takes_filterItems (hw : m.Wf A) (drop : Tx → Bool) :
    Takes A m (m.filterItems drop).1 (m.filterItems drop).2.reheap := by
  obtain ⟨hout, hleft, hkeyed⟩ := hw.filterItems drop
  refine ⟨wf_reheap hkeyed, hw.nodup_txs.filter _, fun tx htx => ((hout tx).mp htx).1, ?_⟩
  intro tx
  refine (hleft tx).trans ?_
  rw [hout]
  refine and_congr_right fun hhas => ?_
  simp [hhas]

theorem filterItems_of_nil {drop : Tx → Bool} (h : (m.filterItems drop).1 = []) :
    (m.filterItems drop).2 = m := by
  have hkeep : (m.items.filterVals fun tx => !drop tx) = m.items := by
    apply Map.filterVals_of_forall
    intro e he
    have hnot := filter_eq_nil_iff.mp h e.2 (mem_map_of_mem he)
    simpa using hnot
  rw [filterItems, hkeep]

section
variable (hw : m.Wf A)
include hw

theorem filter_spec (drop : Tx → Bool) : Takes A m (m.filter drop).1 (m.filter drop).2 ∧
      (∀ tx ∈ (m.filter drop).1, drop tx = true) ∧
      ∀ tx, (m.filter drop).2.Has A tx → drop tx = false := by
  obtain ⟨hout, hleft, -⟩ := hw.filterItems drop
  have htakes := hw.takes_filterItems drop
  unfold filter
  dsimp only
  split
  · exact ⟨htakes, fun tx htx => ((hout tx).mp htx).2, fun tx htx => ((hleft tx).mp htx).2⟩
  next hlen =>
  have hnil : (m.filterItems drop).1 = [] := eq_nil_of_length_eq_zero (by omega)
  rw [filterItems_of_nil hnil] at hleft ⊢
  rw [hnil]
  exact ⟨Takes.refl hw, nofun, fun tx htx => ((hleft tx).mp htx).2⟩

theorem remove_spec (tx : Tx) : (m.remove (A.nonce tx) = (false, m) ∧ m.get (A.nonce tx) = none) ∨
      ∃ old m', m.remove (A.nonce tx) = (true, m') ∧ A.nonce old = A.nonce tx ∧ Takes A m [old] m' := by
  unfold remove
  cases hget : m.items.lookup (A.nonce tx) with
  | none => exact .inl ⟨rfl, hget⟩
  | some old =>
    right
    have hmem : A.nonce tx ∈ m.index := hw.mem_index.mpr ⟨old, hget⟩
    have hat := getElem?_eq_some_iff.mpr ⟨idxOf_lt_length_of_mem hmem, getElem_idxOf _⟩
    obtain ⟨hperm, hord⟩ := @Heap.remove_spec _ nonceLess _ _ _ hat
    refine ⟨old, _, rfl, hw.keyed _ old hget, ?_⟩
    rw [if_pos hmem]
    exact hw.takes_erase hget hperm (hord nonceLess_lawful hw.heap)

/-- The nonces of `cap` are split between what goes out and what stays. -/
theorem Wf.cap_spec (threshold : ℕ) : Takes A m (m.cap threshold).1 (m.cap threshold).2 ∧
      (m.cap threshold).2.len = min threshold m.len ∧
      ∀ tx ∈ (m.cap threshold).1, ∀ tx', (m.cap threshold).2.Has A tx' → A.nonce tx' < A.nonce tx := by
  unfold cap
  split
  · next hle => exact ⟨Takes.refl hw, (min_eq_right hle).symm, nofun⟩
  next hgt =>
  set index := m.index.mergeSort with hindex
  set high := (index.drop threshold).reverse with hhigh
  have hsort : index.Perm m.index := mergeSort_perm _ _
  have hsplit : index = index.take threshold ++ index.drop threshold := (take_append_drop _ _).symm
  have hnodup : index.Nodup := (hsort.trans hw.index).nodup_iff.mpr m.items.keys_nodup
  have hlen : index.length = m.len := hsort.length_eq.trans hw.len_index
  have hlt : ∀ low ∈ index.take threshold, ∀ n ∈ index.drop threshold, low < n := by
    have hsorted : index.Pairwise (· < ·) := by
      have hle : index.Pairwise (fun a b => decide (a ≤ b) = true) :=
        pairwise_mergeSort (by simpa using fun a b c => le_trans) (by simpa using le_total) _
      refine (hle.and hnodup).imp ?_
      rintro a b ⟨hab, hne⟩
      have := of_decide_eq_true hab
      omega
    rw [hsplit, pairwise_append] at hsorted
    exact hsorted.2.2
  have hmem_high (n : ℕ) : n ∈ high ↔ n ∈ index.drop threshold := mem_reverse
  have hmem (n : ℕ) : (∃ tx, m.get n = some tx) ↔ n ∈ index.take threshold ∨ n ∈ high := by
    rw [← hw.mem_index, ← hsort.mem_iff, hmem_high, ← mem_append, ← hsplit]
  have hdisj : ∀ n ∈ index.take threshold, n ∉ high := by
    intro n hlow hn
    exact absurd (hlt n hlow n ((hmem_high n).mp hn)) (lt_irrefl n)
  have hget (n : ℕ) (tx : Tx) : (m.items.deleteAll high).lookup n = some tx ↔ m.get n = some tx ∧ n ∉ high :=
    Map.lookup_deleteAll
  have hout (tx : Tx) : tx ∈ high.filterMap m.items.lookup ↔ m.Has A tx ∧ A.nonce tx ∈ high := by
    rw [mem_filterMap]
    constructor
    · rintro ⟨n, hn, htx⟩
      have hk : A.nonce tx = n := hw.keyed n tx htx
      exact ⟨hw.has_of_get htx, hk ▸ hn⟩
    · rintro ⟨htx, hn⟩
      exact ⟨A.nonce tx, hn, htx⟩
  have htakes : Takes A m (high.filterMap m.items.lookup)
      ⟨m.items.deleteAll high, Heap.init nonceLess (index.take threshold)⟩ := by
    refine ⟨⟨?_, ?_, Heap.ordered_init nonceLess_lawful _⟩, ?_, fun tx htx => ((hout tx).mp htx).1, ?_⟩
    · intro n tx htx
      exact hw.keyed n tx ((hget n tx).mp htx).1
    · refine (Heap.perm_init _).trans ?_
      refine (perm_ext_iff_of_nodup (hnodup.sublist (take_sublist _ _)) (AList.keys_nodup _)).mpr ?_
      intro n
      have hkey : n ∈ (m.items.deleteAll high).keys ↔ n ∈ m.items.keys ∧ n ∉ high := Map.mem_deleteAll
      rw [hkey, mem_keys_iff, hmem]
      constructor
      · intro hlow
        exact ⟨.inl hlow, hdisj n hlow⟩
      · rintro ⟨hlow | hn, hnot⟩
        · exact hlow
        · exact absurd hn hnot
    · refine List.Nodup.filterMap ?_ (nodup_reverse.mpr (hnodup.sublist (drop_sublist _ _)))
      intro n n' tx h h'
      rw [← hw.keyed n tx h, ← hw.keyed n' tx h']
    · intro tx
      rw [hout, Has, SortedMap.get, hget]
      refine and_congr_right fun hhas => ?_
      simp [Has, hhas]
  refine ⟨htakes, ?_, ?_⟩
  · have hleft := htakes.wf.len_index
    rw [← hleft, (Heap.perm_init _).length_eq, length_take, hlen]
  · intro tx htx tx' htx'
    have hin : A.nonce tx ∈ high := ((hout tx).mp htx).2
    obtain ⟨hhas, hnot⟩ := (hget _ tx').mp htx'
    have hlow := ((hmem _).mp ⟨tx', hhas⟩).resolve_right hnot
    exact hlt _ hlow _ ((hmem_high _).mp hin)

/-- What `Ready` takes out: consecutive nonces from the one it starts at, and the next
one is missing. -/
theorem readyFrom_spec {next : ℕ} (hlow : ∀ tx, m.Has A tx → next ≤ A.nonce tx) :
    Takes A m (m.readyFrom next).1 (m.readyFrom next).2 ∧
      (m.readyFrom next).1.map A.nonce = range' next (m.readyFrom next).1.length ∧
      m.get (next + (m.readyFrom next).1.length) = none := by
  fun_induction readyFrom m next with
  | case1 m next hpop =>
    refine ⟨Takes.refl hw, rfl, ?_⟩
    cases hget : m.get (next + 0) with
    | none => rfl
    | some tx => exact absurd (hw.has_of_get hget) (no_items_of_pop hw hpop)
  | case2 m next rest hpop r ih =>
    obtain ⟨-, tx, htx, htakes⟩ := hw.takes_pop hpop
    have hnonce : A.nonce tx = next := hw.keyed next tx htx
    have habove : ∀ tx', (⟨m.items.erase next, rest⟩ : SortedMap Tx).Has A tx' → next + 1 ≤ A.nonce tx' := by
      intro tx' htx'
      obtain ⟨hhas, hne⟩ := (htakes.has tx').mp htx'
      have hle := hlow tx' hhas
      rcases Nat.eq_or_lt_of_le hle with heq | hlt
      · refine absurd ?_ hne
        exact mem_singleton.mpr (hhas.unique (htakes.mem tx mem_cons_self) (heq.symm.trans hnonce.symm))
      · exact hlt
    obtain ⟨hrest, hrange, hend⟩ := ih htakes.wf habove
    rw [htx]
    refine ⟨htakes.trans hrest, ?_, ?_⟩
    · rw [Option.toList_some, singleton_append, map_cons, length_cons, range'_succ, hnonce, hrange]
    · have hne : next + (tx :: r.1).length ≠ next := by
        rw [length_cons]
        omega
      have hsame : (m.items.erase next).lookup (next + (tx :: r.1).length) =
          m.items.lookup (next + (tx :: r.1).length) := AList.lookup_erase_ne hne
      rw [Option.toList_some, singleton_append, SortedMap.get, ← hsame, length_cons,
        add_comm r.1.length 1, ← add_assoc]
      exact hend
  | case3 m next nonce rest hpop hne =>
    obtain ⟨hhead, -⟩ := hw.takes_pop hpop
    refine ⟨Takes.refl hw, rfl, ?_⟩
    cases hget : m.get (next + 0) with
    | none => rfl
    | some tx =>
      have hhas := hw.has_of_get hget
      have hnonce : A.nonce tx = next := hw.keyed next tx hget
      obtain ⟨tx', htx'⟩ := hw.mem_index.mp (mem_of_head? hhead)
      have := hw.head_le hhead hhas
      have := hlow tx' (hw.has_of_get htx')
      have := hw.keyed nonce tx' htx'
      omega

/-- Either nothing is ready, and all nonces are above `start`, or the lowest nonces
are, up to the first gap. -/
theorem ready_spec (start : ℕ) : Takes A m (m.ready start).1 (m.ready start).2 ∧
      (((m.ready start).1 = [] ∧ ∀ tx, m.Has A tx → start < A.nonce tx) ∨
        ∃ low, low ≤ start ∧ (∃ tx, m.Has A tx ∧ A.nonce tx = low) ∧ (∀ tx, m.Has A tx → low ≤ A.nonce tx) ∧
          (m.ready start).1.map A.nonce = range' low (m.ready start).1.length ∧
          m.get (low + (m.ready start).1.length) = none) := by
  unfold ready
  cases hhead : m.index.head? with
  | none =>
    refine ⟨Takes.refl hw, .inl ⟨rfl, ?_⟩⟩
    intro tx htx
    have hmem : A.nonce tx ∈ m.index := hw.mem_index.mpr ⟨tx, htx⟩
    rw [head?_eq_none_iff.mp hhead] at hmem
    exact absurd hmem not_mem_nil
  | some low =>
    have hlow : ∀ tx, m.Has A tx → low ≤ A.nonce tx := fun tx htx => hw.head_le hhead htx
    obtain ⟨first, hfirst⟩ := hw.mem_index.mp (mem_of_head? hhead)
    dsimp only
    split
    · next hgt => exact ⟨Takes.refl hw, .inl ⟨rfl, fun tx htx => lt_of_lt_of_le hgt (hlow tx htx)⟩⟩
    · obtain ⟨htakes, hrange, hend⟩ := readyFrom_spec hw hlow
      exact ⟨htakes, .inr ⟨low, by omega, ⟨first, hw.has_of_get hfirst, hw.keyed low first hfirst⟩,
        hlow, hrange, hend⟩⟩

theorem Wf.mem_flatten : tx ∈ m.flatten A ↔ m.Has A tx := by
  rw [flatten, mem_mergeSort, hw.mem_txs]

theorem Wf.nodup_flatten : (m.flatten A).Nodup :=
  (mergeSort_perm m.txs _).nodup_iff.mpr hw.nodup_txs

/-- `LastElement` has the highest nonce. -/
theorem Wf.lastElement (h : m.Has A tx) :
    ∃ last, m.lastElement A = some last ∧ m.Has A last ∧ ∀ tx', m.Has A tx' → A.nonce tx' ≤ A.nonce last := by
  have hne : m.flatten A ≠ [] := ne_nil_of_mem (hw.mem_flatten.mpr h)
  obtain ⟨front, last, hfront⟩ := eq_nil_or_concat (m.flatten A) |>.resolve_left hne
  have hsorted : (m.flatten A).Pairwise fun a b => decide (A.nonce a ≤ A.nonce b) = true :=
    pairwise_mergeSort (by simpa using fun a b c => le_trans)
      (by simpa using fun a b => le_total (A.nonce a) (A.nonce b)) m.txs
  have hmem : last ∈ m.flatten A := by rw [hfront]; simp
  refine ⟨last, by rw [SortedMap.lastElement, hfront]; simp, hw.mem_flatten.mp hmem, ?_⟩
  intro tx' htx'
  have hin := hw.mem_flatten.mpr htx'
  rw [hfront, concat_eq_append] at hsorted hin
  rcases mem_append.mp hin with hin | hin
  · have := (pairwise_append.mp hsorted).2.2 tx' hin last mem_cons_self
    exact of_decide_eq_true this
  · rw [mem_singleton.mp hin]

end

end SortedMap

end Dexit.TxPool
