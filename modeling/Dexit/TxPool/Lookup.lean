import Mathlib.Algebra.Order.BigOperators.Group.List
import Mathlib.Algebra.Order.Group.Nat
import Dexit.TxPool.SortedMap

/-!
# All transactions of the pool, and their prices

`txLookup` (core/tx_pool.go) and `txPricedList` (core/tx_list.go). The lookup maps
hashes to transactions; since a transaction is its hash here, its two maps are sets.
The priced list is a heap of remote transactions that is cleaned up late: it keeps
entries of transactions that have left the lookup, and it has a second entry for one
that has come back.
-/

namespace Dexit.TxPool

open Go List AList

variable {Addr Tx : Type} (A : Attrs Addr Tx)

/-- `txSlotSize`. -/
def txSlotSize : ℕ := 32 * 1024

/-- `numSlots`. -/
def Attrs.numSlots (tx : Tx) : ℕ := (A.size tx + txSlotSize - 1) / txSlotSize

/-- The slots that some transactions take. -/
def Attrs.slotsOf (txs : List Tx) : ℕ := (txs.map A.numSlots).sum

/-- `txLookup`. -/
structure Lookup (Tx : Type) where
  slots : ℤ
  locals : StructSet Tx
  remotes : StructSet Tx

namespace Lookup

def new : Lookup Tx := ⟨0, ∅, ∅⟩

def Has (t : Lookup Tx) (tx : Tx) : Prop := tx ∈ t.locals ∨ tx ∈ t.remotes

def count (t : Lookup Tx) : ℕ := t.locals.keys.length + t.remotes.keys.length

/-- All transactions. -/
def txs (t : Lookup Tx) : List Tx := t.locals.keys ++ t.remotes.keys

/-- No transaction is both local and remote, and `slots` counts the slots of all. -/
structure Wf (t : Lookup Tx) : Prop where
  apart : ∀ tx ∈ t.locals, tx ∉ t.remotes
  slots : t.slots = A.slotsOf t.txs

variable {A}

section Members
variable {t t' : Lookup Tx} {tx : Tx}

theorem mem_txs : tx ∈ t.txs ↔ t.Has tx := mem_append

theorem length_txs : t.txs.length = t.count := length_append

theorem Wf.nodup_txs (hw : t.Wf A) : t.txs.Nodup :=
  t.locals.keys_nodup.append t.remotes.keys_nodup fun {tx} hl hr => hw.apart tx hl hr

theorem slotsOf_perm {xs ys : List Tx} (h : xs.Perm ys) : A.slotsOf xs = A.slotsOf ys :=
  (h.map A.numSlots).sum_eq

theorem slotsOf_cons (tx : Tx) (xs : List Tx) : A.slotsOf (tx :: xs) = A.numSlots tx + A.slotsOf xs := by
  rfl

theorem slotsOf_append (xs ys : List Tx) : A.slotsOf (xs ++ ys) = A.slotsOf xs + A.slotsOf ys := by
  rw [Attrs.slotsOf, map_append, sum_append]
  rfl

theorem slotsOf_le {xs ys : List Tx} (hnodup : xs.Nodup) (hsub : ∀ tx ∈ xs, tx ∈ ys) :
    A.slotsOf xs ≤ A.slotsOf ys := by
  obtain ⟨zs, hperm, hsub⟩ := subperm_of_subset hnodup hsub
  rw [← slotsOf_perm hperm]
  exact (hsub.map A.numSlots).sum_le_sum (by simp)

theorem wf_new : (new : Lookup Tx).Wf A := ⟨nofun, rfl⟩

/-- The same transactions take the same slots. -/
theorem Wf.of_perm (hw : t.Wf A) (xs : List Tx) (apart : ∀ tx ∈ t'.locals, tx ∉ t'.remotes)
    (hperm : (xs ++ t'.txs).Perm t.txs) (hslots : t'.slots + A.slotsOf xs = t.slots) : t'.Wf A where
  apart := apart
  slots := by
    have hsum := slotsOf_perm (A := A) hperm
    rw [slotsOf_append] at hsum
    have := hw.slots
    omega

/-- A lookup that has lost some transactions has lost their slots. -/
theorem Wf.slots_le (hw : t.Wf A) (hw' : t'.Wf A) (hsub : ∀ tx, t'.Has tx → t.Has tx) {gone : List Tx}
    (hnodup : gone.Nodup) (hgone : ∀ tx ∈ gone, t.Has tx ∧ ¬ t'.Has tx) :
    t'.slots + A.slotsOf gone ≤ t.slots := by
  have hle : A.slotsOf (t'.txs ++ gone) ≤ A.slotsOf t.txs := by
    refine slotsOf_le ?_ ?_
    · exact hw'.nodup_txs.append hnodup fun {tx} h hg => (hgone tx hg).2 (mem_txs.mp h)
    · intro tx htx
      rcases mem_append.mp htx with h | h
      · exact mem_txs.mpr (hsub tx (mem_txs.mp h))
      · exact mem_txs.mpr (hgone tx h).1
  rw [slotsOf_append] at hle
  have := hw.slots
  have := hw'.slots
  omega

/-- A lookup that has lost transactions takes no more slots. -/
theorem Wf.slots_mono (hw : t.Wf A) (hw' : t'.Wf A)
    (hsub : ∀ tx, t'.Has tx → t.Has tx) : t'.slots ≤ t.slots := by
  have h := hw.slots_le hw' hsub nodup_nil nofun
  simpa [Attrs.slotsOf] using h

/-- One more transaction takes its slots at most. -/
theorem Wf.slots_grow (hw : t.Wf A) (hw' : t'.Wf A)
    (hsub : ∀ t₁, t'.Has t₁ → t₁ = tx ∨ t.Has t₁) : t'.slots ≤ t.slots + A.numSlots tx := by
  have hle : A.slotsOf t'.txs ≤ A.slotsOf (tx :: t.txs) := by
    refine slotsOf_le hw'.nodup_txs ?_
    intro t₁ ht₁
    rcases hsub t₁ (mem_txs.mp ht₁) with rfl | h
    · exact mem_cons_self
    · exact mem_cons_of_mem _ (mem_txs.mpr h)
  rw [slotsOf_cons] at hle
  have := hw.slots
  have := hw'.slots
  omega

end Members

variable [DecidableEq Tx]

instance Has.decidable (t : Lookup Tx) (tx : Tx) : Decidable (t.Has tx) :=
  inferInstanceAs (Decidable (_ ∨ _))

variable (A)

def add (t : Lookup Tx) (tx : Tx) (isLocal : Bool) : Lookup Tx :=
  let t := { t with slots := t.slots + A.numSlots tx }
  if isLocal then { t with locals := t.locals.insert tx () }
  else { t with remotes := t.remotes.insert tx () }

def remove (t : Lookup Tx) (tx : Tx) : Lookup Tx :=
  if t.Has tx then ⟨t.slots - A.numSlots tx, t.locals.erase tx, t.remotes.erase tx⟩ else t

def removeAll (t : Lookup Tx) (txs : List Tx) : Lookup Tx := txs.foldl (fun t tx => t.remove A tx) t

/-- `RemoteToLocals`: the number of transactions that were moved. -/
def remoteToLocals (t : Lookup Tx) (isLocal : Tx → Bool) : ℕ × Lookup Tx :=
  let moved := t.remotes.keys.filter isLocal
  (moved.length,
    { t with locals := t.locals.addAll moved, remotes := t.remotes.deleteAll moved })

variable {A} {t t' : Lookup Tx} {tx tx' : Tx}

theorem has_add {isLocal : Bool} : (t.add A tx isLocal).Has tx' ↔ tx' = tx ∨ t.Has tx' := by
  cases isLocal <;> simp [Has, add, mem_insert] <;> tauto

theorem Wf.add (hw : t.Wf A) (hnew : ¬ t.Has tx) (isLocal : Bool) : (t.add A tx isLocal).Wf A := by
  have hl : tx ∉ t.locals := fun h => hnew (.inl h)
  have hr : tx ∉ t.remotes := fun h => hnew (.inr h)
  have hkeysl : (t.locals.insert tx ()).keys = tx :: t.locals.keys := by
    rw [keys_insert, erase_of_not_mem hl]
  have hkeysr : (t.remotes.insert tx ()).keys = tx :: t.remotes.keys := by
    rw [keys_insert, erase_of_not_mem hr]
  have hslots := hw.slots
  cases isLocal with
  | true =>
    refine ⟨?_, ?_⟩
    · intro tx' htx'
      rcases (mem_insert _).mp htx' with rfl | h
      · exact hr
      · exact hw.apart tx' h
    · change t.slots + A.numSlots tx = A.slotsOf ((t.locals.insert tx ()).keys ++ t.remotes.keys)
      rw [hkeysl, hslots, cons_append, slotsOf_cons]
      change (A.slotsOf t.txs : ℤ) + _ = ((A.numSlots tx + A.slotsOf t.txs : ℕ) : ℤ)
      omega
  | false =>
    refine ⟨?_, ?_⟩
    · intro tx' hl' htx'
      rcases (mem_insert _).mp htx' with rfl | h
      · exact hl hl'
      · exact hw.apart tx' hl' h
    · change t.slots + A.numSlots tx = A.slotsOf (t.locals.keys ++ (t.remotes.insert tx ()).keys)
      rw [hkeysr, hslots, slotsOf_perm perm_middle, slotsOf_cons]
      change (A.slotsOf t.txs : ℤ) + _ = ((A.numSlots tx + A.slotsOf t.txs : ℕ) : ℤ)
      omega

theorem has_remove : (t.remove A tx).Has tx' ↔ t.Has tx' ∧ tx' ≠ tx := by
  unfold remove
  split
  · simp [Has, mem_erase]
    tauto
  next h =>
  constructor
  · intro htx'
    refine ⟨htx', ?_⟩
    rintro rfl
    exact h htx'
  · exact And.left

theorem Wf.remove (hw : t.Wf A) (tx : Tx) : (t.remove A tx).Wf A := by
  have hhas (tx' : Tx) : (t.remove A tx).Has tx' ↔ t.Has tx' ∧ tx' ≠ tx := has_remove
  by_cases h : t.Has tx
  · rw [Lookup.remove, if_pos h] at hhas ⊢
    have hapart : ∀ tx' ∈ t.locals.erase tx, tx' ∉ t.remotes.erase tx := by
      intro tx' hl hr
      exact hw.apart tx' (mem_erase.mp hl).2 (mem_erase.mp hr).2
    refine hw.of_perm [tx] hapart ?_ ?_
    · refine (perm_ext_iff_of_nodup ?_ hw.nodup_txs).mpr ?_
      · refine nodup_cons.mpr ⟨fun hmem => ((hhas tx).mp (mem_txs.mp hmem)).2 rfl, ?_⟩
        exact (keys_nodup _).append (keys_nodup _) fun {tx'} hl hr => hapart tx' hl hr
      · intro tx'
        rw [singleton_append, mem_cons, mem_txs, mem_txs, hhas]
        constructor
        · rintro (rfl | ⟨h', -⟩)
          · exact h
          · exact h'
        · intro h'
          by_cases heq : tx' = tx
          · exact .inl heq
          · exact .inr ⟨h', heq⟩
    · have hone := slotsOf_cons (A := A) tx []
      have hnil : A.slotsOf [] = 0 := rfl
      dsimp only
      omega
  · rw [Lookup.remove, if_neg h]
    exact hw

theorem has_removeAll {txs : List Tx} : (t.removeAll A txs).Has tx ↔ t.Has tx ∧ tx ∉ txs := by
  induction txs generalizing t with
  | nil => simp [removeAll]
  | cons y ys ih =>
    change (removeAll A (t.remove A y) ys).Has tx ↔ _
    rw [ih, has_remove, mem_cons]
    tauto

theorem Wf.removeAll (hw : t.Wf A) (txs : List Tx) : (t.removeAll A txs).Wf A := by
  induction txs generalizing t with
  | nil => exact hw
  | cons y ys ih => exact ih (hw.remove y)

theorem has_remoteToLocals {isLocal : Tx → Bool} :
    (t.remoteToLocals isLocal).2.Has tx ↔ t.Has tx := by
  rw [Has, remoteToLocals, StructSet.mem_addAll, Map.mem_deleteAll, Has]
  constructor
  · rintro ((hmoved | hlocal) | ⟨hremote, -⟩)
    · exact .inr (mem_filter.mp hmoved).1
    · exact .inl hlocal
    · exact .inr hremote
  · rintro (hlocal | hremote)
    · exact .inl (.inr hlocal)
    · by_cases hmoved : tx ∈ t.remotes.keys.filter isLocal
      · exact .inl (.inl hmoved)
      · exact .inr ⟨hremote, hmoved⟩

theorem Wf.remoteToLocals (hw : t.Wf A) (isLocal : Tx → Bool) : (t.remoteToLocals isLocal).2.Wf A := by
  have hapart : ∀ tx ∈ (t.remoteToLocals isLocal).2.locals, tx ∉ (t.remoteToLocals isLocal).2.remotes := by
    intro tx hl hr
    obtain ⟨hremote, hnot⟩ := Map.mem_deleteAll.mp hr
    rcases StructSet.mem_addAll.mp hl with hmoved | hlocal
    · exact hnot hmoved
    · exact hw.apart tx hlocal hremote
  refine hw.of_perm [] hapart ?_ (Int.add_zero _)
  refine (perm_ext_iff_of_nodup ?_ hw.nodup_txs).mpr fun tx => ?_
  · exact (keys_nodup _).append (keys_nodup _) fun {tx} hl hr => hapart tx hl hr
  · rw [nil_append, mem_txs, mem_txs, has_remoteToLocals]

end Lookup

/-- `priceHeap.Less`: the cheaper one, or the one with the higher nonce. -/
def Attrs.cheaper (a b : Tx) : Bool :=
  if A.gasPrice a < A.gasPrice b then true
  else if A.gasPrice b < A.gasPrice a then false
  else decide (A.nonce a > A.nonce b)

/-- `txPricedList`, with the lookup it points to as an argument of its methods. -/
structure PricedList (Tx : Type) where
  remotes : List Tx
  stales : ℤ

namespace PricedList

variable [DecidableEq Tx]

def new : PricedList Tx := ⟨[], 0⟩

def put (l : PricedList Tx) (tx : Tx) (isLocal : Bool) : PricedList Tx :=
  if isLocal then l else { l with remotes := Heap.push A.cheaper l.remotes tx }

def reheap (all : Lookup Tx) : PricedList Tx := ⟨Heap.init A.cheaper all.remotes.keys, 0⟩

def removed (l : PricedList Tx) (all : Lookup Tx) (count : ℕ) : PricedList Tx :=
  let l := { l with stales := l.stales + count }
  if l.stales ≤ ((l.remotes.length / 4 : ℕ) : ℤ) then l else reheap A all

/-- `Cap`: the transactions below the threshold. -/
def cap (all : Lookup Tx) (threshold : ℕ) (l : PricedList Tx) : List Tx × PricedList Tx :=
  match _hpop : Heap.pop A.cheaper l.remotes with
  | none => ([], l)
  | some (cheapest, rest) =>
    if cheapest ∉ all.remotes then cap all threshold ⟨rest, l.stales - 1⟩
    else if A.gasPrice cheapest ≥ threshold then ([], l)
    else
      let r := cap all threshold { l with remotes := rest }
      (cheapest :: r.1, r.2)
termination_by l.remotes.length
decreasing_by all_goals exact Heap.length_pop _hpop

/-- The loop of `Underpriced` that drops stale entries. -/
def dropStale (all : Lookup Tx) (l : PricedList Tx) : PricedList Tx :=
  match _hpop : Heap.pop A.cheaper l.remotes with
  | none => l
  | some (head, rest) =>
    if head ∉ all.remotes then dropStale all ⟨rest, l.stales - 1⟩ else l
termination_by l.remotes.length
decreasing_by exact Heap.length_pop _hpop

def underpriced (l : PricedList Tx) (all : Lookup Tx) (tx : Tx) : Bool × PricedList Tx :=
  let l := l.dropStale A all
  match l.remotes.head? with
  | none => (false, l)
  | some cheapest => (decide (A.gasPrice cheapest ≥ A.gasPrice tx), l)

/-- The loop of `Discard`: what is dropped, and the slots that are still wanted. -/
def drop (all : Lookup Tx) (slots : ℤ) (l : PricedList Tx) : List Tx × ℤ × PricedList Tx :=
  if slots > 0 then
    match _hpop : Heap.pop A.cheaper l.remotes with
    | none => ([], slots, l)
    | some (tx, rest) =>
      if tx ∉ all.remotes then drop all slots ⟨rest, l.stales - 1⟩
      else
        let r := drop all (slots - A.numSlots tx) { l with remotes := rest }
        (tx :: r.1, r.2)
  else ([], slots, l)
termination_by l.remotes.length
decreasing_by all_goals exact Heap.length_pop _hpop

/-- `Discard`: `none` where it cannot make enough room. -/
def discard (l : PricedList Tx) (all : Lookup Tx) (slots : ℤ) (force : Bool) :
    Option (List Tx) × PricedList Tx :=
  let r := l.drop A all slots
  if r.2.1 > 0 && !force then
    (none, { r.2.2 with remotes := r.1.foldl (Heap.push A.cheaper) r.2.2.remotes })
  else (some r.1, r.2.2)

variable {A}

theorem dropStale_subperm (all : Lookup Tx) (l : PricedList Tx) :
    (l.dropStale A all).remotes.Subperm l.remotes := by
  fun_induction dropStale A all l with
  | case1 l hpop => exact List.Subperm.refl _
  | case2 l head rest hpop hstale ih =>
    exact ih.trans ((sublist_cons_self head rest).subperm.trans (Heap.perm_pop hpop).2.symm.subperm)
  | case3 l head rest hpop hlive => exact List.Subperm.refl _

/-- What the loop drops is remote, comes from the heap, and counts, entry by entry,
for the slots. -/
theorem drop_spec (all : Lookup Tx) (slots : ℤ) (l : PricedList Tx) :
    let r := l.drop A all slots
    (∀ tx ∈ r.1, tx ∈ all.remotes) ∧ r.1.Subperm l.remotes ∧ r.2.1 + A.slotsOf r.1 = slots := by
  fun_induction drop A all slots l with
  | case1 slots l hpos hpop => exact ⟨nofun, nil_subperm, by simp [Attrs.slotsOf]⟩
  | case2 slots l hpos tx rest hpop hstale ih =>
    obtain ⟨hremote, hsub, hsum⟩ := ih
    exact ⟨hremote, hsub.trans ((sublist_cons_self tx rest).subperm.trans
      (Heap.perm_pop hpop).2.symm.subperm), hsum⟩
  | case3 slots l hpos tx rest hpop hlive r ih =>
    obtain ⟨hremote, hsub, hsum⟩ := ih
    refine ⟨?_, ?_, ?_⟩
    · intro tx' htx'
      rcases mem_cons.mp htx' with rfl | htx'
      · exact not_not.mp hlive
      · exact hremote tx' htx'
    · exact ((subperm_cons tx).mpr hsub).trans (Heap.perm_pop hpop).2.symm.subperm
    · have hrest : r.2.1 + (A.slotsOf r.1 : ℤ) = slots - A.numSlots tx := hsum
      have hcons := Lookup.slotsOf_cons (A := A) tx r.1
      dsimp only
      omega
  | case4 slots l hpos => exact ⟨nofun, nil_subperm, by simp [Attrs.slotsOf]⟩

/-- What an unforced `Discard` returns: remote transactions from the heap, which
together take the slots that were asked for if each entry is counted. -/
theorem discard_spec {all : Lookup Tx} {slots : ℤ} {l l' : PricedList Tx} {dropped : List Tx}
    (h : l.discard A all slots false = (some dropped, l')) :
    (∀ tx ∈ dropped, tx ∈ all.remotes) ∧ dropped.Subperm l.remotes ∧ slots ≤ A.slotsOf dropped := by
  obtain ⟨hremote, hsub, hsum⟩ := drop_spec (A := A) all slots l
  unfold discard at h
  dsimp only at h
  split at h
  · exact nomatch (Prod.mk.inj h).1
  next hle =>
  obtain rfl := Option.some.inj (Prod.mk.inj h).1
  refine ⟨hremote, hsub, ?_⟩
  simp only [Bool.not_false, Bool.and_true, decide_eq_true_eq] at hle
  omega

end PricedList

end Dexit.TxPool
