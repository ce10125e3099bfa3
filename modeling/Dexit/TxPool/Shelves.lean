import Dexit.TxPool.Pool

/-!
# Which list a transaction is in

The pool keeps a transaction in one of two maps of lists, and an operation takes some
out of one map before it puts them into the other or drops them from the lookup.
`Shelved` is what holds at every point in between: the transactions of a set `S` are
in the one map, in the other, or among the `loose` ones, each in one place only, and
no two of them have the same sender and nonce.
-/

namespace Dexit.TxPool

open Go List

variable {Addr Tx : Type} [DecidableEq Addr] (A : Attrs Addr Tx)

/-- A transaction is stored under its nonce in the list of its sender. -/
def Stored (m : Map Addr (TxList Tx)) (tx : Tx) : Prop :=
  ∃ l, m.lookup (A.sender tx) = some l ∧ l.Has A tx

/-- Every list holds transactions of its account. -/
structure Shelf (strict : Bool) (m : Map Addr (TxList Tx)) : Prop where
  wf : ∀ addr l, m.lookup addr = some l → l.Wf A addr
  strict : ∀ addr l, m.lookup addr = some l → l.strict = strict

/-- The transactions of `S` are in the lists of `m`, in those of `m'`, or loose. -/
structure Shelved (strict : Bool) (m m' : Map Addr (TxList Tx)) (S : Tx → Prop) (loose : List Tx) :
    Prop where
  left : Shelf A strict m
  right : Shelf A (!strict) m'
  mem : ∀ tx, S tx ↔ Stored A m tx ∨ Stored A m' tx ∨ tx ∈ loose
  unique : ∀ tx tx', S tx → S tx' → A.sender tx = A.sender tx' → A.nonce tx = A.nonce tx' → tx = tx'
  apart : ∀ tx, Stored A m tx → ¬ Stored A m' tx
  left_apart : ∀ tx ∈ loose, ¬ Stored A m tx
  right_apart : ∀ tx ∈ loose, ¬ Stored A m' tx
  nodup : loose.Nodup

variable {A} {strict : Bool} {m m' : Map Addr (TxList Tx)} {S S' : Tx → Prop} {loose loose' out : List Tx}
  {addr : Addr} {l l' : TxList Tx} {tx : Tx}

theorem stored_of_lookup (hl : m.lookup addr = some l) (hs : A.sender tx = addr) :
    Stored A m tx ↔ l.Has A tx := by
  rw [Stored, hs, hl]
  constructor
  · rintro ⟨l', hl', h⟩
    rwa [Option.some.inj hl']
  · exact fun h => ⟨l, rfl, h⟩

theorem not_stored_of_lookup (hl : m.lookup addr = none) (hs : A.sender tx = addr) :
    ¬ Stored A m tx := by
  rintro ⟨l, hl', -⟩
  rw [hs, hl] at hl'
  cases hl'

theorem stored_insert : Stored A (m.insert addr l) tx ↔
    (A.sender tx = addr ∧ l.Has A tx) ∨ (A.sender tx ≠ addr ∧ Stored A m tx) := by
  by_cases hs : A.sender tx = addr
  · rw [stored_of_lookup (AList.lookup_insert m) hs]
    simp [hs]
  · simp [hs, Stored]

theorem stored_erase : Stored A (m.erase addr) tx ↔ A.sender tx ≠ addr ∧ Stored A m tx := by
  by_cases hs : A.sender tx = addr
  · rw [Stored, hs, AList.lookup_erase]
    simp
  · simp [hs, Stored]

theorem not_stored_empty : ¬ Stored A (∅ : Map Addr (TxList Tx)) tx := nofun

/-- No list is empty. -/
def Filled (m : Map Addr (TxList Tx)) : Prop := ∀ addr l, m.lookup addr = some l → l.isEmpty = false

theorem Filled.insert (h : Filled m) (hl : l.isEmpty = false) : Filled (m.insert addr l) := by
  intro a l' hl'
  rcases Map.lookup_insert_some.mp hl' with ⟨-, rfl⟩ | ⟨-, hl'⟩
  · exact hl
  · exact h a l' hl'

namespace Shelf

theorem insert (h : Shelf A strict m) (hw : l.Wf A addr) (hs : l.strict = strict) :
    Shelf A strict (m.insert addr l) where
  wf := by
    intro a l' hl'
    rcases Map.lookup_insert_some.mp hl' with ⟨rfl, rfl⟩ | ⟨-, hl'⟩
    · exact hw
    · exact h.wf a l' hl'
  strict := by
    intro a l' hl'
    rcases Map.lookup_insert_some.mp hl' with ⟨-, rfl⟩ | ⟨-, hl'⟩
    · exact hs
    · exact h.strict a l' hl'

theorem erase (h : Shelf A strict m) (addr : Addr) : Shelf A strict (m.erase addr) where
  wf := fun a l hl => h.wf a l (Map.lookup_erase_some.mp hl).1
  strict := fun a l hl => h.strict a l (Map.lookup_erase_some.mp hl).1

theorem empty : Shelf A strict (∅ : Map Addr (TxList Tx)) := ⟨nofun, nofun⟩

/-- The list of an account, a new one where there is none. -/
theorem getD (h : Shelf A strict m) (addr : Addr) :
    ((m.lookup addr).getD (.new strict)).Wf A addr ∧ ((m.lookup addr).getD (.new strict)).strict = strict ∧
      ∀ tx, A.sender tx = addr → (((m.lookup addr).getD (.new strict)).Has A tx ↔ Stored A m tx) := by
  cases hl : m.lookup addr with
  | none =>
    refine ⟨TxList.wf_new strict, rfl, ?_⟩
    intro tx hs
    refine iff_of_false (TxList.not_has_new strict) ?_
    rintro ⟨l, hl', -⟩
    rw [hs, hl] at hl'
    exact nomatch hl'
  | some l => exact ⟨h.wf addr l hl, h.strict addr l hl, fun tx hs => (stored_of_lookup hl hs).symm⟩

/-- A list that is deleted when it is empty holds the same. -/
theorem unlessEmpty (h : Shelf A strict m) (hw : l.Wf A addr) (hs : l.strict = strict) :
    Shelf A strict (if l.isEmpty then m.erase addr else m.insert addr l) ∧
      ∀ tx, Stored A (if l.isEmpty then m.erase addr else m.insert addr l) tx ↔
        Stored A (m.insert addr l) tx := by
  cases hempty : l.isEmpty with
  | false => exact ⟨h.insert hw hs, fun tx => Iff.rfl⟩
  | true =>
    refine ⟨h.erase addr, ?_⟩
    intro tx
    have hnone := hw.isEmpty_iff.mp hempty tx
    rw [if_pos rfl, stored_erase, stored_insert]
    simp [hnone]

end Shelf

theorem Filled.unlessEmpty (h : ∀ a l', a ≠ addr → m.lookup a = some l' → l'.isEmpty = false) :
    Filled (if l.isEmpty then m.erase addr else m.insert addr l) := by
  intro a l' hl'
  cases hempty : l.isEmpty with
  | true =>
    rw [hempty, if_pos rfl] at hl'
    obtain ⟨hl', hne⟩ := Map.lookup_erase_some.mp hl'
    exact h a l' hne hl'
  | false =>
    rw [hempty, if_neg Bool.false_ne_true] at hl'
    rcases Map.lookup_insert_some.mp hl' with ⟨-, rfl⟩ | ⟨hne, hl'⟩
    · exact hempty
    · exact h a l' hne hl'

namespace Shelved

section
variable (h : Shelved A strict m m' S loose)
include h

theorem swap : Shelved A (!strict) m' m S loose where
  left := h.right
  right := by
    rw [Bool.not_not]
    exact h.left
  mem := by
    intro tx
    rw [h.mem]
    tauto
  unique := h.unique
  apart := fun tx hm' hm => h.apart tx hm hm'
  left_apart := h.right_apart
  right_apart := h.left_apart
  nodup := h.nodup

theorem perm (hperm : loose.Perm loose') : Shelved A strict m m' S loose' :=
  { h with
    mem := by
      intro tx
      rw [h.mem, hperm.mem_iff]
    left_apart := fun tx htx => h.left_apart tx (hperm.mem_iff.mpr htx)
    right_apart := fun tx htx => h.right_apart tx (hperm.mem_iff.mpr htx)
    nodup := hperm.nodup_iff.mp h.nodup }

/-- Only what is stored matters. -/
theorem congr_left {m₂ : Map Addr (TxList Tx)} (hm : Shelf A strict m₂)
    (hstored : ∀ tx, Stored A m₂ tx ↔ Stored A m tx) : Shelved A strict m₂ m' S loose :=
  { h with
    left := hm
    mem := by
      intro tx
      rw [h.mem, hstored]
    apart := fun tx htx => h.apart tx ((hstored tx).mp htx)
    left_apart := fun tx htx hin => h.left_apart tx htx ((hstored tx).mp hin) }

/-- Transactions are taken out of a list. -/
theorem take (hl : m.lookup addr = some l) (ht : TxList.Takes A l out l') :
    Shelved A strict (m.insert addr l') m' S (out ++ loose) ∧
      ∀ tx, Stored A (m.insert addr l') tx ↔ Stored A m tx ∧ tx ∉ out := by
  have hw := h.left.wf addr l hl
  have hout : ∀ tx ∈ out, A.sender tx = addr ∧ Stored A m tx := by
    intro tx htx
    have hs := hw.sender tx (ht.mem htx)
    exact ⟨hs, (stored_of_lookup hl hs).mpr (ht.mem htx)⟩
  have hstored : ∀ tx, Stored A (m.insert addr l') tx ↔ Stored A m tx ∧ tx ∉ out := by
    intro tx
    rw [stored_insert]
    by_cases hs : A.sender tx = addr
    · rw [stored_of_lookup hl hs, ht.has]
      simp [hs]
    · have hnot : tx ∉ out := fun htx => hs (hout tx htx).1
      simp [hs, hnot]
  refine ⟨⟨h.left.insert (ht.wf hw) (ht.strict.trans (h.left.strict addr l hl)), h.right, ?_, h.unique, ?_,
    ?_, ?_, ?_⟩, hstored⟩
  · intro tx
    rw [h.mem, hstored, mem_append]
    by_cases htx : tx ∈ out
    · simp [htx, (hout tx htx).2]
    · simp [htx]
  · intro tx htx
    exact h.apart tx ((hstored tx).mp htx).1
  · intro tx htx hin
    obtain ⟨hin, hnot⟩ := (hstored tx).mp hin
    rcases mem_append.mp htx with htx | htx
    · exact hnot htx
    · exact h.left_apart tx htx hin
  · intro tx htx
    rcases mem_append.mp htx with htx | htx
    · exact h.apart tx (hout tx htx).2
    · exact h.right_apart tx htx
  · refine ht.txs.nodup.append h.nodup ?_
    intro tx htx hloose
    exact h.left_apart tx hloose (hout tx htx).2

end

/-- A loose transaction is put into the list of its sender, whose nonce is free. -/
theorem put (h : Shelved A strict m m' S (tx :: loose)) :
    ((m.lookup (A.sender tx)).getD (.new strict)).txs.get (A.nonce tx) = none ∧
      Shelved A strict (m.insert (A.sender tx) (((m.lookup (A.sender tx)).getD (.new strict)).put A tx)) m' S
        loose ∧
      ∀ tx', Stored A (m.insert (A.sender tx) (((m.lookup (A.sender tx)).getD (.new strict)).put A tx)) tx' ↔
        Stored A m tx' ∨ tx' = tx := by
  obtain ⟨hw, hstrict, hhas⟩ := h.left.getD (A.sender tx)
  have htx : S tx := (h.mem tx).mpr (.inr (.inr mem_cons_self))
  have hfree : ∀ tx', Stored A m tx' → A.sender tx' = A.sender tx → A.nonce tx' ≠ A.nonce tx := by
    intro tx' hin hs hn
    have heq := h.unique tx' tx ((h.mem tx').mpr (.inl hin)) htx hs hn
    exact h.left_apart tx mem_cons_self (heq ▸ hin)
  have hget : ((m.lookup (A.sender tx)).getD (.new strict)).txs.get (A.nonce tx) = none := by
    rw [TxList.get_eq_none_iff hw]
    intro tx' hhas' hn
    have hs := hw.sender tx' hhas'
    exact hfree tx' ((hhas tx' hs).mp hhas') hs hn
  have hstored : ∀ tx',
      Stored A (m.insert (A.sender tx) (((m.lookup (A.sender tx)).getD (.new strict)).put A tx)) tx' ↔
        Stored A m tx' ∨ tx' = tx := by
    intro tx'
    rw [stored_insert, TxList.has_put]
    by_cases hs : A.sender tx' = A.sender tx
    · rw [hhas tx' hs]
      constructor
      · rintro (⟨-, rfl | ⟨hin, -⟩⟩ | ⟨hne, -⟩)
        · exact .inr rfl
        · exact .inl hin
        · exact absurd hs hne
      · rintro (hin | rfl)
        · exact .inl ⟨hs, .inr ⟨hin, hfree tx' hin hs⟩⟩
        · exact .inl ⟨rfl, .inl rfl⟩
    · have hne : tx' ≠ tx := by
        rintro rfl
        exact hs rfl
      simp [hs, hne]
  have hnotin : tx ∉ loose := (nodup_cons.mp h.nodup).1
  refine ⟨hget, ⟨h.left.insert (hw.put rfl) hstrict, h.right, ?_, h.unique, ?_, ?_, ?_, ?_⟩, hstored⟩
  · intro tx'
    rw [h.mem, hstored, mem_cons]
    tauto
  · intro tx' hin
    rcases (hstored tx').mp hin with hin | rfl
    · exact h.apart tx' hin
    · exact h.right_apart tx' mem_cons_self
  · intro tx' htx' hin
    rcases (hstored tx').mp hin with hin | rfl
    · exact h.left_apart tx' (mem_cons_of_mem _ htx') hin
    · exact hnotin htx'
  · intro tx' htx'
    exact h.right_apart tx' (mem_cons_of_mem _ htx')
  · exact (nodup_cons.mp h.nodup).2

/-- Loose transactions are dropped from the set. -/
theorem drop (h : Shelved A strict m m' S (out ++ loose)) (hS : ∀ tx, S' tx ↔ S tx ∧ tx ∉ out) :
    Shelved A strict m m' S' loose where
  left := h.left
  right := h.right
  mem := by
    intro tx
    rw [hS, h.mem, mem_append]
    constructor
    · rintro ⟨hin | hin | hin | hin, hnot⟩
      · exact .inl hin
      · exact .inr (.inl hin)
      · exact absurd hin hnot
      · exact .inr (.inr hin)
    · rintro (hin | hin | hin)
      · exact ⟨.inl hin, fun hout => h.left_apart tx (mem_append_left _ hout) hin⟩
      · exact ⟨.inr (.inl hin), fun hout => h.right_apart tx (mem_append_left _ hout) hin⟩
      · refine ⟨.inr (.inr (.inr hin)), fun hout => ?_⟩
        exact (nodup_append.mp h.nodup).2.2 tx hout tx hin rfl
  unique := fun tx tx' htx htx' => h.unique tx tx' ((hS tx).mp htx).1 ((hS tx').mp htx').1
  apart := h.apart
  left_apart := fun tx htx => h.left_apart tx (mem_append_right _ htx)
  right_apart := fun tx htx => h.right_apart tx (mem_append_right _ htx)
  nodup := (nodup_append.mp h.nodup).2.1

section
variable (h : Shelved A strict m m' S loose)
include h

/-- A new transaction, with a sender and nonce of its own, is loose at first. -/
theorem enter (hnew : ¬ S tx)
    (hfree : ∀ tx', S tx' → A.sender tx' = A.sender tx → A.nonce tx' ≠ A.nonce tx)
    (hS : ∀ tx', S' tx' ↔ tx' = tx ∨ S tx') : Shelved A strict m m' S' (tx :: loose) where
  left := h.left
  right := h.right
  mem := by
    intro tx'
    rw [hS, h.mem, mem_cons]
    tauto
  unique := by
    intro a b ha hb hs hn
    rcases (hS a).mp ha with rfl | ha <;> rcases (hS b).mp hb with rfl | hb
    · rfl
    · exact absurd hn.symm (hfree b hb hs.symm)
    · exact absurd hn (hfree a ha hs)
    · exact h.unique a b ha hb hs hn
  apart := h.apart
  left_apart := by
    intro tx' htx' hin
    rcases mem_cons.mp htx' with rfl | htx'
    · exact hnew ((h.mem tx').mpr (.inl hin))
    · exact h.left_apart tx' htx' hin
  right_apart := by
    intro tx' htx' hin
    rcases mem_cons.mp htx' with rfl | htx'
    · exact hnew ((h.mem tx').mpr (.inr (.inl hin)))
    · exact h.right_apart tx' htx' hin
  nodup := nodup_cons.mpr ⟨fun hin => hnew ((h.mem tx).mpr (.inr (.inr hin))), h.nodup⟩

/-- A new transaction takes the place of one with the same sender and nonce. -/
theorem replace (hl : m.lookup (A.sender tx) = some l) {old : Tx}
    (hget : l.txs.get (A.nonce tx) = some old) (hnew : ¬ S tx) (hS : ∀ t, S' t ↔ t = tx ∨ S t ∧ t ≠ old) :
    Shelved A strict (m.insert (A.sender tx) (l.put A tx)) m' S' loose ∧
      ∀ t, Stored A (m.insert (A.sender tx) (l.put A tx)) t ↔ t = tx ∨ Stored A m t ∧ t ≠ old := by
  have hw := h.left.wf _ l hl
  have hhas : l.Has A old := hw.txs.has_of_get hget
  have hnonce : A.nonce old = A.nonce tx := hw.txs.keyed _ old hget
  have hsender : A.sender old = A.sender tx := hw.sender old hhas
  have hin : Stored A m old := (stored_of_lookup hl hsender).mpr hhas
  have hold : S old := (h.mem old).mpr (.inl hin)
  have hstored : ∀ t, Stored A (m.insert (A.sender tx) (l.put A tx)) t ↔ t = tx ∨ Stored A m t ∧ t ≠ old := by
    intro t
    rw [stored_insert, TxList.has_put]
    by_cases hs : A.sender t = A.sender tx
    · have hother : l.Has A t → (A.nonce t ≠ A.nonce tx ↔ t ≠ old) := by
        intro ht
        refine not_congr ⟨fun hn => ht.unique hhas (hn.trans hnonce.symm), ?_⟩
        rintro rfl
        exact hnonce
      rw [stored_of_lookup hl hs]
      simp only [hs, true_and, ne_eq, not_true_eq_false, false_and, or_false]
      exact or_congr_right (and_congr_right hother)
    · have hne : t ≠ tx := by
        rintro rfl
        exact hs rfl
      have hne' : t ≠ old := by
        rintro rfl
        exact hs hsender
      simp [hs, hne, hne']
  refine ⟨⟨h.left.insert (hw.put rfl) (h.left.strict _ l hl), h.right, ?_, ?_, ?_, ?_, ?_, h.nodup⟩, hstored⟩
  · intro t
    have hright : Stored A m' t → t ≠ old := by
      rintro ht rfl
      exact h.apart t hin ht
    have hloose : t ∈ loose → t ≠ old := by
      rintro ht rfl
      exact h.left_apart t ht hin
    rw [hS, hstored, h.mem]
    tauto
  · have hfree : ∀ t, S t → t ≠ old → A.sender t = A.sender tx → A.nonce t ≠ A.nonce tx := by
      intro t ht hne hs hn
      exact hne (h.unique t old ht hold (hs.trans hsender.symm) (hn.trans hnonce.symm))
    intro a b ha hb hs hn
    rcases (hS a).mp ha with rfl | ⟨ha, hne⟩ <;> rcases (hS b).mp hb with rfl | ⟨hb, hne'⟩
    · rfl
    · exact absurd hn.symm (hfree b hb hne' hs.symm)
    · exact absurd hn (hfree a ha hne hs)
    · exact h.unique a b ha hb hs hn
  · intro t ht
    rcases (hstored t).mp ht with rfl | ⟨ht, -⟩
    · exact fun ht' => hnew ((h.mem t).mpr (.inr (.inl ht')))
    · exact h.apart t ht
  · intro t ht hin'
    rcases (hstored t).mp hin' with rfl | ⟨hin', -⟩
    · exact hnew ((h.mem t).mpr (.inr (.inr ht)))
    · exact h.left_apart t ht hin'
  · exact h.right_apart

theorem of_iff (hS : ∀ tx, S' tx ↔ S tx) : Shelved A strict m m' S' loose := by
  have hempty : Shelved A strict m m' S ([] ++ loose) := h
  exact hempty.drop fun tx => by simp [hS]

end

end Shelved

end Dexit.TxPool
