import Mathlib.Data.List.AList

/-!
# Maps of maps

A map whose values are maps or sets, used as an index: an inner map is made
when its first entry comes in and deleted with its last one.
-/

namespace Go

open List Option AList

/-- A map, with an order of its keys for the loops over it. -/
abbrev Map (κ ν : Type) : Type := AList fun _ : κ => ν

/-- A map to empty structs. -/
abbrev StructSet (κ : Type) : Type := Map κ Unit

section Flat
variable {κ ν : Type} [DecidableEq κ] {xs : List κ} {m : Map κ ν} {k : κ} {v : ν}

/-- Adds the elements of a list to a set, one by one. -/
def StructSet.addAll (s : StructSet κ) (xs : List κ) : StructSet κ :=
  xs.foldl (fun s x => s.insert x ()) s

/-- Deletes the keys of a list, one by one. -/
def Map.deleteAll (m : Map κ ν) (xs : List κ) : Map κ ν :=
  xs.foldl (fun m x => m.erase x) m

theorem StructSet.mem_addAll {s : StructSet κ} {x : κ} : x ∈ s.addAll xs ↔ x ∈ xs ∨ x ∈ s := by
  induction xs generalizing s with
  | nil => simp [addAll]
  | cons y ys ih =>
    have hrest : x ∈ StructSet.addAll (s.insert y ()) ys ↔ x ∈ ys ∨ x ∈ s.insert y () := ih
    rw [mem_insert] at hrest
    change x ∈ StructSet.addAll (s.insert y ()) ys ↔ _
    rw [hrest, mem_cons]
    tauto

theorem Map.lookup_insert_some {k' : κ} {w : ν} :
    (m.insert k v).lookup k' = some w ↔ k' = k ∧ v = w ∨ k' ≠ k ∧ m.lookup k' = some w := by
  by_cases hk : k' = k
  · subst hk
    simp
  · simp [lookup_insert_ne hk, hk]

theorem Map.lookup_erase_some {k' : κ} :
    (m.erase k).lookup k' = some v ↔ m.lookup k' = some v ∧ k' ≠ k := by
  by_cases hk : k' = k
  · subst hk
    simp
  · simp [hk]

theorem Map.erase_insert : (m.insert k v).erase k = m.erase k :=
  AList.ext (kerase_cons_eq rfl)

theorem Map.lookup_deleteAll :
    (m.deleteAll xs).lookup k = some v ↔ m.lookup k = some v ∧ k ∉ xs := by
  induction xs generalizing m with
  | nil => simp [deleteAll]
  | cons y ys ih =>
    have hrest : (Map.deleteAll (m.erase y) ys).lookup k = some v ↔
        (m.erase y).lookup k = some v ∧ k ∉ ys := ih
    rw [Map.lookup_erase_some] at hrest
    change (Map.deleteAll (m.erase y) ys).lookup k = some v ↔ _
    rw [hrest, mem_cons]
    tauto

theorem Map.mem_iff_lookup : k ∈ m ↔ ∃ v, m.lookup k = some v := by
  rw [← lookup_isSome, isSome_iff_exists]

theorem Map.mem_deleteAll : k ∈ m.deleteAll xs ↔ k ∈ m ∧ k ∉ xs := by
  simp only [Map.mem_iff_lookup, Map.lookup_deleteAll]
  tauto

/-- The entries whose values pass a test. -/
def Map.filterVals (m : Map κ ν) (keep : ν → Bool) : Map κ ν where
  entries := m.entries.filter fun e => keep e.2
  nodupKeys := List.NodupKeys.sublist filter_sublist m.nodupKeys

variable {keep : ν → Bool}

theorem Map.lookup_filterVals :
    (m.filterVals keep).lookup k = some v ↔ m.lookup k = some v ∧ keep v = true := by
  have hfilter : (m.filterVals keep).lookup k = some v ↔ ⟨k, v⟩ ∈ (m.filterVals keep).entries :=
    mem_lookup_iff
  have hall : m.lookup k = some v ↔ ⟨k, v⟩ ∈ m.entries := mem_lookup_iff
  rw [hfilter, hall, filterVals, mem_filter]

omit [DecidableEq κ] in
theorem Map.filterVals_of_forall (h : ∀ e ∈ m.entries, keep e.2 = true) : m.filterVals keep = m :=
  ext (filter_eq_self.mpr h)

end Flat

namespace Map

section Nested
variable {κ ι ν : Type} [DecidableEq κ]

/-- `m[k]`, a nil map where there is no entry. -/
def inner (m : Map κ (Map ι ν)) (k : κ) : Map ι ν := (m.lookup k).getD ∅

/-- No inner map is empty. -/
def NoneEmpty (m : Map κ (Map ι ν)) : Prop := ∀ k ∈ m, ∃ i, i ∈ m.inner k

variable {m : Map κ (Map ι ν)} {k k' : κ} {i i' : ι} {v w : ν}

variable {entries : Map ι ν} {is : List ι}

theorem inner_of_lookup (h : m.lookup k = some entries) : m.inner k = entries := by
  rw [inner, h, getD_some]

theorem inner_of_notMem (h : k ∉ m) : m.inner k = ∅ := by
  rw [inner, lookup_eq_none.mpr h, getD_none]

theorem mem_of_mem_inner (h : i ∈ m.inner k) : k ∈ m := by
  by_contra hk
  rw [inner_of_notMem hk] at h
  exact notMem_empty i h

theorem eq_empty_of_no_keys (h : entries.keys.length = 0) : entries = ∅ := by
  apply AList.ext
  have hmap : (entries.entries.map Sigma.fst).length = 0 := h
  rw [length_map] at hmap
  exact eq_nil_of_length_eq_zero hmap

theorem inner_insert (entries : Map ι ν) :
    inner (m.insert k entries) k' = if k' = k then entries else m.inner k' := by
  unfold inner
  split
  · next h => subst h; rw [lookup_insert, getD_some]
  · next h => rw [lookup_insert_ne h]

theorem inner_erase : inner (m.erase k) k' = if k' = k then ∅ else m.inner k' := by
  unfold inner
  split
  · next h => subst h; rw [lookup_erase, getD_none]
  · next h => rw [lookup_erase_ne h]

theorem noneEmpty_empty : NoneEmpty (∅ : Map κ (Map ι ν)) := by
  intro k hk
  exact absurd hk (notMem_empty k)

variable [DecidableEq ι] {xs : List κ}

/-- `m[k][i] = v`, after making `m[k]` where there is none. -/
def put (m : Map κ (Map ι ν)) (k : κ) (i : ι) (v : ν) : Map κ (Map ι ν) :=
  m.insert k ((m.inner k).insert i v)

/-- `delete(m[k], i)`, and `delete(m, k)` where `m[k]` is empty then. -/
def drop (m : Map κ (Map ι ν)) (k : κ) (i : ι) : Map κ (Map ι ν) :=
  match m.lookup k with
  | none => m
  | some entries =>
    if (entries.erase i).keys.length = 0 then m.erase k else m.insert k (entries.erase i)

theorem inner_drop : inner (m.drop k i) k' = if k' = k then (m.inner k).erase i else m.inner k' := by
  unfold drop
  split
  · next h =>
    split
    · next hk =>
      subst hk
      have hnone := inner_of_notMem (lookup_eq_none.mp h)
      rw [hnone]
      rfl
    · rfl
  · next entries h =>
    rw [inner_of_lookup h]
    split
    · next hlen => rw [inner_erase, eq_empty_of_no_keys hlen]
    · rw [inner_insert]

/-! The entries after each operation. -/

theorem lookup_put : (inner (m.put k i v) k').lookup i' = some w ↔
    (k' = k ∧ i' = i ∧ w = v) ∨ (¬ (k' = k ∧ i' = i) ∧ (m.inner k').lookup i' = some w) := by
  rw [put, inner_insert]
  by_cases hk : k' = k
  · subst hk
    by_cases hi : i' = i
    · subst hi
      simp [eq_comm]
    · simp [lookup_insert_ne hi, hi]
  · simp [hk]

theorem mem_put : i' ∈ inner (m.put k i v) k' ↔ (k' = k ∧ i' = i) ∨ i' ∈ m.inner k' := by
  rw [put, inner_insert]
  split
  · next h => subst h; rw [mem_insert]; simp
  · next h => simp [h]

theorem lookup_inner_erase : (inner (m.erase k) k').lookup i = some w ↔
    (m.inner k').lookup i = some w ∧ k' ≠ k := by
  rw [inner_erase]
  split
  · next h => subst h; simp
  · next h => simp [h]

theorem mem_inner_erase : i ∈ inner (m.erase k) k' ↔ i ∈ m.inner k' ∧ k' ≠ k := by
  simp only [mem_iff_lookup, lookup_inner_erase, exists_and_right]

theorem lookup_drop : (inner (m.drop k i) k').lookup i' = some w ↔
    (m.inner k').lookup i' = some w ∧ ¬ (k' = k ∧ i' = i) := by
  rw [inner_drop]
  split
  · next h => subst h; rw [lookup_erase_some]; simp
  · next h => simp [h]

theorem mem_drop : i' ∈ inner (m.drop k i) k' ↔ i' ∈ m.inner k' ∧ ¬ (k' = k ∧ i' = i) := by
  simp only [mem_iff_lookup, lookup_drop, exists_and_right]

/-! No operation leaves an empty inner map behind. -/

theorem NoneEmpty.put (h : NoneEmpty m) : NoneEmpty (m.put k i v) := by
  intro k' hk'
  obtain rfl | hk' := (mem_insert m).mp hk'
  · exact ⟨i, mem_put.mpr (.inl ⟨rfl, rfl⟩)⟩
  · obtain ⟨j, hj⟩ := h k' hk'
    exact ⟨j, mem_put.mpr (.inr hj)⟩

theorem NoneEmpty.erase (h : NoneEmpty m) : NoneEmpty (m.erase k) := by
  intro k' hk'
  obtain ⟨hne, hk'⟩ := mem_erase.mp hk'
  obtain ⟨j, hj⟩ := h k' hk'
  exact ⟨j, mem_inner_erase.mpr ⟨hj, hne⟩⟩

theorem NoneEmpty.drop (h : NoneEmpty m) : NoneEmpty (m.drop k i) := by
  unfold Map.drop
  split
  · exact h
  next entries _ =>
  split
  · exact h.erase
  next hlen =>
  intro k' hk'
  rw [inner_insert]
  split
  · exact exists_mem_of_length_pos (Nat.pos_of_ne_zero hlen)
  · next hne => exact h k' (((mem_insert m).mp hk').resolve_left hne)

/-! Loops that delete from a map of maps. -/

theorem lookup_inner_deleteAll :
    (inner (m.deleteAll xs) k).lookup i = some w ↔ (m.inner k).lookup i = some w ∧ k ∉ xs := by
  induction xs generalizing m with
  | nil => simp [deleteAll]
  | cons y ys ih =>
    have hrest : (inner (deleteAll (m.erase y) ys) k).lookup i = some w ↔
        (inner (m.erase y) k).lookup i = some w ∧ k ∉ ys := ih
    rw [lookup_inner_erase] at hrest
    change (inner (deleteAll (m.erase y) ys) k).lookup i = some w ↔ _
    rw [hrest, mem_cons]
    tauto

theorem mem_inner_deleteAll : i ∈ inner (m.deleteAll xs) k ↔ i ∈ m.inner k ∧ k ∉ xs := by
  simp only [mem_iff_lookup, lookup_inner_deleteAll, exists_and_right]

theorem NoneEmpty.deleteAll (h : NoneEmpty m) : NoneEmpty (m.deleteAll xs) := by
  induction xs generalizing m with
  | nil => exact h
  | cons y ys ih => exact ih h.erase

/-- Deletes an entry from every inner map. -/
def dropEverywhere (m : Map κ (Map ι ν)) (i : ι) : Map κ (Map ι ν) :=
  m.keys.foldl (fun m k => m.drop k i) m

theorem mem_foldl_drop {ks : List κ} :
    i' ∈ inner (ks.foldl (fun m k => m.drop k i) m) k' ↔ i' ∈ m.inner k' ∧ ¬ (k' ∈ ks ∧ i' = i) := by
  induction ks generalizing m with
  | nil => simp
  | cons y ys ih =>
    rw [foldl_cons, ih, mem_drop, mem_cons]
    tauto

theorem mem_dropEverywhere : i' ∈ inner (m.dropEverywhere i) k ↔ i' ∈ m.inner k ∧ i' ≠ i := by
  rw [dropEverywhere, mem_foldl_drop]
  constructor
  · rintro ⟨hi', hnot⟩
    refine ⟨hi', ?_⟩
    intro heq
    exact hnot ⟨mem_of_mem_inner hi', heq⟩
  · rintro ⟨hi', hne⟩
    exact ⟨hi', fun h => hne h.2⟩

theorem mem_dropEach : i' ∈ inner (is.foldl dropEverywhere m) k ↔ i' ∈ m.inner k ∧ i' ∉ is := by
  induction is generalizing m with
  | nil => simp
  | cons y ys ih =>
    rw [foldl_cons, ih, mem_dropEverywhere, mem_cons]
    tauto

theorem NoneEmpty.dropEach (h : NoneEmpty m) : NoneEmpty (is.foldl dropEverywhere m) := by
  have hloop (ks : List κ) (i : ι) {m : Map κ (Map ι ν)} (h : NoneEmpty m) :
      NoneEmpty (ks.foldl (fun m k => m.drop k i) m) := by
    induction ks generalizing m with
    | nil => exact h
    | cons y ys ih => exact ih h.drop
  induction is generalizing m with
  | nil => exact h
  | cons y ys ih => exact ih (hloop m.keys y h)

end Nested

/-! Sets that are collected while their entries are deleted. -/

section Collect
variable {κ ι : Type} [DecidableEq κ] [DecidableEq ι] {ks : List κ} {m : Map κ (StructSet ι)}

/-- Deletes the entries of some keys and collects what they held. -/
def takeAll (m : Map κ (StructSet ι)) (ks : List κ) : Map κ (StructSet ι) × StructSet ι :=
  ks.foldl (fun acc k => (acc.1.erase k, acc.2.addAll (acc.1.inner k).keys)) (m, ∅)

theorem foldl_take {found : StructSet ι} :
    let out := ks.foldl (fun acc k => (acc.1.erase k, acc.2.addAll (acc.1.inner k).keys)) (m, found)
    out.1 = m.deleteAll ks ∧ ∀ i, i ∈ out.2 ↔ i ∈ found ∨ ∃ k ∈ ks, i ∈ m.inner k := by
  induction ks generalizing m found with
  | nil => exact ⟨rfl, fun i => by simp⟩
  | cons y ys ih =>
    have hrest := @ih (m.erase y) (found.addAll (m.inner y).keys)
    refine ⟨hrest.1, ?_⟩
    intro i
    refine (hrest.2 i).trans ?_
    simp only [StructSet.mem_addAll, mem_inner_erase, mem_cons]
    constructor
    · rintro ((hy | hf) | ⟨k, hk, hi, -⟩)
      · exact .inr ⟨y, .inl rfl, mem_keys.mpr hy⟩
      · exact .inl hf
      · exact .inr ⟨k, .inr hk, hi⟩
    · rintro (hf | ⟨k, rfl | hk, hi⟩)
      · exact .inl (.inr hf)
      · exact .inl (.inl (mem_keys.mp hi))
      · by_cases hky : k = y
        · subst hky
          exact .inl (.inl (mem_keys.mp hi))
        · exact .inr ⟨k, hk, hi, hky⟩

theorem takeAll_fst : (m.takeAll ks).1 = m.deleteAll ks := foldl_take.1

theorem mem_takeAll {i : ι} : i ∈ (m.takeAll ks).2 ↔ ∃ k ∈ ks, i ∈ m.inner k := by
  refine (foldl_take.2 i).trans ?_
  simp

end Collect

end Map

end Go
