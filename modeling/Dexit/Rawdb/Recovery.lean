import Dexit.Rawdb.Layout

/-!
# Reopening a table after a crash

A crash leaves the index file and the head file as parts of what was written. `repair`
finds the longest rows that both still have, unless one to five bytes are left of the
index: those are cut off, and the number of entries minus one wraps around.
-/

namespace Dexit.Rawdb

open Function List Option Table

variable {rows : Rows} {t : Table} {d : Dir} {f k n : ℕ} {c : Codec} {blobs : List Bytes}

/-- The entry that a new index starts with. -/
def zeroEntry : IndexEntry := ⟨0, 0⟩

/-- The data files of a table after a crash: of the head, any part may be left. -/
structure Damaged (t : Table) (rows : Rows) (d : Dir) : Prop where
  intact : ∀ f < t.headId, d.data f = some (content rows f)
  head : ∃ part, d.data t.headId = some part ∧ part <+: content rows t.headId

theorem Damaged.file (h : Damaged t rows d) (hf : f ≤ t.headId) :
    ∃ part, d.data f = some part ∧ part <+: content rows f := by
  rcases Nat.lt_or_eq_of_le hf with hlt | rfl
  · exact ⟨_, h.intact f hlt, prefix_refl _⟩
  · exact h.head

/-- The index and the head file end with the `k`-th row. -/
structure Synced (rows : Rows) (k : ℕ) (d : Dir) : Prop where
  indexed : Indexed d.index zeroEntry (rows.take k)
  before : ∀ f < (lastEntry zeroEntry (rows.take k)).filenum, d.data f = some (content rows f)
  head : d.data (lastEntry zeroEntry (rows.take k)).filenum =
    some (content (rows.take k) (lastEntry zeroEntry (rows.take k)).filenum)

/-- The loop stops at some row, with the head file cut to it. -/
theorem sync_spec (h : Holds zeroEntry t rows) (hd : Damaged t rows d) (hk : k ≤ rows.length)
    (hidx : Indexed d.index zeroEntry (rows.take k)) {fuel : ℕ} (hfuel : k < fuel) :
    ∃ j ≤ k, ∃ d', sync fuel d (lastEntry zeroEntry (rows.take k)) = some (d', lastEntry zeroEntry (rows.take j)) ∧
      Synced rows j d' ∧ (d.data t.headId = some (content rows t.headId) → j = k) := by
  induction fuel generalizing k d with
  | zero => omega
  | succ fuel ih =>
    have hoffset := lastEntry_offset (show zeroEntry.offset = 0 from rfl) (rows.take k)
    have hle := (h.lastEntry_le_head k).2
    set last := lastEntry zeroEntry (rows.take k) with hlast
    obtain ⟨part, hpart, hprefix⟩ := hd.file hle
    have hopen : d.openForAppend last.filenum = d := by
      rw [Dir.openForAppend, hpart, getD_some, ← hpart, update_eq_self]
    have hintact : ∀ f < last.filenum, d.data f = some (content rows f) := fun f hf => hd.intact f (by omega)
    have htaken := content_take_part rows k last.filenum
    simp only [sync, hopen, Dir.fileSize, hpart, getD_some]
    split
    · have hsame := (prefix_of_prefix_length_le htaken hprefix (by omega)).eq_of_length (by omega)
      exact ⟨k, le_rfl, d, rfl, ⟨hidx, hintact, hsame ▸ hpart⟩, fun _ => rfl⟩
    · split
      · have hin := prefix_of_prefix_length_le htaken hprefix (by omega)
        refine ⟨k, le_rfl, _, rfl, ⟨hidx, fun f hf => ?_, ?_⟩, fun _ => rfl⟩
        · dsimp only [Dir.truncateData]
          rw [update_of_ne (Nat.ne_of_lt hf), hintact f hf]
        · dsimp only [Dir.truncateData]
          rw [← hlast, update_self, hpart, getD_some, hoffset, truncateFreezerFile_part hin]
      · have hsize := hidx.size
        rw [length_take, min_eq_left hk] at hsize
        obtain ⟨j, rfl⟩ : ∃ j, k = j + 1 := by
          cases k with
          | zero =>
            have hzero : last.offset = 0 := rfl
            omega
          | succ j => exact ⟨j, rfl⟩
        rw [if_neg (by omega)]
        have hback := hidx.take (k := j) (by rw [length_take]; omega)
        rw [take_take, min_eq_left (Nat.le_succ j)] at hback
        have hlen : d.index.length - 6 = 6 * (j + 1) := by omega
        have hlen' : (d.index.take (6 * (j + 1))).length / 6 - 1 = j := by
          rw [length_take]
          omega
        have hread := hback.last
        rw [length_take, min_eq_left (by omega)] at hread
        rw [hlen, hlen', hread, getD_some]
        obtain ⟨i, hij, d', hrun, hsync, -⟩ :=
          ih (d := { d with index := d.index.take (6 * (j + 1)) }) { hd with } (by omega) hback (by omega)
        refine ⟨i, by omega, d', hrun, hsync, fun hwhole => ?_⟩
        -- nothing is missing in an intact file
        have hfull : part = content rows last.filenum := by
          rcases Nat.lt_or_eq_of_le hle with hlt | heq
          · exact some.inj (hpart.symm.trans (hd.intact _ hlt))
          · exact some.inj (hpart.symm.trans (heq ▸ hwhole))
        have := htaken.length_le
        rw [← hfull] at this
        omega

theorem indexed_zero : Indexed (replicate 6 0) zeroEntry [] :=
  ⟨rfl, by decide, fun i f b hi => by simp at hi⟩

/-- The index that `repair` starts with, where not only a part of the first entry is left. -/
theorem indexed_part (h : Holds zeroEntry t rows) (hn : n = 0 ∨ 6 ≤ n) (hd : d.index = t.index.take n) :
    ∃ k ≤ rows.length, Indexed (if d.index.length = 0 then replicate 6 0
      else d.index.take (d.index.length - d.index.length % 6)) zeroEntry (rows.take k) ∧
      (t.index.length ≤ n → k = rows.length) := by
  have hsize := h.indexed.size
  rw [hd]
  rcases hn with rfl | hn
  · refine ⟨0, Nat.zero_le _, ?_, fun hle => by omega⟩
    exact indexed_zero
  have hlen := length_take (i := n) (l := t.index)
  rw [if_neg (by omega), take_take]
  obtain ⟨k, hk, hcut⟩ : ∃ k ≤ rows.length, min ((t.index.take n).length - (t.index.take n).length % 6) n =
      6 * (k + 1) := ⟨(t.index.take n).length / 6 - 1, by omega, by omega⟩
  refine ⟨k, hk, ?_, fun hle => by omega⟩
  rw [hcut]
  exact h.indexed.take hk

theorem repair_spec (h : Holds zeroEntry t rows) (hn : n = 0 ∨ 6 ≤ n) (hidx : d.index = t.index.take n)
    (hd : Damaged t rows d) (maxFileSize : ℕ) :
    ∃ k ≤ rows.length, ∃ t', Table.repair d maxFileSize = some t' ∧ Holds zeroEntry t' (rows.take k) ∧
      (t.index.length ≤ n → d.data t.headId = some (content rows t.headId) → k = rows.length) := by
  obtain ⟨k, hk, hindex, hwhole⟩ := indexed_part h hn hidx
  rw [repair]
  set index := if d.index.length = 0 then replicate 6 0
    else d.index.take (d.index.length - d.index.length % 6)
  have hsize := hindex.size
  have hlast := hindex.last
  rw [length_take, min_eq_left hk] at hsize hlast
  have hpos : index.length / 6 - 1 = k := by omega
  obtain ⟨j, hjk, d', hrun, hsync, hsame⟩ :=
    sync_spec h (d := { d with index := index }) { hd with } hk hindex
      (show k < index.length / 6 + 2 by omega)
  have hsize' := hsync.indexed.size
  have hlt := h.items_lt
  have hitems := h.items
  simp only [hindex.first, getD_some, hpos, hlast, hrun]
  rw [if_pos fun i hi => by simp [hsync.before i (Finset.mem_Ico.mp hi).2]]
  refine ⟨j, by omega, _, rfl, h.cut rfl rfl rfl hsync.indexed rfl rfl ?_ (fun f => ?_)
    (fun f _ => hsync.before f) hsync.head, fun hle hhead => ?_⟩
  · simp only [zeroEntry, hsize', length_take] at hitems ⊢
    omega
  · simp only [zeroEntry, Finset.mem_insert, Finset.mem_Ico]
    omega
  · rw [hsame hhead, hwhole hle]

/-- An entry with offset zero fits to every file. -/
theorem sync_zero (fuel f : ℕ) (d : Dir) :
    ∃ data, sync (fuel + 1) d ⟨f, 0⟩ = some (⟨d.index, data⟩, ⟨f, 0⟩) := by
  by_cases h : 0 = (d.openForAppend f).fileSize f
  · exact ⟨_, if_pos h⟩
  · exact ⟨_, (if_neg h).trans (if_pos (Nat.pos_of_ne_zero (Ne.symm h)))⟩

variable {maxFileSize item : ℕ} {b : Bytes}

/-- Less than an entry is left of the index: it is cut off, and no entry is left to count. -/
theorem repair_lost (hpos : 0 < d.index.length) (hlt : d.index.length < 6)
    (h : Table.repair d maxFileSize = some t) : t.items = 2 ^ 64 - 1 := by
  have hnil : d.index.length - d.index.length % 6 = 0 := by omega
  have hread (k : ℕ) : readAt [] k = none := by simp [readAt]
  obtain ⟨data, hsync⟩ : ∃ data, sync 2 { d with index := [] } ⟨0, 0⟩ = some (⟨[], data⟩, ⟨0, 0⟩) :=
    sync_zero 1 0 _
  simp only [repair, if_neg (Nat.ne_of_gt hpos), hnil, take_zero, hread, length_nil, getD_none,
    Nat.zero_div, zero_add, hsync] at h
  rw [← some.inj h]
  exact Nat.mod_eq_of_lt (by decide)

/-! ## Blobs -/

/-- A table in an empty directory. -/
def newTable (maxFileSize : ℕ) : Table where
  index := replicate 6 0
  data := update (fun _ => none) 0 (some [])
  maxFileSize := maxFileSize
  items := 0
  itemOffset := 0
  tailId := 0
  headId := 0
  headBytes := 0
  files := insert 0 (Finset.Ico 0 0)

/-- A table, without rows deleted from the tail, that stores `blobs`. -/
def Stores (c : Codec) (t : Table) (blobs : List Bytes) : Prop :=
  ∃ rows, Holds zeroEntry t rows ∧ rows.map Prod.snd = blobs.map c.encode

namespace Stores

section
variable (h : Stores c t blobs)
include h

theorem items : t.items = blobs.length := by
  obtain ⟨rows, h, hrows⟩ := h
  have hlen := congrArg length hrows
  rw [length_map, length_map] at hlen
  rw [h.items, hlen]
  exact zero_add _

variable {b : Bytes}

theorem retrieve {i : ℕ} (hb : blobs[i]? = some b) : t.Retrieve c i = .ok b := by
  obtain ⟨rows, h, hrows⟩ := h
  have hi := congrArg (fun l => l[i]?) hrows
  simp only [getElem?_map, hb, map_some, map_eq_some_iff] at hi
  obtain ⟨⟨f, e⟩, hi, rfl⟩ := hi
  have hread := h.retrieve hi
  rw [show zeroEntry.offset + i = i from zero_add i] at hread
  simp only [Table.Retrieve, hread, c.decode_encode]

theorem append (hb : (c.encode b).length < 2 ^ 32)
    (hitems : t.items + 1 < 2 ^ 64) (hroom : t.Overflows (c.encode b).length → t.headId + 1 < 2 ^ 16) {fault : Option Fault}
    (hfault : ∀ n, fault = some (.write n) → n = 0) :
    ((t.Append c t.items b fault).1 = none ∧ Stores c (t.Append c t.items b fault).2 (blobs ++ [b])) ∨
      fault ≠ none ∧ (t.Append c t.items b fault).1 ≠ none ∧ Stores c (t.Append c t.items b fault).2 blobs := by
  obtain ⟨rows, h, hrows⟩ := h
  rcases h.append hb hitems hroom hfault with ⟨hok, f, hnew⟩ | ⟨hf, herr, hold⟩
  · exact .inl ⟨hok, _, hnew, by simp [hrows]⟩
  · exact .inr ⟨hf, herr, rows, hold, hrows⟩

theorem truncate (n : ℕ) : Stores c (t.truncate n) (blobs.take n) := by
  obtain ⟨rows, h, hrows⟩ := h
  exact ⟨_, h.truncate rfl n, by rw [map_take, hrows, map_take]⟩

theorem reopen (maxFileSize : ℕ) :
    ∃ t', Table.repair t.toDir maxFileSize = some t' ∧ Stores c t' blobs := by
  obtain ⟨rows, h, hrows⟩ := h
  have hhead := h.data _ (Nat.zero_le _) le_rfl
  have hd : Damaged t rows t.toDir :=
    ⟨fun f hf => h.data f (Nat.zero_le _) hf.le, _, hhead, prefix_refl _⟩
  obtain ⟨k, -, t', hrun, hold, hwhole⟩ := repair_spec h (n := t.index.length)
    (.inr (by rw [h.indexed.size]; omega)) (take_length).symm hd maxFileSize
  rw [hwhole le_rfl hhead, take_length] at hold
  exact ⟨t', hrun, rows, hold, hrows⟩

end

theorem create (c : Codec) (maxFileSize : ℕ) :
    Table.repair ⟨[], fun _ => none⟩ maxFileSize = some (newTable maxFileSize) ∧ Stores c (newTable maxFileSize) [] := by
  refine ⟨rfl, [], ?_, rfl⟩
  exact {
    tailId := rfl
    itemOffset := rfl
    indexed := indexed_zero
    ascending := List.Pairwise.nil
    within := by simp
    tail_le := Nat.zero_le _
    data := fun f _ hf => by
      obtain rfl := Nat.le_zero.mp hf
      rfl
    files := fun f => by simp [newTable, zeroEntry]
    headBytes := rfl
    items := rfl
    items_lt := Nat.two_pow_pos 64
    headId_lt := Nat.two_pow_pos 16
    small := by simp }

end Stores

/-! ## Crashes -/

/-- A table that was created empty and filled with `blobs`. -/
inductive Filled (c : Codec) (maxFileSize : ℕ) : Table → List Bytes → Prop
  | create {t : Table} : Table.repair ⟨[], fun _ => none⟩ maxFileSize = some t → Filled c maxFileSize t []
  | append {t t' : Table} {blobs : List Bytes} {item : ℕ} {blob : Bytes} : Filled c maxFileSize t blobs →
      t.Append c item blob none = (none, t') → Filled c maxFileSize t' (blobs ++ [blob])
  | refused {t t' : Table} {blobs : List Bytes} {item : ℕ} {blob : Bytes} {e : Err} :
      Filled c maxFileSize t blobs → t.Append c item blob none = (some e, t') → Filled c maxFileSize t' blobs

/-- The index of an entry has two bytes for the number of a data file. -/
def Table.FewFiles (t : Table) : Prop := ∀ f, t.data f ≠ none → f < 2 ^ 16

/-- What is left on the disk: `n` bytes of the index and `m` bytes of the last data file. -/
def Table.crash (t : Table) (n m : ℕ) : Dir where
  index := t.index.take n
  data := update t.data t.headId ((t.data t.headId).map (take m))

/-- The directory opens as a table with the first ones of the blobs that takes the next one. -/
def Recovers (c : Codec) (maxFileSize : ℕ) (blobs : List Bytes) (d : Dir) : Prop :=
  ∃ t, Table.repair d maxFileSize = some t ∧ t.items ≤ blobs.length ∧
    (∀ i < t.items, ∃ b, blobs[i]? = some b ∧ t.Retrieve c i = .ok b) ∧
    ∀ blob, (t.Append c t.items blob none).1 = none

variable {t' : Table}

/-- Without a fault only a wrong number is refused. -/
theorem append_refused {e : Err} (h : t.append item b none = (some e, t')) : t' = t := by
  rw [append] at h
  split at h
  · exact (Prod.mk.inj h).2.symm
  · simp at h

/-- An accepted blob is the next one. No data file is removed for it, and a new one may be made. -/
theorem append_accepted (h : t.append item b none = (none, t')) :
    item = t.items ∧ (∀ f, t.data f ≠ none → t'.data f ≠ none) ∧
      (t.Overflows (b.length % 2 ^ 32) → t'.data ((t.headId + 1) % 2 ^ 32) ≠ none) := by
  rw [append] at h
  split at h
  · simp at h
  next hitem =>
  simp only [reduceCtorEq, and_false, if_false, Prod.mk.injEq, true_and] at h
  subst h
  refine ⟨(not_not.mp hitem).symm, fun f hf => ?_, fun hover => ?_⟩
  · split <;> simp only [nextFile, update_apply] <;> grind
  · rw [if_pos hover]
    simp [nextFile]

theorem Filled.stores (h : Filled c maxFileSize t blobs)
    (hlen : ∀ b ∈ blobs, (c.encode b).length < 2 ^ 32) (hfiles : t.FewFiles) (hitems : blobs.length < 2 ^ 64) :
    Stores c t blobs := by
  induction h with
  | create hnew =>
    obtain ⟨hrun, hstores⟩ := Stores.create c maxFileSize
    exact some.inj (hrun.symm.trans hnew) ▸ hstores
  | @append t t' blobs item blob _ happ ih =>
    obtain ⟨rfl, hkept, hnext⟩ := append_accepted happ
    rw [length_append, length_singleton] at hitems
    have hstores := ih (fun b hb => hlen b (mem_append_left _ hb)) (fun f hf => hfiles f (hkept f hf)) (by omega)
    have hblob := hlen blob (by simp)
    obtain ⟨rows, hold, -⟩ := id hstores
    have hroom : t.Overflows (c.encode blob).length → t.headId + 1 < 2 ^ 16 := by
      intro hover
      have hlt := hold.headId_lt
      have := hfiles _ (hnext (by rwa [Nat.mod_eq_of_lt hblob]))
      rwa [Nat.mod_eq_of_lt (by omega)] at this
    have hcount := hstores.items
    have hnone : ∀ n, none = some (Fault.write n) → n = 0 := by simp
    rcases hstores.append hblob (by omega) hroom hnone with ⟨-, hnew⟩ | ⟨hf, -⟩
    · rwa [happ] at hnew
    · exact absurd rfl hf
  | refused _ happ ih =>
    rw [append_refused happ] at hfiles ⊢
    exact ih hlen hfiles hitems

/-- A table that was filled, with at most `2 ^ 16` data files, opens after a crash with its
first blobs, unless a part of the first index entry is all that is left of the index. -/
theorem crash_recovery {maxFileSize : ℕ} (h : Filled c maxFileSize t blobs)
    (hlen : ∀ b ∈ blobs, (c.encode b).length < 2 ^ 32) (hfiles : t.FewFiles) (hitems : blobs.length + 1 < 2 ^ 64)
    (n m : ℕ) : Recovers c maxFileSize blobs (t.crash n m) ↔ n = 0 ∨ 6 ≤ n := by
  obtain ⟨rows, hold, hrows⟩ := h.stores hlen hfiles (by omega)
  have hhead := hold.data _ (Nat.zero_le _) le_rfl
  constructor
  · rintro ⟨t', hrun, hle, -⟩
    by_contra hn
    have hsize := hold.indexed.size
    have hlost := repair_lost (d := t.crash n m) (by simp [crash]; omega) (by simp [crash]; omega) hrun
    omega
  · intro hn
    have hd : Damaged t rows (t.crash n m) := by
      refine ⟨fun f hf => ?_, (content rows t.headId).take m, ?_, take_prefix _ _⟩
      · dsimp only [crash]
        rw [update_of_ne (Nat.ne_of_lt hf), hold.data f (Nat.zero_le _) hf.le]
      · dsimp only [crash]
        rw [update_self, hhead, map_some]
    obtain ⟨k, hk, t', hrun, hnew, -⟩ := repair_spec hold hn rfl hd maxFileSize
    have hstores : Stores c t' (blobs.take k) := ⟨_, hnew, by rw [map_take, hrows, map_take]⟩
    have hcount := hstores.items
    rw [length_take] at hcount
    refine ⟨t', hrun, by omega, fun i hi => ?_, fun blob => ?_⟩
    · have hget : (blobs.take k)[i]? = some blobs[i] := by
        rw [getElem?_take_of_lt (by omega), getElem?_eq_getElem]
      exact ⟨_, getElem?_eq_getElem _, hstores.retrieve hget⟩
    · simp [Table.Append, append]

/-- Two blobs in files of at most three bytes. -/
def twoBlobs : Table := (((newTable 3).append 0 [1, 2] none).2.append 1 [3, 4] none).2

theorem crash_recovery_twoBlobs : Recovers .raw 3 [[1, 2], [3, 4]] (twoBlobs.crash 20 1) := by
  have hfirst : (newTable 3).Append .raw 0 [1, 2] none = (none, _) := Prod.ext (by decide) rfl
  have hsecond : ((newTable 3).append 0 [1, 2] none).2.Append .raw 1 [3, 4] none = (none, twoBlobs) :=
    Prod.ext (by decide) rfl
  have hfilled := (Filled.create (Stores.create .raw 3).1).append hfirst |>.append hsecond
  have hfew : twoBlobs.FewFiles := by
    intro f hf
    have hdata : twoBlobs.data f = if f = 1 then some [3, 4] else if f = 0 then some [1, 2] else none := by
      simp [twoBlobs, append, newTable, Table.Overflows, nextFile, update_apply]
    by_contra hlarge
    rw [hdata, if_neg (by omega), if_neg (by omega)] at hf
    exact hf rfl
  exact (crash_recovery hfilled (by decide) hfew (by decide) 20 1).mpr (by decide)

/-- Three bytes of the index are left, and the table opens with `2 ^ 64 - 1` items. -/
theorem torn_entry_wraps_items : ¬ Recovers .raw 3 [[1, 2], [3, 4]] (twoBlobs.crash 3 2) := by
  rintro ⟨t, hrun, hle, -⟩
  rw [repair_lost (by decide) (by decide) hrun] at hle
  exact absurd hle (by decide)

end Dexit.Rawdb
