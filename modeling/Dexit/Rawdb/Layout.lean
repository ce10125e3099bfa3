import Dexit.Rawdb.Table

/-!
# What the files of a table hold

A table stores rows, each an encoded blob with the number of its data file (`Holds`).
Appending adds a row, truncating keeps the first ones, and each row is read back.
-/

namespace Dexit.Rawdb

open Go List Option
open Function

abbrev Rows := List (ℕ × Bytes)

/-- What the file `f` holds of the rows. -/
def content (rows : Rows) (f : ℕ) : Bytes := (rows.filter fun r => r.1 = f).flatMap Prod.snd

/-- The entry of the last row; `first` is the entry that every index starts with. -/
def lastEntry (first : IndexEntry) (rows : Rows) : IndexEntry :=
  match rows.getLast? with
  | none => first
  | some r => ⟨r.1, (content rows r.1).length⟩

/-- The files of the rows are in order. -/
def Ascending (rows : Rows) : Prop := rows.Pairwise fun r s => r.1 ≤ s.1

variable {rows : Rows} {index : Bytes} {e first : IndexEntry} {t : Table} {f i k n : ℕ} {b : Bytes}

@[simp] theorem content_nil (f : ℕ) : content [] f = [] := rfl

theorem content_append (rows rows' : Rows) (f : ℕ) :
    content (rows ++ rows') f = content rows f ++ content rows' f := by
  simp [content]

theorem content_take_drop (rows : Rows) (k f : ℕ) :
    content rows f = content (rows.take k) f ++ content (rows.drop k) f := by
  rw [← content_append, take_append_drop]

theorem content_take_part (rows : Rows) (k f : ℕ) : content (rows.take k) f <+: content rows f :=
  ⟨_, (content_take_drop rows k f).symm⟩

theorem content_eq_nil (h : ∀ r ∈ rows, r.1 ≠ f) : content rows f = [] := by
  rw [content, filter_eq_nil_iff.mpr (by simpa using h)]
  rfl

@[simp] theorem content_single (f g : ℕ) (b : Bytes) : content [(g, b)] f = if g = f then b else [] := by
  by_cases h : g = f <;> simp [content, h]

@[simp] theorem lastEntry_concat (rows : Rows) (r : ℕ × Bytes) :
    lastEntry first (rows ++ [r]) = ⟨r.1, (content (rows ++ [r]) r.1).length⟩ := by
  simp [lastEntry]

/-- The offset of the last entry is the length of its file, where `first` has offset zero. -/
theorem lastEntry_offset (hzero : first.offset = 0) (rows : Rows) :
    (lastEntry first rows).offset = (content rows (lastEntry first rows).filenum).length := by
  rcases rows.eq_nil_or_concat with rfl | ⟨init, r, rfl⟩
  · simpa [lastEntry] using hzero
  · simp

theorem lastEntry_le (hasc : Ascending rows) (hfirst : ∀ r ∈ rows, first.filenum ≤ r.1)
    {r : ℕ × Bytes} (hr : r ∈ rows.drop k) : (lastEntry first (rows.take k)).filenum ≤ r.1 := by
  rcases (rows.take k).eq_nil_or_concat with h | ⟨init, s, h⟩
  · rw [h]
    exact hfirst r (mem_of_mem_drop hr)
  · rw [h, concat_eq_append, lastEntry_concat]
    rw [Ascending, ← take_append_drop k rows, pairwise_append] at hasc
    exact hasc.2.2 s (by rw [h]; simp) r hr

/-- The files before the last one of the first rows hold nothing of the others. -/
theorem content_take_of_lt (hasc : Ascending rows) (hfirst : ∀ r ∈ rows, first.filenum ≤ r.1)
    (hf : f < (lastEntry first (rows.take k)).filenum) : content (rows.take k) f = content rows f := by
  have hnil : content (rows.drop k) f = [] := by
    apply content_eq_nil
    intro r hr
    have := lastEntry_le hasc hfirst hr
    omega
  rw [content_take_drop rows k f, hnil, append_nil]

theorem truncateFreezerFile_le {file : Bytes} (h : n ≤ file.length) : truncateFreezerFile file n = file.take n := by
  rw [truncateFreezerFile, Nat.sub_eq_zero_of_le h, replicate_zero, append_nil]

theorem truncateFreezerFile_part {file : Bytes} (h : b <+: file) : truncateFreezerFile file b.length = b := by
  rw [truncateFreezerFile_le h.length_le, ← prefix_iff_eq_take.mp h]

/-! ## The index -/

@[simp] theorem IndexEntry.length_marshallBinary (e : IndexEntry) : e.marshallBinary.length = 6 := by
  simp [marshallBinary]

theorem IndexEntry.unmarshal_marshall (hf : e.filenum < 2 ^ 16) (ho : e.offset < 2 ^ 32) :
    unmarshalBinary e.marshallBinary = e := by
  have htake : e.marshallBinary.take 2 = BigEndian.toBytes 2 e.filenum := by
    rw [marshallBinary, take_left' (by simp)]
  have hdrop : (e.marshallBinary.drop 2).take 4 = BigEndian.toBytes 4 e.offset := by
    rw [marshallBinary, drop_left' (by simp), take_of_length_le (by simp)]
  rw [unmarshalBinary, htake, hdrop, BigEndian.ofBytes_toBytes, BigEndian.ofBytes_toBytes,
    Nat.mod_eq_of_lt (by omega), Nat.mod_eq_of_lt (by omega)]

theorem readAt_append (h : readAt index k = some e) (bs : Bytes) : readAt (index ++ bs) k = some e := by
  rw [readAt] at h ⊢
  split at h
  · have hlen : 6 ≤ (index.drop (6 * k)).length := by rw [length_drop]; omega
    rw [if_pos (by rw [length_append]; omega), drop_append_of_le_length (by omega),
      take_append_of_le_length hlen, h]
  · cases h

theorem readAt_end (hlen : index.length = 6 * k) (hf : e.filenum < 2 ^ 16) (ho : e.offset < 2 ^ 32) :
    readAt (index ++ e.marshallBinary) k = some e := by
  rw [readAt, if_pos (by simp; omega), drop_left' hlen, take_of_length_le (by simp),
    IndexEntry.unmarshal_marshall hf ho]

theorem readAt_take (h : k < n) (index : Bytes) : readAt (index.take (6 * n)) k = readAt index k := by
  have hsame : ((index.take (6 * n)).drop (6 * k)).take 6 = (index.drop (6 * k)).take 6 := by
    rw [drop_take, take_take, Nat.min_eq_left (by omega)]
  have hle : 6 * (k + 1) ≤ (index.take (6 * n)).length ↔ 6 * (k + 1) ≤ index.length := by
    rw [length_take]
    omega
  simp only [readAt, hsame, hle]

/-- The index file of the rows. -/
structure Indexed (index : Bytes) (first : IndexEntry) (rows : Rows) : Prop where
  size : index.length = 6 * (rows.length + 1)
  first : readAt index 0 = some first
  entry : ∀ i f b, rows[i]? = some (f, b) →
    readAt index (i + 1) = some ⟨f, (content (rows.take (i + 1)) f).length⟩

namespace Indexed

theorem take (h : Indexed index first rows) (hk : k ≤ rows.length) :
    Indexed (index.take (6 * (k + 1))) first (rows.take k) where
  size := by
    have := h.size
    rw [length_take, length_take, Nat.min_eq_left hk]
    omega
  first := by rw [readAt_take (Nat.succ_pos k), h.first]
  entry := by
    intro i f b hi
    rw [getElem?_take] at hi
    split at hi
    · next hik => rw [readAt_take (by omega), h.entry i f b hi, take_take, Nat.min_eq_left hik]
    · cases hi

theorem concat (h : Indexed index first rows) (hf : f < 2 ^ 16)
    (ho : (content (rows ++ [(f, b)]) f).length < 2 ^ 32) :
    Indexed (index ++ IndexEntry.marshallBinary ⟨f, (content (rows ++ [(f, b)]) f).length⟩) first
      (rows ++ [(f, b)]) where
  size := by simp [h.size]; omega
  first := readAt_append h.first _
  entry := by
    intro i g c hi
    rcases Nat.lt_or_ge i rows.length with hlt | hge
    · rw [getElem?_append_left hlt] at hi
      rw [take_append_of_le_length hlt]
      exact readAt_append (h.entry i g c hi) _
    · obtain rfl : i = rows.length := by
        have := (List.getElem?_eq_some_iff.mp hi).1
        simp at this
        omega
      obtain ⟨rfl, rfl⟩ : f = g ∧ b = c := by simpa using hi
      rw [List.take_of_length_le (by simp)]
      exact readAt_end (by rw [h.size]) hf ho

theorem last (h : Indexed index first rows) : readAt index rows.length = some (lastEntry first rows) := by
  rcases rows.eq_nil_or_concat with rfl | ⟨init, r, rfl⟩
  · exact h.first
  · have hget : (init ++ [r])[init.length]? = some (r.1, r.2) := by simp
    rw [concat_eq_append] at h ⊢
    rw [length_append, length_singleton, h.entry _ _ _ hget, lastEntry_concat,
      take_of_length_le (by simp)]

end Indexed

/-! ## The table -/

/-- A table with the rows `rows`. The head may be a new file that no row is in yet. -/
structure Holds (first : IndexEntry) (t : Table) (rows : Rows) : Prop where
  tailId : t.tailId = first.filenum
  itemOffset : t.itemOffset = first.offset
  indexed : Indexed t.index first rows
  ascending : Ascending rows
  within : ∀ r ∈ rows, first.filenum ≤ r.1 ∧ r.1 ≤ t.headId
  tail_le : first.filenum ≤ t.headId
  data : ∀ f, first.filenum ≤ f → f ≤ t.headId → t.data f = some (content rows f)
  files : ∀ f, f ∈ t.files ↔ first.filenum ≤ f ∧ f ≤ t.headId
  headBytes : t.headBytes = (content rows t.headId).length
  items : t.items = first.offset + rows.length
  items_lt : t.items < 2 ^ 64
  headId_lt : t.headId < 2 ^ 16
  small : ∀ f, (content rows f).length < 2 ^ 32

namespace Holds

section
variable (h : Holds first t rows)
include h

theorem rows_le {r s : ℕ × Bytes} {j : ℕ} (hr : rows[i]? = some r)
    (hs : rows[j]? = some s) (hij : i ≤ j) : r.1 ≤ s.1 := by
  obtain ⟨hi, rfl⟩ := List.getElem?_eq_some_iff.mp hr
  obtain ⟨hj, rfl⟩ := List.getElem?_eq_some_iff.mp hs
  rcases Nat.lt_or_eq_of_le hij with hlt | rfl
  · exact pairwise_iff_getElem.mp h.ascending i j hi hj hlt
  · exact le_rfl

/-- A row starts where those before it in its file end. -/
theorem getBounds (hi : rows[i]? = some (f, b)) :
    t.getBounds i = .ok ((content (rows.take i) f).length, (content (rows.take (i + 1)) f).length, f) := by
  rw [Table.getBounds, h.indexed.entry i f b hi]
  cases i with
  | zero => rfl
  | succ j =>
    have hj : j < rows.length := by
      have := (List.getElem?_eq_some_iff.mp hi).1
      omega
    have hg : rows[j]? = some (rows[j].1, rows[j].2) := getElem?_eq_getElem hj
    simp only [Nat.add_one_ne_zero, if_false, h.indexed.entry j _ _ hg]
    by_cases hsame : rows[j].1 = f
    · simp [hsame]
    -- all the rows before are in earlier files
    have hnil : content (rows.take (j + 1)) f = [] := by
      apply content_eq_nil
      intro r hr
      obtain ⟨l, hl, rfl⟩ := getElem_of_mem hr
      rw [length_take] at hl
      have hle := h.rows_le (i := l) (getElem?_eq_getElem (by omega)) hg (by omega)
      have hlast := h.rows_le hg hi (Nat.le_succ j)
      simp only [getElem_take]
      omega
    simp [hsame, hnil]

theorem retrieve (hi : rows[i]? = some (f, b)) : t.retrieve (first.offset + i) = .ok b := by
  have hlt := (List.getElem?_eq_some_iff.mp hi).1
  have hmem := List.mem_of_getElem? hi
  have hitems := h.items
  have htake : content (rows.take (i + 1)) f = content (rows.take i) f ++ b := by
    rw [take_add_one, hi, toList_some, content_append]
    simp
  have hsmall := h.small f
  have hfile := content_take_drop rows (i + 1) f
  rw [htake] at hfile
  rw [hfile, length_append, length_append] at hsmall
  rw [Table.retrieve, h.itemOffset, if_neg (by omega), Nat.add_sub_cancel_left, h.getBounds hi, htake]
  have hopen : f ∈ t.files := (h.files f).mpr (h.within _ hmem)
  obtain ⟨hlo, hhi⟩ := h.within _ hmem
  have hsize : ((content (rows.take i) f ++ b).length + 2 ^ 32 - (content (rows.take i) f).length) % 2 ^ 32 =
      b.length := by
    rw [length_append]
    omega
  simp only [hopen, not_true, if_false, hsize, h.data f hlo hhi, getD_some, hfile,
    append_assoc, drop_left, take_left, if_true]

theorem nextFile (hroom : t.headId + 1 < 2 ^ 16) : Holds first t.nextFile rows := by
  have hid : (t.headId + 1) % 2 ^ 32 = t.headId + 1 := Nat.mod_eq_of_lt (by omega)
  have hnil : content rows (t.headId + 1) = [] := by
    apply content_eq_nil
    intro r hr
    have := (h.within r hr).2
    omega
  have hclosed : t.headId + 1 ∉ t.files := fun hmem => by
    have := ((h.files _).mp hmem).2
    omega
  have htail := h.tail_le
  have hnext : t.nextFile.headId = t.headId + 1 := hid
  exact { h with
    within := fun r hr => by
      have := h.within r hr
      omega
    tail_le := by omega
    data := fun f hlo hhi => by
      simp only [Table.nextFile, hid, hclosed, if_false] at hhi ⊢
      by_cases hf : f = t.headId + 1
      · rw [hf, update_self, hnil]
      · rw [update_of_ne hf, h.data f hlo (by omega)]
    files := fun f => by
      simp only [Table.nextFile, hid, Finset.mem_insert, h.files]
      omega
    headBytes := by rw [hnext, hnil]; rfl
    headId_lt := by omega }

/-- The table after a write that reached the disk. -/
theorem write (hsize : t.headBytes + b.length < 2 ^ 32) (hitems : t.items + 1 < 2 ^ 64) :
    Holds first { t with
      data := update t.data t.headId (some ((t.data t.headId).getD [] ++ b))
      headBytes := t.headBytes + b.length
      index := t.index ++ IndexEntry.marshallBinary ⟨t.headId, t.headBytes + b.length⟩
      items := t.items + 1 } (rows ++ [(t.headId, b)]) := by
  have hcontent (f : ℕ) :
      content (rows ++ [(t.headId, b)]) f = content rows f ++ if t.headId = f then b else [] := by
    rw [content_append, content_single]
  have hoffset : t.headBytes + b.length = (content (rows ++ [(t.headId, b)]) t.headId).length := by
    rw [hcontent, if_pos rfl, length_append, h.headBytes]
  exact { h with
    indexed := by
      rw [hoffset] at hsize ⊢
      exact h.indexed.concat h.headId_lt hsize
    ascending := by
      rw [Ascending, pairwise_append]
      refine ⟨h.ascending, pairwise_singleton _ _, fun r hr s hs => ?_⟩
      rw [mem_singleton.mp hs]
      exact (h.within r hr).2
    within := fun r hr => by
      rcases mem_append.mp hr with hr | hr
      · exact h.within r hr
      · rw [mem_singleton.mp hr]
        exact ⟨h.tail_le, le_rfl⟩
    data := fun f hlo hhi => by
      dsimp only at hhi ⊢
      by_cases hf : f = t.headId
      · rw [hf, update_self, h.data _ h.tail_le le_rfl, hcontent, if_pos rfl, getD_some]
      · rw [update_of_ne hf, h.data f hlo hhi, hcontent, if_neg (Ne.symm hf), append_nil]
    headBytes := hoffset
    items := by
      rw [length_append, length_singleton, h.items]
      rfl
    items_lt := hitems
    small := fun f => by
      by_cases hf : t.headId = f
      · rw [← hf, ← hoffset]
        exact hsize
      · rw [hcontent, if_neg hf, append_nil]
        exact h.small f }

/-- The test for a new file leaves room for the blob in the head. A failed append, where
no byte was written, leaves the rows as they are. -/
theorem append (hb : b.length < 2 ^ 32) (hitems : t.items + 1 < 2 ^ 64)
    (hroom : t.Overflows b.length → t.headId + 1 < 2 ^ 16) {fault : Option Fault}
    (hfault : ∀ n, fault = some (.write n) → n = 0) :
    ((t.append t.items b fault).1 = none ∧
        ∃ f, Holds first (t.append t.items b fault).2 (rows ++ [(f, b)])) ∨
      fault ≠ none ∧ (t.append t.items b fault).1 ≠ none ∧ Holds first (t.append t.items b fault).2 rows := by
  have hhead : t.headBytes < 2 ^ 32 := h.headBytes ▸ h.small t.headId
  rw [Table.append, if_neg (not_not.mpr rfl)]
  simp only [Nat.mod_eq_of_lt hb]
  split
  · next hopen => exact .inr ⟨by simp [hopen.2], by simp, h⟩
  obtain ⟨t', ht', h', hsize, hsame⟩ : ∃ t', (if t.Overflows b.length then t.nextFile else t) = t' ∧
      Holds first t' rows ∧ t'.headBytes + b.length < 2 ^ 32 ∧ t'.items = t.items := by
    refine ⟨_, rfl, ?_⟩
    split
    · next hover => exact ⟨h.nextFile (hroom hover), by simpa [Table.nextFile] using hb, rfl⟩
    · next hfits =>
      rw [Table.Overflows] at hfits
      exact ⟨h, by omega, rfl⟩
  rw [ht']
  have hwrite := h'.write hsize (hsame ▸ hitems)
  rcases fault with _ | _ | n
  · simp only [Nat.mod_eq_of_lt hsize, hsame, Nat.mod_eq_of_lt hitems] at hwrite ⊢
    exact .inl ⟨trivial, _, hwrite⟩
  · simp only [Nat.mod_eq_of_lt hsize, hsame, Nat.mod_eq_of_lt hitems] at hwrite ⊢
    exact .inl ⟨trivial, _, hwrite⟩
  · obtain rfl := hfault n rfl
    refine .inr ⟨by simp, by simp, ?_⟩
    have hfile := h'.data _ h'.tail_le le_rfl
    have hnone : update t'.data t'.headId (some ((t'.data t'.headId).getD [] ++ b.take 0)) = t'.data := by
      rw [hfile, getD_some, take_zero, append_nil, ← hfile, update_eq_self]
    simp only [hnone]
    exact h'

/-! ## Fewer rows -/

theorem lastEntry_le_head (k : ℕ) : first.filenum ≤ (lastEntry first (rows.take k)).filenum ∧
      (lastEntry first (rows.take k)).filenum ≤ t.headId := by
  rcases (rows.take k).eq_nil_or_concat with hnil | ⟨init, r, hr⟩
  · rw [hnil]
    exact ⟨le_rfl, h.tail_le⟩
  · rw [hr, concat_eq_append, lastEntry_concat]
    exact h.within r (mem_of_mem_take (by rw [hr]; simp))

/-- A table whose index ends with the `k`-th row and whose head is cut to it. -/
theorem cut (hzero : first.offset = 0) {t' : Table}
    (htail : t'.tailId = first.filenum) (hoff : t'.itemOffset = first.offset)
    (hidx : Indexed t'.index first (rows.take k))
    (hhead : t'.headId = (lastEntry first (rows.take k)).filenum)
    (hbytes : t'.headBytes = (lastEntry first (rows.take k)).offset)
    (hitems : t'.items = (rows.take k).length)
    (hfiles : ∀ f, f ∈ t'.files ↔ first.filenum ≤ f ∧ f ≤ t'.headId)
    (hdata : ∀ f, first.filenum ≤ f → f < t'.headId → t'.data f = some (content rows f))
    (hlast : t'.data t'.headId = some (content (rows.take k) t'.headId)) : Holds first t' (rows.take k) := by
  have hlo := (h.lastEntry_le_head k).1
  have hhi := (h.lastEntry_le_head k).2
  have hlt := h.headId_lt
  have hasc : Ascending (rows.take k) := h.ascending.sublist (take_sublist k rows)
  exact {
    tailId := htail
    itemOffset := hoff
    indexed := hidx
    ascending := hasc
    within := fun r hr => by
      refine ⟨(h.within r (mem_of_mem_take hr)).1, ?_⟩
      rw [hhead]
      rcases (rows.take k).eq_nil_or_concat with hnil | ⟨init, s, hs⟩
      · rw [hnil] at hr
        cases hr
      rw [hs, concat_eq_append] at hr hasc ⊢
      rw [lastEntry_concat]
      rcases mem_append.mp hr with hr | hr
      · exact (pairwise_append.mp hasc).2.2 r hr s (by simp)
      · rw [mem_singleton.mp hr]
    tail_le := by omega
    data := fun f hf hle => by
      rcases Nat.lt_or_eq_of_le hle with hlt | rfl
      · rw [hdata f hf hlt, content_take_of_lt h.ascending (fun r hr => (h.within r hr).1) (hhead ▸ hlt)]
      · exact hlast
    files := hfiles
    headBytes := by rw [hbytes, hhead, lastEntry_offset hzero]
    items := by rw [hitems, hzero, Nat.zero_add]
    items_lt := by
      have hle : (rows.take k).length ≤ rows.length := (take_sublist k rows).length_le
      have := h.items
      have := h.items_lt
      omega
    headId_lt := by omega
    small := fun f => by
      have := (content_take_part rows k f).length_le
      have := h.small f
      omega }

theorem truncate (hzero : first.offset = 0) (n : ℕ) : Holds first (t.truncate n) (rows.take n) := by
  have hitems := h.items
  rw [Table.truncate]
  split
  · rw [take_of_length_le (by omega)]
    exact h
  have hn : n ≤ rows.length := by omega
  have hindex : truncateFreezerFile t.index (6 * (n + 1)) = t.index.take (6 * (n + 1)) := by
    have := h.indexed.size
    exact truncateFreezerFile_le (by omega)
  have hcut := h.indexed.take hn
  set last := lastEntry first (rows.take n) with hlast
  have hread : IndexEntry.unmarshalBinary (((t.index.take (6 * (n + 1))).drop (6 * n)).take 6) = last := by
    have hread := hcut.last
    rw [length_take, Nat.min_eq_left hn, readAt] at hread
    split at hread
    · exact some.inj hread
    · cases hread
  obtain ⟨hlo, hhi⟩ := h.lastEntry_le_head n
  rw [← hlast] at hlo hhi
  simp only [hindex, hread]
  obtain ⟨t', ht', htail, hoff, hhead, hfiles, hdata⟩ :
      ∃ t', (if last.filenum ≠ t.headId then t.backTo last.filenum else t) = t' ∧
        t'.tailId = first.filenum ∧ t'.itemOffset = first.offset ∧ t'.headId = last.filenum ∧
        (∀ f, f ∈ t'.files ↔ first.filenum ≤ f ∧ f ≤ last.filenum) ∧
        ∀ f, first.filenum ≤ f → f ≤ last.filenum → t'.data f = some (content rows f) := by
    refine ⟨_, rfl, ?_⟩
    split
    · refine ⟨h.tailId, h.itemOffset, rfl, fun f => ?_, fun f hf hle => ?_⟩
      · simp only [Table.backTo, Finset.mem_insert, Finset.mem_filter, h.files]
        omega
      · have hsome := h.data f hf (by omega)
        simp only [Table.backTo, Nat.not_lt.mpr hle, and_false, if_false, Dir.openForAppend]
        by_cases hlf : f = last.filenum
        · rw [← hlf, update_self, hsome, getD_some]
        · rw [update_of_ne hlf, hsome]
    · next hsame =>
      have hsame : last.filenum = t.headId := not_not.mp hsame
      exact ⟨h.tailId, h.itemOffset, hsame.symm, hsame ▸ h.files, fun f hf hle => h.data f hf (by omega)⟩
  rw [ht']
  refine h.cut hzero htail hoff hcut hhead rfl ?_ (hhead ▸ hfiles) ?_ ?_
  · rw [length_take, Nat.min_eq_left hn]
  · intro f hf hlt
    dsimp only [Dir.truncateData] at hlt ⊢
    rw [update_of_ne (by omega), hdata f hf (by omega)]
  · dsimp only [Dir.truncateData]
    rw [update_self, hhead, hdata _ hlo le_rfl, getD_some, lastEntry_offset hzero,
      truncateFreezerFile_part (content_take_part rows n _)]

end

end Holds

end Dexit.Rawdb
