import Dexit.Rawdb.Recovery

/-!
# Block numbers of a pruned freezer

`freezer` (core/rawdb/freezer.go): five tables whose items are the blocks from `offset`
on. `repair`, which also rolls back a failed append, sets `frozen` to the length of the
tables and forgets the offset, and `TruncateAncients` below the offset wraps around.
-/

namespace Dexit.Rawdb

open Go Function List Option

inductive Kind
  | hashes
  | headers
  | bodies
  | receipts
  | diffs
  deriving DecidableEq

/-- The tables in the order in which a block is appended to them. -/
def kinds : List Kind := [.hashes, .headers, .bodies, .receipts, .diffs]

theorem mem_kinds (k : Kind) : k ∈ kinds := by cases k <;> decide

/-- `FreezerNoSnappy`. -/
def codec (snappy : Codec) : Kind → Codec
  | .hashes | .diffs => .raw
  | .headers | .bodies | .receipts => snappy

inductive FreezerErr
  | readOnly
  | outOrderInsertion
  | table (e : Err)
  deriving DecidableEq

/-- The blobs of a block. -/
abbrev Block := Kind → Bytes

structure Freezer where
  frozen : ℕ
  offset : ℕ
  readonly : Bool
  tables : Kind → Table

namespace Freezer

/-- `repair`. -/
def repair (f : Freezer) : Freezer :=
  let least := kinds.foldl (fun least k => min least (f.tables k).items) (2 ^ 64 - 1)
  { f with
    tables := fun k => (f.tables k).truncate least
    frozen := least }

/-- `newFreezer`, and the offset that `NewFreezerDb` and `NewDatabaseWithFreezer` add. -/
def openAt (dirs : Kind → Dir) (maxFileSize : ℕ) (readonly : Bool) (offset : ℕ) : Option Freezer :=
  if ∃ k ∈ kinds, Table.repair (dirs k) maxFileSize = none then none
  else
    let tables k := (Table.repair (dirs k) maxFileSize).getD (newTable maxFileSize)
    let f := repair ⟨0, 0, readonly, tables⟩
    some { f with offset := offset, frozen := (f.frozen + offset) % 2 ^ 64 }

section
variable (snappy : Codec)

/-- `Ancient`. -/
def ancient (f : Freezer) (kind : Kind) (number : ℕ) : Except Err Bytes :=
  (f.tables kind).Retrieve (codec snappy kind) (sub64 number f.offset)

/-- A block is added to one table after the other until one fails. -/
def appendAll (block : Block) (fault : Kind → Option Fault) : List Kind → Freezer → Option Err × Freezer
  | [], f => (none, f)
  | k :: ks, f =>
    let r := (f.tables k).Append (codec snappy k) (sub64 f.frozen f.offset) (block k) (fault k)
    let f := { f with tables := update f.tables k r.2 }
    match r.1 with
    | some e => (some e, f)
    | none => appendAll block fault ks f

/-- `AppendAncient`. -/
def appendAncient (f : Freezer) (number : ℕ) (block : Block) (fault : Kind → Option Fault) :
    Option FreezerErr × Freezer :=
  if f.readonly then (some .readOnly, f)
  else if f.frozen ≠ number then (some .outOrderInsertion, f)
  else
    let r := f.appendAll snappy block fault kinds
    match r.1 with
    | some e => (some (.table e), r.2.repair)
    | none => (none, { r.2 with frozen := (f.frozen + 1) % 2 ^ 64 })

/-- `TruncateAncients`. -/
def truncateAncients (f : Freezer) (items : ℕ) : Option FreezerErr × Freezer :=
  if f.readonly then (some .readOnly, f)
  else if f.frozen ≤ items then (none, f)
  else (none, { f with
    tables := fun k => (f.tables k).truncate (sub64 items f.offset)
    frozen := items })

/-- The blob fits, a new data file has a number of two bytes, and no counter overflows. Where
a table fails, the freezer starts at block zero and no part of the blob was written. -/
structure Fits (f : Freezer) (block : Block) (fault : Kind → Option Fault) : Prop where
  blob : ∀ k, ((codec snappy k).encode (block k)).length < 2 ^ 32
  file : ∀ k, (f.tables k).Overflows ((codec snappy k).encode (block k)).length →
    (f.tables k).headId + 1 < 2 ^ 16
  number : f.frozen + 1 < 2 ^ 64
  fault : (∀ k, fault k = none) ∨ f.offset = 0 ∧ ∀ k n, fault k = some (.write n) → n = 0

/-- A freezer at `offset` after any operations, and the blocks that should be in it. -/
inductive Run (maxFileSize offset : ℕ) : Freezer → List Block → Prop
  | create {f : Freezer} {readonly : Bool} :
      openAt (fun _ => ⟨[], fun _ => none⟩) maxFileSize readonly offset = some f → Run maxFileSize offset f []
  | append {f f' : Freezer} {blocks : List Block} {number : ℕ} {block : Block} {fault : Kind → Option Fault}
      {err : Option FreezerErr} : Run maxFileSize offset f blocks → Fits snappy f block fault →
      f.appendAncient snappy number block fault = (err, f') →
      Run maxFileSize offset f' (if err = none then blocks ++ [block] else blocks)
  | truncate {f f' : Freezer} {blocks : List Block} {items : ℕ} {err : Option FreezerErr} :
      Run maxFileSize offset f blocks → offset ≤ items → items < 2 ^ 64 → f.truncateAncients items = (err, f') →
      Run maxFileSize offset f' (if err = none then blocks.take (items - offset) else blocks)
  | reopen {f f' : Freezer} {blocks : List Block} {readonly : Bool} : Run maxFileSize offset f blocks →
      openAt (fun k => (f.tables k).toDir) maxFileSize readonly offset = some f' → Run maxFileSize offset f' blocks

/-- The blocks are numbered from `offset` on, and nothing else is found. -/
structure Numbered (offset : ℕ) (f : Freezer) (blocks : List Block) : Prop where
  length : ∀ k, (f.tables k).items = blocks.length
  frozen : f.frozen = offset + blocks.length
  found : ∀ k i b, blocks[i]? = some b → f.ancient snappy k (offset + i) = .ok (b k)
  missing : ∀ k, ∀ n < 2 ^ 64, ¬ (offset ≤ n ∧ n < offset + blocks.length) →
    ∃ e, f.ancient snappy k n = .error e

/-- The five tables store the blocks. -/
structure Inv (offset : ℕ) (f : Freezer) (blocks : List Block) : Prop where
  offset_eq : f.offset = offset
  stores : ∀ k, Stores (codec snappy k) (f.tables k) (blocks.map fun b => b k)
  frozen : f.frozen = offset + blocks.length
  frozen_lt : f.frozen < 2 ^ 64

variable {snappy} {f f' : Freezer} {blocks : List Block} {block : Block} {fault : Kind → Option Fault}
  {maxFileSize offset : ℕ}

theorem Inv.numbered (h : Inv snappy offset f blocks) : Numbered snappy offset f blocks where
  length := fun k => by rw [(h.stores k).items, length_map]
  frozen := h.frozen
  found := by
    intro k i b hb
    have hi := (List.getElem?_eq_some_iff.mp hb).1
    have hlt := h.frozen_lt
    have hfrozen := h.frozen
    have hsub : sub64 (offset + i) f.offset = i := by
      rw [h.offset_eq, sub64_of_le (Nat.le_add_right ..) (by omega), Nat.add_sub_cancel_left]
    rw [ancient, hsub]
    exact (h.stores k).retrieve (by rw [List.getElem?_map, hb, map_some])
  missing := by
    intro k n hn hout
    have hlt := h.frozen_lt
    have hfrozen := h.frozen
    have hsub : blocks.length ≤ sub64 n f.offset := by
      rw [sub64, h.offset_eq]
      omega
    have hitems := (h.stores k).items
    exact ⟨.outOfBounds, by simp [ancient, Table.Retrieve, Table.retrieve, hitems, hsub]⟩

theorem foldl_min (tables : Kind → ℕ) (l : ℕ) (ks : List Kind) (least : ℕ) :
    l ≤ ks.foldl (fun least k => min least (tables k)) least ↔ l ≤ least ∧ ∀ k ∈ ks, l ≤ tables k := by
  induction ks generalizing least with
  | nil => simp
  | cons k ks ih =>
    rw [foldl_cons, ih, forall_mem_cons, le_min_iff, and_assoc]

/-- The tables are as long as the shortest one after `repair`. -/
theorem repair_stores (blocks : List Block) (hlen : blocks.length < 2 ^ 64) (hshort : ∃ k, (f.tables k).items = blocks.length)
    (h : ∀ k, ∃ more, Stores (codec snappy k) (f.tables k) ((blocks ++ more).map fun b => b k)) :
    f.repair.frozen = blocks.length ∧
      ∀ k, Stores (codec snappy k) (f.repair.tables k) (blocks.map fun b => b k) := by
  have hleast : kinds.foldl (fun least k => min least (f.tables k).items) (2 ^ 64 - 1) = blocks.length := by
    apply le_antisymm
    · obtain ⟨k, hk⟩ := hshort
      rw [← hk]
      exact ((foldl_min (fun k => (f.tables k).items) _ kinds _).mp le_rfl).2 k (mem_kinds k)
    · rw [foldl_min fun k => (f.tables k).items]
      refine ⟨by omega, fun k _ => ?_⟩
      obtain ⟨more, hk⟩ := h k
      rw [hk.items]
      simp
  refine ⟨hleast, fun k => ?_⟩
  obtain ⟨more, hk⟩ := h k
  have hcut := hk.truncate blocks.length
  rw [map_append, take_left' (length_map _)] at hcut
  rw [repair, hleast]
  exact hcut

theorem openAt_inv (blocks : List Block) {dirs : Kind → Dir} {readonly : Bool} (hlt : offset + blocks.length < 2 ^ 64)
    (h : ∀ k, ∃ t, Table.repair (dirs k) maxFileSize = some t ∧
      Stores (codec snappy k) t (blocks.map fun b => b k)) :
    ∃ f, openAt dirs maxFileSize readonly offset = some f ∧ Inv snappy offset f blocks := by
  have hnone : ¬ ∃ k ∈ kinds, Table.repair (dirs k) maxFileSize = none := by
    rintro ⟨k, -, hk⟩
    obtain ⟨t, ht, -⟩ := h k
    rw [hk] at ht
    cases ht
  have htables (k : Kind) : Stores (codec snappy k)
      ((Table.repair (dirs k) maxFileSize).getD (newTable maxFileSize)) (blocks.map fun b => b k) := by
    obtain ⟨t, ht, hstores⟩ := h k
    rwa [ht]
  rw [openAt, if_neg hnone]
  obtain ⟨hfrozen, hstores⟩ := repair_stores blocks
    (f := ⟨0, 0, readonly, fun k => (Table.repair (dirs k) maxFileSize).getD (newTable maxFileSize)⟩) (by omega)
    ⟨.hashes, by rw [(htables .hashes).items, length_map]⟩ fun k => ⟨[], by simpa using htables k⟩
  refine ⟨_, rfl, rfl, hstores, ?_, Nat.mod_lt _ (Nat.two_pow_pos 64)⟩
  rw [hfrozen, add_comm, Nat.mod_eq_of_lt hlt]

section
variable (h : Inv snappy offset f blocks)
include h

/-- A block is added to all the tables, or a table fails and those before it have one block more. -/
theorem appendAll_spec (hfits : Fits snappy f block fault)
    (hfault : ∀ k n, fault k = some (.write n) → n = 0) {ks : List Kind} (hks : ks.Nodup)
    (hsame : ∀ k ∈ ks, f'.tables k = f.tables k) (hfrozen : f'.frozen = f.frozen) (hoff : f'.offset = f.offset) :
    ∃ err g, f'.appendAll snappy block fault ks = (err, g) ∧ g.offset = f.offset ∧
      (∀ k ∉ ks, g.tables k = f'.tables k) ∧
      (err = none ∧ (∀ k ∈ ks, Stores (codec snappy k) (g.tables k) ((blocks ++ [block]).map fun b => b k)) ∨
        (∃ k, fault k ≠ none) ∧ err ≠ none ∧
        (∀ k ∈ ks, ∃ more, Stores (codec snappy k) (g.tables k) ((blocks ++ more).map fun b => b k)) ∧
        ∃ k ∈ ks, (g.tables k).items = blocks.length) := by
  induction ks generalizing f' with
  | nil => exact ⟨none, f', rfl, hoff, fun k _ => rfl, .inl ⟨rfl, by simp⟩⟩
  | cons k ks ih =>
    obtain ⟨hk, hks⟩ := nodup_cons.mp hks
    have hother {j : Kind} (hj : j ∈ ks) : j ≠ k := fun hjk => hk (hjk ▸ hj)
    have hitems := (h.stores k).items
    rw [length_map] at hitems
    have hnumber : sub64 f'.frozen f'.offset = (f.tables k).items := by
      have := h.frozen
      have := h.frozen_lt
      rw [hfrozen, hoff, h.offset_eq, hitems, sub64_of_le (by omega) (by omega)]
      omega
    have hadd := (h.stores k).append (hfits.blob k) (by have := h.frozen; have := hfits.number; omega)
      (hfits.file k) (hfault k)
    rw [appendAll]
    simp only [hsame k mem_cons_self, hnumber]
    set r := (f.tables k).Append (codec snappy k) (f.tables k).items (block k) (fault k)
    rcases hadd with ⟨hok, hnew⟩ | ⟨hf, herr, hold⟩
    · simp only [hok]
      have hrest : ∀ j ∈ ks, ({ f' with tables := update f'.tables k r.2 } : Freezer).tables j =
          f.tables j := by
        intro j hj
        rw [← hsame j (mem_cons_of_mem k hj)]
        exact update_of_ne (hother hj) _ _
      obtain ⟨err, g, hrun, hoff', hout, hcases⟩ := ih hks hrest hfrozen hoff
      have hthis : Stores (codec snappy k) (g.tables k) ((blocks ++ [block]).map fun b => b k) := by
        rw [hout k hk, map_append]
        dsimp only
        rw [update_self]
        exact hnew
      refine ⟨err, g, hrun, hoff', fun j hj => ?_, ?_⟩
      · rw [hout j fun hmem => hj (mem_cons_of_mem k hmem)]
        exact update_of_ne (ne_of_not_mem_cons hj) _ _
      · rcases hcases with ⟨hnone, hall⟩ | ⟨hsome, herr, hall, j, hj, hshort⟩
        · exact .inl ⟨hnone, forall_mem_cons.mpr ⟨hthis, hall⟩⟩
        · exact .inr ⟨hsome, herr, forall_mem_cons.mpr ⟨⟨[block], hthis⟩, hall⟩, j,
            mem_cons_of_mem k hj, hshort⟩
    · obtain ⟨e, he⟩ := ne_none_iff_exists'.mp herr
      simp only [he]
      refine ⟨_, _, rfl, hoff, fun j hj => ?_, .inr ⟨⟨k, hf⟩, by simp, ?_, k, mem_cons_self, ?_⟩⟩
      · exact update_of_ne (ne_of_not_mem_cons hj) _ _
      · dsimp only
        refine forall_mem_cons.mpr ⟨⟨[], by simpa using hold⟩, fun j hj => ⟨[], ?_⟩⟩
        rw [update_of_ne (hother hj), hsame j (mem_cons_of_mem k hj), append_nil]
        exact h.stores j
      · dsimp only
        rw [update_self, hold.items, length_map]

theorem Inv.append (hfits : Fits snappy f block fault) (number : ℕ) :
    Inv snappy offset (f.appendAncient snappy number block fault).2
      (if (f.appendAncient snappy number block fault).1 = none then blocks ++ [block] else blocks) := by
  have hzero : ∀ k n, fault k = some (.write n) → n = 0 := by
    rcases hfits.fault with hnone | ⟨-, hzero⟩
    · simp [hnone]
    · exact hzero
  obtain ⟨err, g, hrun, hoff, -, hcases⟩ :=
    appendAll_spec h hfits hzero (by decide : kinds.Nodup) (fun _ _ => rfl) rfl rfl
  have hlt := hfits.number
  have hfrozen := h.frozen
  rw [appendAncient, hrun]
  split
  · exact h
  split
  · exact h
  rcases hcases with ⟨rfl, hall⟩ | ⟨⟨k, hk⟩, herr, hall, j, hj, hshort⟩
  · refine ⟨hoff.trans h.offset_eq, fun k => hall k (mem_kinds k), ?_, Nat.mod_lt _ (Nat.two_pow_pos 64)⟩
    simp only [if_true, length_append, length_singleton]
    omega
  · obtain ⟨e, he⟩ := ne_none_iff_exists'.mp herr
    simp only [he]
    -- the tables are counted from block zero
    obtain ⟨hoffset, -⟩ : f.offset = 0 ∧ _ := hfits.fault.resolve_left fun hnone => hk (hnone k)
    have hoffset : offset = 0 := h.offset_eq.symm.trans hoffset
    obtain ⟨hlen, hstores⟩ := repair_stores blocks (by omega) ⟨j, hshort⟩ fun k => hall k (mem_kinds k)
    exact ⟨hoff.trans h.offset_eq, hstores, by rw [hlen, hoffset, zero_add]; rfl, by omega⟩

theorem Inv.truncate {items : ℕ} (hle : offset ≤ items) (hitems : items < 2 ^ 64) :
    Inv snappy offset (f.truncateAncients items).2
      (if (f.truncateAncients items).1 = none then blocks.take (items - offset) else blocks) := by
  have hfrozen := h.frozen
  rw [truncateAncients]
  split
  · exact h
  split
  · rw [if_pos rfl, take_of_length_le (by omega)]
    exact h
  have hsub : sub64 items f.offset = items - offset := by
    rw [h.offset_eq, sub64_of_le hle hitems]
  simp only [hsub, if_true]
  refine ⟨h.offset_eq, fun k => ?_, ?_, hitems⟩
  · rw [map_take]
    exact (h.stores k).truncate _
  · rw [length_take]
    dsimp only
    omega

end

theorem Run.inv (h : Run snappy maxFileSize offset f blocks) (hoffset : offset < 2 ^ 64) :
    Inv snappy offset f blocks := by
  induction h with
  | create hnew =>
    obtain ⟨f', hrun, hinv⟩ := openAt_inv [] hoffset
      fun k => ⟨_, Stores.create (codec snappy k) maxFileSize⟩
    exact some.inj (hrun.symm.trans hnew) ▸ hinv
  | @append f f' blocks number block fault err _ hfits hrun ih =>
    have hstep := ih.append hfits number
    rwa [hrun] at hstep
  | @truncate f f' blocks items err _ hle hlt hrun ih =>
    have hstep := ih.truncate hle hlt
    rwa [hrun] at hstep
  | reopen _ hrun ih =>
    have hlt := ih.frozen ▸ ih.frozen_lt
    obtain ⟨f', hrun', hinv⟩ := openAt_inv _ hlt fun k => (ih.stores k).reopen maxFileSize
    exact some.inj (hrun'.symm.trans hrun) ▸ hinv

/-- Every state of a run is numbered from the offset on, and can be opened again. -/
theorem ancient_numbering (h : Run snappy maxFileSize offset f blocks) (hoffset : offset < 2 ^ 64) :
    Numbered snappy offset f blocks ∧
      ∀ readonly, ∃ f', openAt (fun k => (f.tables k).toDir) maxFileSize readonly offset = some f' := by
  have hinv := h.inv hoffset
  refine ⟨hinv.numbered, fun readonly => ?_⟩
  have hlt := hinv.frozen ▸ hinv.frozen_lt
  obtain ⟨f', hrun, -⟩ := openAt_inv blocks hlt fun k => (hinv.stores k).reopen maxFileSize
  exact ⟨f', hrun⟩

end

/-- An empty freezer that starts at block five. -/
def pruned : Freezer := ⟨5, 5, false, fun _ => newTable 100⟩

def oneByte (b : UInt8) : Block := fun _ => [b]

/-- A compression that puts a zero in front. -/
def framed : Codec := ⟨(0 :: ·), tail?, fun _ => rfl⟩

theorem openAt_pruned : openAt (fun _ => ⟨[], fun _ => none⟩) 100 false 5 = some pruned := by
  have hnew := (Stores.create .raw 100).1
  have hitems : (newTable 100).items = 0 := rfl
  have hkeep : (newTable 100).truncate 0 = newTable 100 := if_pos le_rfl
  simp [openAt, hnew, repair, kinds, hitems, hkeep, pruned]

def appended (f : Freezer) (number : ℕ) (b : UInt8) : Option FreezerErr × Freezer :=
  f.appendAncient framed number (oneByte b) fun _ => none

/-- Blocks five and six are appended, and six is cut off again. -/
def cutBack : Freezer := ((appended (appended pruned 5 7).2 6 8).2.truncateAncients 6).2

/-- Block five is found when the freezer is opened again. -/
theorem ancient_numbering_pruned : ∃ f, openAt (fun k => (cutBack.tables k).toDir) 100 false 5 = some f ∧
    Numbered framed 5 f [oneByte 7] := by
  have hfits : Fits framed pruned (oneByte 7) fun _ => none :=
    ⟨fun k => by cases k <;> decide, fun k _ => by cases k <;> decide, by decide, .inl fun _ => rfl⟩
  have hfits' : Fits framed (appended pruned 5 7).2 (oneByte 8) fun _ => none :=
    ⟨fun k => by cases k <;> decide, fun k _ => by cases k <;> decide, by decide, .inl fun _ => rfl⟩
  have hfirst : appended pruned 5 7 = (none, _) := Prod.ext (by decide) rfl
  have hsecond : appended (appended pruned 5 7).2 6 8 = (none, _) := Prod.ext (by decide) rfl
  have hcut : (appended (appended pruned 5 7).2 6 8).2.truncateAncients 6 = (none, cutBack) :=
    Prod.ext (by decide) rfl
  have hrun : Run framed 100 5 cutBack [oneByte 7] :=
    (((Run.create openAt_pruned).append hfits hfirst).append hfits' hsecond).truncate (by decide) (by decide) hcut
  obtain ⟨f, hf⟩ := (ancient_numbering hrun (by decide)).2 false
  exact ⟨f, hf, (ancient_numbering (hrun.reopen hf) (by decide)).1⟩

/-- The table of the bodies fails, nothing was written, and `frozen` is zero. -/
theorem failed_append_forgets_offset :
    openAt (fun _ => ⟨[], fun _ => none⟩) 100 false 5 = some pruned ∧ pruned.frozen = 5 ∧
      (pruned.appendAncient .raw 5 (oneByte 7) fun k => if k = .bodies then some (.write 0) else none).1 =
        some (.table .io) ∧
      (pruned.appendAncient .raw 5 (oneByte 7) fun k => if k = .bodies then some (.write 0) else none).2.frozen = 0 :=
  ⟨openAt_pruned, rfl, by decide, by decide⟩

end Freezer

end Dexit.Rawdb
