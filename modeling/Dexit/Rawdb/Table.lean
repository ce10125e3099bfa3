import Mathlib.Order.Interval.Finset.Nat
import Dexit.Go.BigEndian

/-!
# A table of the freezer

`freezerTable` (core/rawdb/freezer_table.go): blobs one after the other in numbered
data files, and an index file with an entry of six bytes for the end of each. Writes
go to the end of a file. A write or the creation of a data file may fail, a write
after any number of its bytes; the other system calls are taken to succeed. The
metrics, the locks and `Close` are left out.
-/

namespace Dexit.Rawdb

open Go
open Function

abbrev Bytes := List UInt8

/-- `indexEntry`. -/
structure IndexEntry where
  filenum : ℕ
  offset : ℕ
  deriving DecidableEq

namespace IndexEntry

def marshallBinary (i : IndexEntry) : Bytes :=
  BigEndian.toBytes 2 i.filenum ++ BigEndian.toBytes 4 i.offset

def unmarshalBinary (b : Bytes) : IndexEntry :=
  ⟨BigEndian.ofBytes (b.take 2), BigEndian.ofBytes ((b.drop 2).take 4)⟩

end IndexEntry

/-- The `k`-th entry of an index file, if the file is long enough. -/
def readAt (index : Bytes) (k : ℕ) : Option IndexEntry :=
  if 6 * (k + 1) ≤ index.length then some (.unmarshalBinary ((index.drop (6 * k)).take 6)) else none

/-- `truncateFreezerFile`. -/
def truncateFreezerFile (file : Bytes) (size : ℕ) : Bytes :=
  file.take size ++ List.replicate (size - file.length) 0

inductive Err
  | unexpectedItem (want got : ℕ)
  | outOfBounds
  | missingFile (num : ℕ)
  | io
  | corrupt
  deriving DecidableEq

/-- How a system call fails: a data file is not opened, or a write stops after `n` bytes. -/
inductive Fault
  | openFile
  | write (n : ℕ)
  deriving DecidableEq

/-- The encoding of the blobs: snappy, or none. -/
structure Codec where
  encode : Bytes → Bytes
  decode : Bytes → Option Bytes
  decode_encode : ∀ b, decode (encode b) = some b

/-- `noCompression`. -/
def Codec.raw : Codec := ⟨id, some, fun _ => rfl⟩

/-- The index file and the data files of a table. -/
structure Dir where
  index : Bytes
  data : ℕ → Option Bytes

/-- A data file is opened, and created where there is none. -/
def Dir.openForAppend (d : Dir) (num : ℕ) : Dir :=
  { d with data := update d.data num (some ((d.data num).getD [])) }

def Dir.fileSize (d : Dir) (num : ℕ) : ℕ := ((d.data num).getD []).length

def Dir.truncateData (d : Dir) (num size : ℕ) : Dir :=
  { d with data := update d.data num (some (truncateFreezerFile ((d.data num).getD []) size)) }

/-- `freezerTable`; `files` are the numbers of the open data files. -/
structure Table extends Dir where
  maxFileSize : ℕ
  items : ℕ
  itemOffset : ℕ
  tailId : ℕ
  headId : ℕ
  headBytes : ℕ
  files : Finset ℕ

/-- The loop of `repair`: the head file is cut to the last entry, or the last entry is
dropped. Every round but the last drops one. -/
def sync : ℕ → Dir → IndexEntry → Option (Dir × IndexEntry)
  | 0, _, _ => none
  | fuel + 1, d, lastIndex =>
    let d := d.openForAppend lastIndex.filenum
    let contentSize := d.fileSize lastIndex.filenum
    if lastIndex.offset = contentSize then some (d, lastIndex)
    else if lastIndex.offset < contentSize then
      some (d.truncateData lastIndex.filenum lastIndex.offset, lastIndex)
    else if d.index.length < 6 then none
    else
      let index := d.index.take (d.index.length - 6)
      -- the buffer keeps the old entry when there is none left to read
      sync fuel { d with index := index } ((readAt index (index.length / 6 - 1)).getD lastIndex)

/-- `repair` and `preopen`. -/
def Table.repair (d : Dir) (maxFileSize : ℕ) : Option Table :=
  let index := if d.index.length = 0 then List.replicate 6 0
    else d.index.take (d.index.length - d.index.length % 6)
  let firstIndex := (readAt index 0).getD ⟨0, 0⟩
  let lastIndex := (readAt index (index.length / 6 - 1)).getD firstIndex
  match sync (index.length / 6 + 2) { d with index := index } lastIndex with
  | none => none
  | some (d, lastIndex) =>
    if ∀ i ∈ Finset.Ico firstIndex.filenum lastIndex.filenum, d.data i ≠ none then
      some { d with
        maxFileSize := maxFileSize
        -- `uint64(offsetsSize/indexEntrySize-1)`
        items := (firstIndex.offset + (d.index.length / 6 + (2 ^ 64 - 1))) % 2 ^ 64
        itemOffset := firstIndex.offset
        tailId := firstIndex.filenum
        headId := lastIndex.filenum
        headBytes := lastIndex.offset
        files := insert lastIndex.filenum (Finset.Ico firstIndex.filenum lastIndex.filenum) }
    else none

namespace Table

/-- A blob of this length goes to a new data file. -/
def Overflows (t : Table) (bLen : ℕ) : Prop :=
  (t.headBytes + bLen) % 2 ^ 32 < bLen ∨ t.maxFileSize < (t.headBytes + bLen) % 2 ^ 32

instance (t : Table) (bLen : ℕ) : Decidable (t.Overflows bLen) := instDecidableOr

/-- The next data file becomes the head. -/
def nextFile (t : Table) : Table :=
  let nextID := (t.headId + 1) % 2 ^ 32
  { t with
    data := update t.data nextID (if nextID ∈ t.files then t.data nextID else some [])
    files := insert nextID (insert t.headId t.files)
    headBytes := 0
    headId := nextID }

/-- `append`, with the second call for a blob that needs a new file. -/
def append (t : Table) (item : ℕ) (encodedBlob : Bytes) (fault : Option Fault) : Option Err × Table :=
  if t.items ≠ item then (some (.unexpectedItem t.items item), t)
  else
    let bLen := encodedBlob.length % 2 ^ 32
    if t.Overflows bLen ∧ fault = some .openFile then (some .io, t)
    else
      let t := if t.Overflows bLen then t.nextFile else t
      let head := (t.data t.headId).getD []
      match fault with
      | some (.write n) =>
        (some .io, { t with data := update t.data t.headId (some (head ++ encodedBlob.take n)) })
      | _ =>
        let newOffset := (t.headBytes + bLen) % 2 ^ 32
        (none, { t with
          data := update t.data t.headId (some (head ++ encodedBlob))
          headBytes := newOffset
          index := t.index ++ IndexEntry.marshallBinary ⟨t.headId, newOffset⟩
          items := (t.items + 1) % 2 ^ 64 })

/-- `Append`. -/
def Append (c : Codec) (t : Table) (item : ℕ) (blob : Bytes) (fault : Option Fault) : Option Err × Table :=
  t.append item (c.encode blob) fault

/-- `getBounds`. -/
def getBounds (t : Table) (item : ℕ) : Except Err (ℕ × ℕ × ℕ) :=
  match readAt t.index (item + 1) with
  | none => .error .io
  | some endIdx =>
    if item = 0 then .ok (0, endIdx.offset, endIdx.filenum)
    else
      match readAt t.index item with
      | none => .error .io
      | some startIdx =>
        -- a blob is in one piece, so a change of files puts it at the start of the second
        if startIdx.filenum ≠ endIdx.filenum then .ok (0, endIdx.offset, endIdx.filenum)
        else .ok (startIdx.offset, endIdx.offset, endIdx.filenum)

/-- `retrieve`. -/
def retrieve (t : Table) (item : ℕ) : Except Err Bytes :=
  if t.items ≤ item ∨ item < t.itemOffset then .error .outOfBounds
  else
    match t.getBounds (item - t.itemOffset) with
    | .error e => .error e
    | .ok (startOffset, endOffset, filenum) =>
      if filenum ∉ t.files then .error (.missingFile filenum)
      else
        let size := (endOffset + 2 ^ 32 - startOffset) % 2 ^ 32
        let blob := (((t.data filenum).getD []).drop startOffset).take size
        if blob.length = size then .ok blob else .error .io

/-- `Retrieve`. -/
def Retrieve (c : Codec) (t : Table) (item : ℕ) : Except Err Bytes :=
  match t.retrieve item with
  | .error e => .error e
  | .ok blob =>
    match c.decode blob with
    | none => .error .corrupt
    | some blob => .ok blob

/-- The head goes back to the file `num`, and the later files are removed. -/
def backTo (t : Table) (num : ℕ) : Table :=
  { t with
    data := fun f => if f ∈ t.files ∧ num < f then none else (t.openForAppend num).data f
    files := insert num (t.files.filter fun f => f ≤ num)
    headId := num }

/-- `truncate`. -/
def truncate (t : Table) (items : ℕ) : Table :=
  if t.items ≤ items then t
  else
    let index := truncateFreezerFile t.index (6 * (items + 1))
    let expected := IndexEntry.unmarshalBinary ((index.drop (6 * items)).take 6)
    let t := if expected.filenum ≠ t.headId then t.backTo expected.filenum else t
    { t with
      index := index
      data := (t.truncateData t.headId expected.offset).data
      items := items
      headBytes := expected.offset }

end Table

end Dexit.Rawdb
