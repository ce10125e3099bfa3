import Dexit.Go.BigEndian

/-!
# Encoding

`EncodeToBytes` (rlp/encode.go) of a tree of byte strings and lists, an `interface{}`
that holds a `[]byte` or a `[]interface{}` of such. The encoder writes everything but
list headers into `str`, notes for each list where its header belongs, and weaves the
headers in at the end.

`enc` is the encoding by the rules of the format; `encodeToBytes_eq` says that the
buffer computes it.
-/

namespace Dexit.Rlp

open Go List

/-- A tree of byte strings and lists. -/
inductive Item where
  | bytes (b : List UInt8)
  | list (xs : List Item)

/-! ## Headers -/

/-- The number of bytes that `putint` writes. -/
def putintSize (i : ℕ) : ℕ :=
  if i < 2 ^ 8 then 1
  else if i < 2 ^ 16 then 2
  else if i < 2 ^ 24 then 3
  else if i < 2 ^ 32 then 4
  else if i < 2 ^ 40 then 5
  else if i < 2 ^ 48 then 6
  else if i < 2 ^ 56 then 7
  else 8

def putint (i : ℕ) : List UInt8 := BigEndian.toBytes (putintSize i) i

/-- `for size = 1; ; size++ { if i >>= 8; i == 0 { return size } }`. -/
def intsize (i : ℕ) : ℕ :=
  if i / 256 = 0 then 1 else intsize (i / 256) + 1
termination_by i

/-- `puthead`, the bytes it writes. -/
def puthead (smalltag largetag size : ℕ) : List UInt8 :=
  if size < 56 then [UInt8.ofNat (smalltag + size)]
  else UInt8.ofNat (largetag + putintSize size) :: putint size

/-- The list headers that count into `lhsize`. -/
def headsize (size : ℕ) : ℕ := if size < 56 then 1 else 1 + intsize size

variable {n k : ℕ}

/-- A size of a header is written with as many bytes as it needs. -/
theorem putintSize_spec (hn : 0 < n) (hlt : n < 2 ^ 64) :
    ∃ k, k < 8 ∧ putintSize n = k + 1 ∧ 256 ^ k ≤ n ∧ n < 256 ^ (k + 1) := by
  unfold putintSize
  split_ifs
  · exact ⟨0, by omega, rfl, by omega, by omega⟩
  · exact ⟨1, by omega, rfl, by omega, by omega⟩
  · exact ⟨2, by omega, rfl, by omega, by omega⟩
  · exact ⟨3, by omega, rfl, by omega, by omega⟩
  · exact ⟨4, by omega, rfl, by omega, by omega⟩
  · exact ⟨5, by omega, rfl, by omega, by omega⟩
  · exact ⟨6, by omega, rfl, by omega, by omega⟩
  · exact ⟨7, by omega, rfl, by omega, by omega⟩

theorem putintSize_unique (hk : k < 8) (hle : 256 ^ k ≤ n) (hlt : n < 256 ^ (k + 1)) :
    putintSize n = k + 1 := by
  have hpos : 0 < n := lt_of_lt_of_le (by positivity) hle
  have hbound : n < 2 ^ 64 := by
    have hpow : 256 ^ (k + 1) ≤ 256 ^ 8 := Nat.pow_le_pow_right (by decide) hk
    exact lt_of_lt_of_le hlt hpow
  obtain ⟨j, -, hsize, hle', hlt'⟩ := putintSize_spec hpos hbound
  have hjk : j < k + 1 := (Nat.pow_lt_pow_iff_right (by decide)).mp (lt_of_le_of_lt hle' hlt)
  have hkj : k < j + 1 := (Nat.pow_lt_pow_iff_right (by decide)).mp (lt_of_le_of_lt hle hlt')
  omega

theorem intsize_of_bounds (hle : 256 ^ k ≤ n) (hlt : n < 256 ^ (k + 1)) : intsize n = k + 1 := by
  induction k generalizing n with
  | zero =>
    rw [intsize, if_pos (Nat.div_eq_of_lt (by simpa using hlt))]
  | succ k ih =>
    have hle' : 256 ^ k ≤ n / 256 := by
      rw [Nat.le_div_iff_mul_le (by decide), ← pow_succ]
      exact hle
    have hlt' : n / 256 < 256 ^ (k + 1) := by
      rw [Nat.div_lt_iff_lt_mul (by decide), ← pow_succ]
      exact hlt
    have hpos : n / 256 ≠ 0 := Nat.ne_of_gt (lt_of_lt_of_le (by positivity) hle')
    rw [intsize, if_neg hpos, ih hle' hlt']

theorem intsize_eq (hn : 0 < n) (hlt : n < 2 ^ 64) : intsize n = putintSize n := by
  obtain ⟨k, -, hsize, hle, hlt'⟩ := putintSize_spec hn hlt
  rw [hsize, intsize_of_bounds hle hlt']

theorem length_puthead {smalltag largetag : ℕ} (hn : n < 2 ^ 64) :
    (puthead smalltag largetag n).length = headsize n := by
  unfold puthead headsize
  split
  · rfl
  · rw [length_cons, putint, BigEndian.length_toBytes, intsize_eq (by omega) hn, add_comm]

/-! ## The buffer -/

/-- `size` of an open list is what `lhsize` was when it was opened. -/
structure ListHead where
  offset : ℕ
  size : ℕ

structure Encbuf where
  str : List UInt8
  lheads : List ListHead
  lhsize : ℕ

namespace Encbuf

def empty : Encbuf := ⟨[], [], 0⟩

def size (w : Encbuf) : ℕ := w.str.length + w.lhsize

def encodeString (w : Encbuf) (b : List UInt8) : Encbuf :=
  match b with
  | [x] => if x ≤ 0x7F then { w with str := w.str ++ [x] }
    else { w with str := w.str ++ puthead 0x80 0xB7 1 ++ [x] }
  | b => { w with str := w.str ++ puthead 0x80 0xB7 b.length ++ b }

/-- `list` opens a list; its index is `w.lheads.length`. -/
def list (w : Encbuf) : Encbuf :=
  { w with lheads := w.lheads ++ [⟨w.str.length, w.lhsize⟩] }

def listEnd (w : Encbuf) (index : ℕ) : Encbuf :=
  match w.lheads[index]? with
  | none => w
  | some lh =>
    { w with
      lheads := w.lheads.set index { lh with size := w.size - lh.offset - lh.size }
      lhsize := w.lhsize + headsize (w.size - lh.offset - lh.size) }

mutual

/-- `writeInterface`, and the writers of `[]byte` and `[]interface{}` it dispatches to. -/
def encode (w : Encbuf) : Item → Encbuf
  | .bytes b => w.encodeString b
  | .list xs => (w.list.encodeAll xs).listEnd w.lheads.length

/-- The loop over the elements of a slice. -/
def encodeAll (w : Encbuf) : List Item → Encbuf
  | [] => w
  | x :: xs => (w.encode x).encodeAll xs

end

/-- The loop of `toBytes` over the list headers. -/
def weave (str : List UInt8) (strpos : ℕ) : List ListHead → List UInt8
  | [] => str.drop strpos
  | head :: heads =>
    (str.take head.offset).drop strpos ++ puthead 0xC0 0xF7 head.size ++ weave str head.offset heads

def toBytes (w : Encbuf) : List UInt8 := weave w.str 0 w.lheads

end Encbuf

def encodeToBytes (x : Item) : List UInt8 := (Encbuf.empty.encode x).toBytes

/-! ## The format -/

def encString (b : List UInt8) : List UInt8 :=
  match b with
  | [x] => if x ≤ 0x7F then [x] else puthead 0x80 0xB7 1 ++ [x]
  | b => puthead 0x80 0xB7 b.length ++ b

mutual

/-- The encoding of a tree: a header with the size of what follows, except that a byte
below 0x80 is its own encoding. -/
def enc : Item → List UInt8
  | .bytes b => encString b
  | .list xs => puthead 0xC0 0xF7 (encAll xs).length ++ encAll xs

def encAll : List Item → List UInt8
  | [] => []
  | x :: xs => enc x ++ encAll xs

end

namespace Encbuf

theorem encodeString_eq (w : Encbuf) (b : List UInt8) :
    w.encodeString b = { w with str := w.str ++ encString b } := by
  unfold encodeString encString
  split
  · split <;> simp [append_assoc]
  · simp [append_assoc]

/-- The first of some headers is not before `n`. -/
def StartsFrom (n : ℕ) (hs : List ListHead) : Prop := ∀ h ∈ hs.head?, n ≤ h.offset

theorem startsFrom_nil (n : ℕ) : StartsFrom n [] := fun _ h => nomatch h

variable {hs : List ListHead} {w w₁ : Encbuf}

theorem StartsFrom.append {m : ℕ} {hs' : List ListHead} (h : StartsFrom n hs)
    (h' : StartsFrom m hs') (hnm : n ≤ m) : StartsFrom n (hs ++ hs') := by
  cases hs with
  | nil => exact fun head hhead => le_trans hnm (h' head hhead)
  | cons first hs => exact h

/-- String data before the next header may be written in two parts. -/
theorem weave_split {str : List UInt8} {p : ℕ} (hpn : p ≤ n)
    (hn : n ≤ str.length) (hs' : StartsFrom n hs) :
    weave str p hs = (str.take n).drop p ++ weave str n hs := by
  have hsplit : ∀ l : List UInt8, n ≤ l.length → l.take n = str.take n →
      l.drop p = (str.take n).drop p ++ l.drop n := by
    intro l hl htake
    conv => lhs; rw [← take_append_drop n l]
    rw [htake, drop_append_of_le_length (by rw [length_take]; omega)]
  cases hs with
  | nil => exact hsplit str hn rfl
  | cons head hs =>
    have hle : n ≤ head.offset := hs' head rfl
    rw [weave, weave, hsplit (str.take head.offset) (by rw [length_take]; omega)
      (by rw [take_take, min_eq_left hle])]
    simp only [append_assoc]

/-- `w'` is `w` with strings and finished lists at the end that stand for `out`. -/
def Appends (w w' : Encbuf) (out : List UInt8) : Prop :=
  w'.size = w.size + out.length ∧
  ∃ s hs, w'.str = w.str ++ s ∧ w'.lheads = w.lheads ++ hs ∧ StartsFrom w.str.length hs ∧
    ∀ more hs', StartsFrom w'.str.length hs' → weave (w'.str ++ more) w.str.length (hs ++ hs') =
        out ++ weave (w'.str ++ more) w'.str.length hs'

theorem Appends.refl (w : Encbuf) : Appends w w [] :=
  ⟨rfl, [], [], by simp, by simp, startsFrom_nil _, fun _ _ _ => rfl⟩

theorem Appends.trans {w₂ : Encbuf} {out₁ out₂ : List UInt8} (h₁ : Appends w w₁ out₁)
    (h₂ : Appends w₁ w₂ out₂) : Appends w w₂ (out₁ ++ out₂) := by
  obtain ⟨hsize₁, s₁, hs₁, hstr₁, hheads₁, hstart₁, hweave₁⟩ := h₁
  obtain ⟨hsize₂, s₂, hs₂, hstr₂, hheads₂, hstart₂, hweave₂⟩ := h₂
  refine ⟨by rw [hsize₂, hsize₁, length_append, add_assoc], s₁ ++ s₂, hs₁ ++ hs₂,
    by rw [hstr₂, hstr₁, append_assoc], by rw [hheads₂, hheads₁, append_assoc],
    hstart₁.append hstart₂ (by simp [hstr₁]), ?_⟩
  intro more hs' hstart
  have hmiddle : StartsFrom w₁.str.length (hs₂ ++ hs') := hstart₂.append hstart (by simp [hstr₂])
  have hfirst := hweave₁ (s₂ ++ more) (hs₂ ++ hs') hmiddle
  rw [← append_assoc, ← hstr₂] at hfirst
  rw [append_assoc, hfirst, hweave₂ more hs' hstart, append_assoc]

/-- String data is appended as it is. -/
theorem appends_str (w : Encbuf) (s : List UInt8) : Appends w { w with str := w.str ++ s } s := by
  refine ⟨by simp [size]; omega, s, [], rfl, by simp, startsFrom_nil _, ?_⟩
  intro more hs' hstart
  rw [nil_append, weave_split (n := (w.str ++ s).length) (by simp) (by simp) hstart,
    take_left, drop_left]

/-- A list that was opened and filled is closed with its header before it. -/
theorem Appends.listEnd {out : List UInt8} (h : Appends w.list w₁ out) (hlt : out.length < 2 ^ 64) :
    Appends w (w₁.listEnd w.lheads.length) (puthead 0xC0 0xF7 out.length ++ out) := by
  obtain ⟨hsize, s, hs, hstr, hheads, -, hweave⟩ := h
  have hlist : w.list.lheads = w.lheads ++ [⟨w.str.length, w.lhsize⟩] := rfl
  have hget : w₁.lheads[w.lheads.length]? = some ⟨w.str.length, w.lhsize⟩ := by
    rw [hheads, hlist]
    simp
  have hopen : w.list.size = w.str.length + w.lhsize := rfl
  have hlen : w₁.size - w.str.length - w.lhsize = out.length := by omega
  have hend : w₁.listEnd w.lheads.length =
      { w₁ with
        lheads := w.lheads ++ ⟨w.str.length, out.length⟩ :: hs
        lhsize := w₁.lhsize + headsize out.length } := by
    rw [Encbuf.listEnd, hget]
    simp only [hlen]
    rw [hheads, hlist]
    simp
  rw [hend]
  refine ⟨?_, s, ⟨w.str.length, out.length⟩ :: hs, hstr, rfl, fun head hhead => ?_, ?_⟩
  · simp only [size, length_append, length_puthead hlt] at hsize hopen ⊢
    omega
  · obtain rfl : _ = head := Option.some.inj hhead
    exact le_refl _
  · intro more hs' hstart
    have hinner := hweave more hs' hstart
    rw [cons_append, weave, drop_eq_nil_of_le (by simp), nil_append, append_assoc]
    exact congrArg _ hinner

mutual

theorem appends_encode (w : Encbuf) (x : Item) (h : (enc x).length < 2 ^ 64) :
    Appends w (w.encode x) (enc x) := by
  cases x with
  | bytes b =>
    rw [encode, enc, encodeString_eq]
    exact appends_str w (encString b)
  | list xs =>
    rw [enc, length_append] at h
    have hall : (encAll xs).length < 2 ^ 64 := by omega
    exact (appends_encodeAll w.list xs hall).listEnd hall

theorem appends_encodeAll (w : Encbuf) (xs : List Item) (h : (encAll xs).length < 2 ^ 64) :
    Appends w (w.encodeAll xs) (encAll xs) := by
  cases xs with
  | nil =>
    exact Appends.refl w
  | cons x xs =>
    rw [encAll, length_append] at h
    exact (appends_encode w x (by omega)).trans (appends_encodeAll (w.encode x) xs (by omega))

end

end Encbuf

/-- The buffer holds the encoding, and `size` is its length, so that the slice that
`toBytes` copies into is neither too short nor too long. -/
theorem encodeToBytes_eq {x : Item} (h : (enc x).length < 2 ^ 64) :
    encodeToBytes x = enc x := by
  obtain ⟨_, s, hs, hstr, hheads, hstart, hweave⟩ := Encbuf.appends_encode Encbuf.empty x h
  have hall := hweave [] [] (Encbuf.startsFrom_nil _)
  rw [encodeToBytes, Encbuf.toBytes, hheads]
  simpa [Encbuf.weave, Encbuf.empty] using hall

end Dexit.Rlp
