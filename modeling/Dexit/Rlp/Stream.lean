import Dexit.Rlp.Encode

/-!
# Decoding

`Stream` (rlp/decode.go) and `DecodeBytes` into an empty interface. The stream keeps
the bytes that remain of each open list on a stack (here with the innermost one
first), in unsigned 64-bit numbers that wrap around. An operation gives its result
and the stream afterwards, also with an error: the end of a list is one.

The recursion of the decoder over nested lists has fuel, and running out of it is an
error of its own. `wrapStreamError` and the error contexts, which only say more about
the type that was decoded into, are left out.
-/

namespace Dexit.Rlp

open Go

inductive Kind where
  | byte
  | string
  | list
  deriving DecidableEq

inductive Err where
  | eol
  | expectedString
  | expectedList
  | canonSize
  | elemTooLarge
  | valueTooLarge
  | moreThanOneValue
  | notInList
  | notAtEOL
  | eof
  | unexpectedEOF
  | outOfFuel
  deriving DecidableEq

/-- `r` is what the reader has left. -/
structure Stream where
  r : List UInt8
  remaining : ℕ
  limited : Bool
  stack : List ℕ
  kind : Option Kind
  size : ℕ
  kinderr : Option Err
  byteval : UInt8

/-- `n` less in the innermost list. -/
def consume : List ℕ → ℕ → List ℕ
  | [], _ => []
  | limit :: rest, n => sub64 limit n :: rest

namespace Stream

/-- The stream over the bytes of a slice, as `DecodeBytes` resets it. -/
def ofBytes (b : List UInt8) : Stream where
  r := b
  remaining := b.length
  limited := true
  stack := []
  kind := none
  size := 0
  kinderr := none
  byteval := 0

/-- `n` is more than the innermost list has left. -/
def exceeds (s : Stream) (n : ℕ) : Bool :=
  match s.stack with
  | [] => false
  | limit :: _ => n > limit

def willRead (s : Stream) (n : ℕ) : Except Err Unit × Stream :=
  if s.exceeds n then (.error .elemTooLarge, { s with kind := none })
  else if s.limited ∧ n > s.remaining then
    (.error .valueTooLarge, { s with kind := none, stack := consume s.stack n })
  else
    (.ok (), { s with
      kind := none
      stack := consume s.stack n
      remaining := if s.limited then s.remaining - n else s.remaining })

def readByte (s : Stream) : Except Err UInt8 × Stream :=
  match s.willRead 1 with
  | (.error e, s) => (.error e, s)
  | (.ok _, s) =>
    match s.r with
    | [] => (.error .unexpectedEOF, s)
    | b :: r => (.ok b, { s with r := r })

/-- `readFull` into a buffer of `n` bytes. -/
def readFull (s : Stream) (n : ℕ) : Except Err (List UInt8) × Stream :=
  match s.willRead n with
  | (.error e, s) => (.error e, s)
  | (.ok _, s) =>
    if s.r.length < n then (.error .unexpectedEOF, { s with r := [] })
    else (.ok (s.r.take n), { s with r := s.r.drop n })

def readUint (s : Stream) (size : ℕ) : Except Err ℕ × Stream :=
  if size = 0 then (.ok 0, { s with kind := none })
  else if size = 1 then
    match s.readByte with
    | (.error e, s) => (.error e, s)
    | (.ok b, s) => (.ok b.toNat, s)
  else
    match s.readFull size with
    | (.error e, s) => (.error e, s)
    | (.ok buffer, s) =>
      if buffer.head? = some 0 then (.error .canonSize, s) else (.ok (BigEndian.ofBytes buffer), s)

/-- `readUint` of a size that has its own bytes, which must not fit the tag. -/
def readSize (s : Stream) (kind : Kind) (sizesize : ℕ) : (Kind × ℕ × Option Err) × Stream :=
  match s.readUint sizesize with
  | (.error e, s) => ((kind, 0, some e), s)
  | (.ok size, s) => ((kind, size, if size < 56 then some .canonSize else none), s)

def readKind (s : Stream) : (Kind × ℕ × Option Err) × Stream :=
  match s.readByte with
  | (.error e, s) =>
    -- at toplevel the error is adjusted to actual EOF
    let e := if s.stack = [] ∧ (e = .unexpectedEOF ∨ e = .valueTooLarge) then .eof else e
    ((.byte, 0, some e), s)
  | (.ok b, s) =>
    let s := { s with byteval := 0 }
    if b.toNat < 0x80 then ((.byte, 0, none), { s with byteval := b })
    else if b.toNat < 0xB8 then ((.string, b.toNat - 0x80, none), s)
    else if b.toNat < 0xC0 then s.readSize .string (b.toNat - 0xB7)
    else if b.toNat < 0xF8 then ((.list, b.toNat - 0xC0, none), s)
    else s.readSize .list (b.toNat - 0xF7)

/-- The check of a size against the limits, `limit` being that of the innermost list
before the size tag was read. -/
def checkSize (s : Stream) (limit : Option ℕ) (size : ℕ) : Option Err :=
  if limit.any fun l => size > l then some .elemTooLarge
  else if s.limited ∧ size > s.remaining then some .valueTooLarge
  else none

/-- `Kind`. -/
def nextKind (s : Stream) : Except Err (Kind × ℕ) × Stream :=
  match s.kind with
  | some kind =>
    match s.kinderr with
    | some e => (.error e, s)
    | none => (.ok (kind, s.size), s)
  | none =>
    if s.stack.head? = some 0 then (.error .eol, s)
    else
      let r := s.readKind
      let kinderr := r.1.2.2.or (r.2.checkSize s.stack.head? r.1.2.1)
      let s := { r.2 with kind := some r.1.1, size := r.1.2.1, kinderr := kinderr }
      match kinderr with
      | some e => (.error e, s)
      | none => (.ok (r.1.1, r.1.2.1), s)

def bytes (s : Stream) : Except Err (List UInt8) × Stream :=
  match s.nextKind with
  | (.error e, s) => (.error e, s)
  | (.ok (.byte, _), s) => (.ok [s.byteval], { s with kind := none })
  | (.ok (.string, size), s) =>
    match s.readFull size with
    | (.error e, s) => (.error e, s)
    | (.ok b, s) =>
      if size = 1 ∧ (b.headD 0).toNat < 128 then (.error .canonSize, s) else (.ok b, s)
  | (.ok (.list, _), s) => (.error .expectedString, s)

/-- `List`: the size of the inner list is taken off the outer one before it is pushed. -/
def list (s : Stream) : Except Err ℕ × Stream :=
  match s.nextKind with
  | (.error e, s) => (.error e, s)
  | (.ok (.list, size), s) =>
    (.ok size, { s with stack := size :: consume s.stack size, kind := none, size := 0 })
  | (.ok _, s) => (.error .expectedList, s)

def listEnd (s : Stream) : Except Err Unit × Stream :=
  match s.stack with
  | [] => (.error .notInList, s)
  | limit :: rest =>
    if limit > 0 then (.error .notAtEOL, s)
    else (.ok (), { s with stack := rest, kind := none, size := 0 })

/-- `decodeListSlice`, given the loop over the elements. -/
def decodeListSlice (s : Stream) (elems : Stream → Except Err (List Item) × Stream) :
    Except Err Item × Stream :=
  match s.list with
  | (.error e, s) => (.error e, s)
  | (.ok size, s) =>
    match if size = 0 then (.ok [], s) else elems s with
    | (.error e, s) => (.error e, s)
    | (.ok xs, s) =>
      match s.listEnd with
      | (.error e, s) => (.error e, s)
      | (.ok _, s) => (.ok (.list xs), s)

mutual

def decodeInterface : ℕ → Stream → Except Err Item × Stream
  | 0, s => (.error .outOfFuel, s)
  | fuel + 1, s =>
    match s.nextKind with
    | (.error e, s) => (.error e, s)
    | (.ok (.list, _), s) => s.decodeListSlice fun s => decodeSliceElems fuel s
    | (.ok _, s) =>
      match s.bytes with
      | (.error e, s) => (.error e, s)
      | (.ok b, s) => (.ok (.bytes b), s)

/-- `decodeSliceElems` into interfaces: elements until the end of the list. -/
def decodeSliceElems : ℕ → Stream → Except Err (List Item) × Stream
  | 0, s => (.error .outOfFuel, s)
  | fuel + 1, s =>
    match decodeInterface fuel s with
    | (.error .eol, s) => (.ok [], s)
    | (.error e, s) => (.error e, s)
    | (.ok x, s) =>
      match decodeSliceElems fuel s with
      | (.error e, s) => (.error e, s)
      | (.ok xs, s) => (.ok (x :: xs), s)

end

end Stream

def decodeBytes (b : List UInt8) : Except Err Item :=
  match Stream.decodeInterface (2 * b.length + 2) (Stream.ofBytes b) with
  | (.error e, _) => .error e
  | (.ok x, s) => if s.r.length > 0 then .error .moreThanOneValue else .ok x

end Dexit.Rlp
