import Dexit.Rlp.Stream

/-!
# Decoding undoes encoding, and only canonical encodings decode

`Reads` says which bytes an operation has read, and that the innermost open list has
so many bytes less, modulo 2^64. The check of an element's size is against the limit
before its tag was read, so the outer list of a nested one can go below zero; since a
list only ends with exactly zero bytes left, its elements then still have exactly the
size of its header (`decodeInterface_sound`).
-/

namespace Dexit.Rlp

open Go List Option BigEndian

/-- An error of the operations that read. -/
def Err.Plain (e : Err) : Prop := e ≠ .eol ∧ e ≠ .outOfFuel

variable {a : ℕ}

theorem consume_consume (st : List ℕ) (m n : ℕ) : consume (consume st m) n = consume st (m + n) := by
  cases st with
  | nil => rfl
  | cons l st => simp [consume, sub64_sub64]

namespace Stream

/-- A stream over a slice. -/
structure Over (s : Stream) : Prop where
  limited : s.limited = true
  remaining : s.remaining = s.r.length
  short : s.r.length < 2 ^ 63
  stack : ∀ l ∈ s.stack, l < 2 ^ 64

/-- A stream over a slice between two values. -/
structure Ready (s : Stream) : Prop extends Over s where
  armed : s.kind = none

/-- `s'` is `s` after the bytes `bs` were read. -/
structure Reads (s : Stream) (bs : List UInt8) (s' : Stream) : Prop where
  input : s.r = bs ++ s'.r
  remaining : s'.remaining = s'.r.length
  limited : s'.limited = true
  stack : s'.stack = consume s.stack bs.length

variable {s s' : Stream} {bs : List UInt8} {m n : ℕ} {b : UInt8} {k : Kind}

variable {bs' : List UInt8} {e : Err}

theorem Reads.trans {s₁ : Stream} (h : Reads s bs s₁) (h' : Reads s₁ bs' s') :
    Reads s (bs ++ bs') s' where
  input := by rw [h.input, h'.input, append_assoc]
  remaining := h'.remaining
  limited := h'.limited
  stack := by rw [h'.stack, h.stack, consume_consume, length_append]

theorem consume_lt {st : List ℕ} (h : ∀ l ∈ st, l < 2 ^ 64) (n : ℕ) : ∀ l ∈ consume st n, l < 2 ^ 64 := by
  cases st with
  | nil => exact h
  | cons l st =>
    intro l' hl'
    rcases mem_cons.mp hl' with rfl | hmem
    · exact sub64_lt l n
    · exact h l' (mem_cons_of_mem l hmem)

theorem consume_zero {st : List ℕ} (h : ∀ l ∈ st, l < 2 ^ 64) : consume st 0 = st := by
  cases st with
  | nil => rfl
  | cons l st => rw [consume, sub64_of_le (Nat.zero_le l) (h l mem_cons_self), Nat.sub_zero]

theorem Reads.over (h : Reads s bs s') (hs : Over s) : Over s' where
  limited := h.limited
  remaining := h.remaining
  short := by
    have hlen := congrArg List.length h.input
    have hshort := hs.short
    rw [length_append] at hlen
    omega
  stack := by
    rw [h.stack]
    exact consume_lt hs.stack _

/-- The stream at the first element of a list. -/
def opened (s : Stream) (n : ℕ) : Stream :=
  { s with stack := n :: consume s.stack n, kind := none, size := 0 }

theorem Over.opened (ho : Over s) (hn : n < 2 ^ 64) : Ready (s.opened n) where
  limited := ho.limited
  remaining := ho.remaining
  short := ho.short
  stack := by
    intro l hmem
    rcases mem_cons.mp hmem with rfl | hmem
    · exact hn
    · exact consume_lt ho.stack n l hmem
  armed := rfl

/-! ## Reading -/

/-- An operation succeeds as said, or with such an error. -/
inductive Does {α : Type} (fail : Err → Prop) (ok : α → Stream → Prop) : Except Err α × Stream → Prop
  | error {e : Err} {t : Stream} (h : fail e) : Does fail ok (.error e, t)
  | ok {a : α} {t : Stream} (h : ok a t) : Does fail ok (.ok a, t)

section
variable {α : Type} {fail fail' : Err → Prop} {ok ok' : α → Stream → Prop} {r : Except Err α × Stream}

theorem Does.elim {a : α} (h : Does fail ok r) (hr : r = (.ok a, s')) : ok a s' := by
  subst hr
  cases h with
  | ok h => exact h

theorem Does.err {e : Err} (h : Does fail ok r) (hr : r = (.error e, s')) : fail e := by
  subst hr
  cases h with
  | error h => exact h

theorem Does.imp (h : Does fail ok r) (herr : ∀ e, fail e → fail' e) (hok : ∀ a t, ok a t → ok' a t) :
    Does fail' ok' r := by
  cases h with
  | error h => exact .error (herr _ h)
  | ok h => exact .ok (hok _ _ h)

end

/-- What there is to read: `n` bytes, and as many in the innermost list. -/
structure Room (s : Stream) (n : ℕ) : Prop where
  input : n ≤ s.r.length
  list : ∀ l ∈ s.stack.head?, n ≤ l

theorem Room.left (h : Room s (m + n)) : Room s m :=
  ⟨Nat.le_of_add_right_le h.input, fun l hl => Nat.le_of_add_right_le (h.list l hl)⟩

theorem Reads.length (h : Reads s bs s') : s.r.length = bs.length + s'.r.length := by
  rw [h.input, length_append]

/-- What is left after a part of what there is room for. -/
theorem Reads.room (h : Reads s bs s') (ho : Over s)
    (hroom : Room s (bs.length + n)) : Room s' n := by
  refine ⟨by have := h.length; have := hroom.input; omega, ?_⟩
  rw [h.stack]
  cases hst : s.stack with
  | nil => exact fun l hl => nomatch hl
  | cons l st =>
    intro l' hl'
    obtain rfl : sub64 l bs.length = l' := some.inj hl'
    have hle := hroom.list l (by rw [hst]; rfl)
    have hlt := ho.stack l (by rw [hst]; exact mem_cons_self)
    rw [sub64_of_le (by omega) hlt]
    omega

/-- Where the bytes that were read are those that were expected, the rest is too. -/
theorem Reads.rest {rest : List UInt8} (h : Reads s bs s') (hin : s.r = bs' ++ rest)
    (hlen : bs.length = bs'.length) : bs = bs' ∧ s'.r = rest :=
  append_inj (h.input.symm.trans hin) hlen

section
variable (ho : Over s)
include ho

theorem willRead_does (n : ℕ) : Does Err.Plain (fun _ s' =>
    s' = { s with kind := none, stack := consume s.stack n, remaining := s.remaining - n } ∧
      n ≤ s.r.length) (s.willRead n) := by
  unfold willRead
  split
  · exact .error ⟨nofun, nofun⟩
  split
  · exact .error ⟨nofun, nofun⟩
  · next hrem =>
    rw [ho.limited, ho.remaining] at hrem
    exact .ok ⟨by simp [ho.limited], by simpa using hrem⟩

theorem willRead_room (hroom : Room s n) : ∃ s', s.willRead n = (.ok (), s') := by
  have hex : s.exceeds n = false := by
    unfold exceeds
    cases hst : s.stack with
    | nil => rfl
    | cons l st => simpa using hroom.list l (by rw [hst]; rfl)
  have hle := hroom.input
  unfold willRead
  rw [if_neg (by simp [hex]), if_neg (by rw [ho.remaining]; omega)]
  exact ⟨_, rfl⟩

theorem readFull_does (n : ℕ) : Does Err.Plain (fun bs s' =>
    bs.length = n ∧ Reads s bs s' ∧ s'.kind = none) (s.readFull n) := by
  unfold readFull
  split
  · next hw => exact .error ((willRead_does ho n).err hw)
  next hw =>
  obtain ⟨rfl, hle⟩ := (willRead_does ho n).elim hw
  rw [if_neg (Nat.not_lt.mpr hle)]
  have htake : (s.r.take n).length = n := by rw [length_take]; omega
  refine .ok ⟨htake, ⟨(take_append_drop n s.r).symm, ?_, ho.limited, by rw [htake]⟩, rfl⟩
  simp only [ho.remaining, length_drop]

theorem readFull_room {rest : List UInt8} (hin : s.r = bs ++ rest)
    (hroom : Room s bs.length) : ∃ s', s.readFull bs.length = (.ok bs, s') := by
  obtain ⟨s₁, hw⟩ := willRead_room ho hroom
  obtain ⟨rfl, hle⟩ := (willRead_does ho _).elim hw
  rw [readFull, hw]
  dsimp only
  rw [if_neg (Nat.not_lt.mpr hle), hin, take_left]
  exact ⟨_, rfl⟩

theorem readByte_does : Does Err.Plain (fun b s' => Reads s [b] s') s.readByte := by
  unfold readByte
  split
  · next hw => exact .error ((willRead_does ho 1).err hw)
  next hw =>
  obtain ⟨rfl, hle⟩ := (willRead_does ho 1).elim hw
  split
  · exact .error ⟨nofun, nofun⟩
  · next b r hcons =>
    dsimp only at hcons
    refine .ok ⟨hcons, ?_, ho.limited, rfl⟩
    simp [ho.remaining, hcons]

theorem readByte_room {rest : List UInt8} (hin : s.r = b :: rest)
    (hroom : Room s 1) : ∃ s', s.readByte = (.ok b, s') := by
  obtain ⟨s₁, hw⟩ := willRead_room ho hroom
  obtain ⟨rfl, -⟩ := (willRead_does ho 1).elim hw
  rw [readByte, hw]
  simp only [hin]
  exact ⟨_, rfl⟩

end

theorem readUint_does (hn : n ≠ 0) (ho : Over s) : Does Err.Plain (fun v s' =>
    ∃ bs, bs.length = n ∧ v = BigEndian.ofBytes bs ∧ (n = 1 ∨ bs.head? ≠ some 0) ∧ Reads s bs s')
    (s.readUint n) := by
  unfold readUint
  rw [if_neg hn]
  split
  · next h1 =>
    split
    · next hb => exact .error ((readByte_does ho).err hb)
    · next b s₁ hb =>
      exact .ok ⟨[b], h1.symm, by simp [BigEndian.ofBytes], .inl h1, (readByte_does ho).elim hb⟩
  · split
    · next hb => exact .error ((readFull_does ho n).err hb)
    next bs s₁ hb =>
    obtain ⟨hlen, hreads, -⟩ := (readFull_does ho n).elim hb
    split
    · exact .error ⟨by decide, by decide⟩
    · next hhead => exact .ok ⟨bs, hlen, rfl, .inr hhead, hreads⟩

variable {rest : List UInt8}

theorem readUint_room (hne : bs ≠ []) (hhead : bs.head? ≠ some 0)
    (ho : Over s) (hin : s.r = bs ++ rest) (hroom : Room s bs.length) :
    ∃ s', s.readUint bs.length = (.ok (BigEndian.ofBytes bs), s') := by
  have hpos : bs.length ≠ 0 := fun h => hne (length_eq_zero_iff.mp h)
  unfold readUint
  rw [if_neg hpos]
  split
  · next h1 =>
    obtain ⟨b, rfl⟩ := length_eq_one_iff.mp h1
    obtain ⟨s', hs'⟩ := readByte_room ho hin hroom
    exact ⟨s', by rw [hs']; simp [BigEndian.ofBytes]⟩
  · obtain ⟨s', hs'⟩ := readFull_room ho hin hroom
    exact ⟨s', by rw [hs']; simp only; rw [if_neg hhead]⟩

/-! ## Headers -/

/-- The header of a value: its own byte, or the tag and the size. -/
def header (kind : Kind) (size : ℕ) (byteval : UInt8) : List UInt8 :=
  match kind with
  | .byte => [byteval]
  | .string => puthead 0x80 0xB7 size
  | .list => puthead 0xC0 0xF7 size

/-- The tags of the headers of strings and lists. -/
def tags : Kind → ℕ × ℕ
  | .list => (0xC0, 0xF7)
  | _ => (0x80, 0xB7)

theorem header_eq (hk : k ≠ .byte) (n : ℕ) (b : UInt8) :
    header k n b = puthead (tags k).1 (tags k).2 n := by
  cases k with
  | byte => exact absurd rfl hk
  | string | list => rfl

/-- A size of 56 and more that was read without leading zero bytes is written back as it
was. -/
theorem puthead_of_size {smalltag largetag : ℕ}
    (hlen : bs.length ≤ 8) (hhead : bs.length = 1 ∨ bs.head? ≠ some 0)
    (hsize : 56 ≤ BigEndian.ofBytes bs) (hb : b.toNat = largetag + bs.length) :
    puthead smalltag largetag (BigEndian.ofBytes bs) = b :: bs := by
  cases bs with
  | nil => simp [BigEndian.ofBytes] at hsize
  | cons c cs =>
    have hc : c ≠ 0 := by
      rintro rfl
      rcases hhead with h1 | h0
      · obtain rfl : cs = [] := length_eq_zero_iff.mp (by simpa using h1)
        simp [BigEndian.ofBytes] at hsize
      · exact h0 rfl
    have hsz : putintSize (BigEndian.ofBytes (c :: cs)) = (c :: cs).length :=
      putintSize_unique (Nat.lt_of_succ_le hlen) (pow_le_ofBytes hc) (ofBytes_lt _)
    have htag : UInt8.ofNat (largetag + (c :: cs).length) = b := by rw [← hb, UInt8.ofNat_toNat]
    rw [puthead, if_neg (by omega), putint, hsz, toBytes_ofBytes, htag]

/-- A header as a result: the kind and the size, or the error. -/
def outcome (r : (Kind × ℕ × Option Err) × Stream) : Except Err (Kind × ℕ) × Stream :=
  (r.1.2.2.elim (.ok (r.1.1, r.1.2.1)) .error, r.2)

theorem readSize_does (kind : Kind) (hm : m ≠ 0) (ho : Over s) : Does Err.Plain (fun kn s' =>
    kn.1 = kind ∧ 56 ≤ kn.2 ∧ ∃ bs, bs.length = m ∧ kn.2 = BigEndian.ofBytes bs ∧
      (m = 1 ∨ bs.head? ≠ some 0) ∧ Reads s bs s') (outcome (s.readSize kind m)) := by
  unfold readSize
  split
  · next hu => exact .error ((readUint_does hm ho).err hu)
  next size s₁ hu =>
  have hbs := (readUint_does hm ho).elim hu
  split
  · exact .error ⟨nofun, nofun⟩
  · next hge => exact .ok ⟨rfl, Nat.not_lt.mp hge, hbs⟩

/-- Below the tags are the bytes of their own. -/
theorem readKind_byte (hb : s.readByte = (.ok b, s')) (h : b.toNat < 0x80) :
    s.readKind = ((.byte, 0, none), { s' with byteval := b }) := by
  rw [readKind, hb]
  exact if_pos h

theorem readKind_short (hk : k ≠ .byte) (hb : s.readByte = (.ok b, s'))
    (h : b.toNat = (tags k).1 + n) (hn : n < 56) :
    s.readKind = ((k, n, none), { s' with byteval := 0 }) := by
  rw [readKind, hb]
  cases k with
  | byte => exact absurd rfl hk
  | string | list =>
    simp only [tags] at h
    simp (disch := omega) only [h, if_neg, if_pos, Nat.add_sub_cancel_left]

theorem readKind_long (hk : k ≠ .byte) (hb : s.readByte = (.ok b, s'))
    (h : b.toNat = (tags k).2 + m) (hm : 0 < m ∧ m ≤ 8) :
    s.readKind = readSize { s' with byteval := 0 } k m := by
  rw [readKind, hb]
  cases k with
  | byte => exact absurd rfl hk
  | string | list =>
    simp only [tags] at h
    simp (disch := omega) only [h, if_neg, if_pos, Nat.add_sub_cancel_left]

/-- Every byte is of one of these three sorts. -/
theorem tag_cases (b : UInt8) : b.toNat < 0x80 ∨
    (∃ k n, k ≠ .byte ∧ b.toNat = (tags k).1 + n ∧ n < 56) ∨
    ∃ k m, k ≠ .byte ∧ b.toNat = (tags k).2 + m ∧ 0 < m ∧ m ≤ 8 := by
  have hbyte : b.toNat < 256 := b.toNat_lt
  by_cases h80 : b.toNat < 0x80
  · exact .inl h80
  by_cases hB8 : b.toNat < 0xB8
  · exact .inr (.inl ⟨.string, b.toNat - 0x80, nofun, by simp only [tags]; omega, by omega⟩)
  by_cases hC0 : b.toNat < 0xC0
  · exact .inr (.inr ⟨.string, b.toNat - 0xB7, nofun, by simp only [tags]; omega, by omega⟩)
  by_cases hF8 : b.toNat < 0xF8
  · exact .inr (.inl ⟨.list, b.toNat - 0xC0, nofun, by simp only [tags]; omega, by omega⟩)
  · exact .inr (.inr ⟨.list, b.toNat - 0xF7, nofun, by simp only [tags]; omega, by omega⟩)

/-- The bytes of a header were read. -/
def ReadsHeader (s : Stream) (kn : Kind × ℕ) (s' : Stream) : Prop :=
  Reads s (header kn.1 kn.2 s'.byteval) s' ∧ kn.2 < 2 ^ 64 ∧
    (kn.1 = .byte → kn.2 = 0 ∧ s'.byteval.toNat < 0x80)

theorem readKind_does (ho : Over s) : Does Err.Plain (ReadsHeader s) (outcome s.readKind) := by
  rcases hb : s.readByte with ⟨e | b, s₁⟩
  · rw [readKind, hb]
    dsimp only
    split
    · exact .error ⟨nofun, nofun⟩
    · exact .error ((readByte_does ho).err hb)
  have hreads := (readByte_does ho).elim hb
  have hread (b' : UInt8) : Reads s [b] { s₁ with byteval := b' } := { hreads with }
  rcases tag_cases b with hlt | ⟨k, n, hk, htag, hn⟩ | ⟨k, m, hk, htag, hm⟩
  · rw [readKind_byte hb hlt]
    exact .ok ⟨hread b, Nat.two_pow_pos 64, fun _ => ⟨rfl, hlt⟩⟩
  · rw [readKind_short hk hb htag hn]
    have hhead : header k n 0 = [b] := by
      rw [header_eq hk, puthead, if_pos hn, ← htag, UInt8.ofNat_toNat]
    exact .ok ⟨by rw [hhead]; exact hread 0, Nat.lt_trans hn (by decide), fun h => absurd h hk⟩
  · rw [readKind_long hk hb htag hm]
    rcases hsize : outcome (readSize { s₁ with byteval := 0 } k m) with ⟨e | ⟨k', n⟩, s₂⟩
    · exact .error ((readSize_does k (Nat.ne_of_gt hm.1) ((hread 0).over ho)).err hsize)
    obtain ⟨rfl, h56, bs, hlen, hn, hhead, hbs⟩ :=
      (readSize_does k (Nat.ne_of_gt hm.1) ((hread 0).over ho)).elim hsize
    dsimp only at h56 hn hk htag
    have hput : header k' n s₂.byteval = b :: bs := by
      rw [header_eq hk, hn]
      exact puthead_of_size (by omega) (hlen ▸ hhead) (hn ▸ h56) (by omega)
    refine .ok ⟨by rw [hput]; exact (hread 0).trans hbs, ?_, fun h => absurd h hk⟩
    rw [hn]
    exact lt_of_lt_of_le (ofBytes_lt bs) (Nat.pow_le_pow_right (by decide : 0 < 256) (by omega : _ ≤ 8))

/-- The stream after a header: the kind and size are kept until the value is read. -/
structure Armed (s : Stream) (k : Kind) (n : ℕ) : Prop where
  kind : s.kind = some k
  size : s.size = n
  kinderr : s.kinderr = none

theorem Armed.nextKind (h : Armed s k n) : s.nextKind = (.ok (k, n), s) := by
  rw [Stream.nextKind, h.kind]
  simp only [h.kinderr, h.size]

theorem checkSize_error {limit : Option ℕ} (h : s.checkSize limit n = some e) :
    e.Plain := by
  unfold checkSize at h
  split_ifs at h
  all_goals
    obtain rfl := some.inj h
    exact ⟨nofun, nofun⟩

/-- The end of a list is reported by `Kind` alone. -/
theorem nextKind_cases (hs : Ready s) : s.nextKind = (.error .eol, s) ∨
    Does Err.Plain (fun kn s' => Armed s' kn.1 kn.2 ∧ ReadsHeader s kn s') s.nextKind := by
  unfold Stream.nextKind
  rw [hs.armed]
  dsimp only
  split
  · exact .inl rfl
  right
  have hdoes := readKind_does hs.toOver
  obtain ⟨⟨⟨k, n, e⟩, s₁⟩, hr⟩ : ∃ r, s.readKind = r := ⟨_, rfl⟩
  rw [hr] at hdoes ⊢
  split
  · next e' he =>
    rcases or_eq_some_iff.mp he with rfl | ⟨-, hcheck⟩
    · exact .error (hdoes.err rfl)
    · exact .error (checkSize_error hcheck)
  · next hnone =>
    obtain ⟨rfl, -⟩ := or_eq_none_iff.mp hnone
    obtain ⟨hreads, hlt, hbyte⟩ := hdoes.elim rfl
    exact .ok ⟨⟨rfl, rfl, hnone⟩, { hreads with }, hlt, hbyte⟩

theorem nextKind_ok (hs : Ready s) (h : s.nextKind = (.ok (k, n), s')) :
    Armed s' k n ∧ Reads s (header k n s'.byteval) s' := by
  rcases nextKind_cases hs with heol | hdoes
  · cases heol.symm.trans h
  · obtain ⟨harmed, hreads, -⟩ := hdoes.elim h
    exact ⟨harmed, hreads⟩

/-! ## Soundness -/

theorem bytes_does (harmed : Armed s k n) (ho : Over s)
    (hbyte : k = .byte → n = 0 ∧ s.byteval.toNat < 0x80) : Does Err.Plain (fun b s' =>
      ∃ bs, Reads s bs s' ∧ s'.kind = none ∧ header k n s.byteval ++ bs = enc (.bytes b)) s.bytes := by
  unfold Stream.bytes
  rw [harmed.nextKind]
  cases k with
  | byte =>
    refine .ok ⟨[], ⟨rfl, ho.remaining, ho.limited, (consume_zero ho.stack).symm⟩, rfl, ?_⟩
    have hle : s.byteval ≤ 0x7F := UInt8.le_iff_toNat_le.mpr (by have := (hbyte rfl).2; simp; omega)
    rw [enc, encString, if_pos hle]
    rfl
  | string =>
    dsimp only
    split
    · next hfull => exact .error ((readFull_does ho n).err hfull)
    next bs s₁ hfull =>
    obtain ⟨hlen, hreads, hk⟩ := (readFull_does ho n).elim hfull
    split
    · exact .error ⟨nofun, nofun⟩
    next hcanon =>
    refine .ok ⟨bs, hreads, hk, ?_⟩
    rw [enc, header]
    unfold encString
    split
    · have hn : n = 1 := hlen.symm
      rw [if_neg, hn]
      intro hle
      have hle' := UInt8.le_iff_toNat_le.mp hle
      exact hcanon ⟨hn, by simp at hle' ⊢; omega⟩
    · rw [hlen]
  | list => exact .error ⟨nofun, nofun⟩

theorem Armed.list (h : Armed s .list n) : s.list = (.ok n, s.opened n) := by
  rw [Stream.list, h.nextKind]
  rfl

theorem listEnd_does : Does Err.Plain (fun _ s' => ∃ rest, s.stack = 0 :: rest ∧
    s' = { s with stack := rest, kind := none, size := 0 }) s.listEnd := by
  unfold Stream.listEnd
  split
  · exact .error ⟨nofun, nofun⟩
  · next limit rest hst =>
    split
    · exact .error ⟨nofun, nofun⟩
    · exact .ok ⟨rest, by rw [hst]; congr 1; omega, rfl⟩

/-- A list that was decoded has elements of exactly the size that its header says. -/
theorem decodeListSlice_does {err : Err → Prop} {elems : Stream → Except Err (List Item) × Stream}
    (harmed : Armed s .list n) (hn : n < 2 ^ 64) (ho : Over s) (herr : ∀ e, e.Plain → err e)
    (helems : Does err (fun xs s' => Reads (s.opened n) (encAll xs) s') (elems (s.opened n))) :
    Does err (fun x s' => ∃ bs, Reads s bs s' ∧ s'.kind = none ∧ header .list n s.byteval ++ bs = enc x)
      (s.decodeListSlice elems) := by
  have hready := ho.opened hn
  rw [Stream.decodeListSlice, harmed.list]
  have hif : Does err (fun xs s' => Reads (s.opened n) (encAll xs) s')
      (if n = 0 then (.ok [], s.opened n) else elems (s.opened n)) := by
    split
    · exact .ok ⟨rfl, hready.remaining, hready.limited, (consume_zero hready.stack).symm⟩
    · exact helems
  dsimp only
  split
  · next he => exact .error (hif.err he)
  next xs s₂ hxs =>
  have hreads := hif.elim hxs
  split
  · next e s₃ he =>
    exact .error (herr e (listEnd_does.err he))
  next u s₃ hend =>
  obtain ⟨rest, hstack, rfl⟩ := listEnd_does.elim hend
  -- the innermost list has come down to zero from the size of the header
  have hinput : s.r = encAll xs ++ s₂.r := hreads.input
  have hlen : (encAll xs).length < 2 ^ 64 := by
    have := congrArg List.length hinput
    have := ho.short
    rw [length_append] at *
    omega
  have hcons := hreads.stack
  rw [hstack, opened, consume, List.cons.injEq] at hcons
  obtain rfl : n = (encAll xs).length := sub64_eq_zero hn hlen hcons.1.symm
  exact .ok ⟨encAll xs, ⟨hinput, hreads.remaining, hreads.limited, hcons.2⟩, rfl, rfl⟩

theorem puthead_length_pos (smalltag largetag n : ℕ) : 0 < (puthead smalltag largetag n).length := by
  unfold puthead
  split <;> simp

theorem header_length_pos (k : Kind) (n : ℕ) (b : UInt8) : 0 < (header k n b).length := by
  cases k with
  | byte => exact Nat.one_pos
  | string | list => exact puthead_length_pos _ _ n

theorem enc_length_pos (x : Item) : 0 < (enc x).length := by
  cases x with
  | bytes b =>
    unfold enc encString
    split
    · split <;> simp
    · rw [length_append]
      exact Nat.add_pos_left (puthead_length_pos _ _ _) _
  | list xs =>
    rw [enc, length_append]
    exact Nat.add_pos_left (puthead_length_pos _ _ _) _

/-- An error of the decoder, which does not run out of the fuel where there is enough. -/
def Within (enough : Prop) (e : Err) : Prop := e ≠ .eol ∧ (enough → e ≠ .outOfFuel)

theorem within_of_plain {enough : Prop} (h : e.Plain) : Within enough e := ⟨h.1, fun _ => h.2⟩

/-- What was decoded is the canonical encoding of the result. Every value takes at least
one byte, so that twice the length is enough fuel. -/
theorem decode_does (fuel : ℕ) :
    (∀ s, Ready s → decodeInterface fuel s = (.error .eol, s) ∨
      Does (Within (2 * s.r.length < fuel)) (fun x s' => Reads s (enc x) s' ∧ Ready s')
        (decodeInterface fuel s)) ∧
    ∀ s, Ready s → Does (Within (2 * s.r.length + 1 < fuel)) (fun xs s' => Reads s (encAll xs) s')
      (decodeSliceElems fuel s) := by
  induction fuel with
  | zero =>
    refine ⟨fun s _ => .inr ?_, fun s _ => ?_⟩
    · exact .error ⟨nofun, fun h => absurd h (Nat.not_lt_zero _)⟩
    · exact .error ⟨nofun, fun h => absurd h (Nat.not_lt_zero _)⟩
  | succ fuel ih =>
    refine ⟨fun s hs => ?_, fun s hs => ?_⟩
    · rw [decodeInterface]
      rcases nextKind_cases hs with heol | hdoes
      · rw [heol]
        exact .inl rfl
      right
      rcases hr : s.nextKind with ⟨e | ⟨k, n⟩, s₁⟩
      · exact .error (within_of_plain (hdoes.err hr))
      obtain ⟨harmed, hreads, hn, hbyte⟩ := hdoes.elim hr
      dsimp only at hreads
      have ho := hreads.over hs.toOver
      have hlen := hreads.length
      have hpos := header_length_pos k n s₁.byteval
      have hall : ∀ x s', (∃ bs, Reads s₁ bs s' ∧ s'.kind = none ∧ header k n s₁.byteval ++ bs = enc x) →
          Reads s (enc x) s' ∧ Ready s' := by
        rintro x s' ⟨bs, hbs, hk, henc⟩
        have hall := hreads.trans hbs
        rw [henc] at hall
        exact ⟨hall, hall.over hs.toOver, hk⟩
      cases k with
      | list =>
        refine (decodeListSlice_does harmed hn ho (fun _ h => within_of_plain h)
          (ih.2 _ (ho.opened hn))).imp (fun e he => ⟨he.1, fun h => he.2 ?_⟩) hall
        change 2 * s₁.r.length + 1 < fuel
        omega
      | byte | string =>
        have hbytes := bytes_does harmed ho hbyte
        dsimp only
        split
        · next hb => exact .error (within_of_plain (hbytes.err hb))
        · next hb => exact .ok (hall _ _ (hbytes.elim hb))
    · rw [decodeSliceElems]
      rcases ih.1 s hs with heol | hdoes
      · rw [heol]
        exact .ok ⟨rfl, hs.remaining, hs.limited, (consume_zero hs.stack).symm⟩
      split
      · next hx => exact absurd rfl (hdoes.err hx).1
      · next hx => exact .error ⟨(hdoes.err hx).1, fun h => (hdoes.err hx).2 (by omega)⟩
      · next x s₁ hx =>
        obtain ⟨hreads, hready⟩ := hdoes.elim hx
        have hlen := hreads.length
        have hpos := enc_length_pos x
        split
        · next hxs =>
          have herr := (ih.2 s₁ hready).err hxs
          exact .error ⟨herr.1, fun h => herr.2 (by omega)⟩
        · next hxs => exact .ok (hreads.trans ((ih.2 s₁ hready).elim hxs))

theorem decode_ok {fuel : ℕ} {x : Item} (hs : Ready s) (h : decodeInterface fuel s = (.ok x, s')) :
    Reads s (enc x) s' ∧ Ready s' := by
  rcases (decode_does fuel).1 s hs with heol | hdoes
  · cases heol.symm.trans h
  · exact hdoes.elim h

/-! ## Completeness -/

theorem toNat_tag (h : n < 256) : (UInt8.ofNat n).toNat = n := by
  exact Nat.mod_eq_of_lt h

theorem readSize_room (kind : Kind) (h56 : 56 ≤ n) (hn : n < 2 ^ 64)
    (ho : Over s) (hin : s.r = putint n ++ rest) (hroom : Room s (putint n).length) :
    ∃ s', s.readSize kind (putintSize n) = ((kind, n, none), s') := by
  obtain ⟨k, -, hsize, hle, hlt⟩ := putintSize_spec (by omega) hn
  obtain ⟨b, bs, hbytes, hb⟩ := toBytes_head hle hlt
  have hput : putint n = b :: bs := by rw [putint, hsize, hbytes]
  have hlen : (putint n).length = putintSize n := length_toBytes _ _
  have hval : BigEndian.ofBytes (putint n) = n := by
    rw [putint, hsize, ofBytes_toBytes, Nat.mod_eq_of_lt hlt]
  obtain ⟨s', hs'⟩ := readUint_room (by rw [hput]; simp) (by rw [hput]; simpa using hb) ho hin hroom
  rw [hlen, hval] at hs'
  refine ⟨s', ?_⟩
  rw [readSize, hs']
  dsimp only
  rw [if_neg (by omega)]

/-- A header is read back. -/
theorem readKind_room (ho : Over s) (hn : n < 2 ^ 64) (hbyte : k = .byte → n = 0 ∧ b.toNat < 0x80)
    (hin : s.r = header k n b ++ rest) (hroom : Room s (header k n b).length) :
    ∃ s', s.readKind = ((k, n, none), s') := by
  -- the first byte, and the size after it if there is one
  have htag {tag : UInt8} {more : List UInt8} (hhead : header k n b = tag :: more) :
      ∃ s₁, s.readByte = (.ok tag, s₁) ∧ Over { s₁ with byteval := 0 } ∧ s₁.r = more ++ rest ∧
        Room s₁ more.length := by
    rw [hhead] at hin hroom
    have hroom : Room s ([tag].length + more.length) := by rwa [Nat.add_comm]
    obtain ⟨s₁, hs₁⟩ := readByte_room ho hin hroom.left
    have hreads := (readByte_does ho).elim hs₁
    have ho₁ := hreads.over ho
    exact ⟨s₁, hs₁, { ho₁ with },
      append_cancel_left (hreads.input.symm.trans hin), hreads.room ho hroom⟩
  by_cases hk : k = .byte
  · obtain ⟨rfl, hlt⟩ := hbyte hk
    subst hk
    obtain ⟨s₁, hs₁, -⟩ := htag rfl
    exact ⟨_, readKind_byte hs₁ hlt⟩
  have hle : (tags k).1 ≤ 0xC0 ∧ (tags k).2 ≤ 0xF7 := by cases k <;> decide
  by_cases h56 : n < 56
  · obtain ⟨s₁, hs₁, -⟩ := htag (by rw [header_eq hk, puthead, if_pos h56])
    exact ⟨_, readKind_short hk hs₁ (toNat_tag (by omega)) h56⟩
  obtain ⟨j, hj, hsize, -⟩ := putintSize_spec (by omega) hn
  obtain ⟨s₁, hs₁, ho₁, hin₁, hroom₁⟩ := htag (by rw [header_eq hk, puthead, if_neg h56])
  obtain ⟨s₂, hs₂⟩ := readSize_room (s := { s₁ with byteval := 0 }) k (by omega) hn ho₁ hin₁
    { hroom₁ with }
  exact ⟨s₂, (readKind_long hk hs₁ (toNat_tag (by omega)) (by omega)).trans hs₂⟩

theorem nextKind_room (hs : Ready s) (hn : n < 2 ^ 64) (hbyte : k = .byte → n = 0 ∧ b.toNat < 0x80)
    (hin : s.r = header k n b ++ rest) (hroom : Room s ((header k n b).length + n)) :
    ∃ s', s.nextKind = (.ok (k, n), s') := by
  have hpos := header_length_pos k n b
  obtain ⟨s₁, hs₁⟩ := readKind_room hs.toOver hn hbyte hin hroom.left
  have hreads : Reads s (header k n s₁.byteval) s₁ := ((readKind_does hs.toOver).elim (by rw [hs₁]; rfl)).1
  have hroom₁ : Room s₁ n := hreads.room hs.toOver (by cases k <;> exact hroom)
  have hnz : s.stack.head? ≠ some 0 := by
    intro h0
    have := hroom.list 0 h0
    omega
  have hlimit : (s.stack.head?.any fun l => decide (n > l)) = false := by
    cases hst : s.stack.head? with
    | none => rfl
    | some l =>
      have := hroom.list l hst
      simp only [any_some, decide_eq_false_iff_not]
      omega
  have hcheck : s₁.checkSize s.stack.head? n = none := by
    have := hroom₁.input
    rw [checkSize, hlimit, if_neg (by simp), if_neg (by rw [hreads.remaining]; omega)]
  rw [Stream.nextKind, hs.armed]
  dsimp only
  rw [if_neg hnz, hs₁]
  rw [hcheck]
  exact ⟨_, rfl⟩

/-- A string is read back. -/
theorem decode_bytes_room {fuel : ℕ} {b rest : List UInt8} (hs : Ready s)
    (hin : s.r = enc (.bytes b) ++ rest) (hroom : Room s (enc (.bytes b)).length) :
    ∃ s', decodeInterface (fuel + 1) s = (.ok (.bytes b), s') := by
  -- a byte of its own, or a header and the string
  have hcases : (∃ x, b = [x] ∧ x.toNat < 0x80 ∧ enc (.bytes b) = header .byte 0 x) ∨
      (¬ (b.length = 1 ∧ (b.headD 0).toNat < 0x80) ∧ enc (.bytes b) = header .string b.length 0 ++ b) := by
    unfold enc encString
    split
    · next x =>
      split
      · next hle =>
        have := UInt8.le_iff_toNat_le.mp hle
        exact .inl ⟨x, rfl, by simp at this; omega, rfl⟩
      · next hgt =>
        refine .inr ⟨fun h => hgt (UInt8.le_iff_toNat_le.mpr ?_), rfl⟩
        have := h.2
        simp at this ⊢
        omega
    · next hne =>
      refine .inr ⟨fun h => ?_, rfl⟩
      obtain ⟨x, rfl⟩ := length_eq_one_iff.mp h.1
      exact hne x rfl
  have hshort := hs.short
  rw [hin, length_append] at hshort
  rcases hcases with ⟨x, rfl, hx, henc⟩ | ⟨hbig, henc⟩
  · rw [henc] at hin hroom
    obtain ⟨s₁, hs₁⟩ := nextKind_room hs (by decide) (fun _ => ⟨rfl, hx⟩) hin hroom
    obtain ⟨harmed, hreads⟩ := nextKind_ok hs hs₁
    have hval : s₁.byteval = x := singleton_inj.mp (hreads.rest hin rfl).1
    have hbytes : s₁.bytes = (.ok [x], { s₁ with kind := none }) := by
      rw [Stream.bytes, harmed.nextKind, ← hval]
    refine ⟨{ s₁ with kind := none }, ?_⟩
    rw [decodeInterface, hs₁]
    simp only [hbytes]
  · rw [henc, length_append] at hshort hroom
    rw [henc, append_assoc] at hin
    have hlen : b.length < 2 ^ 64 := by omega
    obtain ⟨s₁, hs₁⟩ := nextKind_room hs hlen (fun hk => Kind.noConfusion hk) hin hroom
    obtain ⟨harmed, hreads⟩ := nextKind_ok hs hs₁
    have hrest := (hreads.rest hin rfl).2
    obtain ⟨s₂, hs₂⟩ := readFull_room (hreads.over hs.toOver) hrest (hreads.room hs.toOver hroom)
    have hbytes : s₁.bytes = (.ok b, s₂) := by
      rw [Stream.bytes, harmed.nextKind]
      simp only [hs₂]
      rw [if_neg hbig]
    refine ⟨s₂, ?_⟩
    rw [decodeInterface, hs₁]
    simp only [hbytes]

mutual

/-- A tree is read back from its encoding. -/
theorem decode_room (x : Item) {fuel : ℕ} {s : Stream} {rest : List UInt8} (hs : Ready s)
    (hin : s.r = enc x ++ rest) (hroom : Room s (enc x).length)
    (hfuel : 2 * (enc x).length < fuel) : ∃ s', decodeInterface fuel s = (.ok x, s') := by
  obtain ⟨fuel, rfl⟩ := Nat.exists_eq_add_one_of_ne_zero (Nat.ne_of_gt (Nat.zero_lt_of_lt hfuel))
  cases x with
  | bytes b => exact decode_bytes_room hs hin hroom
  | list xs =>
    have henc : enc (.list xs) = header .list (encAll xs).length 0 ++ encAll xs := rfl
    have hpos := header_length_pos .list (encAll xs).length 0
    have hshort := hs.short
    rw [hin, length_append, henc, length_append] at hshort
    rw [henc, length_append] at hroom hfuel
    rw [henc, append_assoc] at hin
    have hlen : (encAll xs).length < 2 ^ 64 := by omega
    obtain ⟨s₁, hs₁⟩ := nextKind_room hs hlen (fun hk => Kind.noConfusion hk) hin hroom
    obtain ⟨harmed, hreads⟩ := nextKind_ok hs hs₁
    have hrest := (hreads.rest hin rfl).2
    have ho := hreads.over hs.toOver
    -- the elements, then the end of the list
    have helems : ∃ s₂, (if (encAll xs).length = 0 then (.ok [], s₁.opened (encAll xs).length)
        else decodeSliceElems fuel (s₁.opened (encAll xs).length)) = (.ok xs, s₂) ∧
        ∃ st, s₂.stack = 0 :: st := by
      split
      · next h0 =>
        have hxs : xs = [] := by
          cases xs with
          | nil => rfl
          | cons y ys =>
            have := enc_length_pos y
            rw [encAll, length_append] at h0
            omega
        exact ⟨_, by rw [hxs], consume s₁.stack (encAll xs).length, by rw [h0]; rfl⟩
      · have hfuel' : 2 * (encAll xs).length + 1 < fuel := by omega
        obtain ⟨s₂, hs₂⟩ := decodeElems_room xs (ho.opened hlen) hrest rfl hfuel'
        have hst := (((decode_does fuel).2 _ (ho.opened hlen)).elim hs₂).stack
        refine ⟨s₂, hs₂, consume s₁.stack (encAll xs).length, ?_⟩
        rw [hst, opened, consume, sub64_of_le le_rfl hlen, Nat.sub_self]
    obtain ⟨s₂, hs₂, st, hst⟩ := helems
    refine ⟨{ s₂ with stack := st, kind := none, size := 0 }, ?_⟩
    rw [decodeInterface, hs₁]
    simp only [Stream.decodeListSlice, harmed.list, hs₂, Stream.listEnd, hst, lt_irrefl, if_false]

theorem decodeElems_room (xs : List Item) {fuel : ℕ} {s : Stream} {rest : List UInt8} {st : List ℕ}
    (hs : Ready s) (hin : s.r = encAll xs ++ rest) (hst : s.stack = (encAll xs).length :: st)
    (hfuel : 2 * (encAll xs).length + 1 < fuel) :
    ∃ s', decodeSliceElems fuel s = (.ok xs, s') := by
  obtain ⟨fuel, rfl⟩ := Nat.exists_eq_add_one_of_ne_zero (Nat.ne_of_gt (Nat.zero_lt_of_lt hfuel))
  cases xs with
  | nil =>
    obtain ⟨fuel, rfl⟩ : ∃ f, fuel = f + 1 := Nat.exists_eq_add_one_of_ne_zero (by omega)
    have heol : decodeInterface (fuel + 1) s = (.error .eol, s) := by
      rw [decodeInterface, Stream.nextKind, hs.armed, hst]
      rfl
    exact ⟨s, by rw [decodeSliceElems, heol]⟩
  | cons x xs =>
    have hsum : (encAll (x :: xs)).length = (enc x).length + (encAll xs).length := by
      rw [encAll, length_append]
    have hpos := enc_length_pos x
    rw [encAll, append_assoc] at hin
    rw [hsum] at hst hfuel
    have hfuel₁ : 2 * (enc x).length < fuel := by omega
    have hfuel₂ : 2 * (encAll xs).length + 1 < fuel := by omega
    have hroom : Room s (enc x).length := by
      refine ⟨by rw [hin, length_append]; omega, fun l hl => ?_⟩
      obtain rfl := some.inj ((congrArg List.head? hst).symm.trans hl)
      exact Nat.le_add_right _ _
    obtain ⟨s₁, hs₁⟩ := decode_room x hs hin hroom hfuel₁
    obtain ⟨hreads, hready⟩ := decode_ok hs hs₁
    have hlt := hs.stack _ (by rw [hst]; exact mem_cons_self)
    have hst₁ : s₁.stack = (encAll xs).length :: st := by
      rw [hreads.stack, hst, consume, sub64_of_le (Nat.le_add_right _ _) hlt, Nat.add_sub_cancel_left]
    obtain ⟨s₂, hs₂⟩ := decodeElems_room xs hready (hreads.rest hin rfl).2 hst₁ hfuel₂
    exact ⟨s₂, by rw [decodeSliceElems, hs₁]; simp only [hs₂]⟩

end

theorem ready_ofBytes {b : List UInt8} (hb : b.length < 2 ^ 63) : Ready (ofBytes b) where
  limited := rfl
  remaining := rfl
  short := hb
  stack := fun _ hl => nomatch hl
  armed := rfl

end Stream

/-- Decoding undoes encoding; what decodes is the encoding of the result; and the fuel
of the decoder is enough for every input. -/
theorem rlp_bijection :
    (∀ x, (enc x).length < 2 ^ 63 → decodeBytes (encodeToBytes x) = .ok x) ∧
    ∀ b, b.length < 2 ^ 63 → decodeBytes b ≠ .error .outOfFuel ∧
      ∀ x, decodeBytes b = .ok x → encodeToBytes x = b := by
  refine ⟨fun x hx => ?_, fun b hb => ⟨fun h => ?_, fun x h => ?_⟩⟩
  · rw [encodeToBytes_eq (by omega)]
    have hready := Stream.ready_ofBytes hx
    have hin : (Stream.ofBytes (enc x)).r = enc x ++ [] := (append_nil _).symm
    have hfuel : 2 * (enc x).length < 2 * (enc x).length + 2 := by omega
    obtain ⟨s', hs'⟩ := Stream.decode_room x hready hin ⟨le_rfl, fun l hl => nomatch hl⟩ hfuel
    have hrest := ((Stream.decode_ok hready hs').1.rest hin rfl).2
    rw [decodeBytes, hs']
    simp only [hrest, length_nil, lt_irrefl, if_false]
  · unfold decodeBytes at h
    split at h
    · next e s hd =>
      obtain rfl : e = .outOfFuel := Except.error.inj h
      rcases (Stream.decode_does _).1 _ (Stream.ready_ofBytes hb) with heol | hdoes
      · cases heol.symm.trans hd
      · exact (hdoes.err hd).2 (by change 2 * b.length < _; omega) rfl
    · split at h <;> exact nomatch h
  · unfold decodeBytes at h
    split at h
    · exact nomatch h
    next y s hd =>
    split at h
    · exact nomatch h
    next hempty =>
    obtain rfl : y = x := Except.ok.inj h
    have hinput := (Stream.decode_ok (Stream.ready_ofBytes hb) hd).1.input
    have hnil : s.r = [] := length_eq_zero_iff.mp (by omega)
    have hbytes : b = enc y := by
      rw [hnil, append_nil] at hinput
      exact hinput
    rw [hbytes] at hb ⊢
    exact encodeToBytes_eq (by omega)

/-- A list with a string, an empty list and a byte of its own. -/
def threeItems : Item := .list [.bytes [0x80, 0x01], .list [], .bytes [0x05]]

theorem rlp_bijection_threeItems :
    encodeToBytes threeItems = [0xC5, 0x82, 0x80, 0x01, 0xC0, 0x05] ∧
      decodeBytes (encodeToBytes threeItems) = .ok threeItems := by
  have hsize : (enc threeItems).length < 2 ^ 63 := by decide +kernel
  exact ⟨by decide +kernel, rlp_bijection.1 threeItems hsize⟩

/-- The inner list of this one claims a byte that the outer one does not have. -/
example : (decodeBytes [0xC1, 0xC1, 0x01]).toOption.isSome = false := by decide +kernel

end Dexit.Rlp
