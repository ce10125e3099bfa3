import Mathlib.Tactic.IntervalCases

/-!
# Jump destination analysis

`codeBitmap` and `codeSegment` (core/vm/analysis.go): a set bit is a byte of data, and an index
outside the vector is a panic, `none` here. The data of a PUSH is marked in groups of 16, 8 and
1 to 7 bits. The bytes after the first one of a group are assigned and not or-ed, which is right
because the bits from the program counter on are clear.
-/

namespace Dexit.Vm

open List

abbrev Bitvec := List (BitVec 8)

namespace Bitvec

/-- `bits[i]` becomes `f bits[i]`. -/
def write (bits : Bitvec) (i : ℕ) (f : BitVec 8 → BitVec 8) : Option Bitvec :=
  if i < bits.length then some (bits.modify i f) else none

def set2BitsMask : BitVec 16 := 0b1100_0000_0000_0000
def set3BitsMask : BitVec 16 := 0b1110_0000_0000_0000
def set4BitsMask : BitVec 16 := 0b1111_0000_0000_0000
def set5BitsMask : BitVec 16 := 0b1111_1000_0000_0000
def set6BitsMask : BitVec 16 := 0b1111_1100_0000_0000
def set7BitsMask : BitVec 16 := 0b1111_1110_0000_0000

def lookup : List (BitVec 8) := [0x80, 0x40, 0x20, 0x10, 0x8, 0x4, 0x2, 0x1]

def set1 (bits : Bitvec) (pos : ℕ) : Option Bitvec :=
  bits.write (pos / 8) (· ||| lookup.getD (pos % 8) 0)

def setN (flag : BitVec 16) (bits : Bitvec) (pos : ℕ) : Option Bitvec :=
  let a := flag >>> (pos % 8)
  let b := a.setWidth 8
  (bits.write (pos / 8) (· ||| (a >>> 8).setWidth 8)).bind fun bits =>
    if b ≠ 0 then bits.write (pos / 8 + 1) fun _ => b else some bits

def set8 (bits : Bitvec) (pos : ℕ) : Option Bitvec :=
  let a := 0xFF#8 >>> (pos % 8)
  (bits.write (pos / 8) (· ||| a)).bind fun bits => bits.write (pos / 8 + 1) fun _ => ~~~a

def set16 (bits : Bitvec) (pos : ℕ) : Option Bitvec :=
  let a := 0xFF#8 >>> (pos % 8)
  (bits.write (pos / 8) (· ||| a)).bind fun bits =>
    (bits.write (pos / 8 + 1) fun _ => 0xFF).bind fun bits =>
      bits.write (pos / 8 + 2) fun _ => ~~~a

def codeSegment (bits : Bitvec) (pos : ℕ) : Option Bool :=
  bits[pos / 8]?.map fun b => b &&& (0x80#8 >>> (pos % 8)) == 0

/-- The loops over groups of 16 and of 8 bits, and the switch over what is left. -/
def markData (numbits pc : ℕ) (bits : Bitvec) : Option (ℕ × Bitvec) :=
  if _h : 16 ≤ numbits then (bits.set16 pc).bind (markData (numbits - 16) (pc + 16))
  else if _h : 8 ≤ numbits then (bits.set8 pc).bind (markData (numbits - 8) (pc + 8))
  else match numbits with
    | 1 => (bits.set1 pc).map (pc + 1, ·)
    | 2 => (setN set2BitsMask bits pc).map (pc + 2, ·)
    | 3 => (setN set3BitsMask bits pc).map (pc + 3, ·)
    | 4 => (setN set4BitsMask bits pc).map (pc + 4, ·)
    | 5 => (setN set5BitsMask bits pc).map (pc + 5, ·)
    | 6 => (setN set6BitsMask bits pc).map (pc + 6, ·)
    | 7 => (setN set7BitsMask bits pc).map (pc + 7, ·)
    | _ => some (pc, bits)
termination_by numbits

end Bitvec

def PUSH1 : UInt8 := 0x60
def PUSH32 : UInt8 := 0x7F

/-- Every turn is one instruction, so that one more than the length is enough fuel. -/
def codeBitmapInternal (code : List UInt8) : ℕ → ℕ → Bitvec → Option Bitvec
  | 0, _, _ => none
  | fuel + 1, pc, bits =>
    match code[pc]? with
    | none => some bits
    | some op =>
      let pc := pc + 1
      if op < PUSH1 ∨ op > PUSH32 then codeBitmapInternal code fuel pc bits
      else do
        let (pc, bits) ← Bitvec.markData (op - PUSH1 + 1).toNat pc bits
        codeBitmapInternal code fuel pc bits

def codeBitmap (code : List UInt8) : Option Bitvec :=
  codeBitmapInternal code (code.length + 1) 0 (List.replicate (code.length / 8 + 1 + 4) 0)

/-! ## Setting bits -/

namespace Bitvec

def bit (bits : Bitvec) (j : ℕ) : Bool := (bits.getD (j / 8) 0).getMsbD (j % 8)

/-- A vector of `N` bytes in which nothing is set from `pos` on. -/
structure Clear (N : ℕ) (bits : Bitvec) (pos : ℕ) : Prop where
  length : bits.length = N
  bit : ∀ j, pos ≤ j → bits.bit j = false

/-- The bits from `pos` up to `e` are set as well. -/
structure Marks (bits bits' : Bitvec) (pos e : ℕ) : Prop where
  length : bits'.length = bits.length
  bit : ∀ j, bits'.bit j = (bits.bit j || decide (pos ≤ j ∧ j < e))

/-- An operation succeeds and sets these bits; `out` is its result. -/
def Marked {α : Type} (r : Option α) (out : Bitvec → α) (bits : Bitvec) (pos e : ℕ) : Prop :=
  ∃ bits', r = some (out bits') ∧ Marks bits bits' pos e

/-- The ones of a byte are those from `q` up to `n`. -/
abbrev Ones (b : BitVec 8) (q n : ℕ) : Prop := ∀ r < 8, b.getMsbD r = decide (q ≤ r ∧ r < n)

variable {bits bits' bits'' : Bitvec} {N pos mid e i q n w k pc : ℕ} {b : BitVec 8}

theorem Marks.clear (h : Marks bits bits' pos e) (hle : pos ≤ e) (hc : Clear N bits pos) :
    Clear N bits' e := by
  refine ⟨h.length.trans hc.length, fun j hj => ?_⟩
  rw [h.bit, hc.bit j (by omega), Bool.false_or, decide_eq_false_iff_not]
  omega

theorem Marks.refl : Marks bits bits pos pos :=
  ⟨rfl, fun j => by rw [decide_eq_false (by omega), Bool.or_false]⟩

theorem Marks.trans (h : Marks bits bits' pos mid) (h' : Marks bits' bits'' mid e)
    (hpos : pos ≤ mid) (he : mid ≤ e) : Marks bits bits'' pos e := by
  refine ⟨h'.length.trans h.length, fun j => ?_⟩
  rw [h'.bit, h.bit, Bool.or_assoc, ← Bool.decide_or]
  congr 2
  rw [eq_iff_iff]
  omega

section
variable {α : Type} {r : Option Bitvec} {out : Bitvec → α}

theorem Marked.map (h : Marked r id bits pos e) : Marked (r.map out) out bits pos e := by
  obtain ⟨bits', rfl, hm⟩ := h
  exact ⟨bits', rfl, hm⟩

theorem Marked.bind {f : Bitvec → Option α} (h : Marked r id bits pos mid) (hc : Clear N bits pos)
    (hpos : pos ≤ mid) (he : mid ≤ e)
    (hf : ∀ bits', Clear N bits' mid → Marked (f bits') out bits' mid e) :
    Marked (r.bind f) out bits pos e := by
  obtain ⟨bits', rfl, hm⟩ := h
  obtain ⟨bits'', hf, hm'⟩ := hf bits' (hm.clear hpos hc)
  exact ⟨bits'', hf, hm.trans hm' hpos he⟩

end

theorem write_marked {f : BitVec 8 → BitVec 8} (hi : i < bits.length) (hn : n ≤ 8)
    (hf : ∀ r < 8, (f (bits.getD i 0)).getMsbD r =
      ((bits.getD i 0).getMsbD r || decide (q ≤ r ∧ r < n))) :
    Marked (bits.write i f) id bits (8 * i + q) (8 * i + n) := by
  refine ⟨bits.modify i f, if_pos hi, length_modify .., fun j => ?_⟩
  by_cases hj : j / 8 = i
  · have hread : (bits.modify i f).getD i 0 = f (bits.getD i 0) := by
      simp [getD_eq_getElem?_getD, getElem?_eq_getElem hi]
    rw [bit, bit, hj, hread, hf _ (Nat.mod_lt j (by decide))]
    congr 2
    rw [eq_iff_iff]
    omega
  · have hread : (bits.modify i f).getD (j / 8) 0 = bits.getD (j / 8) 0 := by
      simp [getD_eq_getElem?_getD, Ne.symm hj]
    rw [bit, bit, hread, decide_eq_false (by omega), Bool.or_false]

theorem or_marked (hi : pos / 8 < bits.length) (hn : n ≤ 8) (hb : Ones b (pos % 8) n) :
    Marked (bits.write (pos / 8) (· ||| b)) id bits pos (8 * (pos / 8) + n) := by
  have hmark : Marked _ id bits (8 * (pos / 8) + pos % 8) _ :=
    write_marked (f := (· ||| b)) hi hn fun r hr => by rw [BitVec.getMsbD_or, hb r hr]
  rwa [Nat.div_add_mod] at hmark

/-- A byte that is clear may be assigned. -/
theorem assign_marked (hc : Clear N bits (8 * i)) (hi : i < N) (hn : n ≤ 8) (hb : Ones b 0 n)
    (he : 8 * i + n = e) : Marked (bits.write i fun _ => b) id bits (8 * i) e := by
  subst he
  refine write_marked (q := 0) (hc.length ▸ hi) hn fun r hr => ?_
  have hclear := hc.bit (8 * i + r) (by omega)
  rw [bit, show (8 * i + r) / 8 = i by omega, show (8 * i + r) % 8 = r by omega] at hclear
  rw [hclear, Bool.false_or, hb r hr]

theorem low_ones (pos : ℕ) : Ones (0xFF#8 >>> (pos % 8)) (pos % 8) 8 := by
  have hall : ∀ q < 8, Ones (0xFF#8 >>> q) q 8 := by decide +kernel
  exact hall _ (Nat.mod_lt pos (by decide))

theorem high_ones (pos : ℕ) : Ones (~~~(0xFF#8 >>> (pos % 8))) 0 (pos % 8) := by
  have hall : ∀ q < 8, Ones (~~~(0xFF#8 >>> q)) 0 q := by decide +kernel
  exact hall _ (Nat.mod_lt pos (by decide))

/-- `set` marks `k` bits, and needs no more of the vector than where they end. -/
def Sets (set : Bitvec → ℕ → Option Bitvec) (k : ℕ) : Prop :=
  ∀ {N bits pos}, Clear N bits pos → (pos + k) / 8 < N → Marked (set bits pos) id bits pos (pos + k)

theorem set1_sets : Sets set1 1 := by
  intro N bits pos hc hlen
  have hall : ∀ q < 8, Ones (lookup.getD q 0) q (q + 1) := by decide +kernel
  have hmark : Marked _ id bits pos _ :=
    or_marked (by rw [hc.length]; omega) (by omega) (hall _ (Nat.mod_lt pos (by decide)))
  rwa [← Nat.add_assoc, Nat.div_add_mod] at hmark

theorem setN_sets {flag : BitVec 16} (hk : k ≤ 8)
    (hflag : ∀ q < 8, Ones (((flag >>> q) >>> 8).setWidth 8) q (min 8 (q + k)) ∧
      Ones ((flag >>> q).setWidth 8) 0 (q + k - 8) ∧
        ((flag >>> q).setWidth 8 = (0 : BitVec 8) ↔ q + k ≤ 8)) : Sets (setN flag) k := by
  intro N bits pos hc hlen
  obtain ⟨hfirst, hsecond, hzero⟩ := hflag (pos % 8) (Nat.mod_lt pos (by decide))
  refine (or_marked (by rw [hc.length]; omega) (min_le_left ..) hfirst).bind hc (by omega) (by omega)
    fun bits₁ hc₁ => ?_
  simp only [ne_eq, hzero]
  split
  next hmore =>
    rw [min_eq_left (by omega)] at hc₁ ⊢
    exact assign_marked hc₁ (by omega) (by omega) hsecond (by omega)
  next hfit =>
    rw [show 8 * (pos / 8) + min 8 (pos % 8 + k) = pos + k by omega]
    exact ⟨bits₁, rfl, .refl⟩

theorem set8_sets : Sets set8 8 := by
  intro N bits pos hc hlen
  refine (or_marked (by rw [hc.length]; omega) le_rfl (low_ones pos)).bind hc (by omega) (by omega)
    fun bits₁ hc₁ => ?_
  exact assign_marked hc₁ (by omega) (Nat.mod_lt pos (by decide)).le (high_ones pos) (by omega)

theorem set16_sets : Sets set16 16 := by
  intro N bits pos hc hlen
  refine (or_marked (by rw [hc.length]; omega) le_rfl (low_ones pos)).bind hc (by omega) (by omega)
    fun bits₁ hc₁ => ?_
  refine (assign_marked (n := 8) hc₁ (by omega) le_rfl (by decide) rfl).bind hc₁ (by omega) (by omega)
    fun bits₂ hc₂ => ?_
  exact assign_marked hc₂ (by omega) (Nat.mod_lt pos (by decide)).le (high_ones pos) (by omega)

theorem markData_marked (hc : Clear N bits pc) (hlen : (pc + n) / 8 < N) :
    Marked (markData n pc bits) (pc + n, ·) bits pc (pc + n) := by
  induction n using Nat.strongRecOn generalizing pc bits with
  | _ n ih =>
    have hgroup {k : ℕ} {set : Bitvec → ℕ → Option Bitvec} (hset : Sets set k) (hpos : 0 < k) (hk : k ≤ n) :
        Marked ((set bits pc).bind (markData (n - k) (pc + k))) (pc + n, ·) bits pc (pc + n) := by
      refine (hset hc (by omega)).bind hc (by omega) (by omega) fun bits' hc' => ?_
      have hrest := ih (n - k) (by omega) hc' (by omega)
      rwa [show pc + k + (n - k) = pc + n by omega] at hrest
    rw [markData]
    split
    next h16 => exact hgroup set16_sets (by decide) h16
    split
    next h8 => exact hgroup set8_sets (by decide) h8
    clear ih hgroup
    interval_cases n
    · exact ⟨bits, rfl, .refl⟩
    · exact (set1_sets hc hlen).map
    all_goals exact (setN_sets (by decide) (by decide +kernel) hc hlen).map

theorem codeSegment_eq (h : pos / 8 < bits.length) : bits.codeSegment pos = some !bits.bit pos := by
  have hmask : ∀ q < 8, 0x80#8 >>> q = .twoPow 8 (7 - q) ∧ BitVec.twoPow 8 (7 - q) ≠ 0 := by decide
  have hq := Nat.mod_lt pos (show 0 < 8 by decide)
  obtain ⟨hpow, hne⟩ := hmask _ hq
  rw [codeSegment, bit, getD_eq_getElem?_getD, getElem?_eq_getElem h, Option.map_some,
    hpow, BitVec.and_twoPow, Option.getD_some, BitVec.getMsbD, decide_eq_true hq, Bool.true_and]
  split
  next hb => rw [hb, beq_false_of_ne hne, Bool.not_true]
  next hb => rw [Bool.eq_false_of_not_eq_true hb]; rfl

end Bitvec

/-! ## The sweep -/

/-- How many bytes of data follow an instruction. -/
def pushData (op : UInt8) : ℕ :=
  if PUSH1 ≤ op ∧ op ≤ PUSH32 then op.toNat - PUSH1.toNat + 1 else 0

/-- The instruction positions in their order, from 0 on over the data of each PUSH. -/
def sweep (code : List UInt8) : ℕ → ℕ
  | 0 => 0
  | k + 1 => sweep code k + 1 + pushData (code.getD (sweep code k) 0)

variable {code : List UInt8} {bits bits' : Bitvec} {k : ℕ}

theorem sweep_strictMono (code : List UInt8) : StrictMono (sweep code) :=
  strictMono_nat_of_lt_succ fun k => by rw [sweep]; omega

/-- The data below position `k` of the sweep is marked. -/
structure Swept (code : List UInt8) (k : ℕ) (bits : Bitvec) : Prop where
  length : bits.length = code.length / 8 + 1 + 4
  bit : ∀ j, bits.bit j = true ↔ j < sweep code k ∧ ∀ m, sweep code m ≠ j

/-- Between an instruction and the next one there is only its data. -/
theorem Swept.step (h : Swept code k bits)
    (hm : Bitvec.Marks bits bits' (sweep code k + 1) (sweep code (k + 1))) :
    Swept code (k + 1) bits' := by
  refine ⟨hm.length.trans h.length, fun j => ?_⟩
  have hmono := sweep_strictMono code
  have hlt := hmono (Nat.lt_succ_self k)
  rw [hm.bit, Bool.or_eq_true, h.bit, decide_eq_true_iff]
  constructor
  · rintro (⟨hj, hdata⟩ | ⟨hlo, hhi⟩)
    · exact ⟨hj.trans hlt, hdata⟩
    · refine ⟨hhi, ?_⟩
      rintro m rfl
      have := hmono.lt_iff_lt.mp hlo
      have := hmono.lt_iff_lt.mp hhi
      omega
  · rintro ⟨hj, hdata⟩
    have := hdata k
    rcases Nat.lt_or_ge j (sweep code k) with hlow | hhigh
    · exact .inl ⟨hlow, hdata⟩
    · exact .inr ⟨by omega, hj⟩

theorem pushData_eq (op : UInt8) : pushData op ≤ 32 ∧
    pushData op = if op < PUSH1 ∨ op > PUSH32 then 0 else (op - PUSH1 + 1).toNat := by
  have := op.toNat_lt
  simp only [pushData, PUSH1, PUSH32, UInt8.le_iff_toNat_le, UInt8.lt_iff_toNat_lt, gt_iff_lt,
    UInt8.toNat_add, UInt8.toNat_sub, UInt8.reduceToNat]
  split_ifs <;> omega

/-- The loop goes on to the end of the code. -/
theorem internal_swept (fuel : ℕ) (h : Swept code k bits) (hk : k ≤ code.length)
    (hfuel : code.length < fuel + k) :
    ∃ bits' k', codeBitmapInternal code fuel (sweep code k) bits = some bits' ∧
      code.length ≤ sweep code k' ∧ Swept code k' bits' := by
  induction fuel generalizing k bits with
  | zero => omega
  | succ fuel ih =>
    rw [codeBitmapInternal]
    rcases hop : code[sweep code k]? with _ | op
    · exact ⟨bits, k, rfl, by simpa using hop, h⟩
    obtain ⟨hin, -⟩ := List.getElem?_eq_some_iff.mp hop
    have hnext : sweep code (k + 1) = sweep code k + 1 + pushData op := by
      rw [sweep, getD_eq_getElem?_getD, hop, Option.getD_some]
    have hlater := (sweep_strictMono code).le_apply (x := k)
    obtain ⟨hdata, heq⟩ := pushData_eq op
    dsimp only
    split
    next hno =>
      rw [heq, if_pos hno] at hnext
      have hswept : Swept code (k + 1) bits := h.step (by rw [hnext]; exact .refl)
      rw [Nat.add_zero] at hnext
      rw [← hnext]
      exact ih hswept (by omega) (by omega)
    next hpush =>
      rw [if_neg hpush] at heq
      have hclear : Bitvec.Clear _ bits (sweep code k + 1) := ⟨h.length, fun j hj => by
        rw [Bool.eq_false_iff, ne_eq, h.bit]
        omega⟩
      obtain ⟨bits', hmark, hm⟩ := Bitvec.markData_marked (n := pushData op) hclear (by omega)
      rw [← hnext] at hm hmark
      rw [← heq, hmark]
      exact ih (h.step hm) (by omega) (by omega)

/-- The analysis stays inside its vector, and says of every position whether the sweep has an
instruction there. -/
theorem codeBitmap_sweeps (code : List UInt8) :
    ∃ bits, codeBitmap code = some bits ∧ bits.length = code.length / 8 + 1 + 4 ∧
      ∀ i < code.length, ∃ isCode, bits.codeSegment i = some isCode ∧
        (isCode = true ↔ ∃ k, sweep code k = i) := by
  have hstart : Swept code 0 (replicate (code.length / 8 + 1 + 4) 0) := by
    refine ⟨length_replicate, fun j => ?_⟩
    rw [Bitvec.bit, getD_eq_getElem?_getD, getElem?_replicate]
    split <;> simp [sweep]
  obtain ⟨bits, k, hrun, hend, h⟩ := internal_swept (code.length + 1) hstart (Nat.zero_le _) (by omega)
  refine ⟨bits, hrun, h.length, fun i hi => ⟨_, Bitvec.codeSegment_eq (by rw [h.length]; omega), ?_⟩⟩
  have hlt : i < sweep code k := by omega
  rw [Bool.not_eq_true', Bool.eq_false_iff, ne_eq, h.bit]
  simp [hlt]

end Dexit.Vm
