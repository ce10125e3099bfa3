import Mathlib.Algebra.Group.Nat.Defs
import Mathlib.Data.List.Chain
import Mathlib.Order.Lattice

/-!
# Trees of blocks and the index of a branch

Blocks are named by their hashes and linked to their parents. A database keeps
an index from heights to the blocks of one branch; the loops that move it to
another branch delete the numbers above a height, write the blocks of a list,
and go back from a block until they meet the index.

* `ancestor`: the block of a branch at a height;
* `Index.Follows`: the index is exactly the branch of a block;
* `Index.UpTo`: it is so up to a height, whatever stands above;
* `deleteUp`, `writeAll`, `relink`: the loops, with what they leave.
-/

structure BlockTree (H : Type) where
  genesis : H
  parent : H → H
  number : H → ℕ
  number_genesis : number genesis = 0
  number_parent : ∀ h, h ≠ genesis → number h = number (parent h) + 1

namespace BlockTree

open List

variable {H : Type} (t : BlockTree H) {h p l : H} {n m : ℕ}

/-- The block at height `n` of the branch that ends in `h`. -/
def ancestor (h : H) (n : ℕ) : H := t.parent^[t.number h - n] h

theorem ne_genesis (hn : n < t.number h) : h ≠ t.genesis := by
  rintro rfl
  rw [t.number_genesis] at hn
  exact absurd hn (Nat.not_lt_zero n)

theorem number_of_parent (hn : n < t.number h) : t.number (t.parent h) + 1 = t.number h :=
  (t.number_parent h (t.ne_genesis hn)).symm

@[simp] theorem ancestor_self (h : H) : t.ancestor h (t.number h) = h := by
  simp [ancestor]

theorem ancestor_parent (hn : n < t.number h) : t.ancestor (t.parent h) n = t.ancestor h n := by
  have hnum := t.number_of_parent hn
  have hsub : t.number h - n = (t.number (t.parent h) - n) + 1 := by omega
  rw [ancestor, ancestor, hsub, Function.iterate_succ_apply]

theorem number_ancestor (hn : n ≤ t.number h) : t.number (t.ancestor h n) = n := by
  induction hd : t.number h - n generalizing h with
  | zero =>
    have heq : n = t.number h := by omega
    rw [heq, ancestor_self]
  | succ d ih =>
    have hlt : n < t.number h := by omega
    have hnum := t.number_of_parent hlt
    rw [← t.ancestor_parent hlt]
    exact ih (by omega) (by omega)

/-- What passes from each block to its parent holds down the branch. -/
theorem ancestor_induction {P : H → Prop} (hstep : ∀ x, n < t.number x → P x → P (t.parent x))
    (hh : P h) (hn : n ≤ t.number h) : P (t.ancestor h n) := by
  induction hd : t.number h - n generalizing h with
  | zero =>
    obtain rfl : n = t.number h := by omega
    rwa [t.ancestor_self]
  | succ d ih =>
    have hlt : n < t.number h := by omega
    have hnum := t.number_of_parent hlt
    rw [← t.ancestor_parent hlt]
    exact ih (hstep h hlt hh) (by omega) (by omega)

theorem ancestor_ancestor (hmn : m ≤ n) (hn : n ≤ t.number h) :
    t.ancestor (t.ancestor h n) m = t.ancestor h m := by
  rw [ancestor, t.number_ancestor hn, ancestor, ancestor, ← Function.iterate_add_apply]
  congr 1
  omega

theorem parent_ancestor (hn : n < t.number h) : t.parent (t.ancestor h (n + 1)) = t.ancestor h n := by
  have hlt : n < t.number (t.ancestor h (n + 1)) := by rw [t.number_ancestor hn]; omega
  have hnum := t.number_of_parent hlt
  rw [t.number_ancestor hn] at hnum
  have hself : t.number (t.parent (t.ancestor h (n + 1))) = n := by omega
  calc t.parent (t.ancestor h (n + 1)) = t.ancestor (t.parent (t.ancestor h (n + 1))) n := by
        nth_rewrite 3 [← hself]
        rw [ancestor_self]
    _ = t.ancestor (t.ancestor h (n + 1)) n := t.ancestor_parent hlt
    _ = t.ancestor h n := t.ancestor_ancestor (Nat.le_succ n) hn

theorem eq_genesis (hn : t.number h = 0) : h = t.genesis := by
  by_contra hne
  have := t.number_parent h hne
  omega

/-- Branches that share a block share everything below it. -/
theorem ancestor_eq_of_le (hmn : m ≤ n) (hn : n ≤ t.number h) (hn' : n ≤ t.number p)
    (heq : t.ancestor h n = t.ancestor p n) : t.ancestor h m = t.ancestor p m := by
  rw [← t.ancestor_ancestor hmn hn, heq, t.ancestor_ancestor hmn hn']

/-! ## Linked lists of blocks -/

/-- Each block is the child of the one before it. -/
def Child (a b : H) : Prop := t.parent b = a ∧ t.number b = t.number a + 1

/-- A list of blocks that starts with a child of `p`. -/
def Linked (p : H) : List H → Prop
  | [] => True
  | h :: hs => t.Child p h ∧ Linked h hs

variable {t} {hs ks : List H}

theorem Linked.append (hh : t.Linked p hs) (hk : t.Linked (hs.getLastD p) ks) :
    t.Linked p (hs ++ ks) := by
  induction hs generalizing p with
  | nil => exact hk
  | cons h hs ih =>
    rw [getLastD_cons] at hk
    exact ⟨hh.1, ih hh.2 hk⟩

theorem Linked.number_last (h : t.Linked p hs) :
    t.number (hs.getLastD p) = t.number p + hs.length := by
  induction hs generalizing p with
  | nil => rfl
  | cons x hs ih =>
    rw [getLastD_cons, ih h.2, h.1.2, length_cons]
    omega

variable {x : H} {d : ℕ}

theorem Linked.number_mem (h : t.Linked p hs) (hx : x ∈ hs) :
    t.number p < t.number x ∧ t.number x ≤ t.number (hs.getLastD p) := by
  induction hs generalizing p with
  | nil => cases hx
  | cons y hs ih =>
    have hy := h.1.2
    have hlast := h.2.number_last
    rw [getLastD_cons]
    obtain rfl | hx := mem_cons.mp hx
    · omega
    · have := ih h.2 hx
      omega

/-- Every block of the list stands on the branch of the last one. -/
theorem Linked.ancestor_last (h : t.Linked p hs) (hn : n ≤ t.number p) :
    t.ancestor (hs.getLastD p) n = t.ancestor p n := by
  induction hs generalizing p with
  | nil => rfl
  | cons x hs ih =>
    obtain ⟨rfl, hnum⟩ := h.1
    rw [getLastD_cons, ih h.2 (by omega), t.ancestor_parent (by omega)]

/-! ## The upper end of a branch -/

variable (t) in
/-- The upper `d` blocks of a branch, from the top. -/
def top : ℕ → H → List H
  | 0, _ => []
  | d + 1, h => h :: top d (t.parent h)

theorem ancestor_sub_succ (hd : d < t.number h) :
    t.ancestor (t.parent h) (t.number (t.parent h) - d) = t.ancestor h (t.number h - (d + 1)) := by
  have hnum := t.number_of_parent hd
  rw [t.ancestor_parent (by omega)]
  congr 1
  omega

theorem top_add (a b : ℕ) (ha : a ≤ t.number h) :
    t.top (a + b) h = t.top a h ++ t.top b (t.ancestor h (t.number h - a)) := by
  induction a generalizing h with
  | zero => simp [top]
  | succ a ih =>
    have hnum := t.number_of_parent (Nat.lt_of_succ_le ha)
    rw [show a + 1 + b = a + b + 1 by omega, top, top, ih (by omega),
      ancestor_sub_succ (Nat.lt_of_succ_le ha), cons_append]

theorem getLastD_top (hd : d ≠ 0) (h x : H) : (t.top d h).reverse.getLastD x = h := by
  obtain ⟨d, rfl⟩ := Nat.exists_eq_succ_of_ne_zero hd
  simp [top]

theorem mem_top (hd : d ≤ t.number h) :
    x ∈ t.top d h ↔ ∃ n, t.number h - d < n ∧ n ≤ t.number h ∧ x = t.ancestor h n := by
  induction d generalizing h with
  | zero =>
    simp only [top, not_mem_nil, false_iff]
    rintro ⟨n, hn, hn', -⟩
    omega
  | succ d ih =>
    have hnum := t.number_of_parent (Nat.lt_of_succ_le hd)
    rw [top, mem_cons, ih (by omega)]
    constructor
    · rintro (rfl | ⟨n, hn, hn', rfl⟩)
      · exact ⟨t.number x, by omega, le_rfl, (t.ancestor_self x).symm⟩
      · exact ⟨n, by omega, by omega, t.ancestor_parent (by omega)⟩
    · rintro ⟨n, hn, hn', rfl⟩
      rcases Nat.eq_or_lt_of_le hn' with rfl | hlt
      · exact .inl (t.ancestor_self h)
      · exact .inr ⟨n, by omega, by omega, (t.ancestor_parent hlt).symm⟩

/-- The upper end of a branch leads from the block below it to the top. -/
theorem linked_top (hd : d ≤ t.number h) :
    t.Linked (t.ancestor h (t.number h - d)) (t.top d h).reverse ∧
      (t.top d h).reverse.getLastD (t.ancestor h (t.number h - d)) = h := by
  induction d generalizing h with
  | zero => exact ⟨trivial, t.ancestor_self h⟩
  | succ d ih =>
    have hnum := t.number_of_parent (Nat.lt_of_succ_le hd)
    obtain ⟨hl, hlast⟩ := ih (h := t.parent h) (by omega)
    rw [ancestor_sub_succ (Nat.lt_of_succ_le hd)] at hl hlast
    rw [top, reverse_cons]
    refine ⟨hl.append ?_, by simp⟩
    rw [hlast]
    exact ⟨⟨rfl, hnum.symm⟩, trivial⟩

end BlockTree

/-! ## The index -/

/-- A finite map from heights to blocks: nothing stands at `bound` or above. -/
structure Index (H : Type) where
  hash : ℕ → Option H
  bound : ℕ
  empty : ∀ n, bound ≤ n → hash n = none

namespace Index

variable {H : Type}

def write (c : Index H) (n : ℕ) (h : H) : Index H where
  hash := Function.update c.hash n (some h)
  bound := max c.bound (n + 1)
  empty m hm := by
    have hne : m ≠ n := by omega
    rw [Function.update_of_ne hne]
    exact c.empty m (by omega)

def delete (c : Index H) (n : ℕ) : Index H where
  hash := Function.update c.hash n none
  bound := c.bound
  empty m hm := by
    by_cases hne : m = n
    · rw [hne, Function.update_self]
    · rw [Function.update_of_ne hne]
      exact c.empty m hm

@[simp] theorem write_hash (c : Index H) (n m : ℕ) (h : H) :
    (c.write n h).hash m = if m = n then some h else c.hash m := by
  simp [write, Function.update_apply]

@[simp] theorem delete_hash (c : Index H) (n m : ℕ) :
    (c.delete n).hash m = if m = n then none else c.hash m := by
  simp [delete, Function.update_apply]

theorem foldl_delete_hash (c : Index H) (nums : List ℕ) (m : ℕ) :
    (nums.foldl delete c).hash m = if m ∈ nums then none else c.hash m := by
  induction nums generalizing c with
  | nil => simp
  | cons n nums ih =>
    rw [List.foldl_cons, ih, delete_hash]
    by_cases hm : m = n <;> simp [hm]

/-- Deletes in `batch` the numbers from `i` on that `db` has, until one is
missing there. -/
def deleteUp (db : Index H) (i : ℕ) (batch : Index H) : Index H :=
  if _h : db.hash i = none then batch else deleteUp db (i + 1) (batch.delete i)
termination_by db.bound - i
decreasing_by
  have hlt : i < db.bound := by
    by_contra hge
    exact _h (db.empty i (by omega))
  omega

theorem deleteUp_hash (db : Index H) (i : ℕ) (batch : Index H) (n : ℕ) :
    (db.deleteUp i batch).hash n =
      if i ≤ n ∧ ∀ j, i ≤ j → j ≤ n → db.hash j ≠ none then none else batch.hash n := by
  fun_induction deleteUp db i batch with
  | case1 i batch hnone =>
    rw [if_neg]
    rintro ⟨hle, hall⟩
    exact hall i le_rfl hle hnone
  | case2 i batch hsome ih =>
    rw [ih, delete_hash]
    by_cases hin : i = n
    · subst hin
      have hone : i ≤ i ∧ ∀ j, i ≤ j → j ≤ i → db.hash j ≠ none := by
        refine ⟨le_rfl, ?_⟩
        intro j hj hj'
        rwa [show j = i by omega]
      rw [if_pos hone]
      simp
    · have hiff : (i + 1 ≤ n ∧ ∀ j, i + 1 ≤ j → j ≤ n → db.hash j ≠ none) ↔
          (i ≤ n ∧ ∀ j, i ≤ j → j ≤ n → db.hash j ≠ none) := by
        constructor
        · rintro ⟨hle, hall⟩
          refine ⟨by omega, ?_⟩
          intro j hj hj'
          rcases Nat.eq_or_lt_of_le hj with rfl | hlt
          · exact hsome
          · exact hall j hlt hj'
        · rintro ⟨hle, hall⟩
          exact ⟨by omega, fun j hj hj' => hall j (by omega) hj'⟩
      rw [if_neg (Ne.symm hin)]
      simp only [hiff]

section
variable (t : BlockTree H) {c db batch : Index H} {h p cur : H} {n m : ℕ}

/-- The index is the branch of `h`, and nothing else. -/
def Follows (c : Index H) (h : H) : Prop :=
  ∀ n, c.hash n = if n ≤ t.number h then some (t.ancestor h n) else none

/-- The index is the branch of `h` up to the height of `h`. -/
def UpTo (c : Index H) (h : H) : Prop := ∀ n ≤ t.number h, c.hash n = some (t.ancestor h n)

/-- The index of a branch. -/
def branch (h : H) : Index H where
  hash n := if n ≤ t.number h then some (t.ancestor h n) else none
  bound := t.number h + 1
  empty n hn := if_neg (by omega)

variable {t}

theorem branch_follows (h : H) : (branch t h).Follows t h := fun _ => rfl

theorem Follows.upTo (hf : c.Follows t h) : c.UpTo t h := by
  intro n hn
  rw [hf n, if_pos hn]

theorem Follows.above (hf : c.Follows t h) (hn : t.number h < n) : c.hash n = none := by
  rw [hf n, if_neg (by omega)]

theorem follows_iff : c.Follows t h ↔ c.UpTo t h ∧ ∀ n, t.number h < n → c.hash n = none := by
  constructor
  · intro hf
    exact ⟨hf.upTo, fun n => hf.above⟩
  · rintro ⟨hup, habove⟩ n
    split
    next hn => exact hup n hn
    next hn => exact habove n (by omega)

/-- The numbers above `i` that follow the head are all deleted. -/
theorem Follows.deleteUp_hash (hf : db.Follows t cur) (i : ℕ) (batch : Index H) (n : ℕ) :
    (db.deleteUp i batch).hash n = if i ≤ n ∧ n ≤ t.number cur then none else batch.hash n := by
  have hiff : (i ≤ n ∧ ∀ j, i ≤ j → j ≤ n → db.hash j ≠ none) ↔ (i ≤ n ∧ n ≤ t.number cur) := by
    constructor
    · rintro ⟨hle, hall⟩
      refine ⟨hle, ?_⟩
      by_contra hn
      exact hall n hle le_rfl (hf.above (by omega))
    · rintro ⟨hle, hn⟩
      refine ⟨hle, ?_⟩
      intro j _ hj
      rw [hf.upTo j (by omega)]
      simp
  rw [Index.deleteUp_hash]
  simp only [hiff]

/-- One more block on the branch. -/
theorem UpTo.write (hc : c.UpTo t p) (hchild : t.Child p h) :
    (c.write (t.number h) h).UpTo t h := by
  obtain ⟨rfl, hnum⟩ := hchild
  intro n hn
  rw [write_hash]
  split
  next heq => rw [heq, t.ancestor_self]
  next hne => rw [hc n (by omega), t.ancestor_parent (by omega)]

theorem Follows.write (hf : c.Follows t p) (hchild : t.Child p h) :
    (c.write (t.number h) h).Follows t h := by
  rw [follows_iff]
  refine ⟨hf.upTo.write hchild, ?_⟩
  intro n hn
  have hnum := hchild.2
  rw [write_hash, if_neg (by omega), hf.above (by omega)]

theorem UpTo.ancestor (hc : c.UpTo t h) (hn : n ≤ t.number h) : c.UpTo t (t.ancestor h n) := by
  intro m hm
  rw [t.number_ancestor hn] at hm
  rw [hc m (by omega), t.ancestor_ancestor hm hn]

/-- Writes the blocks of a list at their heights. -/
def writeAll (t : BlockTree H) (c : Index H) (hs : List H) : Index H :=
  hs.foldl (fun c h => c.write (t.number h) h) c

theorem UpTo.writeAll {hs : List H} (hc : c.UpTo t p) (hl : t.Linked p hs) :
    (c.writeAll t hs).UpTo t (hs.getLastD p) := by
  induction hs generalizing c p with
  | nil => exact hc
  | cons h hs ih =>
    rw [List.getLastD_cons]
    exact ih (hc.write hl.1) hl.2

/-- Only the heights of the list are written. -/
theorem writeAll_of_ne {hs : List H} (hne : ∀ h ∈ hs, t.number h ≠ n) :
    (c.writeAll t hs).hash n = c.hash n := by
  induction hs generalizing c with
  | nil => rfl
  | cons h hs ih =>
    have hrest : ∀ x ∈ hs, t.number x ≠ n := fun x hx => hne x (List.mem_cons_of_mem h hx)
    exact (ih hrest).trans (by rw [write_hash, if_neg (hne h List.mem_cons_self).symm])

/-- Goes back from `h` at height `n` and writes its branch into `batch`, until
`db` agrees or height zero is reached. A block that is missing stops it. -/
def relink [DecidableEq H] (t : BlockTree H) (known : H → Bool) (db : Index H) :
    ℕ → H → Index H → Option (Index H)
  | 0, _, batch => some batch
  | n + 1, h, batch =>
    if db.hash (n + 1) = some h then some batch
    else if known h then relink t known db n (t.parent h) (batch.write (n + 1) h)
    else none

/-- The branch of `h` is written, and nothing above `h` is touched. -/
theorem Follows.relink [DecidableEq H] {known : H → Bool} (hf : db.Follows t cur)
    (hknown : ∀ n ≤ t.number h, known (t.ancestor h n) = true)
    (hbatch : ∀ m ≤ t.number h, batch.hash m = db.hash m) :
    ∃ c, Index.relink t known db (t.number h) h batch = some c ∧ c.UpTo t h ∧
      ∀ m, t.number h < m → c.hash m = batch.hash m := by
  induction hn : t.number h generalizing h batch with
  | zero =>
    refine ⟨batch, rfl, ?_, fun _ _ => rfl⟩
    intro m hm
    have hzero : t.ancestor cur 0 = t.ancestor h 0 := by
      rw [t.eq_genesis (t.number_ancestor (Nat.zero_le _)),
        t.eq_genesis (t.number_ancestor (Nat.zero_le _))]
    obtain rfl : m = 0 := by omega
    rw [hbatch 0 hm, hf.upTo 0 (Nat.zero_le _), hzero]
  | succ n ih =>
    have hparent : t.number (t.parent h) = n := by
      have := t.number_of_parent (h := h) (n := 0) (by omega)
      omega
    rw [Index.relink]
    split
    next heq =>
      -- from here down the two branches are one
      refine ⟨batch, rfl, ?_, fun _ _ => rfl⟩
      have hle : n + 1 ≤ t.number cur := by
        by_contra hgt
        rw [hf.above (by omega)] at heq
        cases heq
      have hmeet : t.ancestor cur (n + 1) = t.ancestor h (n + 1) := by
        rw [hf.upTo _ hle, Option.some_inj] at heq
        rw [heq, ← hn, t.ancestor_self]
      intro m hm
      rw [hbatch m hm, hf.upTo m (by omega), t.ancestor_eq_of_le (by omega) hle hn.ge hmeet]
    next =>
      have hself : known h = true := by
        have := hknown (t.number h) le_rfl
        rwa [t.ancestor_self] at this
      have hbelow : ∀ m ≤ t.number (t.parent h), known (t.ancestor (t.parent h) m) = true := by
        intro m hm
        rw [t.ancestor_parent (by omega)]
        exact hknown m (by omega)
      have hkeep : ∀ m ≤ t.number (t.parent h), (batch.write (n + 1) h).hash m = db.hash m := by
        intro m hm
        rw [write_hash, if_neg (by omega), hbatch m (by omega)]
      obtain ⟨c, hc, hup, habove⟩ := ih hbelow hkeep hparent
      rw [if_pos hself, hc]
      refine ⟨c, rfl, ?_, ?_⟩
      · intro m hm
        rcases lt_or_ge m (n + 1) with hlt | hge
        · rw [hup m (by omega), t.ancestor_parent (by omega)]
        · obtain rfl : m = t.number h := by omega
          rw [habove _ (by omega), write_hash, if_pos hn, t.ancestor_self]
      · intro m hm
        rw [habove m (by omega), write_hash, if_neg (by omega)]

end

end Index
