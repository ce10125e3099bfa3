import Mathlib.Data.List.Perm.Basic

/-!
# Heaps in a slice

`container/heap` over a slice and a `Less`:

* `init`, `push`, `pop` and `fix` as the package computes them, from `up` and `down`;
* `Ordered`: no element is before its parent;
* `Ordered.root`: the first element of a heap is a least one;
* `ordered_init`, `Ordered.push`, `Loose.fix`: these operations make heaps, and
  `perm_init`, `perm_push`, `perm_fix` say of which elements;
* `pop_spec`, `remove_spec`: what is taken out, and that a heap is left.
-/

namespace Go.Heap

open List

variable {α : Type} (less : α → α → Bool) {h : List α} {c i j k n : ℕ} {x : α}

/-- `h.Less(i, j)`. -/
def lessAt (h : List α) (i j : ℕ) : Bool :=
  match h[i]?, h[j]? with
  | some a, some b => less a b
  | _, _ => false

/-- The child of `i` that `down` looks at. -/
def child (h : List α) (i n : ℕ) : ℕ :=
  if 2 * i + 2 < n ∧ lessAt less h (2 * i + 2) (2 * i + 1) then 2 * i + 2 else 2 * i + 1

theorem lt_child (h : List α) (i n : ℕ) : i < child less h i n := by
  unfold child
  split <;> omega

theorem child_lt (hi : 2 * i + 1 < n) : child less h i n < n := by
  unfold child
  split
  · next hj => exact hj.1
  · exact hi

/-- The loop of `down`, with the place where it ends. -/
def down (h : List α) (i n : ℕ) : List α × ℕ :=
  if 2 * i + 1 < n then
    if lessAt less h (child less h i n) i then
      down (h.swap i (child less h i n)) (child less h i n) n
    else (h, i)
  else (h, i)
termination_by n - i
decreasing_by
  have := lt_child less h i n
  omega

/-- The loop of `up`. -/
def up (h : List α) (j : ℕ) : List α :=
  if (j - 1) / 2 = j then h
  else if lessAt less h j ((j - 1) / 2) then up (h.swap ((j - 1) / 2) j) ((j - 1) / 2)
  else h
termination_by j
decreasing_by omega

/-- The loop of `Init`: `down` at `k - 1`, …, `0`. -/
def initFrom (h : List α) (n : ℕ) : ℕ → List α
  | 0 => h
  | k + 1 => initFrom (down less h k n).1 n k

def init (h : List α) : List α := initFrom less h h.length (h.length / 2)

def push (h : List α) (x : α) : List α := up less (h ++ [x]) h.length

/-- `Pop`: the element and the rest, `none` where the slice is empty. -/
def pop (h : List α) : Option (α × List α) :=
  (down less (h.swap 0 (h.length - 1)) 0 (h.length - 1)).1.getLast?.map fun x =>
    (x, (down less (h.swap 0 (h.length - 1)) 0 (h.length - 1)).1.dropLast)

/-- `if !down(h, i, n) { up(h, i) }`. -/
def settle (h : List α) (i n : ℕ) : List α :=
  if (down less h i n).2 > i then (down less h i n).1 else up less (down less h i n).1 i

def fix (h : List α) (i : ℕ) : List α := settle less h i h.length

/-- `Remove`, without the element. -/
def remove (h : List α) (i : ℕ) : List α :=
  if h.length - 1 ≠ i then (settle less (h.swap i (h.length - 1)) i (h.length - 1)).dropLast
  else h.dropLast

/-! ## The elements -/

variable {less}

section
variable (h : List α)

theorem perm_down (i n : ℕ) : (down less h i n).1.Perm h := by
  fun_induction down less h i n with
  | case1 h i hi hless ih => exact ih.trans (swap_perm h _ _)
  | case2 => exact List.Perm.refl _
  | case3 => exact List.Perm.refl _

theorem perm_up (j : ℕ) : (up less h j).Perm h := by
  fun_induction up less h j with
  | case1 => exact List.Perm.refl _
  | case2 h j hj hless ih => exact ih.trans (swap_perm h _ _)
  | case3 => exact List.Perm.refl _

theorem perm_initFrom (n k : ℕ) : (initFrom less h n k).Perm h := by
  induction k generalizing h with
  | zero => exact List.Perm.refl _
  | succ k ih => exact (ih _).trans (perm_down h k n)

theorem perm_init : (init less h).Perm h := perm_initFrom h _ _

theorem perm_push (x : α) : (push less h x).Perm (x :: h) := (perm_up _ _).trans perm_append_comm

theorem perm_settle (i n : ℕ) : (settle less h i n).Perm h := by
  unfold settle
  split
  · exact perm_down h i n
  · exact (perm_up _ _).trans (perm_down h i n)

theorem perm_fix (i : ℕ) : (fix less h i).Perm h := perm_settle h i _

theorem length_down (i n : ℕ) : (down less h i n).1.length = h.length := (perm_down h i n).length_eq

end

/-! ## The order -/

/-- `c` is a child of `p`. -/
def Edge (p c : ℕ) : Prop := c = 2 * p + 1 ∨ c = 2 * p + 2

variable {p i' j' : ℕ} {h' : List α}

theorem Edge.lt (h : Edge p c) : p < c := by
  unfold Edge at h
  omega

theorem Edge.parent_unique {q : ℕ} (h : Edge p c) (h' : Edge q c) : p = q := by
  unfold Edge at h h'
  omega

theorem exists_edge (h : 0 < c) : ∃ p, Edge p c := by
  refine ⟨(c - 1) / 2, ?_⟩
  unfold Edge
  omega

theorem child_edge (h : List α) (i n : ℕ) : Edge i (child less h i n) := by
  unfold child Edge
  split
  · exact .inr rfl
  · exact .inl rfl

variable (less)

/-- The element at `j` is not before the one at `i`. -/
def Ok (h : List α) (i j : ℕ) : Prop := lessAt less h j i = false

/-- Among the first `n` elements, from `lo` on, no child is before its parent. -/
def OrderedFrom (h : List α) (n lo : ℕ) : Prop :=
  ∀ p c, lo ≤ p → Edge p c → c < n → Ok less h p c

def Ordered (h : List α) : Prop := OrderedFrom less h h.length 0

/-- The order of `down` in progress: only `i` may be after its children, and these are
not before the parent of `i`. -/
structure Broken (h : List α) (n lo i : ℕ) : Prop where
  away : ∀ p c, lo ≤ p → p ≠ i → Edge p c → c < n → Ok less h p c
  across : ∀ p c, lo ≤ p → Edge p i → Edge i c → c < n → Ok less h p c

/-- The order of `up` in progress: only `j` may be before its parent, and its children
are not. -/
structure Raised (h : List α) (n j : ℕ) : Prop where
  away : ∀ p c, c ≠ j → Edge p c → c < n → Ok less h p c
  across : ∀ p c, Edge p j → Edge j c → c < n → Ok less h p c

/-- The order after the element at `i` was replaced. -/
structure Loose (h : List α) (n i : ℕ) : Prop where
  away : ∀ p c, p ≠ i → c ≠ i → Edge p c → c < n → Ok less h p c
  across : ∀ p c, Edge p i → Edge i c → c < n → Ok less h p c

/-- `Less` is asymmetric, and what is not before goes on being not before. -/
structure Lawful : Prop where
  asymm : ∀ a b, less a b = true → less b a = false
  trans : ∀ a b c, less b a = false → less c b = false → less c a = false

variable {less}

theorem ok_congr (hi : h[i]? = h'[i']?) (hj : h[j]? = h'[j']?) :
    Ok less h i j ↔ Ok less h' i' j' := by
  rw [Ok, Ok, lessAt, lessAt, hi, hj]

theorem getElem?_swap_left (hi : i < h.length) (hj : j < h.length) : (h.swap i j)[i]? = h[j]? := by
  rw [getElem?_eq_getElem (by simpa using hi), getElem_swap_left_of_lt hj, getElem?_eq_getElem hj]

theorem getElem?_swap_right (hi : i < h.length) (hj : j < h.length) : (h.swap i j)[j]? = h[i]? := by
  rw [swap_comm, getElem?_swap_left hj hi]

theorem getElem?_swap_other (hki : k ≠ i) (hkj : k ≠ j) : (h.swap i j)[k]? = h[k]? := by
  by_cases hk : k < h.length
  · rw [getElem?_eq_getElem (by simpa using hk), getElem_swap_of_ne hki hkj, getElem?_eq_getElem hk]
  · rw [getElem?_eq_none (by simpa using hk), getElem?_eq_none (by simpa using hk)]

theorem down_beyond (hk : n ≤ k) : (down less h i n).1[k]? = h[k]? := by
  fun_induction down less h i n with
  | case1 h i hi hless ih =>
    have hj : child less h i n < n := child_lt less hi
    rw [ih, getElem?_swap_other (by omega) (by omega)]
  | case2 => rfl
  | case3 => rfl

theorem up_beyond (hk : j < k) : (up less h j)[k]? = h[k]? := by
  fun_induction up less h j with
  | case1 => rfl
  | case2 h j hj hless ih => rw [ih (by omega), getElem?_swap_other (by omega) (by omega)]
  | case3 => rfl

theorem settle_beyond (hi : i < n) (hk : n ≤ k) : (settle less h i n)[k]? = h[k]? := by
  unfold settle
  split
  · exact down_beyond hk
  · rw [up_beyond (by omega), down_beyond hk]

/-- The first `n` elements of an ordered slice, where there is one more. -/
theorem OrderedFrom.dropLast (ho : OrderedFrom less h n 0)
    (hn : h.length = n + 1) : Ordered less h.dropLast := by
  intro p c hp hpc hc
  have hlen : h.dropLast.length = n := by simp [hn]
  have hlt := hpc.lt
  have same : ∀ i, i < n → h.dropLast[i]? = h[i]? := by
    intro i hi
    rw [getElem?_dropLast, if_pos (by omega)]
  rw [ok_congr (same p (by omega)) (same c (by omega))]
  exact ho p c hp hpc (by omega)

section Laws
variable (law : Lawful less) {h : List α} {i j lo n : ℕ}
include law

theorem Ok.trans {k : ℕ} (hj : j < h.length) (hij : Ok less h i j)
    (hjk : Ok less h j k) : Ok less h i k := by
  unfold Ok lessAt at *
  rw [getElem?_eq_getElem hj] at hij hjk
  cases hk : h[k]? with
  | none => rfl
  | some c =>
    cases hi : h[i]? with
    | none => rfl
    | some a =>
      simp only [hi, hk] at hij hjk ⊢
      exact law.trans _ _ _ hij hjk

theorem Ok.of_less (hless : lessAt less h i j = true) : Ok less h i j := by
  unfold Ok lessAt at *
  cases hi : h[i]? with
  | none => simp [hi] at hless
  | some a =>
    cases hj : h[j]? with
    | none => simp [hi, hj] at hless
    | some b =>
      simp only [hi, hj] at hless ⊢
      exact law.asymm a b hless

theorem Ok.refl (h : List α) (i : ℕ) : Ok less h i i := by
  by_contra hne
  have hless : lessAt less h i i = true := by simpa [Ok] using hne
  exact hne (Ok.of_less law hless)

/-- The child that `down` looks at is not after the other one. -/
theorem child_ok {c : ℕ} (hc : Edge i c) (hcn : c < n) : Ok less h (child less h i n) c := by
  unfold child
  split
  · next hj =>
    rcases hc with rfl | rfl
    · exact Ok.of_less law hj.2
    · exact Ok.refl law h _
  · next hj =>
    rcases hc with rfl | rfl
    · exact Ok.refl law h _
    · unfold Ok
      simpa using fun hless => hj ⟨hcn, hless⟩

/-- Where `down` stops at `i`, no child of `i` is before it. -/
theorem ok_of_stop {c : ℕ} (hn : n ≤ h.length)
    (hstop : 2 * i + 1 < n → Ok less h i (child less h i n)) (hc : Edge i c) (hcn : c < n) :
    Ok less h i c := by
  have hleft : 2 * i + 1 < n := by
    rcases hc with rfl | rfl <;> omega
  have hlt : child less h i n < n := child_lt less hleft
  exact Ok.trans law (by omega) (hstop hleft) (child_ok law hc hcn)

section
variable (hb : Broken less h n lo i) (hn : n ≤ h.length)
include hb hn

theorem Broken.move (hi : 2 * i + 1 < n) (hless : lessAt less h (child less h i n) i = true) :
    Broken less (h.swap i (child less h i n)) n lo (child less h i n) := by
  have hij : Edge i (child less h i n) := child_edge h i n
  have hjn : child less h i n < n := child_lt less hi
  have hpick : ∀ c, Edge i c → c < n → Ok less h (child less h i n) c := fun c => child_ok law
  generalize child less h i n = j at *
  have hlt := hij.lt
  have hi' : i < h.length := by omega
  have hj' : j < h.length := by omega
  refine ⟨?_, ?_⟩
  · intro p c hp hpj hpc hc
    by_cases hpi : p = i
    · subst hpi
      by_cases hcj : c = j
      · subst hcj
        rw [ok_congr (getElem?_swap_left hi' hj') (getElem?_swap_right hi' hj')]
        exact Ok.of_less law hless
      · have hci : c ≠ p := by have := hpc.lt; omega
        rw [ok_congr (getElem?_swap_left hi' hj') (getElem?_swap_other hci hcj)]
        exact hpick c hpc hc
    · by_cases hci : c = i
      · subst hci
        rw [ok_congr (getElem?_swap_other hpi hpj) (getElem?_swap_left hi' hj')]
        exact hb.across p j hp hpc hij hjn
      · have hcj : c ≠ j := fun hcj => hpi (Edge.parent_unique hpc (hcj ▸ hij))
        rw [ok_congr (getElem?_swap_other hpi hpj) (getElem?_swap_other hci hcj)]
        exact hb.away p c hp hpi hpc hc
  · intro p c hp hpj hjc hc
    obtain rfl := Edge.parent_unique hpj hij
    have hcj := hjc.lt
    rw [ok_congr (getElem?_swap_left hi' hj') (getElem?_swap_other (by omega) (by omega))]
    exact hb.away j c (by omega) (by omega) hjc hc

theorem Broken.finish
    (hstop : 2 * i + 1 < n → Ok less h i (child less h i n)) : OrderedFrom less h n lo := by
  intro p c hp hpc hc
  by_cases hpi : p = i
  · subst hpi
    exact ok_of_stop law hn hstop hpc hc
  · exact hb.away p c hp hpi hpc hc

theorem Broken.down : OrderedFrom less (down less h i n).1 n lo := by
  fun_induction Heap.down less h i n with
  | case1 h i hi hless ih => exact ih (hb.move law hn hi hless) (by simpa using hn)
  | case2 h i hi hless =>
    refine hb.finish law hn fun _ => ?_
    simpa [Ok] using hless
  | case3 h i hi => exact hb.finish law hn fun hlt => absurd hlt hi

end

theorem Raised.up (hr : Raised less h n j) (hj : j < n) (hn : n ≤ h.length) :
    OrderedFrom less (up less h j) n 0 := by
  fun_induction Heap.up less h j with
  | case1 h j hroot =>
    -- only the root is its own parent
    intro p c _ hpc hc
    have := hpc.lt
    exact hr.away p c (by omega) hpc hc
  | case2 h j hne hless ih =>
    have hij : Edge ((j - 1) / 2) j := by
      unfold Edge
      omega
    generalize (j - 1) / 2 = i at *
    have hlt := hij.lt
    have hi' : i < h.length := by omega
    have hj' : j < h.length := by omega
    refine ih ⟨?_, ?_⟩ (by omega) (by simpa using hn)
    · intro p c hci hpc hc
      by_cases hpi : p = i
      · subst hpi
        by_cases hcj : c = j
        · subst hcj
          rw [ok_congr (getElem?_swap_left hi' hj') (getElem?_swap_right hi' hj')]
          exact Ok.of_less law hless
        · rw [ok_congr (getElem?_swap_left hi' hj') (getElem?_swap_other hci hcj)]
          exact Ok.trans law hi' (Ok.of_less law hless) (hr.away p c hcj hpc hc)
      · have hcj : c ≠ j := fun hcj => hpi (Edge.parent_unique hpc (hcj ▸ hij))
        by_cases hpj : p = j
        · subst hpj
          rw [ok_congr (getElem?_swap_right hi' hj') (getElem?_swap_other hci hcj)]
          exact hr.across i c hij hpc hc
        · rw [ok_congr (getElem?_swap_other hpi hpj) (getElem?_swap_other hci hcj)]
          exact hr.away p c hcj hpc hc
    · intro p c hpi hic hc
      have hp := hpi.lt
      have hup : Ok less h p i := hr.away p i (by omega) hpi (by omega)
      by_cases hcj : c = j
      · subst hcj
        rw [ok_congr (getElem?_swap_other (by omega) (by omega)) (getElem?_swap_right hi' hj')]
        exact hup
      · have hci := hic.lt
        rw [ok_congr (getElem?_swap_other (by omega) (by omega))
          (getElem?_swap_other (by omega) hcj)]
        exact Ok.trans law hi' hup (hr.away i c hcj hic hc)
  | case3 h j hne hstop =>
    have hij : Edge ((j - 1) / 2) j := by
      unfold Edge
      omega
    intro p c _ hpc hc
    by_cases hcj : c = j
    · subst hcj
      obtain rfl := Edge.parent_unique hpc hij
      simpa [Ok] using hstop
    · exact hr.away p c hcj hpc hc

/-- `down` and, where it does not move, `up` order a slice in which one element was
replaced. -/
theorem Loose.settle (hl : Loose less h n i) (hi : i < n)
    (hn : n ≤ h.length) : OrderedFrom less (settle less h i n) n 0 := by
  by_cases hmoves : 2 * i + 1 < n ∧ lessAt less h (child less h i n) i = true
  · -- the parent of `i` is not after the child that is before `i`
    have hlt : child less h i n < n := child_lt less hmoves.1
    have hb : Broken less h n 0 i := by
      refine ⟨?_, fun p c _ => hl.across p c⟩
      intro p c _ hpi hpc hc
      by_cases hci : c = i
      · subst hci
        have hchild := hl.across p _ hpc (child_edge h c n) hlt
        exact Ok.trans law (by omega) hchild (Ok.of_less law hmoves.2)
      · exact hl.away p c hpi hci hpc hc
    have hmoved : (Heap.down less h i n).2 > i := by
      have hge : ∀ (h : List α) (i : ℕ), i ≤ (Heap.down less h i n).2 := by
        intro h i
        fun_induction Heap.down less h i n with
        | case1 h i hi hless ih => exact Nat.le_of_lt (Nat.lt_of_lt_of_le (lt_child less h i n) ih)
        | case2 => exact Nat.le_refl _
        | case3 => exact Nat.le_refl _
      rw [Heap.down, if_pos hmoves.1, if_pos hmoves.2]
      exact Nat.lt_of_lt_of_le (lt_child less h i n) (hge _ _)
    rw [Heap.settle, if_pos hmoved]
    exact hb.down law hn
  · have hstay : Heap.down less h i n = (h, i) := by
      rw [Heap.down]
      split
      · next hleft => rw [if_neg fun hless => hmoves ⟨hleft, hless⟩]
      · rfl
    have hstop : 2 * i + 1 < n → Ok less h i (child less h i n) := by
      intro hleft
      simpa [Ok, hleft] using hmoves
    rw [Heap.settle, hstay, if_neg (by simp)]
    refine Raised.up law ⟨?_, hl.across⟩ hi hn
    intro p c hci hpc hc
    by_cases hpi : p = i
    · subst hpi
      exact ok_of_stop law hn hstop hpc hc
    · exact hl.away p c hpi hci hpc hc

/-! ## The operations -/

theorem ordered_initFrom {k : ℕ} (hn : n ≤ h.length)
    (ho : OrderedFrom less h n k) : OrderedFrom less (initFrom less h n k) n 0 := by
  induction k generalizing h with
  | zero => exact ho
  | succ k ih =>
    refine ih (by rw [length_down]; exact hn) (Broken.down law ⟨?_, ?_⟩ hn)
    · intro p c hp hpk
      exact ho p c (by omega)
    · intro p c hp hpk
      have := hpk.lt
      omega

theorem ordered_init (h : List α) : Ordered less (init less h) := by
  have hlen : (init less h).length = h.length := (perm_init h).length_eq
  rw [Ordered, hlen]
  refine ordered_initFrom law (Nat.le_refl _) ?_
  intro p c hp hpc hc
  rcases hpc with rfl | rfl <;> omega

theorem Loose.fix (hl : Loose less h h.length i) (hi : i < h.length) :
    Ordered less (fix less h i) := by
  have hlen : (Heap.fix less h i).length = h.length := (perm_fix h i).length_eq
  rw [Ordered, hlen]
  exact hl.settle law hi (Nat.le_refl _)

section
variable (ho : Ordered less h)
include ho

theorem Ordered.loose_set (hi : i < h.length) (x : α) :
    Loose less (h.set i x) (h.set i x).length i where
  away := by
    intro p c hpi hci hpc hc
    rw [ok_congr (getElem?_set_ne (by omega)) (getElem?_set_ne (by omega))]
    exact ho p c (Nat.zero_le p) hpc (by simpa using hc)
  across := by
    intro p c hpi hic hc
    have hp := hpi.lt
    have hc' := hic.lt
    rw [ok_congr (getElem?_set_ne (by omega)) (getElem?_set_ne (by omega))]
    rw [length_set] at hc
    exact Ok.trans law hi (ho p i (Nat.zero_le p) hpi hi) (ho i c (Nat.zero_le i) hic hc)

theorem Ordered.push (x : α) : Ordered less (push less h x) := by
  have hlen : (Heap.push less h x).length = (h ++ [x]).length := (perm_up _ _).length_eq
  rw [Ordered, hlen]
  refine Raised.up law ⟨?_, ?_⟩ (by simp) (Nat.le_refl _)
  · intro p c hne hpc hc
    have hp := hpc.lt
    simp only [length_append, length_singleton] at hc
    rw [ok_congr (getElem?_append_left (by omega)) (getElem?_append_left (by omega))]
    exact ho p c (Nat.zero_le p) hpc (by omega)
  · intro p c _ hlast hc
    have := hlast.lt
    simp only [length_append, length_singleton] at hc
    omega

theorem Ordered.root (hi : i < h.length) : Ok less h 0 i := by
  induction i using Nat.strongRecOn with
  | _ i ih =>
    rcases Nat.eq_zero_or_pos i with rfl | hpos
    · exact Ok.refl law h 0
    · obtain ⟨p, hp⟩ := exists_edge hpos
      have hlt := hp.lt
      have hpl : p < h.length := by omega
      exact Ok.trans law hpl (ih p hlt hpl) (ho p i (Nat.zero_le p) hp hi)

/-- The first element of a heap is not after any other one. -/
theorem Ordered.head_le {x y : α} (hx : h.head? = some x) (hy : y ∈ h) : less y x = false := by
  obtain ⟨i, hi, rfl⟩ := mem_iff_getElem.mp hy
  have hok := ho.root law hi
  rw [head?_eq_getElem?] at hx
  rw [Ok, lessAt, hx, getElem?_eq_getElem hi] at hok
  exact hok

/-- The order after the element at `i` and the last one changed places, the latter
being left out. -/
theorem Ordered.loose_swap (hn : h.length = n + 1) (hi : i < n) : Loose less (h.swap i n) n i where
  away := by
    intro p c hpi hci hpc hc
    have hp := hpc.lt
    rw [ok_congr (getElem?_swap_other hpi (by omega)) (getElem?_swap_other hci (by omega))]
    exact ho p c (Nat.zero_le p) hpc (by omega)
  across := by
    intro p c hpi hic hc
    have hp := hpi.lt
    have hc' := hic.lt
    rw [ok_congr (getElem?_swap_other (by omega) (by omega))
      (getElem?_swap_other (by omega) (by omega))]
    exact Ok.trans law (by omega) (ho p i (Nat.zero_le p) hpi (by omega))
      (ho i c (Nat.zero_le i) hic (by omega))

end

end Laws

/-- A slice with `x` last is `x` and the rest. -/
theorem perm_dropLast (hn : h.length = n + 1) (hx : h[n]? = some x) :
    h.getLast? = some x ∧ h.Perm (x :: h.dropLast) := by
  have hlast : h.getLast? = some x := by
    rw [getLast?_eq_getElem?, hn]
    exact hx
  refine ⟨hlast, ?_⟩
  conv => lhs; rw [← dropLast_append_getLast? x hlast]
  exact perm_append_comm

/-- `Pop` takes the first element. -/
theorem pop_spec (hx : h.head? = some x) :
    ∃ rest, pop less h = some (x, rest) ∧ h.Perm (x :: rest) ∧
      (Lawful less → Ordered less h → Ordered less rest) := by
  obtain ⟨n, hn⟩ : ∃ n, h.length = n + 1 :=
    Nat.exists_eq_add_one_of_ne_zero (by rintro h0; simp [length_eq_zero_iff.mp h0] at hx)
  have hlen : (down less (h.swap 0 n) 0 n).1.length = n + 1 := by rw [length_down, length_swap, hn]
  have hlast : (down less (h.swap 0 n) 0 n).1[n]? = some x := by
    rw [down_beyond (Nat.le_refl n), getElem?_swap_right (by omega) (by omega),
      ← head?_eq_getElem?, hx]
  obtain ⟨hget, hperm⟩ := perm_dropLast hlen hlast
  refine ⟨(down less (h.swap 0 n) 0 n).1.dropLast, ?_, ?_, ?_⟩
  · rw [pop, hn, Nat.add_sub_cancel, hget, Option.map_some]
  · exact ((swap_perm h 0 n).symm.trans (perm_down _ 0 n).symm).trans hperm
  · intro law ho
    refine OrderedFrom.dropLast ?_ hlen
    rcases Nat.eq_zero_or_pos n with rfl | hpos
    · intro p c _ _ hc
      exact absurd hc (Nat.not_lt_zero c)
    have hl := ho.loose_swap law hn hpos
    refine Broken.down law ⟨?_, ?_⟩ (by simp [hn])
    · intro p c _ hp hpc hc
      have := hpc.lt
      exact hl.away p c hp (by omega) hpc hc
    · intro p c _ hp
      exact absurd hp.lt (Nat.not_lt_zero p)

theorem pop_nil : pop less ([] : List α) = none := by
  have hnil : (down less (([] : List α).swap 0 (([] : List α).length - 1)) 0
      (([] : List α).length - 1)).1 = [] :=
    eq_nil_of_length_eq_zero (by rw [length_down]; rfl)
  rw [pop, hnil]
  rfl

theorem perm_pop {rest : List α} (hpop : pop less h = some (x, rest)) :
    h.head? = some x ∧ h.Perm (x :: rest) := by
  cases h with
  | nil => exact nomatch pop_nil.symm.trans hpop
  | cons y ys =>
    have hhead : (y :: ys).head? = some y := rfl
    obtain ⟨rest', hpop', hperm, -⟩ := pop_spec hhead
    obtain ⟨rfl, rfl⟩ := Prod.mk.inj (Option.some.inj (hpop'.symm.trans hpop))
    exact ⟨hhead, hperm⟩

theorem length_pop {rest : List α} (hpop : pop less h = some (x, rest)) :
    rest.length < h.length := by
  have hlen := (perm_pop hpop).2.length_eq
  rw [length_cons] at hlen
  omega

/-- `Remove` takes the element at `i`. -/
theorem remove_spec (hx : h[i]? = some x) :
    h.Perm (x :: remove less h i) ∧ (Lawful less → Ordered less h → Ordered less (remove less h i)) := by
  have hi : i < h.length := (List.getElem?_eq_some_iff.mp hx).1
  obtain ⟨n, hn⟩ : ∃ n, h.length = n + 1 := Nat.exists_eq_add_one_of_ne_zero (by omega)
  rw [remove, hn, Nat.add_sub_cancel]
  by_cases hin : n = i
  · subst hin
    rw [if_neg (by simp)]
    refine ⟨(perm_dropLast hn hx).2, fun _ ho => OrderedFrom.dropLast ?_ hn⟩
    intro p c hp hpc hc
    exact ho p c hp hpc (by omega)
  · rw [if_pos hin]
    have hlen : (settle less (h.swap i n) i n).length = n + 1 := by
      rw [(perm_settle _ i n).length_eq, length_swap, hn]
    have hlast : (settle less (h.swap i n) i n)[n]? = some x := by
      rw [settle_beyond (by omega) (Nat.le_refl n), getElem?_swap_right hi (by omega), hx]
    refine ⟨?_, fun law ho => OrderedFrom.dropLast ?_ hlen⟩
    · exact ((swap_perm h i n).symm.trans (perm_settle _ i n).symm).trans
        (perm_dropLast hlen hlast).2
    · exact (ho.loose_swap law hn (by omega)).settle law (by omega) (by simp [hn])

end Go.Heap
