import Dexit.Parlia.Lookup

/-! Chains of headers, databases that hold the older part of one, and the search
for an ancestor. -/

namespace Dexit.Parlia

open Go List UInt64

/-- The blocks from `0` to `tip`, each the parent of the next. -/
structure HeaderChain (crypto : Crypto) where
  tip : ℕ
  header : ℕ → Header
  tip_lt : tip < 2 ^ 64
  numbered : ∀ n ≤ tip, (header n).number = n
  linked : ∀ n < tip, (header (n + 1)).parentHash = crypto.hash (header n)

namespace HeaderChain
variable {crypto : Crypto} (c : HeaderChain crypto)

def hash (n : ℕ) : Hash := crypto.hash (c.header n)

/-- The headers above block `lo` up to block `hi`, in ascending order. -/
def between (lo hi : ℕ) : List Header := (List.range' (lo + 1) (hi - lo)).map c.header

/-- A database with the blocks up to `known` and no later ones of this chain. -/
structure Database (known : ℕ) extends HeaderReader where
  stored : ∀ n ≤ known, getHeader (c.hash n) (UInt64.ofNat n) = some (c.header n)
  missing : ∀ n, known < n → n ≤ c.tip → getHeader (c.hash n) (UInt64.ofNat n) = none
  genesis : getHeaderByNumber 0 = some (c.header 0)

/-- All headers are in the database. -/
def complete : c.Database c.tip where
  getHeader hash number :=
    if number.toNat ≤ c.tip ∧ hash = c.hash number.toNat then some (c.header number.toNat)
    else none
  getHeaderByNumber number :=
    if number.toNat ≤ c.tip then some (c.header number.toNat) else none
  stored n hn := by
    have hnat : (UInt64.ofNat n).toNat = n :=
      UInt64.toNat_ofNat_of_lt' (hn.trans_lt c.tip_lt)
    rw [hnat, if_pos ⟨hn, rfl⟩]
  missing n hlt hle := absurd hle (Nat.not_le_of_lt hlt)
  genesis := if_pos (Nat.zero_le _)

variable (config : ParliaConfig)

/-- The snapshot of block `n` with nothing stored and all headers in the database. -/
def fromGenesis (n : ℕ) : Option (Except Err Snapshot) :=
  (snapshot crypto config c.complete.toHeaderReader (n + 1) {} (UInt64.ofNat n) (c.hash n) []).map
    Prod.fst

end HeaderChain

/-! ## Headers of a chain -/

namespace HeaderChain
variable {crypto : Crypto} {c : HeaderChain crypto} {lo mid hi n known : ℕ}

theorem between_nil (h : hi ≤ lo) : c.between lo hi = [] := by
  rw [between, Nat.sub_eq_zero_of_le h]
  rfl

theorem between_concat (h : lo ≤ hi) :
    c.between lo (hi + 1) = c.between lo hi ++ [c.header (hi + 1)] := by
  have hlen : hi + 1 - lo = hi - lo + 1 := by omega
  have hlast : lo + 1 + (hi - lo) = hi + 1 := by omega
  rw [between, hlen, range'_1_concat, map_append, map_singleton, hlast]
  rfl

theorem between_cons (h : lo < hi) :
    c.between lo hi = c.header (lo + 1) :: c.between (lo + 1) hi := by
  have hlen : hi - lo = hi - (lo + 1) + 1 := by omega
  rw [between, hlen, range'_succ, map_cons]
  rfl

theorem between_append (hlo : lo ≤ mid) (hhi : mid ≤ hi) :
    c.between lo mid ++ c.between mid hi = c.between lo hi := by
  induction hi, hhi using Nat.le_induction with
  | base => rw [between_nil le_rfl, append_nil]
  | succ hi hmid ih =>
    rw [between_concat hmid, between_concat (hlo.trans hmid), ← append_assoc, ih]

theorem length_between : (c.between lo hi).length = hi - lo := by
  rw [between, length_map, length_range']

theorem getElem?_between {i : ℕ} (h : lo + 1 + i ≤ hi) :
    (c.between lo hi)[i]? = some (c.header (lo + 1 + i)) := by
  rw [between, getElem?_map, getElem?_range' (by omega), Option.map_some, Nat.one_mul]

theorem of_mem_between {h : Header} (hh : h ∈ c.between lo hi) :
    ∃ n, lo < n ∧ n ≤ hi ∧ c.header n = h := by
  simp only [between, mem_map, mem_range'_1] at hh
  obtain ⟨n, hn, rfl⟩ := hh
  exact ⟨n, by omega, by omega, rfl⟩

/-- A header of the list has the earlier ones before it. -/
theorem between_split (h : lo ≤ hi) {before after : List Header} {a : Header} :
    c.between lo hi = before ++ a :: after ↔ ∃ n, lo ≤ n ∧ n < hi ∧
      before = c.between lo n ∧ a = c.header (n + 1) ∧ after = c.between (n + 1) hi := by
  constructor
  · intro hsplit
    have hlen := congrArg List.length hsplit
    rw [length_between, length_append, length_cons] at hlen
    have hlt : lo + before.length < hi := by omega
    rw [← between_append (Nat.le_add_right lo before.length) hlt.le, between_cons hlt] at hsplit
    obtain ⟨hbefore, hrest⟩ := append_inj hsplit (by rw [length_between]; omega)
    cases hrest
    exact ⟨_, Nat.le_add_right _ _, hlt, hbefore.symm, rfl, rfl⟩
  · rintro ⟨n, hlo, hhi, rfl, rfl, rfl⟩
    rw [← between_cons hhi, between_append hlo hhi.le]

theorem number64_eq (hn : n ≤ c.tip) : (c.header n).number64 = ofNat n := by
  rw [Header.number64, c.numbered n hn]

theorem ofNat_toNat (hn : n ≤ c.tip) : (ofNat n).toNat = n :=
  toNat_ofNat_of_lt' (hn.trans_lt c.tip_lt)

theorem ofNat_succ_sub_one (n : ℕ) : ofNat (n + 1) - 1 = ofNat n := by
  rw [ofNat_add]
  exact UInt64.add_sub_cancel _ _

theorem ofNat_succ_ne_zero (hn : n + 1 ≤ c.tip) : ofNat (n + 1) ≠ 0 := by
  intro h
  have hnat := c.ofNat_toNat hn
  rw [h] at hnat
  cases hnat

theorem ofNat_le_iff {a b : ℕ} (ha : a ≤ c.tip) (hb : b ≤ c.tip) : ofNat a ≤ ofNat b ↔ a ≤ b := by
  rw [le_iff_toNat_le, c.ofNat_toNat ha, c.ofNat_toNat hb]

theorem ofNat_inj {a b : ℕ} (ha : a ≤ c.tip) (hb : b ≤ c.tip) :
    UInt64.ofNat a = UInt64.ofNat b ↔ a = b := by
  rw [← UInt64.toNat_inj, c.ofNat_toNat ha, c.ofNat_toNat hb]

/-! ## Ancestors -/

section Ancestors
variable (db : c.Database known) {j : ℕ}

/-- The parent of block `n + 1` is found among the parents or in the database,
if it is in one of them. -/
theorem findParent_between (hn : n + 1 ≤ c.tip) (hj : j ≤ c.tip) :
    findParent crypto db.toChainReader (c.between known j) (c.header (n + 1)) =
      if n ≤ max known j then some (c.header n) else none := by
  have hheight : (c.header (n + 1)).number64 - 1 = ofNat n := by
    rw [number64_eq hn, ofNat_succ_sub_one]
  have hparent : (c.header (n + 1)).parentHash = c.hash n := c.linked n hn
  have hn' : n ≤ c.tip := by omega
  -- the search ends at block `n`, at the first block or behind the last one
  have hsearch : search (c.between known j).length (fun i =>
      ((c.between known j)[i]?).any fun h => decide (ofNat n ≤ h.number64)) =
      min (n - (known + 1)) (j - known) := by
    rw [length_between]
    have hvalue {x : ℕ} (hx : x < j - known) : (((c.between known j)[x]?).any fun h =>
        decide (ofNat n ≤ h.number64)) = decide (n ≤ known + 1 + x) := by
      rw [getElem?_between (by omega), Option.any_some, number64_eq (by omega)]
      exact decide_eq_decide.mpr (ofNat_le_iff hn' (by omega))
    refine search_eq (Nat.min_le_right _ _) ?_ ?_
    · intro x hx
      rw [hvalue (by omega), decide_eq_false_iff_not]
      omega
    · intro x hp hx
      rw [hvalue hx, decide_eq_true_iff]
      omega
  unfold findParent
  simp only [hheight, hparent, hsearch]
  by_cases hsmall : n ≤ known
  · rw [if_pos (hsmall.trans (Nat.le_max_left ..)), db.stored n hsmall]
    split
    next h heq =>
      split
      next hfound =>
        have hin := mem_of_getElem? heq
        obtain ⟨m, hlo, hhi, rfl⟩ := of_mem_between hin
        rw [number64_eq (by omega), ofNat_inj (by omega) hn'] at hfound
        omega
      · rfl
    · rfl
  · by_cases hj' : n ≤ j
    · have hindex : min (n - (known + 1)) (j - known) = n - (known + 1) := by omega
      have hblock : known + 1 + (n - (known + 1)) = n := by omega
      rw [if_pos (Nat.le_trans hj' (Nat.le_max_right ..)), hindex, getElem?_between (by omega),
        hblock]
      simp only [number64_eq hn', true_and]
      exact if_pos rfl
    · have hindex : (c.between known j)[min (n - (known + 1)) (j - known)]? = none := by
        rw [getElem?_eq_none_iff, length_between]
        omega
      rw [hindex, if_neg (by omega)]
      exact db.missing n (by omega) hn'

theorem findAncientHeader_between (hj : j ≤ c.tip) {steps : ℕ} (hn : steps + n ≤ c.tip) :
    findAncientHeader crypto db.toChainReader (c.between known j) steps (c.header (steps + n)) =
      if steps = 0 ∨ steps + n ≤ max known j + 1 then some (c.header n) else none := by
  induction steps with
  | zero => rw [if_pos (Or.inl rfl), Nat.zero_add]; rfl
  | succ steps ih =>
    have hnext : steps + 1 + n = steps + n + 1 := by omega
    rw [findAncientHeader, hnext, findParent_between db (by omega) hj]
    by_cases hin : steps + n ≤ max known j
    · rw [if_pos hin, Option.bind_some, ih (by omega), if_pos (Or.inr (by omega)),
        if_pos (Or.inr (by omega))]
    · rw [if_neg hin, Option.bind_none, if_neg (by omega)]

end Ancestors

end HeaderChain

end Dexit.Parlia
