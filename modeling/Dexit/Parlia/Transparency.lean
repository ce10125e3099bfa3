import Dexit.Parlia.HeaderChain
import Dexit.Parlia.Signers

/-! What is stored, and which headers are in the database already, does not
matter for the snapshot of a block, but where the validator set changes above
both. -/

namespace Dexit.Parlia

open Outcome List UInt64 Snapshot

/-! ## The headers between two blocks -/

namespace HeaderChain
variable {crypto : Crypto} {config : ParliaConfig} {c : HeaderChain crypto} {lo hi n known : ℕ}
  {s : Snapshot}

theorem checkContiguous_between (hhi : hi ≤ c.tip) :
    Snapshot.checkContiguous crypto (c.between lo hi) = .ok () := by
  by_cases hlt : lo < hi
  · induction hgap : hi - (lo + 1) generalizing lo with
    | zero => rw [between_cons hlt, between_nil (by omega)]; rfl
    | succ gap ih =>
      have ih : checkContiguous crypto (c.between (lo + 1) hi) = .ok () :=
        ih (by omega) (by omega)
      rw [between_cons (by omega)] at ih
      rw [between_cons hlt, between_cons (by omega), checkContiguous, if_neg, if_neg]
      · exact ih
      · exact not_not.mpr (c.linked (lo + 1) (by omega))
      · rw [number64_eq (by omega), number64_eq (by omega)]
        exact not_not.mpr (ofNat_add _ 1)
  · rw [between_nil (by omega)]
    rfl

/-- A snapshot as that of block `n`. -/
def label (c : HeaderChain crypto) (n : ℕ) (s : Snapshot) : Snapshot :=
  s.moveTo (UInt64.ofNat n) (c.hash n)

theorem getLast?_between (hlt : lo < hi) :
    (c.between (lo + 1) hi).getLast?.getD (c.header (lo + 1)) = c.header hi := by
  obtain rfl | hlt := Nat.eq_or_lt_of_le (Nat.succ_le_of_lt hlt)
  · rw [between_nil le_rfl]
    rfl
  · obtain ⟨last, rfl⟩ : ∃ last, hi = last + 1 := ⟨hi - 1, by omega⟩
    rw [between_concat (by omega), getLast?_concat, Option.getD_some]

/-- From the snapshot of one block of the chain to that of a later one. -/
theorem apply_between {chain : ChainReader} {parents : List Header} (s : Snapshot)
    (hle : lo ≤ hi) (hhi : hi ≤ c.tip) :
    (c.label lo s).apply crypto config chain parents (c.between lo hi) =
      ((c.between lo hi).foldlM (Snapshot.applyHeader crypto config chain parents) s).map
        (c.label hi) := by
  obtain rfl | hlt := Nat.eq_or_lt_of_le hle
  · rw [between_nil le_rfl]
    rfl
  have hcont : checkContiguous crypto (c.between lo hi) = .ok () :=
    checkContiguous_between hhi
  have hfold : (c.between lo hi).foldlM (applyHeader crypto config chain parents)
      (c.label lo s) = ((c.between lo hi).foldlM
        (applyHeader crypto config chain parents) s).map (c.label lo) :=
    foldlM_moveTo s _ _ _
  have hlen : (c.between lo hi).length = hi - lo := length_between
  have hnumber : ofNat lo + ofNat (hi - lo) = ofNat hi := by
    rw [← ofNat_add, Nat.add_sub_cancel' hle]
  have hfirst : (c.header (lo + 1)).number64 = (c.label lo s).number + 1 := by
    rw [number64_eq (by omega)]
    exact ofNat_add lo 1
  have hparent : (c.header (lo + 1)).parentHash = (c.label lo s).hash := c.linked lo (by omega)
  rw [between_cons hlt] at hcont hfold hlen ⊢
  unfold apply
  simp only [hcont, ok_bind, hfirst, hparent, ne_eq, not_true_eq_false, ↓reduceIte, hfold, hlen,
    getLast?_between hlt]
  cases (c.header (lo + 1) :: c.between (lo + 1) hi).foldlM
      (applyHeader crypto config chain parents) s with
  | error e => rfl
  | ok t =>
    simp only [Except.map, ok_bind, label, moveTo, hnumber]
    rfl

/-! ## The walk back -/

/-- The newest block up to `n` whose snapshot is stored, or the genesis block. -/
def newest (c : HeaderChain crypto) (store : Store) : ℕ → ℕ
  | 0 => 0
  | n + 1 =>
    if (store.find (UInt64.ofNat (n + 1)) (c.hash (n + 1))).isSome then n + 1
    else c.newest store n

/-- The snapshot that the walk ends with there. -/
def base (c : HeaderChain crypto) (store : Store) (n : ℕ) : Except Err Snapshot :=
  match store.find (UInt64.ofNat n) (c.hash n) with
  | some snap => .ok snap
  | none => initialSnapshot crypto 0 (c.header 0)

theorem newest_le (store : Store) (n : ℕ) : c.newest store n ≤ n := by
  induction n with
  | zero => exact le_rfl
  | succ n ih =>
    rw [newest]
    split
    · exact le_rfl
    · exact Nat.le_succ_of_le ih

theorem newest_stored (store : Store) (n : ℕ) : c.newest store n = 0 ∨
    (store.find (ofNat (c.newest store n)) (c.hash (c.newest store n))).isSome := by
  induction n with
  | zero => exact .inl rfl
  | succ n ih =>
    rw [newest]
    split
    next h =>
      exact .inr h
    · exact ih

section Walk
variable (config) (db : c.Database known) (store : Store)

theorem pickHeader_between (hn : n + 1 ≤ c.tip) :
    pickHeader crypto db.toHeaderReader (ofNat (n + 1)) (c.hash (n + 1))
      (c.between known (n + 1)) = some (c.header (n + 1), c.between known n) := by
  unfold pickHeader
  by_cases hknown : known ≤ n
  · rw [between_concat hknown, getLast?_concat, dropLast_concat]
    simp only [number64_eq hn, hash, ne_eq, not_true_eq_false, or_self, ↓reduceIte]
  · rw [between_nil (by omega), between_nil (by omega), getLast?_nil]
    simp only [db.stored (n + 1) (by omega), Option.map_some]

theorem walkBack_between (extra : ℕ) (hn : n ≤ c.tip) (headers : List Header) :
    ∃ store', walkBack crypto db.toHeaderReader (n + 1 + extra) store (ofNat n) (c.hash n)
        (c.between known n) headers =
      some ((c.base store (c.newest store n)).map fun snap =>
        ⟨snap, c.between (c.newest store n) n ++ headers, c.between known (c.newest store n)⟩,
        store') := by
  induction n generalizing headers with
  | zero =>
    have hrounds : 0 + 1 + extra = extra + 1 := by omega
    rw [hrounds, walkBack, newest, base, between_nil le_rfl, nil_append]
    cases store.find (ofNat 0) (c.hash 0) with
    | some snap => exact ⟨_, rfl⟩
    | none =>
      have hzero : ofNat 0 = 0 := rfl
      simp only [hzero, ↓reduceIte, db.genesis]
      cases initialSnapshot crypto 0 (c.header 0) with
      | error e | ok snap => exact ⟨_, rfl⟩
  | succ n ih =>
    have hrounds : n + 1 + 1 + extra = n + 1 + extra + 1 := by omega
    rw [hrounds, walkBack, newest]
    cases hfind : store.find (ofNat (n + 1)) (c.hash (n + 1)) with
    | some snap =>
      simp only [Option.isSome_some, ↓reduceIte, base, hfind, between_nil le_rfl, nil_append]
      exact ⟨_, rfl⟩
    | none =>
      obtain ⟨store', hwalk⟩ := ih (by omega) (c.header (n + 1) :: headers)
      refine ⟨store', ?_⟩
      have hparent : (c.header (n + 1)).parentHash = c.hash n := c.linked n hn
      simp only [ofNat_succ_ne_zero hn, ↓reduceIte, pickHeader_between db hn, ofNat_succ_sub_one,
        hparent, Option.isSome_none, Bool.false_eq_true, hwalk]
      rw [between_concat (c.newest_le store n), append_assoc, singleton_append]

/-- What `snapshot` returns for a block of the chain. -/
theorem snapshot_between (extra : ℕ) (hn : n ≤ c.tip) :
    ∃ store', snapshot crypto config db.toHeaderReader (n + 1 + extra) store (ofNat n)
        (c.hash n) (c.between known n) =
      some (c.base store (c.newest store n) >>= fun snap =>
        snap.apply crypto config db.toChainReader (c.between known (c.newest store n))
          (c.between (c.newest store n) n), store') := by
  obtain ⟨store', hwalk⟩ := walkBack_between db store extra hn []
  unfold snapshot
  rw [hwalk, append_nil]
  cases c.base store (c.newest store n) with
  | error e => exact ⟨_, rfl⟩
  | ok snap =>
    simp only [Except.map, ok_bind]
    cases snap.apply crypto config db.toChainReader (c.between known (c.newest store n))
        (c.between (c.newest store n) n) with
    | error e => exact ⟨_, rfl⟩
    | ok result =>
      simp only
      split <;> exact ⟨_, rfl⟩

end Walk

/-! ## From the genesis block -/

/-- All headers up to block `n` applied one after the other. -/
def replay (c : HeaderChain crypto) (config : ParliaConfig) (n : ℕ) : Except Err Snapshot :=
  initialSnapshot crypto 0 (c.header 0) >>= fun s =>
    (c.between 0 n).foldlM (Snapshot.applyHeader crypto config c.complete.toChainReader []) s

theorem replay_append {m : ℕ} (h : m ≤ n) : c.replay config n = c.replay config m >>= fun s =>
    (c.between m n).foldlM (Snapshot.applyHeader crypto config c.complete.toChainReader []) s := by
  unfold replay
  rw [← between_append (Nat.zero_le m) h]
  cases initialSnapshot crypto 0 (c.header 0) with
  | error e => rfl
  | ok s => rw [ok_bind, ok_bind, foldlM_append]

theorem replay_succ : c.replay config (n + 1) = c.replay config n >>= fun s =>
    s.applyHeader crypto config c.complete.toChainReader [] (c.header (n + 1)) := by
  rw [replay_append (Nat.le_succ n), between_cons (Nat.lt_succ_self n), between_nil le_rfl]
  congr 1
  funext s
  exact bind_pure _

theorem label_initialSnapshot
    (h : initialSnapshot crypto 0 (c.header 0) = .ok s) : c.label 0 s = s := by
  unfold initialSnapshot at h
  split at h
  · cases h
  · obtain ⟨validators, _, h⟩ := bind_ok.mp h
    cases h
    rfl

theorem replay_zero :
    (c.replay config 0).map (c.label 0) = initialSnapshot crypto 0 (c.header 0) := by
  rw [replay, between_nil le_rfl]
  cases h : initialSnapshot crypto 0 (c.header 0) with
  | error e => rfl
  | ok s => exact congrArg Except.ok (label_initialSnapshot h)

theorem newest_empty (n : ℕ) : c.newest {} n = 0 := by
  have hnone (number : UInt64) (hash : Hash) : Store.find {} number hash = none := ite_self _
  induction n with
  | zero => rfl
  | succ n ih => rw [newest, hnone, Option.isSome_none, if_neg Bool.false_ne_true, ih]

theorem fromGenesis_eq (hn : n ≤ c.tip) :
    c.fromGenesis config n = some ((c.replay config n).map (c.label n)) := by
  obtain ⟨store', hsnap⟩ := snapshot_between config c.complete {} 0 hn
  rw [between_nil hn, newest_empty, between_nil (Nat.zero_le _), add_zero] at hsnap
  have hbase : c.base {} 0 = initialSnapshot crypto 0 (c.header 0) := rfl
  rw [fromGenesis, hsnap, Option.map_some, hbase, replay]
  cases h : initialSnapshot crypto 0 (c.header 0) with
  | error e => rfl
  | ok s =>
    rw [ok_bind, ok_bind, ← apply_between s (Nat.zero_le n) hn, label_initialSnapshot h]

theorem fromGenesis_ok (hn : n ≤ c.tip) :
    c.fromGenesis config n = some (.ok s) ↔ ∃ t, c.replay config n = .ok t ∧ s = c.label n t := by
  rw [fromGenesis_eq hn, Option.some_inj]
  cases c.replay config n with
  | error e => exact ⟨nofun, nofun⟩
  | ok t => simp only [Except.map, Except.ok.injEq, exists_eq_left', eq_comm]

/-- From block to block. -/
theorem fromGenesis_succ {t : Snapshot} (hn : n + 1 ≤ c.tip)
    (h : c.fromGenesis config (n + 1) = some (.ok t)) :
    ∃ s, c.fromGenesis config n = some (.ok s) ∧
      s.apply crypto config c.complete.toChainReader [] [c.header (n + 1)] = .ok t := by
  obtain ⟨u, hu, rfl⟩ := (fromGenesis_ok hn).mp h
  rw [replay_succ] at hu
  obtain ⟨s, hs, hu⟩ := bind_ok.mp hu
  refine ⟨c.label n s, (fromGenesis_ok (Nat.le_of_succ_le hn)).mpr ⟨s, hs, rfl⟩, ?_⟩
  have hbetween : c.between n (n + 1) = [c.header (n + 1)] := by
    rw [between_cons (Nat.lt_succ_self n), between_nil le_rfl]
  have happly : (c.label n s).apply crypto config c.complete.toChainReader []
    (c.between n (n + 1)) = _ := apply_between s (Nat.le_succ n) hn
  have hfold : [c.header (n + 1)].foldlM
      (applyHeader crypto config c.complete.toChainReader []) s = .ok u := by
    rw [foldlM_cons, hu]
    rfl
  rw [hbetween, hfold] at happly
  exact happly

theorem fromGenesis_reachable (hn : n ≤ c.tip)
    (h : c.fromGenesis config n = some (.ok s)) : Reachable crypto config s := by
  induction n generalizing s with
  | zero =>
    obtain ⟨t, ht, rfl⟩ := (fromGenesis_ok hn).mp h
    obtain ⟨u, hinit, hu⟩ := bind_ok.mp ht
    cases hu
    unfold initialSnapshot at hinit
    split at hinit
    · cases hinit
    · obtain ⟨validators, _, hinit⟩ := bind_ok.mp hinit
      cases hinit
      exact .genesis _ validators
  | succ n ih =>
    obtain ⟨u, hu, happly⟩ := fromGenesis_succ hn h
    refine .apply _ [] _ (ih (Nat.le_of_succ_le hn) hu) ?_ happly
    intro header hheader
    rw [mem_singleton.mp hheader, number64_eq hn]
    exact ofNat_succ_ne_zero hn

/-! ## Where the database makes a difference -/

section Steps
variable {j : ℕ} {s : Snapshot}

theorem half_le (hn : n ≤ c.tip) (h : s.ChangesAt config (c.header n)) :
    s.validators.1.card / 2 ≤ n := by
  have hnat := congrArg UInt64.toNat h.2
  have hcard := s.validators.2
  have hhalf : s.validators.1.card / 2 < size :=
    lt_of_le_of_lt (Nat.div_le_self _ _) (hcard.trans (by decide))
  rw [number64_eq hn, UInt64.toNat_mod, c.ofNat_toNat hn, toNat_ofNat_of_lt' hhalf] at hnat
  rw [← hnat]
  exact Nat.mod_le _ _

theorem findAncientHeader_eq (db : c.Database known) (hj : j ≤ c.tip) (hn : n ≤ c.tip)
    {steps : ℕ} (hsteps : steps ≤ n) :
    findAncientHeader crypto db.toChainReader (c.between known j) steps (c.header n) =
      if steps = 0 ∨ n ≤ max known j + 1 then some (c.header (n - steps)) else none := by
  obtain ⟨m, rfl⟩ := Nat.exists_eq_add_of_le hsteps
  rw [findAncientHeader_between db hj hn, Nat.add_sub_cancel_left]

theorem findAncientHeader_complete (hn : n ≤ c.tip) {steps : ℕ} (hsteps : steps ≤ n) :
    findAncientHeader crypto c.complete.toChainReader [] steps (c.header n) =
      some (c.header (n - steps)) := by
  have h := findAncientHeader_eq c.complete (Nat.zero_le _) hn hsteps
  rw [between_nil (Nat.zero_le _), if_pos (.inr (by omega))] at h
  exact h

/-- Above the known blocks only a change of validators is noticed. -/
theorem applyHeader_same (db : c.Database known) (hj : j ≤ c.tip) (hn : n ≤ c.tip)
    (h : ¬ (max known j + 1 < n ∧ s.Switches crypto config (c.header n))) :
    s.applyHeader crypto config db.toChainReader (c.between known j) (c.header n) =
      s.applyHeader crypto config c.complete.toChainReader [] (c.header n) := by
  apply applyHeader_congr
  intro hswitch
  have hle := half_le hn hswitch.2.1
  rw [findAncientHeader_eq db hj hn hle, findAncientHeader_complete hn hle, if_pos]
  by_contra hout
  exact h ⟨by omega, hswitch⟩

end Steps

end HeaderChain

/-! ## A node that has only some of the headers -/

/-- A node that has the blocks up to `known` in its database and is given the
later ones as parents. Every snapshot that it has stored is the one obtained
from the genesis block. -/
structure View (crypto : Crypto) (config : ParliaConfig) where
  chain : HeaderChain crypto
  known : ℕ
  known_le : known ≤ chain.tip
  database : chain.Database known
  store : Store
  valid : ∀ n ≤ chain.tip, ∀ snap, store.recentSnaps (chain.hash n) = some snap ∨
    store.db (chain.hash n) = some snap → chain.fromGenesis config n = some (.ok snap)

namespace View
open HeaderChain
variable {crypto : Crypto} {config : ParliaConfig} (v : View crypto config) {s : Snapshot}

/-- The headers that are not in the database. -/
def parents : List Header := v.chain.between v.known v.chain.tip

/-- The newest block whose snapshot is stored, or the genesis block. -/
def newest : ℕ := v.chain.newest v.store v.chain.tip

/-- The validator set changes right after block `n`, which is not in the
database and lies above the newest block whose snapshot is stored. -/
def BlindAt (n : ℕ) : Prop :=
  max v.known v.newest < n ∧ n < v.chain.tip ∧
    ∃ snap, v.chain.fromGenesis config n = some (.ok snap) ∧
      snap.Switches crypto config (v.chain.header (n + 1))

theorem newest_le_tip : v.newest ≤ v.chain.tip := HeaderChain.newest_le _ _

theorem base_eq : v.chain.base v.store v.newest =
    (v.chain.replay config v.newest).map (v.chain.label v.newest) := by
  unfold HeaderChain.base
  cases hfind : v.store.find (ofNat v.newest) (v.chain.hash v.newest) with
  | some snap =>
    have hin : v.store.recentSnaps (v.chain.hash v.newest) = some snap ∨
        v.store.db (v.chain.hash v.newest) = some snap := by
      unfold Store.find at hfind
      split at hfind
      next hrecent =>
        cases hfind
        exact .inl hrecent
      · split at hfind
        · exact .inr hfind
        · cases hfind
    have hvalid := v.valid v.newest v.newest_le_tip snap hin
    rw [fromGenesis_eq v.newest_le_tip, Option.some.injEq] at hvalid
    exact hvalid.symm
  | none =>
    have hzero : v.newest = 0 := by
      obtain hzero | hsome := HeaderChain.newest_stored (c := v.chain) v.store v.chain.tip
      · exact hzero
      · have hfind' : v.store.find (ofNat (v.chain.newest v.store v.chain.tip))
          (v.chain.hash (v.chain.newest v.store v.chain.tip)) = none := hfind
        rw [hfind'] at hsome
        cases hsome
    rw [hzero, replay_zero]

theorem replay_ok {n : ℕ} (hs : v.chain.replay config v.newest = .ok s)
    (hn : v.newest ≤ n) : v.chain.replay config n = (v.chain.between v.newest n).foldlM
      (Snapshot.applyHeader crypto config v.chain.complete.toChainReader []) s := by
  rw [replay_append hn, hs, ok_bind]

theorem BlindAt.newest_ok {v : View crypto config} {n : ℕ} (h : v.BlindAt n) :
    ∃ s, v.chain.replay config v.newest = .ok s := by
  obtain ⟨hout, hlt, snap, hsnap, _⟩ := h
  obtain ⟨t, hreplay, -⟩ := (fromGenesis_ok (by omega)).mp hsnap
  rw [replay_append (m := v.newest) (by omega)] at hreplay
  obtain ⟨s, hs, -⟩ := bind_ok.mp hreplay
  exact ⟨s, hs⟩

/-- A header that cannot be applied without the headers before it. -/
def Lost (s : Snapshot) (header : Header) : Prop :=
  max v.known v.newest + 1 < header.number ∧ s.Switches crypto config header

/-- The loop of `apply` meets such a header. -/
theorem meets_iff (hs : v.chain.replay config v.newest = .ok s) :
    Meets (Snapshot.applyHeader crypto config v.chain.complete.toChainReader []) v.Lost s
      (v.chain.between v.newest v.chain.tip) ↔ ∃ n, v.BlindAt n := by
  constructor
  · rintro ⟨before, a, after, t, hsplit, hfold, hout, hswitch⟩
    obtain ⟨n, hlo, hhi, rfl, rfl, _⟩ := (between_split v.newest_le_tip).mp hsplit
    rw [v.chain.numbered _ (by omega)] at hout
    refine ⟨n, by omega, hhi, v.chain.label n t, ?_, switches_moveTo.mpr hswitch⟩
    exact (fromGenesis_ok (by omega)).mpr ⟨t, (v.replay_ok hs hlo).trans hfold, rfl⟩
  · rintro ⟨n, hout, hhi, snap, hsnap, hswitch⟩
    have hlo : v.newest ≤ n := by omega
    obtain ⟨t, hfold, rfl⟩ := (fromGenesis_ok (by omega)).mp hsnap
    rw [v.replay_ok hs hlo] at hfold
    refine ⟨_, _, _, t, (between_split v.newest_le_tip).mpr ⟨n, hlo, hhi, rfl, rfl, rfl⟩,
      hfold, ?_, switches_moveTo.mp hswitch⟩
    rw [v.chain.numbered _ (by omega)]
    omega

/-- Applying the headers from the newest stored snapshot fails exactly where a
header is lost. -/
theorem foldlM_parts (hs : v.chain.replay config v.newest = .ok s) :
    let headers := v.chain.between v.newest v.chain.tip
    let result := headers.foldlM (Snapshot.applyHeader crypto config v.database.toChainReader
      (v.chain.between v.known v.newest)) s
    ((∃ n, v.BlindAt n) → result = .error .errUnknownAncestor) ∧
      (¬ (∃ n, v.BlindAt n) → result = headers.foldlM
        (Snapshot.applyHeader crypto config v.chain.complete.toChainReader []) s) := by
  rw [← v.meets_iff hs]
  apply foldlM_of_meets
  · intro t h hh hkept
    obtain ⟨n, _, hn, rfl⟩ := of_mem_between hh
    rw [Lost, v.chain.numbered n hn] at hkept
    exact applyHeader_same v.database v.newest_le_tip hn hkept
  · intro t h hh hlost
    obtain ⟨n, _, hn, rfl⟩ := of_mem_between hh
    rw [Lost, v.chain.numbered n hn] at hlost
    apply applyHeader_blind hlost.2
    rw [findAncientHeader_eq v.database v.newest_le_tip hn (half_le hn hlost.2.2.1), if_neg]
    rintro (hzero | hin)
    · exact hlost.2.2.2 hzero
    · have := hlost.1
      omega

/-- The snapshot of the newest block is the one that a node would compute with
nothing stored and all headers in its database, unless the validator set
changes where the headers were just taken from the parents. -/
theorem snapshot_transparent_iff (extra : ℕ) : ∃ result store' expected,
    snapshot crypto config v.database.toHeaderReader (v.chain.tip + 1 + extra) v.store
      (UInt64.ofNat v.chain.tip) (v.chain.hash v.chain.tip) v.parents = some (result, store') ∧
    v.chain.fromGenesis config v.chain.tip = some expected ∧
    (result = expected ↔ ∀ n, ¬ v.BlindAt n) := by
  obtain ⟨store', hsnap⟩ := snapshot_between config v.database v.store extra le_rfl
  have hnewest : v.chain.newest v.store v.chain.tip = v.newest := rfl
  rw [hnewest, v.base_eq] at hsnap
  refine ⟨_, store', _, hsnap, fromGenesis_eq le_rfl, ?_⟩
  rw [replay_append v.newest_le_tip, ← not_exists]
  cases hs : v.chain.replay config v.newest with
  | error e =>
    refine iff_of_true rfl ?_
    rintro ⟨n, hblind⟩
    obtain ⟨s, hok⟩ := hblind.newest_ok
    rw [hs] at hok
    cases hok
  | ok s =>
    obtain ⟨hfails, hsame⟩ := v.foldlM_parts hs
    rw [Except.map, ok_bind, ok_bind, apply_between s v.newest_le_tip le_rfl]
    by_cases hblind : ∃ n, v.BlindAt n
    · -- the node fails as the complete database never does
      refine iff_of_false ?_ (not_not.mpr hblind)
      rw [hfails hblind]
      have hne : (v.chain.between v.newest v.chain.tip).foldlM (applyHeader crypto config
          v.chain.complete.toChainReader []) s ≠ .error .errUnknownAncestor := by
        apply foldlM_ne_error
        intro t h hh
        obtain ⟨n, _, hn, rfl⟩ := of_mem_between hh
        apply applyHeader_known
        intro hdue
        rw [findAncientHeader_complete hn (half_le hn hdue)]
        nofun
      intro heq
      apply hne
      cases hfull : (v.chain.between v.newest v.chain.tip).foldlM (applyHeader crypto
          config v.chain.complete.toChainReader []) s with
      | error e =>
        rw [hfull] at heq
        cases heq
        rfl
      | ok t =>
        rw [hfull] at heq
        cases heq
    · rw [hsame hblind]
      exact iff_of_true rfl hblind

end View

/-! ## A batch above the genesis block -/

/-- Validators 1 and 2 have signed a block each. -/
def fourChain : HeaderChain plainCrypto where
  tip := 2
  header
    | 0 => fourGenesis
    | 1 => blockBy 1 1 0
    | _ => blockBy 2 2 1
  tip_lt := by decide
  numbered
    | 0, _ => rfl
    | 1, _ => rfl
    | 2, _ => rfl
  linked
    | 0, _ => rfl
    | 1, _ => rfl

/-- A node that has the genesis block and nothing else. -/
def freshNode : View plainCrypto plainConfig where
  chain := fourChain
  known := 0
  known_le := Nat.zero_le _
  database :=
    { getHeader := fun hash number => if hash = 0 ∧ number = 0 then some fourGenesis else none
      getHeaderByNumber := fun number => if number = 0 then some fourGenesis else none
      stored := fun n hn => by
        rw [Nat.le_zero.mp hn]
        rfl
      missing := fun n hpos hn =>
        match n, hpos, hn with
        | 1, _, _ => rfl
        | 2, _, _ => rfl
      genesis := rfl }
  store := {}
  valid n hn snap h := by
    obtain h | h := h <;> cases h

/-- The node is given both blocks at once. The validator set is due to change at
block 2, and block 1 is found nowhere any more. -/
theorem freshNode_unknownAncestor :
    (∃ store', snapshot plainCrypto plainConfig freshNode.database.toHeaderReader 3 freshNode.store
      2 (fourChain.hash 2) freshNode.parents = some (.error .errUnknownAncestor, store')) ∧
    ∃ snap, fourChain.fromGenesis plainConfig 2 = some (.ok snap) := by
  constructor
  · have hfails : (snapshot plainCrypto plainConfig freshNode.database.toHeaderReader 3
        freshNode.store 2 (fourChain.hash 2) freshNode.parents).map
          (fun r => r.1.map fun _ => ()) = some (.error .errUnknownAncestor) := by decide +kernel
    obtain ⟨⟨r, store'⟩, hsnap, hr⟩ := Option.map_eq_some_iff.mp hfails
    cases r with
    | error e =>
      cases hr
      exact ⟨store', hsnap⟩
    | ok snap => cases hr
  · have hok : (fourChain.fromGenesis plainConfig 2).map (fun r => r.map fun _ => ()) =
        some (.ok ()) := by decide +kernel
    obtain ⟨r, hsnap, hr⟩ := Option.map_eq_some_iff.mp hok
    cases r with
    | error e => cases hr
    | ok snap => exact ⟨snap, hsnap⟩

end Dexit.Parlia
