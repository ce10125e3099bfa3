import Mathlib.Data.Finset.Card

/-! Announcements of transactions (eth/fetcher/tx_fetcher.go): the case of the
loop for `notify`. The timers are left out, and so is `scheduleFetches`, which
changes none of the sets of a peer. -/

namespace Dexit.Fetcher

open Function List

def maxTxAnnounces : ℕ := 4096

/-- The maps of sets that an announcement reads or changes; `none` is a nil set. -/
structure TxFetcher (Hash Peer : Type) where
  waitlist : Hash → Option (Finset Peer)
  waitslots : Peer → Option (Finset Hash)
  announces : Peer → Option (Finset Hash)
  announced : Hash → Option (Finset Peer)
  alternates : Hash → Option (Finset Peer)

structure TxAnnounce (Hash Peer : Type) where
  origin : Peer
  hashes : List Hash

/-- `m[k][v] = struct{}{}`, with a new set where there is none. -/
def put {α β : Type} [DecidableEq α] [DecidableEq β] (m : α → Option (Finset β)) (k : α) (v : β) :
    α → Option (Finset β) :=
  update m k (some (insert v ((m k).getD ∅)))

namespace TxFetcher

variable {Hash Peer : Type} [DecidableEq Hash] [DecidableEq Peer]

/-- One round of the loop over the hashes. -/
def schedule (origin : Peer) (f : TxFetcher Hash Peer) (hash : Hash) : TxFetcher Hash Peer :=
  if (f.alternates hash).isSome then
    { f with alternates := put f.alternates hash origin, announces := put f.announces origin hash }
  else if (f.announced hash).isSome then
    { f with announced := put f.announced hash origin, announces := put f.announces origin hash }
  else
    { f with waitlist := put f.waitlist hash origin, waitslots := put f.waitslots origin hash }

section
variable (f : TxFetcher Hash Peer) (p : Peer)

/-- What the fetcher has from a peer: what waits, or what is queued or being downloaded. -/
def slots : Bool → Finset Hash
  | false => (f.waitslots p).getD ∅
  | true => (f.announces p).getD ∅

def used : ℕ := (f.slots p false).card + (f.slots p true).card

def notify (ann : TxAnnounce Hash Peer) : TxFetcher Hash Peer :=
  let used := f.used ann.origin
  if used ≥ maxTxAnnounces then f
  else
    let want := used + ann.hashes.length
    let hashes := if want > maxTxAnnounces then ann.hashes.take (want - maxTxAnnounces)
      else ann.hashes
    hashes.foldl (schedule ann.origin) f

/-! ## The quota -/

def Has (hash : Hash) : Prop := ∃ q, hash ∈ f.slots p q

/-- The peer stays within its quota, and what fits into it is accepted. -/
def KeepsQuota (ann : TxAnnounce Hash Peer) : Prop :=
  (f.notify ann).used ann.origin ≤ max (f.used ann.origin) maxTxAnnounces ∧
    (f.used ann.origin < maxTxAnnounces →
      ∀ hash ∈ ann.hashes.take (maxTxAnnounces - f.used ann.origin),
        (f.notify ann).Has ann.origin hash)

/-- The hash is being downloaded, or queued for it. -/
def queued (hash : Hash) : Bool := (f.alternates hash).isSome || (f.announced hash).isSome

/-- The slots with these hashes in them. -/
def slotsWith (hashes : List Hash) (q : Bool) : Finset Hash :=
  f.slots p q ∪ hashes.toFinset.filter (f.queued · = q)

/-- As many hashes as are too many fit into the quota, and are all that fit into it. -/
def Fits (ann : TxAnnounce Hash Peer) : Prop :=
  let hashes := ann.hashes.take (f.used ann.origin + ann.hashes.length - maxTxAnnounces)
  (f.slotsWith ann.origin hashes false).card + (f.slotsWith ann.origin hashes true).card ≤
      maxTxAnnounces ∧
    ∀ hash ∈ ann.hashes.take (maxTxAnnounces - f.used ann.origin),
      hash ∈ hashes ∨ f.Has ann.origin hash

end

variable {f : TxFetcher Hash Peer} {p : Peer} {hash : Hash} {hashes : List Hash}

theorem queued_schedule : (f.schedule p hash).queued = f.queued := by
  funext other
  unfold schedule
  split_ifs with halternates hannounced
  · by_cases ho : other = hash <;> simp [queued, put, ho, halternates]
  · by_cases ho : other = hash <;> simp [queued, put, ho, hannounced]
  · rfl

theorem slots_schedule (q : Bool) : (f.schedule p hash).slots p q = f.slotsWith p [hash] q := by
  cases halternates : f.alternates hash <;> cases hannounced : f.announced hash <;> cases q <;>
    simp [schedule, slots, put, slotsWith, queued, Finset.filter_singleton, halternates, hannounced]

theorem slots_foldl (q : Bool) :
    (hashes.foldl (schedule p) f).slots p q = f.slotsWith p hashes q := by
  induction hashes generalizing f with
  | nil => simp [slotsWith]
  | cons hash hashes ih =>
    rw [foldl_cons, ih]
    unfold slotsWith
    rw [queued_schedule, slots_schedule, slotsWith, Finset.union_assoc, ← Finset.filter_union,
      ← toFinset_append, singleton_append]

theorem has_foldl {other : Hash} :
    (hashes.foldl (schedule p) f).Has p other ↔ other ∈ hashes ∨ f.Has p other := by
  simp only [Has, slots_foldl, slotsWith, Finset.mem_union, Finset.mem_filter, mem_toFinset,
    exists_or, exists_and_left, exists_eq', and_true]
  exact or_comm

theorem used_foldl_le : (hashes.foldl (schedule p) f).used p ≤ f.used p + hashes.length := by
  have hcard (q : Bool) :=
    Finset.card_union_le (f.slots p q) (hashes.toFinset.filter (f.queued · = q))
  have hsplit := Finset.card_filter_add_card_filter_not (s := hashes.toFinset) (f.queued · = true)
  have hlength := hashes.toFinset_card_le
  have hwaiting := hcard false
  have hqueued := hcard true
  simp only [Bool.not_eq_true] at hsplit
  simp only [used, slots_foldl, slotsWith]
  omega

/-- The quota is kept exactly if the announcement does not exceed it, or there is none left, or
what is cut off happens to be what fits. -/
theorem notify_quota_iff (f : TxFetcher Hash Peer) (ann : TxAnnounce Hash Peer) :
    f.KeepsQuota ann ↔ maxTxAnnounces ≤ f.used ann.origin ∨
      f.used ann.origin + ann.hashes.length ≤ maxTxAnnounces ∨ f.Fits ann := by
  unfold KeepsQuota notify
  dsimp only
  by_cases hfull : maxTxAnnounces ≤ f.used ann.origin
  · rw [if_pos hfull]
    exact iff_of_true ⟨le_max_left _ _, fun hlt => absurd hfull hlt.not_ge⟩ (.inl hfull)
  rw [if_neg hfull]
  by_cases hroom : f.used ann.origin + ann.hashes.length ≤ maxTxAnnounces
  · rw [if_neg hroom.not_gt]
    refine iff_of_true ⟨used_foldl_le.trans (hroom.trans (le_max_right _ _)), ?_⟩ (by simp [hroom])
    exact fun _ _ hmem => has_foldl.mpr (.inl (mem_of_mem_take hmem))
  rw [if_pos (not_le.mp hroom), max_eq_right (not_le.mp hfull).le, used, slots_foldl, slots_foldl,
    Fits]
  simp only [hfull, hroom, false_or, not_le.mp hfull, true_imp_iff, has_foldl]

/-- One hash more than the quota, and only the first one is accepted. -/
theorem oversized_announcement_cut :
    let f : TxFetcher ℕ Unit := ⟨fun _ => none, fun _ => none, fun _ => none, fun _ => none,
      fun _ => none⟩
    ¬ f.KeepsQuota ⟨(), range 4097⟩ := by
  intro f h
  have hused : f.used () = 0 := rfl
  have hhas := h.2 (by decide) 1 (by simp [hused, maxTxAnnounces, take_range])
  have hone : f.notify ⟨(), range 4097⟩ = [0].foldl (schedule ()) f := by
    simp [notify, hused, maxTxAnnounces, take_range]
  rw [hone, has_foldl] at hhas
  simp [f, Has, slots] at hhas

end TxFetcher

end Dexit.Fetcher
