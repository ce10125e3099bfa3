import Mathlib.Algebra.Group.Int.Defs
import Mathlib.Logic.Function.Basic

/-! Blocks that wait for their import (eth/fetcher/block_fetcher.go): `enqueue`,
`forgetHash`, `forgetBlock`, and the cases of the loop for `requeue` and `done`.
Of the other events only those that do not concern a block appear here. -/

namespace Dexit.Fetcher

open Function

def maxUncleDist : Int64 := 11
def maxQueueDist : Int64 := 32
def blockLimit : ℤ := 64

/-- A block or a header to be imported. -/
structure Inject (Hash Peer : Type) where
  origin : Peer
  hash : Hash
  number : UInt64

/-- The announcements of each stage by their origins, and the block cache. -/
structure BlockFetcher (Hash Peer : Type) where
  announces : Peer → ℤ := fun _ => 0
  announced : Hash → List Peer := fun _ => []
  fetching : Hash → Option Peer := fun _ => none
  fetched : Hash → List Peer := fun _ => []
  completing : Hash → Option Peer := fun _ => none
  queue : List (Inject Hash Peer) := []
  queues : Peer → ℤ := fun _ => 0
  queued : Hash → Option (Inject Hash Peer) := fun _ => none

namespace BlockFetcher

variable {Hash Peer : Type} [DecidableEq Hash] [DecidableEq Peer]

/-- A count that does not stay positive is deleted. -/
def decrement (announces : Peer → ℤ) (origin : Peer) : Peer → ℤ :=
  update announces origin (max 0 (announces origin - 1))

def forgetHash (f : BlockFetcher Hash Peer) (hash : Hash) : BlockFetcher Hash Peer :=
  let origins := f.announced hash ++ (f.fetching hash).toList ++ f.fetched hash ++
    (f.completing hash).toList
  { f with
    announces := origins.foldl decrement f.announces
    announced := update f.announced hash []
    fetching := update f.fetching hash none
    fetched := update f.fetched hash []
    completing := update f.completing hash none }

def forgetBlock (f : BlockFetcher Hash Peer) (hash : Hash) : BlockFetcher Hash Peer :=
  match f.queued hash with
  | none => f
  | some insert =>
    { f with
      queues := update f.queues insert.origin (f.queues insert.origin - 1)
      queued := update f.queued hash none }

/-- The peer is not over its limit, and the block is neither past nor too distant. -/
def Accepts (height : UInt64) (op : Inject Hash Peer) (f : BlockFetcher Hash Peer) : Prop :=
  let dist := op.number.toInt64 - height.toInt64
  f.queues op.origin + 1 ≤ blockLimit ∧ -maxUncleDist ≤ dist ∧ dist ≤ maxQueueDist
  deriving Decidable

/-- Also what the loop does with an operation from `requeue`. -/
def enqueue (height : UInt64) (op : Inject Hash Peer) (f : BlockFetcher Hash Peer) :
    BlockFetcher Hash Peer :=
  if ¬ Accepts height op f then f.forgetHash op.hash
  else match f.queued op.hash with
    | some _ => f
    | none =>
      { f with
        queues := update f.queues op.origin (f.queues op.origin + 1)
        queued := update f.queued op.hash (some op)
        queue := op :: f.queue }

def done (hash : Hash) (f : BlockFetcher Hash Peer) : BlockFetcher Hash Peer :=
  (f.forgetHash hash).forgetBlock hash

/-! ## A block that arrives before its parent -/

def InQueue (f : BlockFetcher Hash Peer) (hash : Hash) : Prop := ∃ op ∈ f.queue, op.hash = hash

/-- The block is to be imported. -/
def Retried (f : BlockFetcher Hash Peer) (hash : Hash) : Prop :=
  (f.queued hash).isSome ∧ f.InQueue hash

/-- Events of the loop that do not concern the block. -/
def Others (Hash Peer : Type) (hash : Hash) : Type :=
  { events : BlockFetcher Hash Peer → BlockFetcher Hash Peer //
    ∀ f, (events f).queued hash = f.queued hash ∧ ((events f).InQueue hash ↔ f.InQueue hash) }

namespace Others

variable {hash other : Hash} {op : Inject Hash Peer}

/-- Another block is queued or refused. -/
def enqueue (height : UInt64) (hop : op.hash ≠ hash) : Others Hash Peer hash where
  val := BlockFetcher.enqueue height op
  property f := by
    unfold BlockFetcher.enqueue
    split
    · exact ⟨rfl, Iff.rfl⟩
    split
    · exact ⟨rfl, Iff.rfl⟩
    · exact ⟨update_of_ne hop.symm .., by simp [InQueue, hop]⟩

/-- Another import has ended. -/
def done (hother : other ≠ hash) : Others Hash Peer hash where
  val := BlockFetcher.done other
  property f := by
    unfold BlockFetcher.done forgetBlock
    split
    · exact ⟨rfl, Iff.rfl⟩
    · exact ⟨update_of_ne hother.symm .., Iff.rfl⟩

/-- One after the other. -/
def andThen (first next : Others Hash Peer hash) : Others Hash Peer hash where
  val := next.1 ∘ first.1
  property f := ⟨(next.2 _).1.trans (first.2 f).1, (next.2 _).2.trans (first.2 f).2⟩

end Others

theorem queued_done (f : BlockFetcher Hash Peer) (hash : Hash) : (f.done hash).queued hash = none := by
  unfold done forgetBlock
  split
  · assumption
  · exact update_self ..

/-- The two messages of an import that found no parent, with other events between and after
them. The import sends `requeue` first. -/
def retry (height : UInt64) (op : Inject Hash Peer) (between after : Others Hash Peer op.hash)
    (doneFirst : Bool) (f : BlockFetcher Hash Peer) : BlockFetcher Hash Peer :=
  after.1 (if doneFirst then enqueue height op (between.1 (f.done op.hash))
    else (between.1 (enqueue height op f)).done op.hash)

/-- The block is tried again exactly if it is forgotten before it is queued anew, and accepted
then; in the order in which the messages are sent it never is. -/
theorem retried_iff_done_first (height : UInt64) (op : Inject Hash Peer)
    (between after : Others Hash Peer op.hash) (doneFirst : Bool) (f : BlockFetcher Hash Peer) :
    (retry height op between after doneFirst f).Retried op.hash ↔
      doneFirst ∧ Accepts height op (between.1 (f.done op.hash)) := by
  have hnone : (between.1 (f.done op.hash)).queued op.hash = none :=
    (between.2 _).1.trans (queued_done f op.hash)
  rw [retry, Retried, (after.2 _).1, (after.2 _).2]
  cases doneFirst with
  | false => simp [queued_done]
  | true =>
    by_cases haccepts : Accepts height op (between.1 (f.done op.hash))
    · simp [enqueue, InQueue, haccepts, hnone]
    · simp [enqueue, forgetHash, haccepts, hnone]

/-- The only block of its peer, one above the head. -/
theorem next_block_lost :
    let op : Inject ℕ Unit := ⟨(), 7, 5⟩
    let f : BlockFetcher ℕ Unit :=
      { queues := fun _ => 1, queued := fun hash => if hash = 7 then some op else none }
    f.queues () < blockLimit ∧ (f.queued 7).isSome ∧ ¬ ((f.enqueue 4 op).done 7).Retried 7 := by
  refine ⟨by decide, rfl, ?_⟩
  simp [Retried, queued_done]

end BlockFetcher

end Dexit.Fetcher
