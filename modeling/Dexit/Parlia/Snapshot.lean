import Mathlib.Data.Finset.Sort
import Dexit.Go.Window
import Dexit.Parlia.Types

/-! The validator set at a block, and how headers change it. -/

namespace Dexit.Parlia

open Go

structure Snapshot where
  number : UInt64
  hash : Hash
  validators : KeySet Address
  recents : AList fun _ : UInt64 => Address
  recentForkHashes : AList fun _ : UInt64 => String

/-- Only for the genesis block: nobody has signed recently. -/
def newSnapshot (number : UInt64) (hash : Hash) (validators : Slice Address) : Snapshot where
  number := number
  hash := hash
  validators := validators.toKeySet
  recents := ∅
  recentForkHashes := ∅

/-- The address in slot `i` of a list of validators. -/
def addressAt (bytes : List UInt8) (i : ℕ) : Address :=
  bytesToAddress ((bytes.drop (i * validatorBytesLength)).take validatorBytesLength)

def parseValidators (validatorsBytes : Slice UInt8) : Except Err (Slice Address) :=
  if validatorsBytes.1.length % validatorBytesLength ≠ 0 then .error .invalidValidatorsBytes
  else .ok ⟨(List.range (validatorsBytes.1.length / validatorBytesLength)).map
    (addressAt validatorsBytes.1), by
      rw [List.length_map, List.length_range]
      exact lt_of_le_of_lt (Nat.div_le_self ..) validatorsBytes.2⟩

/-- One step of `findAncientHeader` towards the genesis block. -/
def findParent (crypto : Crypto) (chain : ChainReader) (candidateParents : List Header)
    (ancient : Header) : Option Header :=
  let parentHeight := ancient.number64 - 1
  let index := search candidateParents.length fun i =>
    (candidateParents[i]?).any fun h => decide (parentHeight ≤ h.number64)
  match candidateParents[index]? with
  | some h =>
    if h.number64 = parentHeight ∧ crypto.hash h = ancient.parentHash then some h
    else chain.getHeader ancient.parentHash parentHeight
  | none => chain.getHeader ancient.parentHash parentHeight

def findAncientHeader (crypto : Crypto) (chain : ChainReader) (candidateParents : List Header) :
    ℕ → Header → Option Header
  | 0, ancient => some ancient
  | ite + 1, ancient =>
    (findParent crypto chain candidateParents ancient).bind
      (findAncientHeader crypto chain candidateParents ite)

namespace Snapshot

/-- How many consecutive blocks need different signers. -/
def limit (s : Snapshot) : ℕ := s.validators.1.card / 2 + 1

/-- Somebody who is in the list of recent signers. -/
def signedRecently (s : Snapshot) (validator : Address) : Bool :=
  s.recents.entries.any fun e => decide (e.2 = validator)

/-- The block shifts the oldest signer and the oldest fork hash out. -/
def shift (s : Snapshot) (number : UInt64) : Snapshot :=
  let limit := UInt64.ofNat s.limit
  let forkLimit := UInt64.ofNat s.validators.1.card
  { s with
    recents := if limit ≤ number then s.recents.erase (number - limit) else s.recents
    recentForkHashes :=
      if forkLimit ≤ number then s.recentForkHashes.erase (number - forkLimit)
      else s.recentForkHashes }

/-- The change of the validator set: both windows shrink with it. -/
def changeValidators (s : Snapshot) (number : UInt64) (newVals : KeySet Address) : Snapshot :=
  let newLimit := newVals.1.card / 2 + 1
  { s with
    recents := eraseDown s.recents (number - UInt64.ofNat newLimit) (s.limit - newLimit)
    recentForkHashes := eraseDown s.recentForkHashes (number - UInt64.ofNat newVals.1.card)
      (s.validators.1.card - newVals.1.card)
    validators := newVals }

section
variable (crypto : Crypto) (config : ParliaConfig) (chain : ChainReader) (parents : List Header)

/-- The validator set announced at the last epoch takes over half a round later. -/
def epochChange (s : Snapshot) (header : Header) : Except Err Snapshot :=
  let number := header.number64
  let half := s.validators.1.card / 2
  if 0 < number ∧ number % config.epoch = UInt64.ofNat half then
    match findAncientHeader crypto chain parents half header with
    | none => .error .errUnknownAncestor
    | some checkpointHeader => do
      let extra := checkpointHeader.extra
      match extra.sub extraVanity (extra.1.length - extraSeal) with
      | none => .error .panic
      | some validatorBytes =>
        let newValArr ← parseValidators validatorBytes
        pure (s.changeValidators number newValArr.toKeySet)
  else pure s

/-- The loop body of `apply`. -/
def applyHeader (s : Snapshot) (header : Header) : Except Err Snapshot := do
  let number := header.number64
  let s := s.shift number
  let validator ← ecrecover crypto header
  if validator ∉ s.validators.1 then .error .errUnauthorizedValidator
  else if s.signedRecently validator then .error .errRecentlySigned
  else do
    let s := { s with recents := s.recents.insert number validator }
    let s ← epochChange crypto config chain parents s header
    match header.extra.sub (extraVanity - nextForkHashSize) extraVanity with
    | none => .error .panic
    | some forkHash =>
      pure { s with
        recentForkHashes := s.recentForkHashes.insert number (encodeToString forkHash.1) }

/-- Every header follows the one before it. -/
def checkContiguous : List Header → Except Err Unit
  | [] => .ok ()
  | [_] => .ok ()
  | a :: b :: rest =>
    if b.number64 ≠ a.number64 + 1 then .error .errOutOfRangeChain
    else if b.parentHash ≠ crypto.hash a then .error .errBlockHashInconsistent
    else checkContiguous (b :: rest)

def apply (s : Snapshot) (headers : List Header) : Except Err Snapshot :=
  match headers with
  | [] => .ok s
  | first :: rest => do
    checkContiguous crypto (first :: rest)
    if first.number64 ≠ s.number + 1 then .error .errOutOfRangeChain
    else if first.parentHash ≠ s.hash then .error .errBlockHashInconsistent
    else do
      let snap ← (first :: rest).foldlM (applyHeader crypto config chain parents) s
      let last := rest.getLast?.getD first
      pure { snap with
        number := snap.number + UInt64.ofNat (first :: rest).length
        hash := crypto.hash last }

end

/-! ## Turns -/

/-- The validators in ascending order. -/
def sorted (s : Snapshot) : List Address := s.validators.1.sort (· ≤ ·)

/-- Whose turn the next block is; without validators the remainder panics. -/
def supposeValidator (s : Snapshot) : Except Err Address :=
  match s.sorted[(s.number + 1).toNat % s.sorted.length]? with
  | none => .error .panic
  | some validator => .ok validator

def inturn (s : Snapshot) (validator : Address) : Except Err Bool := do
  let turn ← s.supposeValidator
  pure (decide (turn = validator))

end Snapshot

end Dexit.Parlia
