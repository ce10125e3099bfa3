import Dexit.Parlia.Snapshot

/-! How the engine finds the snapshot of a block: it walks back to one that is
stored, or to the genesis block, and applies the headers it passed. -/

namespace Dexit.Parlia

/-- `ChainHeaderReader`. -/
structure HeaderReader extends ChainReader where
  getHeaderByNumber : UInt64 → Option Header

/-- The snapshots in memory and on disk, by the hash of their block. What a
cache has evicted is not there. Writing to the disk does not fail. -/
structure Store where
  recentSnaps : Hash → Option Snapshot := fun _ => none
  db : Hash → Option Snapshot := fun _ => none

def checkpointInterval : UInt64 := 1024

namespace Store

/-- Only every `checkpointInterval` blocks is the disk looked at. -/
def find (store : Store) (number : UInt64) (hash : Hash) : Option Snapshot :=
  match store.recentSnaps hash with
  | some snap => some snap
  | none => if number % checkpointInterval = 0 then store.db hash else none

def addRecent (store : Store) (snap : Snapshot) : Store :=
  { store with recentSnaps := Function.update store.recentSnaps snap.hash (some snap) }

def save (store : Store) (snap : Snapshot) : Store :=
  { store with db := Function.update store.db snap.hash (some snap) }

end Store

/-- What the walk back has come to: a snapshot, the headers that lie above it,
oldest first, and the parents that were not used up. -/
structure Found where
  snap : Snapshot
  headers : List Header
  parents : List Header

section
variable (crypto : Crypto) (config : ParliaConfig) (chain : HeaderReader)

/-- The snapshot of the genesis block. -/
def initialSnapshot (number : UInt64) (checkpoint : Header) : Except Err Snapshot :=
  match checkpoint.extra.sub extraVanity (checkpoint.extra.1.length - extraSeal) with
  | none => .error .panic
  | some validatorBytes => do
    let validators ← parseValidators validatorBytes
    pure (newSnapshot number (crypto.hash checkpoint) validators)

/-- Explicit parents are enforced; the database is asked when none are left. -/
def pickHeader (number : UInt64) (hash : Hash) (parents : List Header) :
    Option (Header × List Header) :=
  match parents.getLast? with
  | some header =>
    if crypto.hash header ≠ hash ∨ header.number64 ≠ number then none
    else some (header, parents.dropLast)
  | none => (chain.getHeader hash number).map fun header => (header, parents)

/-- The loop of `snapshot`. Below a genesis block that the chain does not know
the number wraps, so the loop need not end: it is given a number of rounds. -/
def walkBack : ℕ → Store → UInt64 → Hash → List Header → List Header →
    Option (Except Err Found × Store)
  | 0, _, _, _, _, _ => none
  | rounds + 1, store, number, hash, parents, headers =>
    match store.find number hash with
    | some snap => some (.ok ⟨snap, headers, parents⟩, store)
    | none =>
      match if number = 0 then chain.getHeaderByNumber number else none with
      | some checkpoint =>
        match initialSnapshot crypto number checkpoint with
        | .error e => some (.error e, store)
        | .ok snap => some (.ok ⟨snap, headers, parents⟩, store.save snap)
      | none =>
        match pickHeader crypto chain number hash parents with
        | none => some (.error .errUnknownAncestor, store)
        | some (header, parents) =>
          walkBack rounds store (number - 1) header.parentHash parents (header :: headers)

/-- The snapshot of block `number`, and what is stored afterwards; nothing if
the loop does not end within `rounds`. -/
def snapshot (rounds : ℕ) (store : Store) (number : UInt64) (hash : Hash)
    (parents : List Header) : Option (Except Err Snapshot × Store) :=
  match walkBack crypto chain rounds store number hash parents [] with
  | none => none
  | some (.error e, store) => some (.error e, store)
  | some (.ok found, store) =>
    match found.snap.apply crypto config chain.toChainReader found.parents found.headers with
    | .error e => some (.error e, store)
    | .ok snap =>
      let store := store.addRecent snap
      if snap.number % checkpointInterval = 0 ∧ found.headers ≠ [] then
        some (.ok snap, store.save snap)
      else some (.ok snap, store)

end

end Dexit.Parlia
