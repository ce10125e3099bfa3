import Dexit.Chain
import Dexit.Go.Slice
import Dexit.Outcome

/-! What the consensus engine sees of the chain. Hashing and signature recovery
are parameters. -/

namespace Dexit.Parlia

open Go

abbrev Hash : Type := BitVec 256

/-- The errors of the engine and, as `panic`, a run-time panic. -/
inductive Err
  | errUnknownBlock
  | errMissingSignature
  | errOutOfRangeChain
  | errBlockHashInconsistent
  | errUnauthorizedValidator
  | errCoinBaseMisMatch
  | errRecentlySigned
  | errWrongDifficulty
  | errFutureBlock
  | errMissingVanity
  | errExtraValidators
  | errInvalidSpanValidators
  | errInvalidMixDigest
  | errInvalidUncleHash
  | forkHashMismatch
  | gasLimitAboveCapacity
  | invalidGasUsed
  | invalidGasLimit
  | errUnknownAncestor
  | errMismatchingEpochValidators
  | invalidSignature
  | unauthorizedTransaction
  | invalidSender
  | invalidValidatorsBytes
  | missingTransaction
  | unexpectedTransaction
  | systemTxsMismatch
  | gasLimitExceeded
  | failedCall
  | failedSigning
  | panic
  deriving DecidableEq, Repr

/-- The hash of an empty list of uncles. -/
def uncleHash : Hash := 0x1dcc4de8dec75d7aab85b567b6ccd41ad312451b948a7413f0a142fd40d49347

/-- The header fields that the engine reads. The last two are the same in every
block that verifies. -/
structure Header where
  parentHash : Hash
  coinbase : Address
  difficulty : ℕ
  number : ℕ
  gasLimit : UInt64
  gasUsed : UInt64
  time : UInt64
  extra : Slice UInt8
  mixDigest : Hash := 0
  uncleHash : Hash := Parlia.uncleHash

/-- `Number.Uint64()`. -/
def Header.number64 (h : Header) : UInt64 := UInt64.ofNat h.number

structure ParliaConfig where
  period : UInt64
  epoch : UInt64
  epoch_ne : epoch ≠ 0

/-- Hashes of headers, and the address that signed a hash. -/
structure Crypto where
  hash : Header → Hash
  sealHash : Header → Hash
  recover : Hash → List UInt8 → Option Address

/-- `ChainHeaderReader.GetHeader`. -/
structure ChainReader where
  getHeader : Hash → UInt64 → Option Header

def extraVanity : ℕ := 32
def extraSeal : ℕ := 65
def nextForkHashSize : ℕ := 4
def validatorBytesLength : ℕ := 20

def diffInTurn : ℕ := 2
def diffNoTurn : ℕ := 1

/-- The signer of a sealed header. The cache of recovered signers is keyed by
the hash of the header and does not change the result. -/
def ecrecover (crypto : Crypto) (header : Header) : Except Err Address :=
  if header.extra.1.length < extraSeal then .error .errMissingSignature
  else
    let signature := header.extra.1.drop (header.extra.1.length - extraSeal)
    match crypto.recover (crypto.sealHash header) signature with
    | none => .error .invalidSignature
    | some signer => .ok signer

/-- The bytes of an address, most significant first. -/
def bytesToAddress (bytes : List UInt8) : Address :=
  Fin.ofNat (2 ^ 160) (bytes.foldl (fun n b => n * 256 + b.toNat) 0)

def addressToBytes (a : Address) : List UInt8 :=
  (List.range validatorBytesLength).map fun i =>
    UInt8.ofNat (a.toNat / 256 ^ (validatorBytesLength - 1 - i))

/-- Two hexadecimal digits for each byte. -/
def encodeToString (bytes : List UInt8) : String :=
  String.ofList (bytes.flatMap fun b =>
    [Nat.digitChar (b.toNat / 16), Nat.digitChar (b.toNat % 16)])

end Dexit.Parlia
