import Dexit.Parlia.Seal

/-! The checks that a header passes before it becomes part of the chain. -/

namespace Dexit.Parlia

/-- What the checks read beside the headers: the configuration, the clock and
the shuffle of the random source that is seeded with a block number. -/
structure HeaderRules where
  config : ParliaConfig
  fakeDiff : Bool
  isRamanujan : ℕ → Bool
  eip150Block : Option ℕ
  eip150Hash : Hash
  now : UInt64
  shuffle : UInt64 → List UInt64 → List UInt64
  shuffle_perm : ∀ seed steps, (shuffle seed steps).Perm steps

def wiggleTime : UInt64 := 1
def initialBackOffTime : UInt64 := 1
def GasLimitBoundDivisor : UInt64 := 256
def MinGasLimit : UInt64 := 5000

/-- `0x7fffffffffffffff`. -/
def gasCapacity : UInt64 := 0x7fffffffffffffff

section
variable (crypto : Crypto) (rules : HeaderRules)

/-- How long a validator waits when it is not its turn. -/
def backOffTime (snap : Snapshot) (val : Address) : Except Err UInt64 := do
  let inturn ← snap.inturn val
  if inturn then pure 0
  else
    match snap.sorted.idxOf? val with
    | none => pure 0
    | some idx =>
      let backOffSteps := (List.range snap.validators.1.card).map UInt64.ofNat
      match (rules.shuffle snap.number backOffSteps)[idx]? with
      | none => .error .panic
      | some step => pure (initialBackOffTime + step * wiggleTime)

def blockTimeVerifyForRamanujanFork (snap : Snapshot) (header parent : Header) :
    Except Err Unit :=
  if rules.isRamanujan header.number then do
    let backOff ← backOffTime rules snap header.coinbase
    if header.time < parent.time + rules.config.period + backOff then .error .errFutureBlock
    else pure ()
  else pure ()

/-- The gas limit moves by less than a fraction of the parent's. The difference
is taken as a signed number. -/
def verifyGas (header parent : Header) : Except Err Unit :=
  let diff := parent.gasLimit.toInt64 - header.gasLimit.toInt64
  let diff := if diff < 0 then diff * -1 else diff
  let limit := parent.gasLimit / GasLimitBoundDivisor
  if gasCapacity < header.gasLimit then .error .gasLimitAboveCapacity
  else if header.gasLimit < header.gasUsed then .error .invalidGasUsed
  else if limit ≤ diff.toUInt64 ∨ header.gasLimit < MinGasLimit then .error .invalidGasLimit
  else .ok ()

/-- The parent is the last of the explicit parents, if there are any. -/
def parentOf (chain : ChainReader) (parents : List Header) (header : Header) : Option Header :=
  match parents.getLast? with
  | some parent => some parent
  | none => chain.getHeader header.parentHash (header.number64 - 1)

/-- `snap` is the snapshot of the parent block, as it is looked up. -/
def verifyCascadingFields (chain : ChainReader) (parents : List Header)
    (snap : Except Err Snapshot) (header : Header) : Except Err Unit :=
  if header.number64 = 0 then .ok ()
  else
    match parentOf chain parents header with
    | none => .error .errUnknownAncestor
    | some parent =>
      if parent.number64 ≠ header.number64 - 1 ∨ crypto.hash parent ≠ header.parentHash then
        .error .errUnknownAncestor
      else do
        let snap ← snap
        blockTimeVerifyForRamanujanFork rules snap header parent
        verifyGas header parent
        verifySeal crypto rules.fakeDiff snap header

def verifyForkHashes (header : Header) : Except Err Unit :=
  if rules.eip150Block = some header.number ∧ rules.eip150Hash ≠ 0 ∧
      rules.eip150Hash ≠ crypto.hash header then .error .forkHashMismatch
  else .ok ()

/-- A validator list is in the extra data of epoch blocks only. It may be empty. -/
def verifyExtra (header : Header) : Except Err Unit :=
  let isEpoch := header.number64 % rules.config.epoch = 0
  let signersBytes := header.extra.1.length - extraVanity - extraSeal
  if header.extra.1.length < extraVanity then .error .errMissingVanity
  else if header.extra.1.length < extraVanity + extraSeal then .error .errMissingSignature
  else if ¬ isEpoch ∧ signersBytes ≠ 0 then .error .errExtraValidators
  else if isEpoch ∧ signersBytes % validatorBytesLength ≠ 0 then .error .errInvalidSpanValidators
  else .ok ()

def verifyHeader (chain : ChainReader) (parents : List Header) (snap : Except Err Snapshot)
    (header : Header) : Except Err Unit :=
  if rules.now < header.time then .error .errFutureBlock
  else do
    verifyExtra rules header
    if header.mixDigest ≠ 0 then .error .errInvalidMixDigest
    else if header.uncleHash ≠ uncleHash then .error .errInvalidUncleHash
    else do
      verifyForkHashes crypto rules header
      verifyCascadingFields crypto rules chain parents snap header

end

end Dexit.Parlia
