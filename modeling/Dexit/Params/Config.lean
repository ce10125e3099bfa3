import Mathlib.Algebra.Order.Ring.Int

/-!
# The chain configuration

Every block number of the configuration is a `*big.Int`: it may be missing and
may in principle be negative. The engines' settings and the hash of the EIP150
block decide none of the fork rules and are left out.
-/

namespace Dexit.Params

structure ChainConfig where
  chainID : Option ℤ
  homesteadBlock : Option ℤ
  daoForkBlock : Option ℤ
  daoForkSupport : Bool
  eip150Block : Option ℤ
  eip155Block : Option ℤ
  eip158Block : Option ℤ
  byzantiumBlock : Option ℤ
  constantinopleBlock : Option ℤ
  petersburgBlock : Option ℤ
  istanbulBlock : Option ℤ
  muirGlacierBlock : Option ℤ
  berlinBlock : Option ℤ
  yoloV3Block : Option ℤ
  ewasmBlock : Option ℤ
  catalystBlock : Option ℤ
  ramanujanBlock : Option ℤ
  nielsBlock : Option ℤ
  mirrorSyncBlock : Option ℤ
  brunoBlock : Option ℤ
  eulerBlock : Option ℤ
  classicBlock : Option ℤ
deriving Repr, DecidableEq

/-- Whether a fork scheduled at `s` is active at the given head. -/
def isForked (s : Option ℤ) (head : ℤ) : Bool :=
  match s with
  | none => false
  | some s => decide (s ≤ head)

def configNumEqual (x y : Option ℤ) : Bool :=
  match x, y with
  | none, none => true
  | some x, some y => decide (x = y)
  | _, _ => false

@[simp] theorem isForked_none (head : ℤ) : isForked none head = false := rfl

@[simp] theorem isForked_some (s head : ℤ) : isForked (some s) head = decide (s ≤ head) := rfl

@[simp] theorem configNumEqual_eq (x y : Option ℤ) : configNumEqual x y = decide (x = y) := by
  cases x <;> cases y <;> simp [configNumEqual]

namespace ChainConfig

variable (c : ChainConfig) (num : ℤ)

def isHomestead : Bool := isForked c.homesteadBlock num
def isDAOFork : Bool := isForked c.daoForkBlock num
def isEIP150 : Bool := isForked c.eip150Block num
def isEIP155 : Bool := isForked c.eip155Block num
def isEIP158 : Bool := isForked c.eip158Block num
def isByzantium : Bool := isForked c.byzantiumBlock num
def isConstantinople : Bool := isForked c.constantinopleBlock num
def isRamanujan : Bool := isForked c.ramanujanBlock num
def isOnRamanujan : Bool := configNumEqual c.ramanujanBlock (some num)
def isNiels : Bool := isForked c.nielsBlock num
def isOnNiels : Bool := configNumEqual c.nielsBlock (some num)
def isMirrorSync : Bool := isForked c.mirrorSyncBlock num
def isOnMirrorSync : Bool := configNumEqual c.mirrorSyncBlock (some num)
def isBruno : Bool := isForked c.brunoBlock num
def isOnBruno : Bool := configNumEqual c.brunoBlock (some num)
def isEuler : Bool := isForked c.eulerBlock num
def isOnEuler : Bool := configNumEqual c.eulerBlock (some num)
def isClassic : Bool := isForked c.classicBlock num
def isOnClassic : Bool := configNumEqual c.classicBlock (some num)
def isMuirGlacier : Bool := isForked c.muirGlacierBlock num

/-- A configuration without a Petersburg block switches with Constantinople. -/
def isPetersburg : Bool :=
  isForked c.petersburgBlock num || (c.petersburgBlock.isNone && isForked c.constantinopleBlock num)

def isIstanbul : Bool := isForked c.istanbulBlock num
def isBerlin : Bool := isForked c.berlinBlock num || isForked c.yoloV3Block num
def isCatalyst : Bool := isForked c.catalystBlock num
def isEWASM : Bool := isForked c.ewasmBlock num

/-- The fields of the configuration whose name ends in `Block`, in the order of
their declaration. -/
def blocks : List (Option ℤ) :=
  [c.homesteadBlock, c.daoForkBlock, c.eip150Block, c.eip155Block, c.eip158Block,
    c.byzantiumBlock, c.constantinopleBlock, c.petersburgBlock, c.istanbulBlock,
    c.muirGlacierBlock, c.berlinBlock, c.yoloV3Block, c.ewasmBlock, c.catalystBlock,
    c.ramanujanBlock, c.nielsBlock, c.mirrorSyncBlock, c.brunoBlock, c.eulerBlock,
    c.classicBlock]

end ChainConfig

/-- The value of a `big.Int` as a `uint64`: its low 64 bits. -/
def uint64 (x : ℤ) : ℕ := x.natAbs % 2 ^ 64

/-- A configuration without any fork. -/
def frontier : ChainConfig where
  chainID := some 1
  homesteadBlock := none
  daoForkBlock := none
  daoForkSupport := false
  eip150Block := none
  eip155Block := none
  eip158Block := none
  byzantiumBlock := none
  constantinopleBlock := none
  petersburgBlock := none
  istanbulBlock := none
  muirGlacierBlock := none
  berlinBlock := none
  yoloV3Block := none
  ewasmBlock := none
  catalystBlock := none
  ramanujanBlock := none
  nielsBlock := none
  mirrorSyncBlock := none
  brunoBlock := none
  eulerBlock := none
  classicBlock := none

end Dexit.Params
