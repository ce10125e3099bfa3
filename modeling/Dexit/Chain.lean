import Mathlib.Algebra.GroupWithZero.Nat
import Mathlib.Data.Fintype.Basic

/-! Account addresses and the addresses of the genesis contracts, shared by the
contracts and the consensus engine. -/

namespace Dexit

instance addressSize_ne_zero : NeZero (2 ^ 160) := ⟨by decide⟩

/-- A 160-bit account address. -/
def Address : Type := Fin (2 ^ 160)

namespace Address

instance : DecidableEq Address := inferInstanceAs (DecidableEq (Fin (2 ^ 160)))
instance : Fintype Address := inferInstanceAs (Fintype (Fin (2 ^ 160)))
instance : LinearOrder Address := inferInstanceAs (LinearOrder (Fin (2 ^ 160)))
instance : Repr Address := inferInstanceAs (Repr (Fin (2 ^ 160)))
instance : Inhabited Address := ⟨(⟨0, by decide⟩ : Fin (2 ^ 160))⟩
instance (n : Nat) : OfNat Address n := ⟨Fin.ofNat (2 ^ 160) n⟩

def toNat (a : Address) : Nat := Fin.val a

end Address

def VALIDATOR_CONTRACT_ADDR : Address := 0x1000
def SLASH_CONTRACT_ADDR : Address := 0x1001
def SYSTEM_REWARD_ADDR : Address := 0x1002
def LIGHT_CLIENT_ADDR : Address := 0x1003
def TOKEN_HUB_ADDR : Address := 0x1004
def INCENTIVIZE_ADDR : Address := 0x1005
def RELAYERHUB_CONTRACT_ADDR : Address := 0x1006
def GOV_HUB_ADDR : Address := 0x1007
def CROSS_CHAIN_CONTRACT_ADDR : Address := 0x2000
def BURN_ADDRESS : Address := 0xdEaD
def SystemAddress : Address := 0xffffFFFfFFffffffffffffffFfFFFfffFFFfFFfE

end Dexit
