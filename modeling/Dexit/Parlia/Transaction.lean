import Dexit.Parlia.Types

/-! Transactions and the signers that recover their senders. A hash is
represented by what is hashed. -/

namespace Dexit.Parlia

/-- Input data. An encoded call of one of the four methods that the engine
packs is represented by the call, everything else by its bytes. -/
inductive Calldata
  | raw (bytes : List UInt8)
  | init
  | slash (validator : Address)
  | pushContractOwner (contAddr owner : Address)
  | deposit (valAddr : Address) (contractArray : List Address)
  deriving DecidableEq, Repr

def Calldata.isEmpty : Calldata → Bool
  | raw [] => true
  | _ => false

inductive TxType
  | LegacyTxType
  | AccessListTxType
  deriving DecidableEq, Repr

/-- A transaction; only access list transactions use `chainIdField` and
`accessList`. -/
structure Tx where
  type : TxType
  nonce : UInt64
  gasPrice : ℕ
  gas : UInt64
  recipient : Option Address
  value : ℕ
  data : Calldata
  chainIdField : ℕ
  accessList : List (Address × List Hash)
  v : ℕ
  r : ℕ
  s : ℕ
  deriving DecidableEq, Repr

/-- What is signed, for the three kinds of signatures. -/
inductive SigHash
  | plain (nonce : UInt64) (gasPrice : ℕ) (gas : UInt64) (recipient : Option Address) (value : ℕ)
      (data : Calldata)
  | replayProtected (nonce : UInt64) (gasPrice : ℕ) (gas : UInt64) (recipient : Option Address) (value : ℕ)
      (data : Calldata) (chainId : ℕ)
  | typed (chainId : ℕ) (nonce : UInt64) (gasPrice : ℕ) (gas : UInt64) (recipient : Option Address)
      (value : ℕ) (data : Calldata) (accessList : List (Address × List Hash))
  deriving DecidableEq, Repr

namespace Tx

/-- A legacy transaction that nobody has signed yet. -/
def newTransaction (nonce : UInt64) (recipient : Address) (amount : ℕ) (gasLimit : UInt64) (gasPrice : ℕ)
    (data : Calldata) : Tx where
  type := .LegacyTxType
  nonce := nonce
  gasPrice := gasPrice
  gas := gasLimit
  recipient := some recipient
  value := amount
  data := data
  chainIdField := 0
  accessList := []
  v := 0
  r := 0
  s := 0

/-- `len(tx.Data()) > 0 && tx.To() == nil`. -/
def creates (tx : Tx) : Bool := !tx.data.isEmpty && tx.recipient.isNone

def deriveChainId (v : ℕ) : ℕ :=
  if v < 2 ^ 64 then
    if v = 27 ∨ v = 28 then 0 else (UInt64.ofNat v - 35).toNat / 2
  else (v - 35) / 2

def chainId (tx : Tx) : ℕ :=
  match tx.type with
  | .LegacyTxType => deriveChainId tx.v
  | .AccessListTxType => tx.chainIdField

def isProtectedV (v : ℕ) : Bool :=
  if v < 2 ^ 8 then decide (v ≠ 27 ∧ v ≠ 28 ∧ v ≠ 1 ∧ v ≠ 0) else true

def isProtected (tx : Tx) : Bool :=
  match tx.type with
  | .LegacyTxType => isProtectedV tx.v
  | .AccessListTxType => true

def plainHash (tx : Tx) : SigHash :=
  .plain tx.nonce tx.gasPrice tx.gas tx.recipient tx.value tx.data

/-- `EIP155Signer.Hash`, whatever the type of the transaction. -/
def eip155Hash (chainId : ℕ) (tx : Tx) : SigHash :=
  .replayProtected tx.nonce tx.gasPrice tx.gas tx.recipient tx.value tx.data chainId

def eip2930Hash (chainId : ℕ) (tx : Tx) : SigHash :=
  match tx.type with
  | .LegacyTxType => tx.eip155Hash chainId
  | .AccessListTxType =>
    .typed chainId tx.nonce tx.gasPrice tx.gas tx.recipient tx.value tx.data tx.accessList

end Tx

/-! ## Senders -/

inductive Signer
  | FrontierSigner
  | HomesteadSigner
  | EIP155Signer (chainId : ℕ)
  | eip2930Signer (chainId : ℕ)
  deriving DecidableEq, Repr

def secp256k1N : ℕ := 0xfffffffffffffffffffffffffffffffebaaedce6af48a03bbfd25e8cd0364141
def secp256k1halfN : ℕ := secp256k1N / 2

def validateSignatureValues (v : UInt8) (r s : ℕ) (homestead : Bool) : Bool :=
  decide (1 ≤ r ∧ 1 ≤ s ∧ ¬ (homestead = true ∧ secp256k1halfN < s) ∧ r < secp256k1N ∧
    s < secp256k1N ∧ (v = 0 ∨ v = 1))

section
variable (pubkeyAddress : SigHash → ℕ → ℕ → UInt8 → Option Address)

/-- `none` stands for any of its errors; `pubkeyAddress` recovers the public
key and hashes it. -/
def recoverPlain (sighash : SigHash) (r s : ℕ) (vb : ℤ) (homestead : Bool) : Option Address :=
  if 2 ^ 8 ≤ vb.natAbs then none
  else
    let v := (UInt64.ofNat vb.natAbs - 27).toUInt8
    if validateSignatureValues v r s homestead then pubkeyAddress sighash r s v else none

def plainSender (tx : Tx) (homestead : Bool) : Option Address :=
  if tx.type ≠ .LegacyTxType then none
  else recoverPlain pubkeyAddress tx.plainHash tx.r tx.s tx.v homestead

def eip155Sender (chainId : ℕ) (tx : Tx) : Option Address :=
  if tx.type ≠ .LegacyTxType then none
  else if ¬ tx.isProtected then plainSender pubkeyAddress tx true
  else if tx.chainId ≠ chainId then none
  else recoverPlain pubkeyAddress (tx.eip155Hash chainId) tx.r tx.s (tx.v - 2 * chainId - 8) true

def eip2930Sender (chainId : ℕ) (tx : Tx) : Option Address :=
  match tx.type with
  | .LegacyTxType =>
    if ¬ tx.isProtected then plainSender pubkeyAddress tx true
    else if tx.chainId ≠ chainId then none
    else recoverPlain pubkeyAddress (tx.eip2930Hash chainId) tx.r tx.s (tx.v - 2 * chainId - 8) true
  | .AccessListTxType =>
    if tx.chainId ≠ chainId then none
    else recoverPlain pubkeyAddress (tx.eip2930Hash chainId) tx.r tx.s (tx.v + 27) true

/-- `types.Sender`; the cached sender is the one that the same signer found. -/
def Signer.sender (signer : Signer) (tx : Tx) : Option Address :=
  match signer with
  | .FrontierSigner => plainSender pubkeyAddress tx false
  | .HomesteadSigner => plainSender pubkeyAddress tx true
  | .EIP155Signer chainId => eip155Sender pubkeyAddress chainId tx
  | .eip2930Signer chainId => eip2930Sender pubkeyAddress chainId tx

/-- The sender that the engine takes for the owner of a created contract; an
error leaves the zero address. -/
def ownerOf (tx : Tx) : Address :=
  ((Signer.EIP155Signer tx.chainId).sender pubkeyAddress tx).getD 0

/-- A legacy transaction with a sender under replay protection has the same
sender under the chain id it names itself. -/
theorem ownerOf_eq_sender {tx : Tx} {chainId : ℕ} {a : Address} (htype : tx.type = .LegacyTxType)
    (h : (Signer.EIP155Signer chainId).sender pubkeyAddress tx = some a ∨
      (Signer.eip2930Signer chainId).sender pubkeyAddress tx = some a) :
    ownerOf pubkeyAddress tx = a := by
  have hsame : eip2930Sender pubkeyAddress chainId tx = eip155Sender pubkeyAddress chainId tx := by
    simp [eip2930Sender, eip155Sender, Tx.eip2930Hash, htype]
  have h : eip155Sender pubkeyAddress chainId tx = some a := by
    obtain h | h := h
    · exact h
    · exact hsame.symm.trans h
  unfold ownerOf
  by_cases hp : tx.isProtected = true
  · have hid : tx.chainId = chainId := by
      by_contra hne
      simp [eip155Sender, htype, hp, hne] at h
    have hown : (Signer.EIP155Signer tx.chainId).sender pubkeyAddress tx =
        eip155Sender pubkeyAddress chainId tx := by
      rw [hid]
      rfl
    rw [hown, h]
    rfl
  · have hown : (Signer.EIP155Signer tx.chainId).sender pubkeyAddress tx =
        eip155Sender pubkeyAddress chainId tx := by
      simp [Signer.sender, eip155Sender, htype, hp]
    rw [hown, h]
    rfl

theorem ownerOf_eq_sender_protected : ownerOf (fun _ _ _ _ => some 7)
    { Tx.newTransaction 0 8 1 0 0 (.raw []) with v := 37, r := 1, s := 1 } = 7 :=
  ownerOf_eq_sender _ rfl (.inl (by decide +kernel : (Signer.EIP155Signer 1).sender _ _ = _))

end

end Dexit.Parlia
