import Dexit.Core.StateDB
import Dexit.Go.Map

/-!
# Light processing

A block is applied from a diff layer that a peer sent instead of executing it.
Tries are their contents here; what hashes them, opens them and decodes blobs is
a parameter. An empty value in a storage trie stands for no value. The keys of
the tries are named by their preimages.
-/

namespace Dexit.Core.Light

open Go
open Parlia (Hash)

abbrev Bytes : Type := List UInt8

/-- The contents of a storage trie. -/
abbrev Slots : Type := Bytes → Bytes

def noSlots : Slots := fun _ => []

/-- `snapshot.Account`. -/
structure SlimAccount where
  nonce : UInt64
  balance : ℕ
  root : Bytes
  codeHash : Bytes

/-- `state.Account`, in the account trie. -/
structure TrieAccount where
  nonce : UInt64
  balance : ℕ
  root : Hash
  codeHash : Bytes
  deriving DecidableEq

structure DiffCode where
  hash : Hash
  code : Bytes

structure DiffAccount where
  account : Address
  blob : Bytes

structure DiffStorage where
  account : Address
  keys : List Bytes
  vals : List Bytes

/-- What is read of a receipt; `consensus` are the fields that its hash covers. -/
structure Receipt where
  gasUsed : UInt64
  logs : List Log
  consensus : Bytes

structure DiffLayer where
  receipts : List Receipt := []
  codes : List DiffCode := []
  destructs : List Address := []
  accounts : List DiffAccount := []
  storages : List DiffStorage := []

/-- What is read of a block and its header. -/
structure Block where
  root : Hash
  gasUsed : UInt64
  bloom : BitVec 2048
  receiptHash : Hash

/-- Hashing, decoding and the database below. -/
structure Backend where
  decode : Bytes → Option SlimAccount
  keccak : Bytes → Hash
  accountRoot : (Address → Option TrieAccount) → Hash
  storageRoot : Slots → Hash
  openStorageTrie : Address → Hash → Option Slots
  readCode : Hash → Bytes
  createBloom : List Receipt → BitVec 2048
  deriveSha : List Receipt → Hash

inductive Error
  | lengthMismatch
  | invalidBlob
  | codeMismatch (account : Address)
  | missingCode (account : Address)
  | missingTrie
  | missingStorageChange
  | storageRootMismatch
  | invalidGasUsed (remote here : UInt64)
  | invalidBloom
  | invalidReceiptRoot
  | invalidMerkleRoot (remote here : Hash)
  deriving DecidableEq

/-! ### Accounts -/

/-- `common.BytesToHash`: the last 32 bytes. -/
def bytesToHash (b : Bytes) : Hash := BitVec.ofNat 256 (b.foldl (fun n x => n * 256 + x.toNat) 0)

/-- `emptyRoot[:]`. -/
def emptyRootBytes : Bytes :=
  [0x56, 0xe8, 0x1f, 0x17, 0x1b, 0xcc, 0x55, 0xa6, 0xff, 0x83, 0x45, 0xe6, 0x92, 0xc0, 0xf8, 0x6e,
   0x5b, 0x48, 0xe0, 0x1b, 0x99, 0x6c, 0xad, 0xc0, 0x01, 0x62, 0x2f, 0xb5, 0xe3, 0x63, 0xb4, 0x21]

/-- `emptyCode[:]`. -/
def emptyCode : Bytes :=
  [0xc5, 0xd2, 0x46, 0x01, 0x86, 0xf7, 0x23, 0x3c, 0x92, 0x7e, 0x7d, 0xb2, 0xdc, 0xc7, 0x03, 0xc0,
   0xe5, 0x00, 0xb6, 0x53, 0xca, 0x82, 0x27, 0x3b, 0x7b, 0xfa, 0xd8, 0x04, 0x5d, 0x85, 0xa4, 0x70]

def fullAccount (b : Backend) (data : Bytes) : Option SlimAccount :=
  (b.decode data).map fun account =>
    { account with
      root := if account.root = [] then emptyRootBytes else account.root
      codeHash := if account.codeHash = [] then emptyCode else account.codeHash }

/-- `latestStateAccount`. -/
def SlimAccount.toTrie (account : SlimAccount) : TrieAccount :=
  ⟨account.nonce, account.balance, bytesToHash account.root, account.codeHash⟩

/-- The empty root and the empty code hash are filled in. -/
def TrieAccount.fill (account : TrieAccount) : TrieAccount :=
  { account with
    root := if account.root = 0 then emptyRoot else account.root
    codeHash := if account.codeHash = [] then emptyCode else account.codeHash }

/-- `previousAccount`, from what the trie holds. -/
def previousAccount (enc : Option TrieAccount) : TrieAccount := (enc.getD ⟨0, 0, 0, []⟩).fill

/-! ### Processing -/

structure SnapData where
  snapDestructs : StructSet Address := ∅
  snapAccounts : Map Address Bytes := ∅
  snapStorage : Map Address (Map Bytes Bytes) := ∅

def storageMap (storage : DiffStorage) : Map Bytes Bytes :=
  (storage.keys.zip storage.vals).foldl (fun m (k, v) => m.insert k v) ∅

def diffLayerToSnap (diffLayer : DiffLayer) : Except Error SnapData := do
  let snapStorage ← diffLayer.storages.foldlM (fun (m : Map Address (Map Bytes Bytes)) storage =>
      if storage.keys.length ≠ storage.vals.length then .error .lengthMismatch
      else .ok (m.insert storage.account (storageMap storage))) ∅
  return {
    snapDestructs := StructSet.addAll ∅ diffLayer.destructs
    snapAccounts := diffLayer.accounts.foldl (fun m a => m.insert a.account a.blob) ∅
    snapStorage }

/-- What the goroutines share. Each of them works on accounts of its own. -/
structure Work where
  stateTrie : Address → Option TrieAccount
  snapAccounts : Map Address Bytes
  snapStorage : Map Address (Map Bytes Bytes)
  diffTries : Map Address Slots := ∅
  diffCode : Map Hash Bytes := ∅

/-- The code of an account that has a new code hash. -/
def updateCode (b : Backend) (fullDiffCode diffCode : Map Hash Bytes) (diffAccount : Address)
    (latest : SlimAccount) (previous : TrieAccount) : Except Error (Map Hash Bytes) :=
  let codeHash := bytesToHash latest.codeHash
  if latest.codeHash ≠ previous.codeHash ∧ latest.codeHash ≠ emptyCode then
    match fullDiffCode.lookup codeHash with
    | some code =>
      if b.keccak code ≠ codeHash then .error (.codeMismatch diffAccount)
      else .ok (diffCode.insert codeHash code)
    | none => if b.readCode codeHash = [] then .error (.missingCode diffAccount) else .ok diffCode
  else .ok diffCode

def tryUpdate (trie : Slots) (key value : Bytes) : Slots := Function.update trie key value

def tryDelete (trie : Slots) (key : Bytes) : Slots := Function.update trie key []

def applyChanges (accountTrie : Slots) (storageChange : Map Bytes Bytes) : Slots :=
  storageChange.entries.foldl
    (fun trie e => if e.2 ≠ [] then tryUpdate trie e.1 e.2 else tryDelete trie e.1) accountTrie

/-- The storage trie of an account that has a new root. -/
def updateStorage (b : Backend) (snapStorage : Map Address (Map Bytes Bytes))
    (diffAccount : Address) (latestRoot : Hash) (previous : TrieAccount) : Except Error Slots :=
  match b.openStorageTrie diffAccount previous.root with
  | none => .error .missingTrie
  | some accountTrie =>
    match snapStorage.lookup diffAccount with
    | none => .error .missingStorageChange
    | some storageChange =>
      let accountTrie := applyChanges accountTrie storageChange
      if latestRoot ≠ b.storageRoot accountTrie then .error .storageRootMismatch
      else .ok accountTrie

/-- The body of the loop over the accounts. -/
def processAccount (b : Backend) (fullDiffCode : Map Hash Bytes) (w : Work)
    (diffAccount : Address) : Except Error Work :=
  match fullAccount b ((w.snapAccounts.lookup diffAccount).getD []) with
  | none => .error .invalidBlob
  | some latest => do
    let previous := previousAccount (w.stateTrie diffAccount)
    if previous = latest.toTrie then
      return { w with
        snapAccounts := w.snapAccounts.erase diffAccount
        snapStorage := w.snapStorage.erase diffAccount }
    else
      let diffCode ← updateCode b fullDiffCode w.diffCode diffAccount latest previous
      let stateTrie := Function.update w.stateTrie diffAccount (some latest.toTrie)
      if latest.toTrie.root ≠ previous.root then
        let accountTrie ← updateStorage b w.snapStorage diffAccount latest.toTrie.root previous
        return { w with diffCode, stateTrie, diffTries := w.diffTries.insert diffAccount accountTrie }
      else
        return { w with diffCode, stateTrie, snapStorage := w.snapStorage.erase diffAccount }

/-- `ValidateState` after light processing and without pipelined commit. -/
def validateState (b : Backend) (block : Block) (stateTrie : Address → Option TrieAccount)
    (receipts : List Receipt) (usedGas : UInt64) : Except Error Unit :=
  if block.gasUsed ≠ usedGas then .error (.invalidGasUsed block.gasUsed usedGas)
  else if b.createBloom receipts ≠ block.bloom then .error .invalidBloom
  else if b.deriveSha receipts ≠ block.receiptHash then .error .invalidReceiptRoot
  else if block.root ≠ b.accountRoot stateTrie then
    .error (.invalidMerkleRoot block.root (b.accountRoot stateTrie))
  else .ok ()

def snapToDiffLayer (s : SnapData) : List Address × List DiffAccount × List DiffStorage :=
  (s.snapDestructs.keys, s.snapAccounts.entries.map fun e => ⟨e.1, e.2⟩,
    s.snapStorage.entries.map fun e => ⟨e.1, e.2.keys, e.2.entries.map (·.2)⟩)

/-- What the state database is left with, and what is returned. -/
structure Processed where
  stateTrie : Address → Option TrieAccount
  diffTries : Map Address Slots
  diffCode : Map Hash Bytes
  snap : SnapData
  diffLayer : DiffLayer
  logs : List Log
  gasUsed : UInt64

/-- The accounts come in the order of the range over the map, which is any
order; with several goroutines it is the order in which they are done. -/
def lightProcess (b : Backend) (stateTrie : Address → Option TrieAccount) (diffLayer : DiffLayer)
    (block : Block) (order : List Address) : Except Error Processed := do
  let snap ← diffLayerToSnap diffLayer
  let fullDiffCode : Map Hash Bytes := diffLayer.codes.foldl (fun m c => m.insert c.hash c.code) ∅
  let w ← order.foldlM (processAccount b fullDiffCode)
    { stateTrie := fun addr => if addr ∈ snap.snapDestructs then none else stateTrie addr
      snapAccounts := snap.snapAccounts
      snapStorage := snap.snapStorage }
  let logs := diffLayer.receipts.flatMap (·.logs)
  let gasUsed := diffLayer.receipts.foldl (fun n r => n + r.gasUsed) 0
  validateState b block w.stateTrie diffLayer.receipts gasUsed
  -- storage that is left without its account
  let redundant := w.snapStorage.keys.filter (· ∉ w.snapAccounts)
  let snap : SnapData :=
    { snap with
      snapAccounts := w.snapAccounts
      snapStorage := Map.deleteAll w.snapStorage redundant }
  let codes := if fullDiffCode.keys.length ≠ diffLayer.codes.length then
    w.diffCode.entries.map fun e => ⟨e.1, e.2⟩ else diffLayer.codes
  let (destructs, accounts, storages) :=
    if snap.snapAccounts.keys.length ≠ diffLayer.accounts.length ∨
        snap.snapStorage.keys.length ≠ diffLayer.storages.length then snapToDiffLayer snap
    else (diffLayer.destructs, diffLayer.accounts, diffLayer.storages)
  return {
    stateTrie := w.stateTrie
    diffTries := w.diffTries
    diffCode := w.diffCode
    snap
    diffLayer := { diffLayer with codes, destructs, accounts, storages }
    logs
    gasUsed }

end Dexit.Core.Light
