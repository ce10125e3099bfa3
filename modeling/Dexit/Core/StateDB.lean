import Dexit.Parlia.Types

/-!
# The state database during execution

The live objects of a block that is being executed over the state of its
parent, with the journal that undoes their changes. The snapshot layer and the
tries of the parent state are parameters. A map of the source is a function
here, so a loop over one that treats each key on its own is that function
changed at every key.
-/

namespace Dexit.Core

open Parlia (Hash)
open Function List

abbrev Code : Type := List UInt8

/-- A map from slots to values. -/
abbrev Storage : Type := Hash → Option Hash

/-- The root of an empty trie. -/
def emptyRoot : Hash := 0x56e81f171bcc55a6ff8345e692c0f86e5b48e01b996cadc001622fb5e363b421

/-- The hash of empty code. -/
def emptyCodeHash : Hash := 0xc5d2460186f7233c927e7db2dcc703c0e500b653ca82273b7bfad8045d85a470

structure Account where
  nonce : UInt64
  balance : ℤ
  root : Hash
  codeHash : Hash
  deriving DecidableEq

/-- `Account{}`, with what `newObject` puts in place of a nil balance and a nil
code hash. -/
def Account.zero : Account := ⟨0, 0, 0, emptyCodeHash⟩

/-- The parent's snapshot layer, its accounts with the empty code hash filled
in; `none` is an error. -/
structure Snap where
  account : Address → Option (Option Account)
  storage : Address → Hash → Option Hash

/-- What lies below the live objects: a snapshot layer, if there is one, the
account trie, the storage tries by root and the contract codes. A value that
cannot be read is zero. -/
structure Env where
  snap : Option Snap
  trieAccount : Address → Option Account
  storageTrie : Address → Hash → Hash → Hash
  contractCode : Address → Hash → Option Code
  keccak : Code → Hash

structure StateObject where
  data : Account
  trie : Option (Hash → Hash) := none
  code : Option Code := none
  originStorage : Storage := fun _ => none
  pendingStorage : Storage := fun _ => none
  dirtyStorage : Storage := fun _ => none
  fakeStorage : Option (Hash → Hash) := none
  dirtyCode : Bool := false
  suicided : Bool := false
  deleted : Bool := false

def newObject (data : Account) : StateObject where
  data := if data.root = 0 then { data with root := emptyRoot } else data

def StateObject.empty (obj : StateObject) : Bool :=
  obj.data.nonce = 0 ∧ obj.data.balance = 0 ∧ obj.data.codeHash = emptyCodeHash

/-- What `getTrie` opens, or has opened before. -/
def StateObject.getTrie (env : Env) (addr : Address) (obj : StateObject) : Hash → Hash :=
  obj.trie.getD (env.storageTrie addr obj.data.root)

/-- What `Code` returns; it keeps the code that it loads. -/
def StateObject.getCode (env : Env) (addr : Address) (obj : StateObject) : Option Code :=
  match obj.code with
  | some code => some code
  | none =>
    if obj.data.codeHash = emptyCodeHash then none else env.contractCode addr obj.data.codeHash

/-- The slots of an address, one at least: the map is made for its first slot
and dropped with its last one. -/
abbrev SlotMap : Type := { slots : Finset Hash // slots.Nonempty }

/-- The index of an address that has no slots, `-1` in the source, is `none`. -/
structure AccessList where
  addresses : Address → Option (Option ℕ) := fun _ => none
  slots : List SlotMap := []

structure Log where
  address : Address
  topics : List Hash
  data : List UInt8
  txHash : Hash := 0
  blockHash : Hash := 0
  txIndex : ℕ := 0
  index : UInt64 := 0

inductive JournalEntry
  | createObject (account : Address)
  | resetObject (account : Address) (prev : StateObject) (prevdestruct : Bool)
  | suicide (account : Address) (prev : Bool) (prevbalance : ℤ)
  | balance (account : Address) (prev : ℤ)
  | nonce (account : Address) (prev : UInt64)
  | storage (account : Address) (key prevalue : Hash)
  | code (account : Address) (prevcode : Option Code) (prevhash : Hash)
  | refund (prev : UInt64)
  | addLog (txhash : Hash)
  | addPreimage (hash : Hash)
  | touch (account : Address)
  | accessListAddAccount (address : Address)
  | accessListAddSlot (address : Address) (slot : Hash)

/-- The address that an entry counts as a change of. -/
def JournalEntry.dirtied : JournalEntry → Option Address
  | createObject account | suicide account _ _ | balance account _ | nonce account _
  | storage account _ _ | code account _ _ | touch account => some account
  | resetObject .. | refund _ | addLog _ | addPreimage _ | accessListAddAccount _
  | accessListAddSlot .. => none

structure Revision where
  id : ℕ
  journalIndex : ℕ

/-- The snapshots that can be reverted to; each got the next number when it was
taken. -/
structure Revisions where
  validRevisions : List Revision := []
  nextRevisionId : ℕ := 0
  increasing : validRevisions.Pairwise fun r r' => r.id < r'.id := by exact List.Pairwise.nil
  below : ∀ r ∈ validRevisions, r.id < nextRevisionId := by exact nofun

/-- The last entry of the journal comes first. An address is in `dirties` when
its count is not zero. -/
structure StateDB where
  stateObjects : Address → Option StateObject := fun _ => none
  stateObjectsPending : Address → Bool := fun _ => false
  stateObjectsDirty : Address → Bool := fun _ => false
  snapDestructs : Address → Bool := fun _ => false
  storagePool : Option (Address → Storage) := none
  writeOnSharedStorage : Bool := false
  refund : UInt64 := 0
  thash : Hash := 0
  bhash : Hash := 0
  txIndex : ℕ := 0
  logs : Hash → List Log := fun _ => []
  logSize : UInt64 := 0
  preimages : Hash → Option (List UInt8) := fun _ => none
  accessList : Option AccessList := none
  journal : List JournalEntry := []
  dirties : Address → ℤ := fun _ => 0
  revisions : Revisions := {}

/-- The precompile whose touches outlive a revert. -/
def ripemd : Address := 3

/-! ### Access lists -/

namespace AccessList

def contains (al : AccessList) (address : Address) (slot : Hash) : Bool × Bool :=
  match al.addresses address with
  | none => (false, false)
  | some none => (true, false)
  | some (some idx) => (true, al.slots[idx]?.any fun slotmap => slot ∈ slotmap.1)

def addAddress (al : AccessList) (address : Address) : AccessList × Bool :=
  match al.addresses address with
  | some _ => (al, false)
  | none => ({ al with addresses := update al.addresses address (some none) }, true)

/-- The address and the slot that were added; `none` is an index out of range. -/
def addSlot (al : AccessList) (address : Address) (slot : Hash) :
    Option (AccessList × Bool × Bool) :=
  match al.addresses address with
  | some (some idx) =>
    match al.slots[idx]? with
    | none => none
    | some slotmap =>
      if slot ∈ slotmap.1 then some (al, false, false)
      else
        let added : SlotMap := ⟨insert slot slotmap.1, Finset.insert_nonempty slot slotmap.1⟩
        some ({ al with slots := al.slots.set idx added }, false, true)
  | found =>
    some ({ addresses := update al.addresses address (some (some al.slots.length))
            slots := al.slots ++ [⟨{slot}, Finset.singleton_nonempty slot⟩] }, found.isNone, true)

/-- Panics on an address that is not there or has no slots. -/
def deleteSlot (al : AccessList) (address : Address) (slot : Hash) : Option AccessList :=
  match al.addresses address with
  | none | some none => none
  | some (some idx) =>
    match al.slots[idx]? with
    | none => none
    | some slotmap =>
      if h : (slotmap.1.erase slot).Nonempty then
        some { al with slots := al.slots.set idx ⟨slotmap.1.erase slot, h⟩ }
      else
        some { addresses := update al.addresses address (some none)
               slots := al.slots.take idx }

def deleteAddress (al : AccessList) (address : Address) : AccessList :=
  { al with addresses := update al.addresses address none }

end AccessList

/-! ### Objects -/

/-- The account in the snapshot layer, or in the trie where there is no layer
or it cannot be read. -/
def Env.readAccount (env : Env) (addr : Address) : Option Account :=
  match env.snap.bind (·.account addr) with
  | some found => found
  | none => env.trieAccount addr

namespace StateDB

variable (env : Env) (s : StateDB) (addr : Address)

def setStateObject (obj : StateObject) : StateDB :=
  { s with stateObjects := update s.stateObjects addr (some obj) }

def getDeletedStateObject : Option StateObject × StateDB :=
  match s.stateObjects addr with
  | some obj => (some obj, s)
  | none =>
    match env.readAccount addr with
    | none => (none, s)
    | some data => (some (newObject data), s.setStateObject addr (newObject data))

def getStateObject : Option StateObject × StateDB :=
  match s.getDeletedStateObject env addr with
  | (some obj, s) => (if obj.deleted then none else some obj, s)
  | (none, s) => (none, s)

/-- `journal.append`. -/
def append (entry : JournalEntry) : StateDB :=
  { s with
    journal := entry :: s.journal
    dirties := match entry.dirtied with
      | some addr => update s.dirties addr (s.dirties addr + 1)
      | none => s.dirties }

/-- `journal.dirty`. -/
def dirty : StateDB :=
  { s with dirties := update s.dirties addr (s.dirties addr + 1) }

/-- The new object and the one it replaces, if that was not deleted. -/
def createObject : StateObject × Option StateObject × StateDB :=
  let newobj := newObject Account.zero
  match s.getDeletedStateObject env addr with
  | (none, s) => (newobj, none, (s.append (.createObject addr)).setStateObject addr newobj)
  | (some prev, s) =>
    let prevdestruct := env.snap.isSome && s.snapDestructs addr
    let s := if env.snap.isSome then
      { s with snapDestructs := update s.snapDestructs addr true } else s
    (newobj, if prev.deleted then none else some prev,
      (s.append (.resetObject addr prev prevdestruct)).setStateObject addr newobj)

def createAccount : StateDB :=
  match s.createObject env addr with
  | (_, none, s) => s
  | (newObj, some prev, s) =>
    s.setStateObject addr { newObj with data := { newObj.data with balance := prev.data.balance } }

def getOrNewStateObject : StateObject × StateDB :=
  match s.getStateObject env addr with
  | (some obj, s) => (obj, s)
  | (none, s) => let (newobj, _, s) := s.createObject env addr; (newobj, s)

/-! The storage of an object. -/

/-- The value that the shared pool holds for a slot. -/
def shared (key : Hash) : Option Hash :=
  s.storagePool.bind fun pool => pool addr key

/-- The object keeps a value it has read, and `setOriginStorage` puts it into
the pool too where this database may write there. -/
def setOriginStorage (obj : StateObject) (key value : Hash) :
    StateDB :=
  { s with
    stateObjects := update s.stateObjects addr
      (some { obj with originStorage := update obj.originStorage key (some value) })
    storagePool :=
      if s.writeOnSharedStorage then
        s.storagePool.map fun pool => update pool addr (update (pool addr) key (some value))
      else s.storagePool }

/-- `getOriginStorage`: the object's own cache and then the pool. -/
def getOriginStorage (obj : StateObject) (key : Hash) : Option Hash × StateDB :=
  match obj.originStorage key with
  | some value => (some value, s)
  | none =>
    match s.shared addr key with
    | none => (none, s)
    | some value =>
      (some value, s.setStateObject addr
        { obj with originStorage := update obj.originStorage key (some value) })

/-- `StateObject.GetCommittedState` of the live object `obj`. -/
def objectCommittedState (obj : StateObject) (key : Hash) : Hash × StateDB :=
  match obj.fakeStorage with
  | some fake => (fake key, s)
  | none =>
    match obj.pendingStorage key with
    | some value => (value, s)
    | none =>
      match s.getOriginStorage addr obj key with
      | (some value, s) => (value, s)
      | (none, s) =>
        -- the account was destructed in this block, and its storage with it
        if env.snap.isSome && s.snapDestructs addr then (0, s)
        else
          match env.snap.bind (·.storage addr key) with
          | some value => (value, s.setOriginStorage addr obj key value)
          | none =>
            let trie := obj.getTrie env addr
            (trie key, s.setOriginStorage addr { obj with trie := some trie } key (trie key))

/-- `StateObject.GetState`. -/
def objectState (obj : StateObject) (key : Hash) : Hash × StateDB :=
  match obj.fakeStorage with
  | some fake => (fake key, s)
  | none =>
    match obj.dirtyStorage key with
    | some value => (value, s)
    | none => s.objectCommittedState env addr obj key

/-! ### Reading -/

def exist : Bool × StateDB :=
  let (obj, s) := s.getStateObject env addr
  (obj.isSome, s)

def getBalance : ℤ × StateDB :=
  let (obj, s) := s.getStateObject env addr
  ((obj.map (·.data.balance)).getD 0, s)

def getNonce : UInt64 × StateDB :=
  let (obj, s) := s.getStateObject env addr
  ((obj.map (·.data.nonce)).getD 0, s)

def getCodeHash : Hash × StateDB :=
  let (obj, s) := s.getStateObject env addr
  ((obj.map (·.data.codeHash)).getD 0, s)

def hasSuicided : Bool × StateDB :=
  let (obj, s) := s.getStateObject env addr
  ((obj.map (·.suicided)).getD false, s)

def getCode : Option Code × StateDB :=
  match s.getStateObject env addr with
  | (none, s) => (none, s)
  | (some obj, s) =>
    (obj.getCode env addr, s.setStateObject addr { obj with code := obj.getCode env addr })

def getState (key : Hash) : Hash × StateDB :=
  match s.getStateObject env addr with
  | (none, s) => (0, s)
  | (some obj, s) => s.objectState env addr obj key

def getCommittedState (key : Hash) : Hash × StateDB :=
  match s.getStateObject env addr with
  | (none, s) => (0, s)
  | (some obj, s) => s.objectCommittedState env addr obj key

/-- `SlotInAccessList`, with the answer of `AddressInAccessList` first. -/
def slotInAccessList (slot : Hash) : Bool × Bool :=
  match s.accessList with
  | none => (false, false)
  | some al => al.contains addr slot

/-! ### Writing -/

/-- `touch`. -/
def touch : StateDB :=
  let s := s.append (.touch addr)
  if addr = ripemd then s.dirty addr else s

/-- `StateObject.SetBalance`. -/
def objectSetBalance (obj : StateObject) (amount : ℤ) : StateDB :=
  (s.append (.balance addr obj.data.balance)).setStateObject addr
    { obj with data := { obj.data with balance := amount } }

def addBalance (amount : ℤ) : StateDB :=
  let (obj, s) := s.getOrNewStateObject env addr
  if amount = 0 then if obj.empty then s.touch addr else s
  else s.objectSetBalance addr obj (obj.data.balance + amount)

def subBalance (amount : ℤ) : StateDB :=
  let (obj, s) := s.getOrNewStateObject env addr
  if amount = 0 then s else s.objectSetBalance addr obj (obj.data.balance - amount)

def setBalance (amount : ℤ) : StateDB :=
  let (obj, s) := s.getOrNewStateObject env addr
  s.objectSetBalance addr obj amount

def setNonce (nonce : UInt64) : StateDB :=
  let (obj, s) := s.getOrNewStateObject env addr
  (s.append (.nonce addr obj.data.nonce)).setStateObject addr
    { obj with data := { obj.data with nonce } }

def setCode (code : Code) : StateDB :=
  let (obj, s) := s.getOrNewStateObject env addr
  (s.append (.code addr (obj.getCode env addr) obj.data.codeHash)).setStateObject addr
    { obj with code := some code, data := { obj.data with codeHash := env.keccak code }
               dirtyCode := true }

/-- The live object after the read that `SetState` makes. -/
def liveObject (obj : StateObject) : StateObject :=
  (s.stateObjects addr).getD obj

def setState (key value : Hash) : StateDB :=
  let (obj, s) := s.getOrNewStateObject env addr
  match obj.fakeStorage with
  | some fake =>
    s.setStateObject addr { obj with fakeStorage := some (update fake key value) }
  | none =>
    let (prev, s) := s.objectState env addr obj key
    if prev = value then s
    else
      let obj := s.liveObject addr obj
      (s.append (.storage addr key prev)).setStateObject addr
        { obj with dirtyStorage := update obj.dirtyStorage key (some value) }

/-- Replaces the storage of an account, for calls that override it. -/
def setStorage (storage : Storage) : StateDB :=
  let (obj, s) := s.getOrNewStateObject env addr
  let fake := obj.fakeStorage.getD fun _ => 0
  s.setStateObject addr { obj with fakeStorage := some fun key => (storage key).getD (fake key) }

def suicide : Bool × StateDB :=
  match s.getStateObject env addr with
  | (none, s) => (false, s)
  | (some obj, s) =>
    (true, (s.append (.suicide addr obj.suicided obj.data.balance)).setStateObject addr
      { obj with suicided := true, data := { obj.data with balance := 0 } })

def addRefund (gas : UInt64) : StateDB :=
  let s := s.append (.refund s.refund)
  { s with refund := s.refund + gas }

/-- Panics if the counter would go below zero. -/
def subRefund (gas : UInt64) : Option StateDB :=
  let s := s.append (.refund s.refund)
  if gas > s.refund then none else some { s with refund := s.refund - gas }

def addLog (log : Log) : StateDB :=
  let s := s.append (.addLog s.thash)
  let log := { log with txHash := s.thash, blockHash := s.bhash, txIndex := s.txIndex
                        index := s.logSize }
  { s with
    logs := update s.logs s.thash (s.logs s.thash ++ [log])
    logSize := s.logSize + 1 }

def addPreimage (hash : Hash) (preimage : List UInt8) : StateDB :=
  match s.preimages hash with
  | some _ => s
  | none =>
    let s := s.append (.addPreimage hash)
    { s with preimages := update s.preimages hash (some preimage) }

def addAddressToAccessList : StateDB :=
  let (al, changed) := (s.accessList.getD {}).addAddress addr
  let s := { s with accessList := some al }
  if changed then s.append (.accessListAddAccount addr) else s

def addSlotToAccessList (slot : Hash) : Option StateDB :=
  match (s.accessList.getD {}).addSlot addr slot with
  | none => none
  | some (al, addrMod, slotMod) =>
    let s := { s with accessList := some al }
    let s := if addrMod then s.append (.accessListAddAccount addr) else s
    some (if slotMod then s.append (.accessListAddSlot addr slot) else s)

/-! ### Ends of transactions -/

/-- `StateObject.finalise`, the part that is not about prefetching. -/
def finaliseObject (obj : StateObject) : StateObject :=
  { obj with
    pendingStorage := fun key => (obj.dirtyStorage key).or (obj.pendingStorage key)
    dirtyStorage := fun _ => none }

/-- Suicided objects are deleted, and so are empty ones if the flag says so. -/
def doomed (deleteEmptyObjects : Bool) (obj : StateObject) : Bool :=
  obj.suicided || deleteEmptyObjects && obj.empty

def clearJournalAndRefund : StateDB :=
  let s := if s.journal.length > 0 then
    { s with journal := [], dirties := fun _ => 0, refund := 0 } else s
  { s with revisions := { nextRevisionId := s.revisions.nextRevisionId } }

def finalise (deleteEmptyObjects : Bool) : StateDB :=
  let changed (addr : Address) : Bool := s.dirties addr ≠ 0 && (s.stateObjects addr).isSome
  let s := { s with
    stateObjects := fun addr =>
      if s.dirties addr ≠ 0 then
        (s.stateObjects addr).map fun obj =>
          if doomed deleteEmptyObjects obj then { obj with deleted := true }
          else finaliseObject obj
      else s.stateObjects addr
    snapDestructs := fun addr =>
      s.snapDestructs addr || env.snap.isSome && s.dirties addr ≠ 0 &&
        (s.stateObjects addr).any (doomed deleteEmptyObjects)
    stateObjectsPending := fun addr => s.stateObjectsPending addr || changed addr
    stateObjectsDirty := fun addr => s.stateObjectsDirty addr || changed addr }
  s.clearJournalAndRefund

/-- `StateObject.updateTrie`. A value that the object began with is skipped. The
root that `updateRoot` computes next is read nowhere, since the trie stays open. -/
def updateTrie (obj : StateObject) : StateObject :=
  let obj := finaliseObject obj
  let trie := obj.getTrie env addr
  let changed (key : Hash) : Option Hash :=
    (obj.pendingStorage key).filter fun value => value ≠ (obj.originStorage key).getD 0
  { obj with
    trie := some fun key => (changed key).getD (trie key)
    originStorage := fun key => (changed key).or (obj.originStorage key)
    pendingStorage := fun _ => none }

/-- `IntermediateRoot`, the part about the objects. -/
def intermediateRoot (deleteEmptyObjects : Bool) : StateDB :=
  let s := s.finalise env deleteEmptyObjects
  { s with
    stateObjects := fun addr =>
      if s.stateObjectsPending addr then
        (s.stateObjects addr).map fun obj => if obj.deleted then obj else updateTrie env addr obj
      else s.stateObjects addr
    stateObjectsPending := fun _ => false }

def prepare (thash bhash : Hash) (ti : ℕ) : StateDB :=
  { s with thash, bhash, txIndex := ti, accessList := none }

/-! ### Copies -/

def deepCopy (obj : StateObject) : StateObject :=
  { newObject obj.data with
    trie := obj.trie
    code := obj.code
    dirtyStorage := obj.dirtyStorage
    originStorage := obj.originStorage
    pendingStorage := obj.pendingStorage
    suicided := obj.suicided
    dirtyCode := obj.dirtyCode
    deleted := obj.deleted }

/-- `Copy`: the objects that were changed, without the journal. The pool is the
same one. -/
def copy : StateDB :=
  let changed (addr : Address) : Bool := s.dirties addr ≠ 0 && (s.stateObjects addr).isSome
  { stateObjects := fun addr =>
      if changed addr || s.stateObjectsPending addr || s.stateObjectsDirty addr then
        (s.stateObjects addr).map deepCopy
      else none
    stateObjectsPending := fun addr => s.stateObjectsPending addr || changed addr
    stateObjectsDirty := fun addr => s.stateObjectsDirty addr || changed addr
    snapDestructs := s.snapDestructs
    storagePool := s.storagePool
    refund := s.refund
    logs := s.logs
    logSize := s.logSize
    preimages := s.preimages
    accessList := s.accessList }

/-! ### New ones -/

/-- `New`. -/
def new : StateDB := {}

/-- `NewWithSharedPool`. -/
def newWithSharedPool : StateDB := { new with storagePool := some fun _ _ => none }

/-! ### Undoing changes -/

/-- The object that an entry is about; without one the source dereferences nil. -/
def modify (account : Address) (f : StateObject → StateObject) :
    Option StateDB :=
  match s.getStateObject env account with
  | (none, _) => none
  | (some obj, s) => some (s.setStateObject account (f obj))

end StateDB

/-- `revert`, entry by entry. -/
def JournalEntry.revert (env : Env) (s : StateDB) : JournalEntry → Option StateDB
  | createObject account =>
    some { s with
      stateObjects := update s.stateObjects account none
      stateObjectsDirty := update s.stateObjectsDirty account false }
  | resetObject account prev prevdestruct =>
    let s := s.setStateObject account prev
    some (if !prevdestruct && env.snap.isSome then
      { s with snapDestructs := update s.snapDestructs account false } else s)
  | suicide account prev prevbalance =>
    match s.getStateObject env account with
    | (none, s) => some s
    | (some obj, s) => some (s.setStateObject account
        { obj with suicided := prev, data := { obj.data with balance := prevbalance } })
  | balance account prev =>
    s.modify env account fun obj => { obj with data := { obj.data with balance := prev } }
  | nonce account prev =>
    s.modify env account fun obj => { obj with data := { obj.data with nonce := prev } }
  | storage account key prevalue =>
    s.modify env account fun obj =>
      { obj with dirtyStorage := update obj.dirtyStorage key (some prevalue) }
  | code account prevcode prevhash =>
    s.modify env account fun obj =>
      { obj with code := prevcode, data := { obj.data with codeHash := prevhash }
                 dirtyCode := true }
  | refund prev => some { s with refund := prev }
  | addLog txhash =>
    if s.logs txhash = [] then none
    else some { s with
      logs := update s.logs txhash (s.logs txhash).dropLast
      logSize := s.logSize - 1 }
  | addPreimage hash => some { s with preimages := update s.preimages hash none }
  | touch _ => some s
  | accessListAddAccount address =>
    some { s with accessList := s.accessList.map fun al => al.deleteAddress address }
  | accessListAddSlot address slot =>
    match s.accessList with
    | none => some s
    | some al => (al.deleteSlot address slot).map fun al => { s with accessList := some al }

namespace StateDB

/-- One round of the loop of `journal.revert`. -/
def undo (env : Env) (entry : JournalEntry) (s : StateDB) : Option StateDB :=
  (entry.revert env s).map fun s =>
    match entry.dirtied with
    | some addr => { s with dirties := update s.dirties addr (s.dirties addr - 1) }
    | none => s

def undoAll (env : Env) : List JournalEntry → StateDB → Option StateDB
  | [], s => some s
  | entry :: entries, s => (s.undo env entry).bind (undoAll env entries)

/-- `journal.revert`: the entries from index `snapshot` on, the last one first. -/
def revertJournal (env : Env) (s : StateDB) (snapshot : ℕ) : Option StateDB :=
  if snapshot ≤ s.journal.length then
    let kept := s.journal.drop (s.journal.length - snapshot)
    (undoAll env (s.journal.take (s.journal.length - snapshot)) s).map fun s =>
      { s with journal := kept }
  else none

def snapshot (s : StateDB) : ℕ × StateDB :=
  let id := s.revisions.nextRevisionId
  (id, { s with revisions :=
    { validRevisions := s.revisions.validRevisions ++ [⟨id, s.journal.length⟩]
      nextRevisionId := id + 1
      increasing := by
        refine pairwise_append.mpr ⟨s.revisions.increasing, pairwise_singleton _ _, ?_⟩
        intro r hr r' hr'
        rw [mem_singleton.mp hr']
        exact s.revisions.below r hr
      below := by
        intro r hr
        obtain hr | hr := mem_append.mp hr
        · exact Nat.lt_succ_of_lt (s.revisions.below r hr)
        · rw [mem_singleton.mp hr]
          exact Nat.lt_succ_self id } })

/-- Panics on a snapshot that is not valid any more. -/
def revertToSnapshot (env : Env) (s : StateDB) (revid : ℕ) : Option StateDB :=
  let revisions := s.revisions.validRevisions
  let idx := Go.search revisions.length fun i => (revisions[i]?).all fun r => r.id ≥ revid
  match revisions[idx]? with
  | none => none
  | some revision =>
    if revision.id ≠ revid then none
    else (s.revertJournal env revision.journalIndex).map fun t =>
      { t with revisions :=
        { validRevisions := revisions.take idx
          nextRevisionId := s.revisions.nextRevisionId
          increasing := s.revisions.increasing.sublist (take_sublist idx revisions)
          below := fun r hr => s.revisions.below r (mem_of_mem_take hr) } }

end StateDB

end Dexit.Core
