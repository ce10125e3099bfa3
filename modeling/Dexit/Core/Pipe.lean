import Dexit.Core.StateDB
import Dexit.Go.Map

/-!
# Pipelined commit

With pipelined commit a block leaves a snapshot layer before its storage roots
are known: the accounts whose storage it wrote get a placeholder for their
root. A job in the background computes the roots, puts them into the layer and
checks the root of the state. Execution sees accounts and slots, never a
storage root, so here it is a function of the two.
-/

namespace Dexit.Core.Pipe

open Go
open Parlia (Hash)

/-- The placeholder. -/
def dummyRoot : Hash := 0x542e5fc2709de84248e9bce43a9c0c8943a608029001360f8ab55bf113b23d28

/-- The contents of a storage trie; a slot that is not there is zero. -/
abbrev Slots : Type := Hash → Hash

/-- What execution sees of an account. -/
structure Info where
  nonce : UInt64
  balance : ℤ
  codeHash : Hash
  deriving DecidableEq

def Info.withRoot (i : Info) (root : Hash) : Account := ⟨i.nonce, i.balance, root, i.codeHash⟩

def info (acc : Account) : Info := ⟨acc.nonce, acc.balance, acc.codeHash⟩

structure View where
  account : Address → Option Info
  slot : Address → Slots

/-- An account in the format of the snapshot, which leaves out an empty root. -/
structure Slim where
  info : Info
  root : Option Hash
  deriving DecidableEq

/-- `SlimAccount`. -/
def slim (acc : Account) : Slim := ⟨info acc, if acc.root = emptyRoot then none else some acc.root⟩

/-- The account that the state database makes of it. -/
def Slim.full (s : Slim) : Account := s.info.withRoot (s.root.getD emptyRoot)

/-- The account trie and the storage tries of a state. -/
structure Tries where
  accounts : Address → Option Account
  storage : Address → Slots

def Tries.view (t : Tries) : View := ⟨fun a => (t.accounts a).map info, t.storage⟩

structure Hasher where
  storageRoot : Slots → Hash
  accountRoot : (Address → Option Account) → Hash

/-! ### Blocks -/

/-- What a block leaves of an account that it does not delete. -/
structure Change where
  info : Info
  pending : Map Hash Hash := ∅
  /-- The address is in `snapDestructs`. -/
  destructed : Bool := false
  /-- The journal still has the address when the block is validated. -/
  dirty : Bool := false

inductive Effect
  | delete
  | update (c : Change)

structure Block where
  root : Hash
  exec : View → Map Address Effect

/-- The object was made anew in this block, and not loaded. -/
def Change.anew (c : Change) (before : View) (a : Address) : Bool :=
  c.destructed || (before.account a).isNone

/-! ### Snapshot layers -/

structure Layer where
  destructs : Address → Bool
  accounts : Address → Option Slim
  storage : Address → Map Hash Hash
  corrected : Bool

/-- A layer with what the layers below answer. -/
structure Snapshot where
  root : Hash
  below : Tries
  top : Layer

namespace Snapshot

def account (s : Snapshot) (a : Address) : Option Slim :=
  match s.top.accounts a with
  | some acc => some acc
  | none => if s.top.destructs a then none else (s.below.accounts a).map slim

def slot (s : Snapshot) (a : Address) : Slots := fun key =>
  ((s.top.storage a).lookup key).getD (if s.top.destructs a then 0 else s.below.storage a key)

def view (s : Snapshot) : View := ⟨fun a => (s.account a).map (·.info), s.slot⟩

/-- All answers, for the next layer to be put on top. -/
def flatten (s : Snapshot) : Tries := ⟨fun a => (s.account a).map Slim.full, s.slot⟩

/-- `CorrectAccounts`. -/
def correctAccounts (s : Snapshot) (accounts : Address → Option Slim) : Snapshot :=
  { s with top := { s.top with accounts, corrected := true } }

end Snapshot

/-! ### The job of a block -/

/-- The pending objects of a block, with the roots they have. -/
structure Job where
  effects : Map Address Effect
  before : View
  roots : Address → Hash

namespace Job

/-- The layer that a block leaves at first. -/
def populate (job : Job) : Layer where
  destructs a :=
    match job.effects.lookup a with
    | some .delete => true
    | some (.update c) => c.destructed
    | none => false
  accounts a :=
    match job.effects.lookup a with
    | some (.update c) =>
      some (slim (c.info.withRoot (if c.pending.keys = [] then job.roots a else dummyRoot)))
    | _ => none
  storage a :=
    match job.effects.lookup a with
    | some (.update c) => c.pending
    | _ => ∅
  corrected := false

section
variable (h : Hasher) (t : Tries) (job : Job)

/-- `getTrie` over the tries of the parent state. A root that is not there is
an error, and an empty trie is used. -/
def getTrie (a : Address) : Slots × Bool :=
  if job.roots a = emptyRoot then (fun _ => 0, false)
  else if job.roots a = h.storageRoot (t.storage a) then (t.storage a, false)
  else (fun _ => 0, true)

/-- `updateTrie` on a trie. It leaves out what the object has not changed. -/
def updateTrie (a : Address) (c : Change) (slots : Slots) : Slots := fun key =>
  let origin := if c.anew job.before a then 0 else job.before.slot a key
  match c.pending.lookup key with
  | some value => if value = origin then slots key else value
  | none => slots key

def slots (a : Address) (c : Change) : Slots := job.updateTrie a c (job.getTrie h t a).1

/-- `updateRoot`, which opens no trie for an object without pending slots. -/
def updateRoot (a : Address) (c : Change) : Hash :=
  if c.pending.keys = [] then job.roots a else h.storageRoot (job.slots h t a c)

/-- `AccountsIntermediateRoot`: the accounts for the layer, with their roots. -/
def accountData (a : Address) : Option Slim :=
  match job.effects.lookup a with
  | some (.update c) => some (slim (c.info.withRoot (job.updateRoot h t a c)))
  | _ => none

/-- `StateIntermediateRoot`: the account trie, and with it the storage tries. -/
def tries : Tries where
  accounts a :=
    match job.effects.lookup a with
    | none => t.accounts a
    | some .delete => none
    | some (.update c) => some (c.info.withRoot (job.updateRoot h t a c))
  storage a :=
    match job.effects.lookup a with
    | none => t.storage a
    | some .delete => fun _ => 0
    | some (.update c) => job.slots h t a c

/-- `CommitTrie` reports a trie that could not be opened. -/
def failed : Bool :=
  job.effects.entries.any fun e =>
    match e.2 with
    | .delete => false
    | .update c => !c.pending.keys.isEmpty && (job.getTrie h t e.1).2

/-- The verdict of the job: the root is the expected one and all is committed. -/
def verified (expected : Hash) : Bool :=
  h.accountRoot (job.tries h t).accounts = expected && !job.failed h t

end

end Job

/-! ### The layer of a finished job -/

@[simp] theorem info_withRoot (i : Info) (root : Hash) : info (i.withRoot root) = i := rfl

@[simp] theorem info_slim (acc : Account) : (slim acc).info = info acc := rfl

@[simp] theorem full_slim (acc : Account) : (slim acc).full = acc := by
  unfold slim Slim.full
  split
  · next h => rw [Option.getD_none, ← h]; rfl
  · rfl

theorem map_full_slim (acc : Option Account) : (acc.map slim).map Slim.full = acc := by
  cases acc with
  | none => rfl
  | some acc => simp

/-- With its roots in the layer, a job leaves a snapshot that answers with the
accounts of the new trie. -/
theorem account_corrected (h : Hasher) {t below : Tries} (hbelow : below.accounts = t.accounts)
    (job : Job) (root : Hash) (a : Address) :
    (Snapshot.correctAccounts ⟨root, below, job.populate⟩ (job.accountData h t)).account a =
      ((job.tries h t).accounts a).map slim := by
  unfold Snapshot.account Snapshot.correctAccounts Job.accountData Job.populate Job.tries
  rcases hl : job.effects.lookup a with _ | _ | c
  · simp [hl, hbelow]
  · simp [hl]
  · simp [hl]

end Dexit.Core.Pipe
