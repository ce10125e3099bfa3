import Dexit.Core.RevertToSnapshot

/-!
# The shared storage pool

A state database with a pool against the same database without it. Their
objects differ in what they have cached. `Twin` compares two objects by what
they would read: the cached value, or else the value below. The pool itself is
left out of the comparison: a value in it matters only when it is read.
-/

namespace Dexit.Core

open Parlia (Hash)
open Function Option StateDB

/-- What an object reads below its caches and the pool. -/
def cleanSlot (env : Env) (addr : Address) (mark : Bool) (obj : StateObject) (key : Hash) : Hash :=
  if env.snap.isSome && mark then 0
  else
    match env.snap.bind (·.storage addr key) with
    | some value => value
    | none => obj.getTrie env addr key

/-- Two objects of one account that read the same without a pool. A deleted one
is not read any more. The last field is what `updateTrie` compares with. -/
structure Twin (env : Env) (addr : Address) (mark : Bool) (o p : StateObject) : Prop where
  data : o.data = p.data
  code : o.code = p.code
  dirtyStorage : o.dirtyStorage = p.dirtyStorage
  pendingStorage : o.pendingStorage = p.pendingStorage
  fakeStorage : o.fakeStorage = none ∧ p.fakeStorage = none
  dirtyCode : o.dirtyCode = p.dirtyCode
  suicided : o.suicided = p.suicided
  deleted : o.deleted = p.deleted
  trie : o.getTrie env addr = p.getTrie env addr
  origin : o.deleted = false → ∀ key, (o.originStorage key).getD (cleanSlot env addr mark o key) =
    (p.originStorage key).getD (cleanSlot env addr mark p key)
  zero : ∀ key, (o.originStorage key).getD 0 = (p.originStorage key).getD 0

section
variable {env : Env} {addr : Address} {mark : Bool} {o p : StateObject}

theorem Twin.refl (h : o.fakeStorage = none) : Twin env addr mark o o where
  data := rfl
  code := rfl
  dirtyStorage := rfl
  pendingStorage := rfl
  fakeStorage := ⟨h, h⟩
  dirtyCode := rfl
  suicided := rfl
  deleted := rfl
  trie := rfl
  origin _ _ := rfl
  zero _ := rfl

section
variable (h : Twin env addr mark o p)
include h

/-- Without a snapshot the mark does not matter. -/
theorem Twin.remark {mark' : Bool}
    (hmark : (env.snap.isSome && mark') = (env.snap.isSome && mark)) : Twin env addr mark' o p :=
  { h with
    origin := by
      intro hlive key
      have hkey := h.origin hlive key
      unfold cleanSlot at hkey ⊢
      rwa [hmark] }

theorem Twin.setBalance (balance : ℤ) :
    Twin env addr mark { o with data := { o.data with balance } }
      { p with data := { p.data with balance } } :=
  { h with
    data := by rw [h.data]
    trie := h.trie
    origin := h.origin }

theorem Twin.setNonce (nonce : UInt64) : Twin env addr mark { o with data := { o.data with nonce } }
      { p with data := { p.data with nonce } } :=
  { h with
    data := by rw [h.data]
    trie := h.trie
    origin := h.origin }

theorem Twin.setCode (code : Option Code) (hash : Hash) : Twin env addr mark
      { o with code, data := { o.data with codeHash := hash }, dirtyCode := true }
      { p with code, data := { p.data with codeHash := hash }, dirtyCode := true } :=
  { h with
    data := by rw [h.data]
    code := rfl
    dirtyCode := rfl
    trie := h.trie
    origin := h.origin }

theorem Twin.setSuicided (suicided : Bool) (balance : ℤ) :
    Twin env addr mark { o with suicided, data := { o.data with balance } }
      { p with suicided, data := { p.data with balance } } :=
  { h with
    data := by rw [h.data]
    suicided := rfl
    trie := h.trie
    origin := h.origin }

theorem Twin.setDirty (key value : Hash) : Twin env addr mark
      { o with dirtyStorage := update o.dirtyStorage key (some value) }
      { p with dirtyStorage := update p.dirtyStorage key (some value) } :=
  { h with
    dirtyStorage := by rw [h.dirtyStorage]
    trie := h.trie
    origin := h.origin }

theorem Twin.getCode : o.getCode env addr = p.getCode env addr := by
  unfold StateObject.getCode
  rw [h.code, h.data]

theorem Twin.keepCode : Twin env addr mark { o with code := o.getCode env addr }
      { p with code := p.getCode env addr } :=
  { h with
    code := h.getCode
    trie := h.trie
    origin := h.origin }

theorem Twin.empty : o.empty = p.empty := by
  unfold StateObject.empty
  rw [h.data]

theorem Twin.doomed (deleteEmptyObjects : Bool) :
    StateDB.doomed deleteEmptyObjects o = StateDB.doomed deleteEmptyObjects p := by
  unfold StateDB.doomed
  rw [h.suicided, h.empty]

theorem Twin.delete {mark' : Bool} :
    Twin env addr mark' { o with deleted := true } { p with deleted := true } :=
  { h with
    deleted := rfl
    trie := h.trie
    origin := fun hlive => by cases hlive }

theorem Twin.finalise : Twin env addr mark (StateDB.finaliseObject o) (StateDB.finaliseObject p) :=
  { h with
    dirtyStorage := rfl
    pendingStorage := by
      unfold finaliseObject
      rw [h.dirtyStorage, h.pendingStorage]
    trie := h.trie
    origin := h.origin }

end

/-- The slots that `updateTrie` writes. -/
def changed (obj : StateObject) (key : Hash) : Option Hash :=
  (obj.pendingStorage key).filter fun value => value ≠ (obj.originStorage key).getD 0

theorem updateTrie_eq : StateDB.updateTrie env addr o =
    { StateDB.finaliseObject o with
      trie := some fun key =>
        (changed (StateDB.finaliseObject o) key).getD (o.getTrie env addr key)
      originStorage := fun key => (changed (StateDB.finaliseObject o) key).or (o.originStorage key)
      pendingStorage := fun _ => none } := rfl

/-- A slot that `updateTrie` does not write reads as before. -/
theorem cleanSlot_updateTrie {key : Hash} (h : changed (StateDB.finaliseObject o) key = none) :
    cleanSlot env addr mark (StateDB.updateTrie env addr o) key = cleanSlot env addr mark o key := by
  have htrie : (updateTrie env addr o).getTrie env addr key = o.getTrie env addr key := by
    change (changed (finaliseObject o) key).getD _ = _
    rw [h, getD_none]
    rfl
  unfold cleanSlot
  rw [htrie]

/-- Both write the same slots. -/
theorem Twin.updateTrie (h : Twin env addr mark o p) :
    Twin env addr mark (StateDB.updateTrie env addr o) (StateDB.updateTrie env addr p) := by
  have hchanged : changed (finaliseObject o) = changed (finaliseObject p) := by
    funext key
    unfold changed
    rw [h.finalise.pendingStorage, h.finalise.zero key]
  refine { h.finalise with pendingStorage := rfl, trie := ?_, origin := ?_, zero := ?_ }
  · rw [updateTrie_eq, updateTrie_eq, hchanged, h.trie]
    rfl
  · intro hlive key
    change ((changed (finaliseObject o) key).or (o.originStorage key)).getD _ =
      ((changed (finaliseObject p) key).or (p.originStorage key)).getD _
    cases hkey : changed (finaliseObject p) key with
    | some value => rw [hchanged, hkey, some_or, some_or, getD_some, getD_some]
    | none =>
      have hkey' := (congrFun hchanged key).trans hkey
      rw [hkey', none_or, none_or, cleanSlot_updateTrie hkey', cleanSlot_updateTrie hkey]
      exact h.origin hlive key
  · intro key
    change ((changed (finaliseObject o) key).or (o.originStorage key)).getD _ =
      ((changed (finaliseObject p) key).or (p.originStorage key)).getD _
    rw [hchanged]
    cases changed (finaliseObject p) key with
    | some value => rfl
    | none => exact h.zero key

/-! ### Reading a slot -/

/-- The object after a read of a slot that it has no pending value for: it may
have opened its trie and cached the value. -/
structure ReadAs (env : Env) (addr : Address) (mark : Bool) (key value : Hash)
    (o o' : StateObject) : Prop where
  same : o' = { o with originStorage := o'.originStorage, trie := o'.trie }
  trie : o'.getTrie env addr = o.getTrie env addr
  other : ∀ k ≠ key, o'.originStorage k = o.originStorage k
  reads : (o.originStorage key).getD (cleanSlot env addr mark o key) = value
  kept : (o'.originStorage key).getD (cleanSlot env addr mark o key) = value
  zero : (o'.originStorage key).getD 0 = value

theorem cleanSlot_congr {o' : StateObject} (h : o'.getTrie env addr = o.getTrie env addr)
    (key : Hash) : cleanSlot env addr mark o' key = cleanSlot env addr mark o key := by
  unfold cleanSlot
  rw [h]

/-- Twins read the same value and stay twins. -/
theorem Twin.read {o' p' : StateObject} {key v w : Hash} (h : Twin env addr mark o p)
    (hlive : o.deleted = false) (ho : ReadAs env addr mark key v o o')
    (hp : ReadAs env addr mark key w p p') :
    v = w ∧ Twin env addr mark o' p' := by
  have hvw : v = w := by rw [← ho.reads, ← hp.reads, h.origin hlive key]
  refine ⟨hvw, ?_⟩
  have htrie : o'.getTrie env addr = p'.getTrie env addr := by rw [ho.trie, hp.trie, h.trie]
  have horigin (k : Hash) : (o'.originStorage k).getD (cleanSlot env addr mark o' k) =
      (p'.originStorage k).getD (cleanSlot env addr mark p' k) := by
    rw [cleanSlot_congr ho.trie, cleanSlot_congr hp.trie]
    by_cases hk : k = key
    · rw [hk, ho.kept, hp.kept, hvw]
    · rw [ho.other k hk, hp.other k hk, h.origin hlive k]
  have hzero (k : Hash) : (o'.originStorage k).getD 0 = (p'.originStorage k).getD 0 := by
    by_cases hk : k = key
    · rw [hk, ho.zero, hp.zero, hvw]
    · rw [ho.other k hk, hp.other k hk, h.zero k]
  rw [ho.same, hp.same]
  exact { h with
    trie := by rwa [ho.same, hp.same] at htrie
    origin := fun _ k => by
      have hk := horigin k
      rwa [ho.same, hp.same] at hk
    zero := hzero }

namespace StateDB

variable {s : StateDB} {key : Hash}

/-- A value that the pool holds for a slot of this object is the one below. -/
def Fresh (env : Env) (s : StateDB) (addr : Address) (obj : StateObject) (key : Hash) : Prop :=
  obj.pendingStorage key = none → obj.originStorage key = none →
    ∀ value, s.shared addr key = some value →
      value = cleanSlot env addr (s.snapDestructs addr) obj key

theorem objectCommittedState_pending (hfake : o.fakeStorage = none) {value : Hash}
    (h : o.pendingStorage key = some value) :
    s.objectCommittedState env addr o key = (value, s) := by
  unfold objectCommittedState
  rw [hfake, h]

/-- The object that a value was cached in. -/
theorem ReadAs.cached {trie : Option (Hash → Hash)} {value : Hash}
    (htrie : trie.getD (env.storageTrie addr o.data.root) = o.getTrie env addr)
    (hvalue : (o.originStorage key).getD (cleanSlot env addr mark o key) = value) :
    ReadAs env addr mark key value o
      { o with originStorage := update o.originStorage key (some value), trie } where
  same := rfl
  trie := htrie
  other k hk := update_of_ne hk _ _
  reads := hvalue
  kept := by simp
  zero := by simp

/-- A read of a slot below the pending values, with or without a pool. -/
theorem objectCommittedState_readAs (hreadOnly : s.writeOnSharedStorage = false)
    (hlive : s.stateObjects addr = some o) (hfake : o.fakeStorage = none)
    (hpending : o.pendingStorage key = none) (hfresh : s.Fresh env addr o key) :
    ∃ value o', s.objectCommittedState env addr o key = (value, s.setStateObject addr o') ∧
      ReadAs env addr (s.snapDestructs addr) key value o o' := by
  have hself := setStateObject_self hlive
  have hfresh := hfresh hpending
  obtain ⟨data, trie, code, origin, pending, dirty, fake, dirtyCode, suicided, deleted⟩ := o
  cases hfake
  dsimp only at hpending hfresh
  unfold objectCommittedState getOriginStorage
  dsimp only
  rw [hpending]
  cases horigin : origin key with
  | some value =>
    refine ⟨value, _, congrArg _ hself.symm, rfl, rfl, fun _ _ => rfl, ?_, ?_, ?_⟩ <;>
      simp [horigin]
  | none =>
    cases hshared : s.shared addr key with
    | some value =>
      refine ⟨value, _, rfl, ReadAs.cached rfl ?_⟩
      rw [hfresh horigin value hshared]
      simp [horigin]
    | none =>
      dsimp only
      split
      · next hmark =>
        refine ⟨0, _, congrArg _ hself.symm, rfl, rfl, fun _ _ => rfl, ?_, ?_, ?_⟩ <;>
          simp [horigin, cleanSlot, hmark]
      · next hmark =>
        cases hsnap : env.snap.bind (·.storage addr key) with
        | some value | none =>
          dsimp only
          rw [setOriginStorage, if_neg (by simp [hreadOnly])]
          exact ⟨_, _, rfl, ReadAs.cached rfl (by simp [horigin, cleanSlot, hmark, hsnap])⟩

end StateDB

end

end Dexit.Core
