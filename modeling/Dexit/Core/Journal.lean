import Dexit.Core.StateDB
import Dexit.UndoLog

/-!
# Reverting to a snapshot

A change that is undone leaves traces that no getter shows: objects and values
that were loaded, a slot that is dirty with the value it had, a pool entry.
`View` is what the getters show of an account, and two states `Agree` when all
their views do. The pools may differ where a value was read below: never for an
account that was destructed in this block, whose objects do not read there.
-/

namespace Dexit.Core

open Parlia (Hash)
open Function Option

/-! ### What the getters show -/

/-- The value of `GetCommittedState`, from what the pool holds for the slot. -/
def committedValue (env : Env) (addr : Address) (pooled : Option Hash) (destructed : Bool)
    (obj : StateObject) (key : Hash) : Hash :=
  match obj.fakeStorage with
  | some fake => fake key
  | none =>
    match ((obj.pendingStorage key).or (obj.originStorage key)).or pooled with
    | some value => value
    | none =>
      if env.snap.isSome && destructed then 0
      else
        match env.snap.bind (·.storage addr key) with
        | some value => value
        | none => obj.getTrie env addr key

/-- The value of `GetState`. -/
def stateValue (env : Env) (addr : Address) (pooled : Option Hash) (destructed : Bool)
    (obj : StateObject) (key : Hash) : Hash :=
  match obj.fakeStorage with
  | some fake => fake key
  | none => (obj.dirtyStorage key).getD (committedValue env addr pooled destructed obj key)

@[ext]
structure View where
  data : Account
  code : Option Code
  suicided : Bool
  deleted : Bool
  fake : Option (Hash → Hash)
  state : Hash → Hash
  committed : Hash → Hash

def viewOf (env : Env) (addr : Address) (pool : Storage) (destructed : Bool) (obj : StateObject) :
    View where
  data := obj.data
  code := obj.getCode env addr
  suicided := obj.suicided
  deleted := obj.deleted
  fake := obj.fakeStorage
  state key := stateValue env addr (pool key) destructed obj key
  committed key := committedValue env addr (pool key) destructed obj key

namespace StateDB

/-- The object that `getDeletedStateObject` returns. -/
def find (env : Env) (s : StateDB) (addr : Address) : Option StateObject :=
  (s.stateObjects addr).or ((env.readAccount addr).map newObject)

/-- The state that it leaves. -/
def load (env : Env) (s : StateDB) (addr : Address) : StateDB :=
  { s with stateObjects := update s.stateObjects addr (s.find env addr) }

def view (env : Env) (s : StateDB) (addr : Address) : Option View :=
  (s.find env addr).map (viewOf env addr (s.shared addr) (s.snapDestructs addr))

section
variable {env : Env} {s t : StateDB} {addr a : Address} {obj obj' : StateObject} {key : Hash}

theorem load_eq_self (h : s.find env addr = s.stateObjects addr) : s.load env addr = s := by
  rw [load, h, update_eq_self]

theorem getDeletedStateObject_eq :
    s.getDeletedStateObject env addr = (s.find env addr, s.load env addr) := by
  unfold getDeletedStateObject
  cases hlive : s.stateObjects addr with
  | some obj =>
    have hfind : s.find env addr = some obj := by rw [find, hlive, some_or]
    rw [load_eq_self (hfind.trans hlive.symm), hfind]
  | none =>
    cases hread : env.readAccount addr with
    | none =>
      have hfind : s.find env addr = none := by rw [find, hlive, hread]; rfl
      rw [load_eq_self (hfind.trans hlive.symm), hfind]
    | some data =>
      have hfind : s.find env addr = some (newObject data) := by rw [find, hlive, hread]; rfl
      rw [load, hfind]
      rfl

theorem getStateObject_eq : s.getStateObject env addr =
    ((s.find env addr).filter fun obj => !obj.deleted, s.load env addr) := by
  unfold getStateObject
  rw [getDeletedStateObject_eq]
  cases s.find env addr with
  | none => rfl
  | some obj => cases hdel : obj.deleted <;> simp [Option.filter, hdel]

@[simp] theorem load_setStateObject :
    (s.load env addr).setStateObject addr obj = s.setStateObject addr obj := by
  simp [load, setStateObject]

@[simp] theorem find_setStateObject :
    (s.setStateObject addr obj).find env a = if a = addr then some obj else s.find env a := by
  unfold find setStateObject
  by_cases h : a = addr
  · subst h; simp
  · simp [h]

@[simp] theorem find_load : (s.load env addr).find env a = s.find env a := by
  unfold load find
  by_cases h : a = addr
  · subst h
    cases s.stateObjects a <;> simp
  · simp [h]

theorem view_load : (s.load env addr).view env a = s.view env a := by
  unfold view
  rw [find_load]
  rfl

theorem view_setStateObject : (s.setStateObject addr obj).view env a =
    if a = addr then some (viewOf env addr (s.shared addr) (s.snapDestructs addr) obj)
    else s.view env a := by
  unfold view
  rw [find_setStateObject]
  split
  · next h => subst h; rfl
  · rfl

theorem objectCommittedState_fst (env : Env) (s : StateDB) (addr : Address) (obj : StateObject)
    (key : Hash) : (s.objectCommittedState env addr obj key).1 =
    committedValue env addr (s.shared addr key) (s.snapDestructs addr) obj key := by
  unfold objectCommittedState committedValue getOriginStorage
  cases obj.fakeStorage with
  | some fake => rfl
  | none =>
    cases obj.pendingStorage key with
    | some value => rfl
    | none =>
      cases obj.originStorage key with
      | some value => rfl
      | none =>
        cases s.shared addr key with
        | some value => rfl
        | none =>
          simp only [or_none]
          split
          · rfl
          · cases env.snap.bind (·.storage addr key) <;> rfl

theorem objectState_fst : (s.objectState env addr obj key).1 =
    stateValue env addr (s.shared addr key) (s.snapDestructs addr) obj key := by
  unfold objectState stateValue
  cases obj.fakeStorage with
  | some fake => rfl
  | none =>
    cases obj.dirtyStorage key with
    | some value => rfl
    | none => exact objectCommittedState_fst env s addr obj key

theorem modify_eq {f : StateObject → StateObject} : s.modify env addr f =
    ((s.find env addr).filter fun obj => !obj.deleted).map fun obj =>
      s.setStateObject addr (f obj) := by
  unfold modify
  rw [getStateObject_eq]
  cases (s.find env addr).filter fun obj => !obj.deleted with
  | none => rfl
  | some obj => simp

end

/-! ### Agreement -/

/-- The data beside the objects is the same. -/
structure Beside (s t : StateDB) : Prop where
  destructs : s.snapDestructs = t.snapDestructs
  writes : s.writeOnSharedStorage = t.writeOnSharedStorage
  refund : s.refund = t.refund
  logs : s.logs = t.logs
  logSize : s.logSize = t.logSize
  preimages : s.preimages = t.preimages
  accessList : s.accessList.getD {} = t.accessList.getD {}
  dirties : ∀ a ≠ ripemd, s.dirties a = t.dirties a

structure Agree (env : Env) (s t : StateDB) : Prop extends Beside s t where
  views : ∀ a, s.view env a = t.view env a
  pool : ∀ a, (env.snap.isSome → s.snapDestructs a) → s.shared a = t.shared a
  pooled : s.storagePool.isSome = t.storagePool.isSome

/-- No account has its storage replaced, and this database does not put what
its objects find in their tries into the shared pool. -/
structure Good (env : Env) (s : StateDB) : Prop where
  plain : ∀ a v, s.view env a = some v → v.fake = none
  writes : s.writeOnSharedStorage → s.storagePool.isSome → env.snap.isSome

/-- An entry made a new object where there was none, or marked the account as
destructed, or added a slot that is still there. -/
def Valid (env : Env) (s : StateDB) : JournalEntry → Prop
  | .createObject account => env.readAccount account = none
  | .resetObject account _ _ => env.snap.isSome → s.snapDestructs account
  | .accessListAddSlot address slot => ((s.accessList.getD {}).deleteSlot address slot).isSome
  | _ => True

/-- A change of objects, seen on their views. -/
def ActsAs (env : Env) (addr : Address) (f : StateObject → StateObject) (g : View → View) : Prop :=
  ∀ pool destructed obj,
    viewOf env addr pool destructed (f obj) = g (viewOf env addr pool destructed obj)

section
variable {env : Env} {s t u s' : StateDB} {addr a : Address} {obj obj' : StateObject} {key : Hash}
  {e : JournalEntry} {f : StateObject → StateObject} {prev : StateObject}

theorem Beside.refl (s : StateDB) : Beside s s :=
  ⟨rfl, rfl, rfl, rfl, rfl, rfl, rfl, fun _ _ => rfl⟩

theorem Beside.symm (h : Beside s t) : Beside t s where
  destructs := h.destructs.symm
  writes := h.writes.symm
  refund := h.refund.symm
  logs := h.logs.symm
  logSize := h.logSize.symm
  preimages := h.preimages.symm
  accessList := h.accessList.symm
  dirties a ha := (h.dirties a ha).symm

theorem Agree.refl (env : Env) (s : StateDB) : Agree env s s :=
  { Beside.refl s with
    views := fun _ => rfl
    pool := fun _ _ => rfl
    pooled := rfl }

theorem Agree.trans (hst : Agree env s t) (htu : Agree env t u) : Agree env s u where
  views a := (hst.views a).trans (htu.views a)
  pool a ha := (hst.pool a ha).trans (htu.pool a (by rwa [← hst.destructs]))
  destructs := hst.destructs.trans htu.destructs
  writes := hst.writes.trans htu.writes
  pooled := hst.pooled.trans htu.pooled
  refund := hst.refund.trans htu.refund
  logs := hst.logs.trans htu.logs
  logSize := hst.logSize.trans htu.logSize
  preimages := hst.preimages.trans htu.preimages
  accessList := hst.accessList.trans htu.accessList
  dirties a ha := (hst.dirties a ha).trans (htu.dirties a ha)

section
variable (h : Agree env s t)
include h

theorem Agree.symm : Agree env t s :=
  { h.toBeside.symm with
    views := fun a => (h.views a).symm
    pool := fun a ha => (h.pool a (by rwa [h.destructs])).symm
    pooled := h.pooled.symm }

theorem Agree.good (hs : Good env s) : Good env t where
  plain a v hv := hs.plain a v ((h.views a).trans hv)
  writes hw hp := hs.writes (h.writes ▸ hw) (h.pooled ▸ hp)

theorem Agree.valid (he : Valid env s e) : Valid env t e := by
  cases e with
  | resetObject account prev prevdestruct =>
    intro hsnap
    rw [← h.destructs]
    exact he hsnap
  | accessListAddSlot address slot =>
    unfold Valid at he ⊢
    rwa [← h.accessList]
  | _ => exact he

/-- Objects that look the same in their states can take the same place. -/
theorem Agree.setStateObject (hview : viewOf env addr (s.shared addr) (s.snapDestructs addr) obj =
      viewOf env addr (t.shared addr) (t.snapDestructs addr) obj') :
    Agree env (s.setStateObject addr obj) (t.setStateObject addr obj') :=
  { h with
    views := by
      intro a
      rw [view_setStateObject, view_setStateObject, hview, h.views]
    pool := h.pool }

/-- A live object is what its view says. -/
theorem Agree.find (hfind : s.find env addr = some obj) : ∃ obj', t.find env addr = some obj' ∧
      viewOf env addr (s.shared addr) (s.snapDestructs addr) obj =
        viewOf env addr (t.shared addr) (t.snapDestructs addr) obj' := by
  have hview := h.views addr
  unfold view at hview
  rw [hfind, map_some] at hview
  obtain ⟨obj', hobj', heq⟩ := map_eq_some_iff.mp hview.symm
  exact ⟨obj', hobj', heq.symm⟩

/-- A change of an object that acts on its view is the same change in both. -/
theorem Agree.modify {g : View → View}
    (hf : ActsAs env addr f g) (hs : s.modify env addr f = some s') :
    ∃ t', t.modify env addr f = some t' ∧ Agree env s' t' := by
  rw [modify_eq] at hs
  obtain ⟨obj, hobj, rfl⟩ := map_eq_some_iff.mp hs
  obtain ⟨hfind, hlive⟩ := filter_eq_some_iff.mp hobj
  obtain ⟨obj', hfind', hview⟩ := h.find hfind
  have hlive' : (!obj'.deleted) = true := by
    have hdel := congrArg View.deleted hview
    exact (congrArg (!·) hdel).symm.trans hlive
  refine ⟨t.setStateObject addr (f obj'), ?_, h.setStateObject ?_⟩
  · rw [modify_eq, filter_eq_some_iff.mpr ⟨hfind', hlive'⟩, map_some]
  · rw [hf _ _ obj, hf _ _ obj', hview]

theorem Agree.modify_none {g : View → View}
    (hf : ActsAs env addr f g) (hs : s.modify env addr f = none) : t.modify env addr f = none := by
  cases ht : t.modify env addr f with
  | none => rfl
  | some t' =>
    obtain ⟨_, hs', _⟩ := h.symm.modify hf ht
    rw [hs] at hs'
    cases hs'

end

theorem Agree.load (env : Env) (s : StateDB) (addr : Address) : Agree env s (s.load env addr) :=
  { Agree.refl env s with
    views := fun _ => view_load.symm
    pool := fun _ _ => rfl }

/-! ### Undoing an entry in states that agree -/

theorem revert_suicide {prev : Bool} {prevbalance : ℤ} :
    (JournalEntry.suicide addr prev prevbalance).revert env s = (s.modify env addr fun obj =>
        { obj with suicided := prev, data := { obj.data with balance := prevbalance } }).or
        (some (s.load env addr)) := by
  simp only [JournalEntry.revert, modify]
  rw [getStateObject_eq]
  cases (s.find env addr).filter fun obj => !obj.deleted with
  | none => rfl
  | some obj => rfl

/-- Puts an object back, with the mark that its account had. -/
def restore (s : StateDB) (addr : Address) (prev : StateObject) (destructed : Bool) : StateDB :=
  { s.setStateObject addr prev with
    snapDestructs := update s.snapDestructs addr destructed }

theorem revert_resetObject {prevdestruct : Bool} :
    (JournalEntry.resetObject addr prev prevdestruct).revert env s = some (s.restore addr prev
        (if !prevdestruct && env.snap.isSome then false else s.snapDestructs addr)) := by
  simp only [JournalEntry.revert, restore]
  split
  · rfl
  · rw [update_eq_self]
    rfl

theorem view_restore {d : Bool} : (s.restore addr prev d).view env a =
    if a = addr then some (viewOf env addr (s.shared addr) d prev) else s.view env a := by
  have hfind : (s.restore addr prev d).find env a = (s.setStateObject addr prev).find env a := rfl
  unfold view
  rw [hfind, find_setStateObject]
  have hpool : (s.restore addr prev d).shared = s.shared := rfl
  have hmark : (s.restore addr prev d).snapDestructs = update s.snapDestructs addr d := rfl
  rw [hpool, hmark]
  split
  · next h => subst h; rw [update_self]; rfl
  · next h => rw [update_of_ne h]

theorem Agree.restore (h : Agree env s t) {d : Bool}
    (hvalid : env.snap.isSome → s.snapDestructs addr) :
    Agree env (s.restore addr prev d) (t.restore addr prev d) :=
  { h with
    views := by
      intro a
      rw [view_restore, view_restore, h.pool addr hvalid, h.views]
    pool := by
      intro a ha
      -- marks are only lost, except for `addr`, whose mark is known
      refine h.pool a fun hsnap => ?_
      by_cases haddr : a = addr
      · exact haddr ▸ hvalid hsnap
      · have hmark : update s.snapDestructs addr d a = true := ha hsnap
        rwa [update_of_ne haddr] at hmark
    destructs := by
      rw [StateDB.restore, StateDB.restore, h.destructs] }

/-- A slot that gets dirty. -/
theorem actsAs_dirty {value : Hash} : ActsAs env addr
    (fun obj => { obj with dirtyStorage := update obj.dirtyStorage key (some value) })
    (fun v => { v with
      state := if v.fake.isSome then v.state else update v.state key value }) := by
  intro pool d obj
  refine View.ext rfl rfl rfl rfl rfl ?_ rfl
  funext k
  obtain ⟨data, trie, code, origin, pending, dirty, fake, dirtyCode, suicided, deleted⟩ := obj
  cases fake with
  | some fake => rfl
  | none =>
    by_cases hk : k = key
    · subst hk
      simp [viewOf, stateValue]
    · simp only [viewOf, stateValue, isSome_none, Bool.false_eq_true, ↓reduceIte, update_of_ne hk]
      rfl

theorem view_remove {dirty : Address → Bool} (hread : env.readAccount addr = none) :
    ({ s with stateObjects := update s.stateObjects addr none
              stateObjectsDirty := dirty } : StateDB).view env a =
      if a = addr then none else s.view env a := by
  unfold view StateDB.find
  dsimp only
  split
  · next h => subst h; simp [hread]
  · next h => rw [update_of_ne h]; rfl

theorem getD_deleteAddress {al : Option AccessList} :
    (al.map fun al => al.deleteAddress addr).getD {} = (al.getD {}).deleteAddress addr := by
  cases al with
  | some al => rfl
  | none => simp [AccessList.deleteAddress]

/-- A list that holds the slot is not nil. -/
theorem revert_accessListAddSlot {slot : Hash} (h : Valid env s (.accessListAddSlot addr slot)) :
    (JournalEntry.accessListAddSlot addr slot).revert env s =
      ((s.accessList.getD {}).deleteSlot addr slot).map fun al =>
        { s with accessList := some al } := by
  simp only [JournalEntry.revert]
  cases hal : s.accessList with
  | some al => rfl
  | none =>
    unfold Valid at h
    rw [hal] at h
    exact absurd h (by simp [AccessList.deleteSlot])

theorem revert_congr (h : Agree env s t) (hvalid : Valid env s e)
    (hs : e.revert env s = some s') : ∃ t', e.revert env t = some t' ∧ Agree env s' t' := by
  cases e with
  | createObject account =>
    refine ⟨_, rfl, ?_⟩
    cases hs
    -- nothing below, so there is no account now in either state
    refine { h with views := ?_, pool := h.pool }
    intro a
    rw [view_remove hvalid, view_remove hvalid, h.views]
  | resetObject account prev prevdestruct =>
    rw [revert_resetObject] at hs
    cases hs
    refine ⟨_, revert_resetObject, ?_⟩
    rw [← h.destructs]
    exact h.restore hvalid
  | suicide account prev prevbalance =>
    rw [revert_suicide] at hs ⊢
    set f : StateObject → StateObject := fun obj =>
      { obj with suicided := prev, data := { obj.data with balance := prevbalance } }
    have hf : ActsAs env account f fun v =>
      { v with suicided := prev, data := { v.data with balance := prevbalance } } := fun _ _ _ => rfl
    cases hmod : s.modify env account f with
    | none =>
      rw [hmod] at hs
      cases hs
      refine ⟨t.load env account, ?_, (Agree.load env s account).symm.trans
        (h.trans (Agree.load env t account))⟩
      rw [h.modify_none hf hmod, none_or]
    | some s₁ =>
      rw [hmod] at hs
      cases hs
      obtain ⟨t', ht', hagree⟩ := h.modify hf hmod
      exact ⟨t', by rw [ht', some_or], hagree⟩
  | balance account prev =>
    exact h.modify (g := fun v => { v with data := { v.data with balance := prev } })
      (fun _ _ _ => rfl) hs
  | nonce account prev =>
    exact h.modify (g := fun v => { v with data := { v.data with nonce := prev } })
      (fun _ _ _ => rfl) hs
  | storage account key prevalue =>
    exact h.modify actsAs_dirty hs
  | code account prevcode prevhash =>
    refine h.modify (g := fun v => { v with
      data := { v.data with codeHash := prevhash }
      code := prevcode.or (if prevhash = emptyCodeHash then none
        else env.contractCode account prevhash) }) ?_ hs
    intro pool d o
    refine View.ext rfl ?_ rfl rfl rfl rfl rfl
    cases prevcode <;> rfl
  | refund prev =>
    cases hs
    exact ⟨_, rfl, { h with refund := rfl, views := h.views, pool := h.pool }⟩
  | addLog txhash =>
    simp only [JournalEntry.revert] at hs ⊢
    rw [← h.logs, ← h.logSize]
    split at hs
    · cases hs
    · next hne =>
      cases hs
      rw [if_neg hne]
      exact ⟨_, rfl, { h with logs := rfl, logSize := rfl, views := h.views, pool := h.pool }⟩
  | addPreimage hash =>
    cases hs
    refine ⟨_, rfl, { h with preimages := ?_, views := h.views, pool := h.pool }⟩
    rw [h.preimages]
  | touch account =>
    cases hs
    exact ⟨t, rfl, h⟩
  | accessListAddAccount address =>
    cases hs
    refine ⟨_, rfl, { h with accessList := ?_, views := h.views, pool := h.pool }⟩
    rw [getD_deleteAddress, getD_deleteAddress, h.accessList]
  | accessListAddSlot address slot =>
    have hvalid' := h.valid hvalid
    rw [revert_accessListAddSlot hvalid] at hs
    rw [revert_accessListAddSlot hvalid', ← h.accessList]
    obtain ⟨al, hal, rfl⟩ := map_eq_some_iff.mp hs
    rw [hal]
    exact ⟨_, rfl, { h with accessList := rfl, views := h.views, pool := h.pool }⟩

/-- The counts of the changes of an address, too. -/
theorem Agree.countDown (h : Agree env s t) (addr : Address) :
    Agree env { s with dirties := update s.dirties addr (s.dirties addr - 1) }
      { t with dirties := update t.dirties addr (t.dirties addr - 1) } :=
  { h with
    views := h.views
    pool := h.pool
    dirties := by
      intro a ha
      by_cases haddr : a = addr
      · subst haddr
        simp [h.dirties a ha]
      · simp [haddr, h.dirties a ha] }

theorem undo_congr (h : Agree env s t) (hvalid : Valid env s e)
    (hs : s.undo env e = some s') : ∃ t', t.undo env e = some t' ∧ Agree env s' t' := by
  unfold undo at hs ⊢
  obtain ⟨s₁, hs₁, rfl⟩ := map_eq_some_iff.mp hs
  obtain ⟨t₁, ht₁, hagree⟩ := revert_congr h hvalid hs₁
  rw [ht₁]
  refine ⟨_, rfl, ?_⟩
  cases e.dirtied with
  | none => exact hagree
  | some addr => exact hagree.countDown addr

/-- The journal as an undo log. -/
def journalLog (env : Env) : UndoLog.Machine StateDB JournalEntry where
  undo e s := s.undo env e
  Agree := Agree env
  Good := Good env
  Valid e s := Valid env s e
  agree_refl := Agree.refl env
  agree_trans := Agree.trans
  good_congr := Agree.good
  valid_congr hagree hvalid := hagree.valid hvalid
  undo_congr _ hvalid hagree hundo := undo_congr hagree hvalid hundo

theorem undoAll_eq_unwind (es : List JournalEntry) :
    undoAll env es s = UndoLog.unwind (journalLog env) es s := by
  induction es generalizing s with
  | nil => rfl
  | cons e es ih =>
    exact bind_congr fun t _ => ih

end

end StateDB

end Dexit.Core
