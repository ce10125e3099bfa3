import Dexit.Core.Journal

/-!
# Snapshots and reverts over whole runs

Every operation is a sequence of steps that either change nothing the getters
show or write an entry that undoes them, so the journal leads back from any
state of a run to the state at each snapshot in it.
-/

namespace Dexit.Core

open Parlia (Hash)
open Function List Option

namespace StateDB

open UndoLog (Back)

/-- A change that its journal entries undo. -/
def Step (env : Env) (s t : StateDB) : Prop :=
  Good env s → Good env t ∧ t.revisions = s.revisions ∧ ∃ new, t.journal = new ++ s.journal ∧
    ∀ base es, Back (journalLog env) base s es → Back (journalLog env) base t (new ++ es)

section
variable {env : Env} {s t u : StateDB} {addr : Address} {obj obj' : StateObject} {key : Hash}
  {trie : Option (Hash → Hash)} {slot value : Hash}

theorem Step.trans (hst : Step env s t) (htu : Step env t u) : Step env s u := by
  intro hs
  obtain ⟨ht, hrev, new, hj, hback⟩ := hst hs
  obtain ⟨hu, hrev', new', hj', hback'⟩ := htu ht
  refine ⟨hu, hrev'.trans hrev, new' ++ new, ?_, ?_⟩
  · rw [hj', hj, append_assoc]
  · intro base es h
    rw [append_assoc]
    exact hback' base _ (hback base es h)

/-- A change that no getter shows. -/
theorem Step.silent (h : Good env s → Agree env s t) (hj : t.journal = s.journal)
    (hrev : t.revisions = s.revisions) : Step env s t := by
  intro hs
  refine ⟨(h hs).good hs, hrev, [], hj, ?_⟩
  intro base es hback
  exact hback.congr (h hs)

theorem Step.refl (env : Env) (s : StateDB) : Step env s s :=
  Step.silent (fun _ => Agree.refl env s) rfl rfl

variable {e : JournalEntry} {prev : StateObject} {al : AccessList}

/-- A change with one entry. -/
theorem Step.logged (hj : t.journal = e :: s.journal)
    (hrev : t.revisions = s.revisions) (hvalid : Valid env t e)
    (hgood : Good env s → Good env t)
    (hundo : Good env s → ∃ u, t.undo env e = some u ∧ Agree env s u) : Step env s t := by
  intro hs
  refine ⟨hgood hs, hrev, [e], hj, ?_⟩
  intro base es hback
  exact hback.push (hgood hs) hvalid (hundo hs)

/-- States with the same objects and the same other data. -/
structure Same (s t : StateDB) : Prop extends Beside t s where
  objects : t.stateObjects = s.stateObjects
  pool : t.storagePool = s.storagePool

theorem Same.refl (s : StateDB) : Same s s :=
  { Beside.refl s with objects := rfl, pool := rfl }

theorem Same.agree (h : Same s t) : Agree env s t :=
  { h.toBeside.symm with
    views := by
      intro a
      unfold view find shared
      rw [h.objects, h.pool, h.destructs]
    pool := by
      intro a _
      unfold shared
      rw [h.pool]
    pooled := by rw [h.pool] }

/-- A change of data beside the objects, with one entry. -/
theorem Step.entry (e : JournalEntry) (hundo : ∃ u, t.undo env e = some u ∧ Same s u)
    (hvalid : Valid env t e) (hj : t.journal = e :: s.journal) (hrev : t.revisions = s.revisions)
    (hgood : Good env s → Good env t) : Step env s t := by
  obtain ⟨u, hu, hsame⟩ := hundo
  exact Step.logged hj hrev hvalid hgood fun _ => ⟨u, hu, hsame.agree⟩

/-! ### Loading and reading -/

theorem Step.load (env : Env) (s : StateDB) (addr : Address) : Step env s (s.load env addr) :=
  Step.silent (fun _ => Agree.load env s addr) rfl rfl

/-- The object keeps a value that it would read anyway. -/
theorem viewOf_cached {pool pool' : Storage} {d : Bool}
    (hfake : obj.fakeStorage = none) (hpending : obj.pendingStorage key = none)
    (htrie : trie.getD (env.storageTrie addr obj.data.root) = obj.getTrie env addr)
    (hpool : ∀ k ≠ key, pool' k = pool k)
    (hvalue : committedValue env addr (pool key) d obj key = value) :
    viewOf env addr pool' d
        { obj with originStorage := update obj.originStorage key (some value), trie } =
      viewOf env addr pool d obj := by
  have hcommitted (k : Hash) :
      committedValue env addr (pool' k) d
          { obj with originStorage := update obj.originStorage key (some value), trie } k =
        committedValue env addr (pool k) d obj k := by
    by_cases hk : k = key
    · subst hk
      rw [hvalue]
      simp [committedValue, hfake, hpending]
    · rw [hpool k hk]
      simp only [committedValue, hfake, StateObject.getTrie, update_of_ne hk]
      rw [htrie]
      rfl
  refine View.ext rfl rfl rfl rfl rfl ?_ (funext hcommitted)
  funext k
  simp only [viewOf, stateValue, hcommitted]

theorem view_live (hlive : s.stateObjects addr = some obj) :
    s.view env addr = some (viewOf env addr (s.shared addr) (s.snapDestructs addr) obj) := by
  rw [view, find, hlive]
  rfl

theorem Good.plain_live (h : Good env s) (hlive : s.stateObjects addr = some obj) :
    obj.fakeStorage = none := by
  exact h.plain addr _ (view_live hlive)

theorem Good.setStateObject (h : Good env s) (hfake : obj.fakeStorage = none) :
    Good env (s.setStateObject addr obj) := by
  refine ⟨?_, h.writes⟩
  intro a v hv
  rw [view_setStateObject] at hv
  split at hv
  · cases hv
    exact hfake
  · exact h.plain a v hv

theorem setStateObject_self (hlive : s.stateObjects addr = some obj) :
    s.setStateObject addr obj = s := by
  rw [setStateObject, ← hlive, update_eq_self]

/-- The live object with other caches. -/
theorem Agree.recache (hlive : s.stateObjects addr = some obj)
    (hview : viewOf env addr (s.shared addr) (s.snapDestructs addr) obj' =
      viewOf env addr (s.shared addr) (s.snapDestructs addr) obj) :
    Agree env s (s.setStateObject addr obj') := by
  have hagree := (Agree.refl env s).setStateObject hview.symm
  rwa [setStateObject_self hlive] at hagree

theorem shared_setOriginStorage {a : Address} {k : Hash}
    (h : a ≠ addr ∨ k ≠ key) : (s.setOriginStorage addr obj key value).shared a k = s.shared a k := by
  unfold shared setOriginStorage
  split
  · cases s.storagePool with
    | none => rfl
    | some pool =>
      by_cases ha : a = addr
      · subst ha
        have hk := h.resolve_left (fun hne => hne rfl)
        simp [update_of_ne hk]
      · simp [update_of_ne ha]
  · rfl

/-- A value that is read below goes into the caches. -/
theorem Agree.setOriginStorage (hgood : Good env s) (hlive : s.stateObjects addr = some obj)
    (hmark : ¬ (env.snap.isSome && s.snapDestructs addr))
    (hpending : obj.pendingStorage key = none)
    (htrie : trie.getD (env.storageTrie addr obj.data.root) = obj.getTrie env addr)
    (hvalue : committedValue env addr (s.shared addr key) (s.snapDestructs addr) obj key = value) :
    Agree env s (s.setOriginStorage addr { obj with trie } key value) := by
  have hother (a : Address) (ha : a ≠ addr) :
      (s.setOriginStorage addr { obj with trie } key value).shared a = s.shared a :=
    funext fun k => shared_setOriginStorage (.inl ha)
  refine { Agree.refl env s with views := ?_, pool := ?_, pooled := ?_ }
  · intro a
    by_cases ha : a = addr
    · subst ha
      have hfind : s.find env a = some obj := by rw [StateDB.find, hlive, some_or]
      have hpool (k : Hash) (hk : k ≠ key) :
          (s.setOriginStorage a { obj with trie } key value).shared a k = s.shared a k :=
        shared_setOriginStorage (.inr hk)
      have hcached := viewOf_cached (hgood.plain_live hlive) hpending htrie hpool hvalue
      rw [view, hfind, map_some, ← hcached]
      simp [view, StateDB.find, setOriginStorage]
    · have hview : s.view env a = (s.find env a).map (viewOf env a (s.shared a) (s.snapDestructs a)) :=
        rfl
      rw [hview, ← hother a ha]
      simp [view, StateDB.find, StateDB.setOriginStorage, update_of_ne ha]
  · intro a ha
    by_cases haddr : a = addr
    · -- without a snapshot nothing is written to the pool
      subst haddr
      have hsnap : env.snap.isSome = false := by
        cases hsnap : env.snap.isSome with
        | false => rfl
        | true => exact absurd (by simp [hsnap, ha hsnap]) hmark
      have hpool : (s.setOriginStorage a { obj with trie } key value).storagePool = s.storagePool := by
        unfold setOriginStorage
        split
        · next hw =>
          cases hp : s.storagePool with
          | none => rfl
          | some pool =>
            have := hgood.writes hw (by rw [hp]; rfl)
            rw [hsnap] at this
            cases this
        · rfl
      unfold shared
      rw [hpool]
    · exact (hother a haddr).symm
  · unfold StateDB.setOriginStorage
    split
    · rw [isSome_map]
    · rfl

@[simp] theorem live_setStateObject : (s.setStateObject addr obj).stateObjects addr = some obj :=
  update_self addr _ _

/-- A read of storage leaves the state alone, or copies a value of the pool, or
caches what it reads below. -/
theorem objectCommittedState_cases (env : Env) (s : StateDB) (addr : Address) (key : Hash)
    (hfake : obj.fakeStorage = none) :
    let out := s.objectCommittedState env addr obj key
    out.2 = s ∨
    (obj.pendingStorage key = none ∧ ∃ value,
      (obj.originStorage key = none ∧ s.shared addr key = some value) ∧
      out.2 = s.setStateObject addr
        { obj with originStorage := update obj.originStorage key (some value) }) ∨
    (obj.pendingStorage key = none ∧ (obj.originStorage key = none ∧ s.shared addr key = none) ∧
      ¬ (env.snap.isSome && s.snapDestructs addr) ∧ ∃ trie : Option (Hash → Hash),
        trie.getD (env.storageTrie addr obj.data.root) = obj.getTrie env addr ∧
        out.2 = s.setOriginStorage addr { obj with trie } key out.1) := by
  obtain ⟨data, trie, code, origin, pending, dirty, fake, dirtyCode, suicided, deleted⟩ := obj
  cases hfake
  unfold objectCommittedState getOriginStorage
  dsimp only
  cases hpending : pending key with
  | some value => exact .inl rfl
  | none =>
    cases horigin : origin key with
    | some value => exact .inl rfl
    | none =>
      cases hshared : s.shared addr key with
      | some value => exact .inr (.inl ⟨rfl, value, ⟨rfl, rfl⟩, rfl⟩)
      | none =>
        dsimp only
        split
        · exact .inl rfl
        next hmark =>
        refine .inr (.inr ⟨rfl, ⟨rfl, rfl⟩, hmark, ?_⟩)
        cases env.snap.bind (·.storage addr key) with
        | some value => exact ⟨trie, rfl, rfl⟩
        | none => exact ⟨some _, rfl, rfl⟩

theorem Agree.objectCommittedState (hgood : Good env s) (hlive : s.stateObjects addr = some obj) :
    Agree env s (s.objectCommittedState env addr obj key).2 := by
  have hfake := hgood.plain_live hlive
  have hvalue := objectCommittedState_fst env s addr obj key
  obtain heq | ⟨hpending, value, ⟨horigin, hshared⟩, heq⟩ | ⟨hpending, -, hmark, trie, htrie, heq⟩ :=
    objectCommittedState_cases env s addr key hfake
  · rw [heq]
    exact Agree.refl env s
  · rw [heq]
    have hcommitted : committedValue env addr (s.shared addr key) (s.snapDestructs addr) obj key =
        value := by
      simp [committedValue, hfake, hpending, horigin, hshared]
    have hview := viewOf_cached hfake hpending (rfl : obj.trie.getD _ = _) (fun _ _ => rfl) hcommitted
    exact Agree.recache hlive hview
  · rw [heq]
    exact Agree.setOriginStorage hgood hlive hmark hpending htrie hvalue.symm

theorem Step.objectCommittedState (hlive : s.stateObjects addr = some obj) :
    Step env s (s.objectCommittedState env addr obj key).2 := by
  intro hgood
  obtain heq | ⟨-, value, -, heq⟩ | ⟨-, -, -, trie, -, heq⟩ :=
    objectCommittedState_cases env s addr key (hgood.plain_live hlive)
  all_goals
    refine Step.silent (fun hgood => Agree.objectCommittedState hgood hlive) ?_ ?_ hgood <;> rw [heq]
    all_goals rfl

theorem Step.objectState (hlive : s.stateObjects addr = some obj) :
    Step env s (s.objectState env addr obj key).2 := by
  unfold StateDB.objectState
  split
  · exact Step.refl env s
  · split
    · exact Step.refl env s
    · exact Step.objectCommittedState hlive

theorem Agree.objectState (hgood : Good env s) (hlive : s.stateObjects addr = some obj) :
    Agree env s (s.objectState env addr obj key).2 := by
  unfold StateDB.objectState
  split
  · exact Agree.refl env s
  · split
    · exact Agree.refl env s
    · exact Agree.objectCommittedState hgood hlive

/-- The live object after a read of its storage. -/
theorem objectState_live (hfake : obj.fakeStorage = none) (hlive : s.stateObjects addr = some obj) :
    ∃ obj', (s.objectState env addr obj key).2.stateObjects addr = some obj' ∧
      obj'.deleted = obj.deleted := by
  unfold objectState
  rw [hfake]
  dsimp only
  split
  · exact ⟨obj, hlive, rfl⟩
  · obtain heq | ⟨-, value, -, heq⟩ | ⟨-, -, -, trie, -, heq⟩ :=
      objectCommittedState_cases env s addr key hfake
    · exact ⟨obj, by rw [heq, hlive], rfl⟩
    · rw [heq]
      exact ⟨_, live_setStateObject, rfl⟩
    · rw [heq]
      exact ⟨_, update_self addr _ _, rfl⟩

/-! ### Changes of an object -/

section
variable (hlive : s.stateObjects addr = some obj)
include hlive

/-- A change of the live object, with an entry that undoes it. -/
theorem Step.change {g : StateObject → StateObject} (hdeleted : obj'.deleted = false)
    (hfake : obj'.fakeStorage = obj.fakeStorage) (hdirtied : e.dirtied = some addr)
    (hvalid : ∀ t, Valid env t e)
    (hrevert : ∀ t u, t.modify env addr g = some u → e.revert env t = some u)
    (hback : Good env s → viewOf env addr (s.shared addr) (s.snapDestructs addr) (g obj') =
      viewOf env addr (s.shared addr) (s.snapDestructs addr) obj) :
    Step env s ((s.append e).setStateObject addr obj') := by
  refine Step.logged (e := e) rfl rfl (hvalid _) ?_ ?_
  · intro hgood
    have happend : Good env (s.append e) := { hgood with }
    exact happend.setStateObject (hfake.trans (hgood.plain_live hlive))
  · intro hgood
    set t := (s.append e).setStateObject addr obj' with ht
    have hmodify : t.modify env addr g = some (t.setStateObject addr (g obj')) := by
      rw [modify_eq, ht, find_setStateObject, if_pos rfl]
      simp [Option.filter, hdeleted]
    refine ⟨_, by rw [undo, hrevert t _ hmodify, map_some, hdirtied], ?_⟩
    have hagree := Agree.recache hlive (hback hgood)
    refine { hagree with dirties := ?_, views := ?_, pool := hagree.pool }
    · intro a _
      have hup : t.dirties = update s.dirties addr (s.dirties addr + 1) := by
        rw [ht, setStateObject, append, hdirtied]
      change s.dirties a = update t.dirties addr (t.dirties addr - 1) a
      rw [hup]
      simp
    · intro a
      refine (hagree.views a).trans ?_
      have htwice : (t.setStateObject addr (g obj')).stateObjects =
          (s.setStateObject addr (g obj')).stateObjects := update_idem ..
      unfold view find shared
      rw [← htwice]
      rfl

theorem Step.objectSetBalance (hdeleted : obj.deleted = false) (amount : ℤ) :
    Step env s (s.objectSetBalance addr obj amount) :=
  Step.change hlive hdeleted rfl rfl (fun _ => trivial) (fun _ _ h => h) (fun _ => rfl)

theorem Step.setNonce (hdeleted : obj.deleted = false)
    (nonce : UInt64) : Step env s ((s.append (.nonce addr obj.data.nonce)).setStateObject addr
      { obj with data := { obj.data with nonce } }) :=
  Step.change hlive hdeleted rfl rfl (fun _ => trivial) (fun _ _ h => h) (fun _ => rfl)

end

/-- Code that is kept is the code that would be loaded. -/
theorem getCode_kept {dirtyCode : Bool} :
    ({ obj with code := obj.getCode env addr, dirtyCode } : StateObject).getCode env addr =
      obj.getCode env addr := by
  unfold StateObject.getCode
  cases hcode : obj.code with
  | some code => rfl
  | none =>
    split
    · next h => exact h.symm
    · rfl

section
variable (hlive : s.stateObjects addr = some obj)
include hlive

theorem Step.setCode (hdeleted : obj.deleted = false) (code : Code) (hash : Hash) :
    Step env s ((s.append (.code addr (obj.getCode env addr) obj.data.codeHash)).setStateObject addr
      { obj with code := some code, data := { obj.data with codeHash := hash }
                 dirtyCode := true }) := by
  refine Step.change hlive hdeleted rfl rfl (fun _ => trivial) (fun _ _ h => h) ?_
  intro _
  exact View.ext rfl getCode_kept rfl rfl rfl rfl rfl

theorem Step.keepCode :
    Step env s (s.setStateObject addr { obj with code := obj.getCode env addr }) := by
  refine Step.silent (fun _ => Agree.recache hlive ?_) rfl rfl
  exact View.ext rfl getCode_kept rfl rfl rfl rfl rfl

theorem Step.suicide (hdeleted : obj.deleted = false) :
    Step env s ((s.append (.suicide addr obj.suicided obj.data.balance)).setStateObject addr
      { obj with suicided := true, data := { obj.data with balance := 0 } }) := by
  refine Step.change (g := fun o => { o with
    suicided := obj.suicided, data := { o.data with balance := obj.data.balance } })
    hlive hdeleted rfl rfl (fun _ => trivial) ?_ (fun _ => rfl)
  intro t u h
  rw [revert_suicide, h, some_or]

theorem Step.setState (hdeleted : obj.deleted = false) (value : Hash) :
    Step env s ((s.append (.storage addr key
        (stateValue env addr (s.shared addr key) (s.snapDestructs addr) obj key))).setStateObject addr
      { obj with dirtyStorage := update obj.dirtyStorage key (some value) }) := by
  refine Step.change hlive hdeleted rfl rfl (fun _ => trivial) (fun _ _ h => h) ?_
  intro hgood
  have hfake := hgood.plain_live hlive
  -- the slot is dirty with the value it had
  refine View.ext rfl rfl rfl rfl rfl ?_ rfl
  funext k
  by_cases hk : k = key
  · subst hk
    simp only [viewOf, stateValue, hfake, update_self, getD_some]
  · simp only [viewOf, stateValue, update_of_ne hk]
    rfl

end

/-! ### New objects -/

/-- A new object where the account did not exist. -/
theorem Step.create (hread : env.readAccount addr = none) (hnone : s.stateObjects addr = none)
    (hfake : obj.fakeStorage = none) :
    Step env s ((s.append (.createObject addr)).setStateObject addr obj) := by
  refine Step.entry (.createObject addr)
    ⟨_, rfl, { Same.refl s with dirties := ?_, objects := ?_ }⟩ hread rfl rfl ?_
  · intro a _
    simp [append, setStateObject, JournalEntry.dirtied]
  · change update (update s.stateObjects addr (some obj)) addr none = _
    rw [update_idem, ← hnone, update_eq_self]
  · intro hgood
    exact Good.setStateObject (s := s.append _) { hgood with } hfake

/-- The marks that `createObject` leaves. -/
def marks (env : Env) (s : StateDB) (addr : Address) : Address → Bool :=
  update s.snapDestructs addr (env.snap.isSome || s.snapDestructs addr)

theorem marked_eq : (if env.snap.isSome then
    { s with snapDestructs := update s.snapDestructs addr true } else s) =
      { s with snapDestructs := marks env s addr } := by
  unfold marks
  cases hsnap : env.snap.isSome <;> simp [update_eq_self]

theorem undo_resetObject {prevdestruct : Bool} :
    s.undo env (.resetObject addr prev prevdestruct) = some (s.restore addr prev
      (if !prevdestruct && env.snap.isSome then false else s.snapDestructs addr)) := by
  rw [undo, revert_resetObject]
  rfl

/-- A new object in place of another one. -/
theorem Step.reset (hlive : s.stateObjects addr = some prev) (hfake : obj.fakeStorage = none) :
    Step env s (((if env.snap.isSome then
      { s with snapDestructs := update s.snapDestructs addr true } else s).append
        (.resetObject addr prev (env.snap.isSome && s.snapDestructs addr))).setStateObject addr obj) := by
  rw [marked_eq]
  refine Step.entry (.resetObject addr prev (env.snap.isSome && s.snapDestructs addr))
    ⟨_, undo_resetObject, { Same.refl s with destructs := ?_, objects := ?_ }⟩ ?_ rfl rfl ?_
  · -- the mark is taken away exactly if it was not there
    change update (marks env s addr) addr (if _ then false else marks env s addr addr) = _
    unfold marks
    rw [update_self, update_idem, update_eq_self_iff]
    cases env.snap.isSome <;> cases s.snapDestructs addr <;> rfl
  · change update (update s.stateObjects addr (some obj)) addr (some prev) = _
    rw [update_idem, ← hlive, update_eq_self]
  · intro hsnap
    simp [setStateObject, append, marks, hsnap]
  · intro hgood
    refine ⟨?_, hgood.writes⟩
    intro a v hv
    rw [view_setStateObject] at hv
    split at hv
    · cases hv
      exact hfake
    · next ha =>
      refine hgood.plain a v (Eq.trans ?_ hv)
      simp only [view, append, marks, update_of_ne ha]
      rfl

section
variable (env : Env) (s : StateDB) (addr : Address)

/-- Where `createObject` puts a new object, `CreateAccount` may put one that has
the old balance. -/
theorem Step.createObject (hfake : obj.fakeStorage = none) :
    Step env s ((s.createObject env addr).2.2.setStateObject addr obj) := by
  refine (Step.load env s addr).trans ?_
  unfold StateDB.createObject
  rw [getDeletedStateObject_eq]
  have htwice (t : StateDB) (o : StateObject) :
      (t.setStateObject addr o).setStateObject addr obj = t.setStateObject addr obj := by
    unfold setStateObject
    rw [update_idem]
  have hload : (s.load env addr).stateObjects addr = s.find env addr := update_self addr _ _
  cases hfind : s.find env addr with
  | none =>
    rw [htwice]
    refine Step.create ?_ (hload.trans hfind) hfake
    have hor := or_eq_none_iff.mp hfind
    exact map_eq_none_iff.mp hor.2
  | some prev =>
    rw [htwice]
    exact Step.reset (hload.trans hfind) hfake

theorem createObject_new : (s.createObject env addr).1 = newObject Account.zero := by
  unfold createObject
  split <;> rfl

theorem createObject_live :
    (s.createObject env addr).2.2.stateObjects addr = some (newObject Account.zero) := by
  unfold createObject
  split <;> exact live_setStateObject

theorem Step.createAccount : Step env s (s.createAccount env addr) := by
  have hnew := createObject_new env s addr
  have hlive := createObject_live env s addr
  have hstep (o : StateObject) (ho : o.fakeStorage = none) := Step.createObject env s addr ho
  unfold StateDB.createAccount
  split
  · next newObj s' heq =>
    rw [heq] at hlive hstep
    have hself := hstep (newObject Account.zero) rfl
    rwa [setStateObject_self hlive] at hself
  · next newObj prev s' heq =>
    rw [heq] at hnew hstep
    subst hnew
    exact hstep _ rfl

/-- The object that an operation works on. -/
theorem getOrNewStateObject_spec : Step env s (s.getOrNewStateObject env addr).2 ∧
      (s.getOrNewStateObject env addr).2.stateObjects addr =
        some (s.getOrNewStateObject env addr).1 ∧
      (s.getOrNewStateObject env addr).1.deleted = false := by
  unfold getOrNewStateObject
  rw [getStateObject_eq]
  cases hfilter : (s.find env addr).filter fun obj => !obj.deleted with
  | some obj =>
    obtain ⟨hfind, hlive⟩ := filter_eq_some_iff.mp hfilter
    refine ⟨Step.load env s addr, ?_, by simpa using hlive⟩
    exact (update_self addr _ _).trans hfind
  | none =>
    have hnew := createObject_new env (s.load env addr) addr
    have hlive := createObject_live env (s.load env addr) addr
    have hnone : (newObject Account.zero).fakeStorage = none := rfl
    have hstep := Step.createObject env (s.load env addr) addr hnone
    rw [setStateObject_self hlive] at hstep
    refine ⟨(Step.load env s addr).trans hstep, ?_, ?_⟩
    · rw [hnew]
      exact hlive
    · rw [hnew]
      rfl

/-! ### Other data -/

theorem Step.touch : Step env s (s.touch addr) := by
  have hcount (a : Address) :
      update (s.append (.touch addr)).dirties addr
        ((s.append (.touch addr)).dirties addr - 1) a = s.dirties a := by
    simp [append, JournalEntry.dirtied]
  unfold StateDB.touch
  split
  · next hripemd =>
    -- the second count stays, but only for this address
    refine Step.entry (.touch addr) ⟨_, rfl, { Same.refl s with dirties := ?_ }⟩ trivial rfl rfl
      fun hgood => { hgood with }
    intro a ha
    have hne : a ≠ addr := fun h => ha (h.trans hripemd)
    simp [append, dirty, JournalEntry.dirtied, hne]
  · exact Step.entry (.touch addr) ⟨_, rfl, { Same.refl s with dirties := fun a _ => hcount a }⟩
      trivial rfl rfl fun hgood => { hgood with }

end

/-- The refund counter is set. -/
theorem Step.refund (env : Env) (s : StateDB) (value : UInt64) :
    Step env s { s.append (.refund s.refund) with refund := value } :=
  Step.entry (.refund s.refund) ⟨_, rfl, { Same.refl s with }⟩ trivial rfl rfl
    fun hgood => { hgood with }

theorem Step.addLog (env : Env) (s : StateDB) (log : Log) : Step env s (s.addLog log) := by
  have hrevert : (s.addLog log).undo env (.addLog s.thash) = some { s.addLog log with
      logs := s.logs, logSize := s.logSize } := by
    simp [undo, JournalEntry.revert, StateDB.addLog, append, JournalEntry.dirtied]
  exact Step.entry (.addLog s.thash) ⟨_, hrevert, { Same.refl s with }⟩ trivial rfl rfl
    fun hgood => { hgood with }

theorem Step.addPreimage (env : Env) (s : StateDB) (hash : Hash) (preimage : List UInt8) :
    Step env s (s.addPreimage hash preimage) := by
  unfold StateDB.addPreimage
  split
  · exact Step.refl env s
  · next hnone =>
    refine Step.entry (.addPreimage hash) ⟨_, rfl, { Same.refl s with preimages := ?_ }⟩
      trivial rfl rfl fun hgood => { hgood with }
    change update (update s.preimages hash (some preimage)) hash none = _
    rw [update_idem, ← hnone, update_eq_self]

/-! ### The access list -/

theorem deleteSlot_new (al : AccessList) (slot : Hash) (h : al.addresses addr = some none) :
    AccessList.deleteSlot
      { addresses := update al.addresses addr (some (some al.slots.length))
        slots := al.slots ++ [⟨{slot}, Finset.singleton_nonempty slot⟩] } addr slot = some al := by
  simp only [AccessList.deleteSlot, update_self, getElem?_concat_length,
    Finset.erase_singleton, Finset.not_nonempty_empty, ↓reduceDIte, update_idem,
    take_left]
  rw [← h, update_eq_self]

theorem deleteSlot_added {idx : ℕ} {slotmap : SlotMap}
    (haddr : al.addresses addr = some (some idx)) (hidx : al.slots[idx]? = some slotmap)
    (hslot : slot ∉ slotmap.1) :
    let added : SlotMap := ⟨insert slot slotmap.1, Finset.insert_nonempty slot slotmap.1⟩
    AccessList.deleteSlot { al with slots := al.slots.set idx added } addr slot = some al := by
  obtain ⟨hlt, rfl⟩ := List.getElem?_eq_some_iff.mp hidx
  simp only [AccessList.deleteSlot, haddr, getElem?_set_self hlt,
    Finset.erase_insert hslot, al.slots[idx].2, ↓reduceDIte, set_set, Subtype.coe_eta,
    set_getElem_self]

/-- A slot is added to the list. -/
theorem Step.addSlot (h : al.deleteSlot addr slot = some (s.accessList.getD {})) :
    Step env s (({ s with accessList := some al } : StateDB).append
      (.accessListAddSlot addr slot)) := by
  have hundo : (({ s with accessList := some al } : StateDB).append
      (.accessListAddSlot addr slot)).undo env (.accessListAddSlot addr slot) =
      some { s.append (.accessListAddSlot addr slot) with
        accessList := some (s.accessList.getD {}) } := by
    simp only [undo, JournalEntry.revert, append, h]
    rfl
  refine Step.entry (.accessListAddSlot addr slot) ⟨_, hundo, { Same.refl s with }⟩ ?_ rfl rfl
    fun hgood => { hgood with }
  change (al.deleteSlot addr slot).isSome
  rw [h]
  rfl

/-- An address that was not there is added to the list. -/
theorem Step.addAddress (h : (s.accessList.getD {}).addresses addr = none) :
    Step env s (({ s with accessList := some { s.accessList.getD {} with
        addresses := update (s.accessList.getD {}).addresses addr (some none) } } :
      StateDB).append (.accessListAddAccount addr)) := by
  refine Step.entry (.accessListAddAccount addr) ⟨_, rfl, { Same.refl s with accessList := ?_ }⟩
    trivial rfl rfl fun hgood => { hgood with }
  generalize s.accessList.getD {} = al at h
  change AccessList.mk (update (update al.addresses addr (some none)) addr none) al.slots = al
  rw [update_idem, ← h, update_eq_self]

/-- The list is made, but nothing is put into it. -/
theorem Step.makeList : Step env s { s with accessList := some (s.accessList.getD {}) } :=
  Step.silent (fun _ => Same.agree { Same.refl s with }) rfl rfl

theorem Step.addAddressToAccessList (env : Env) (s : StateDB) (addr : Address) :
    Step env s (s.addAddressToAccessList addr) := by
  unfold StateDB.addAddressToAccessList AccessList.addAddress
  cases h : (s.accessList.getD {}).addresses addr with
  | some _ => exact Step.makeList
  | none => exact Step.addAddress h

theorem Step.addSlotToAccessList (h : s.addSlotToAccessList addr slot = some t) : Step env s t := by
  unfold StateDB.addSlotToAccessList AccessList.addSlot at h
  cases haddr : (s.accessList.getD {}).addresses addr with
  | none =>
    rw [haddr] at h
    cases h
    -- first the address, then its first slot
    refine (Step.addAddress haddr).trans (Step.addSlot ?_)
    have hnew := deleteSlot_new { s.accessList.getD {} with
      addresses := update (s.accessList.getD {}).addresses addr (some none) } slot
      (update_self addr _ _)
    rwa [update_idem] at hnew
  | some found =>
    rw [haddr] at h
    cases found with
    | none =>
      cases h
      exact Step.addSlot (deleteSlot_new _ slot haddr)
    | some idx =>
      dsimp only at h
      cases hidx : (s.accessList.getD {}).slots[idx]? with
      | none =>
        rw [hidx] at h
        cases h
      | some slotmap =>
        rw [hidx] at h
        dsimp only at h
        by_cases hslot : slot ∈ slotmap.1
        · rw [if_pos hslot] at h
          cases h
          exact Step.makeList
        · rw [if_neg hslot] at h
          cases h
          exact Step.addSlot (deleteSlot_added haddr hidx hslot)

end

end StateDB

end Dexit.Core
