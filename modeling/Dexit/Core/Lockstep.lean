import Dexit.Core.SharedPool

/-!
# Databases with and without a pool

A database that reads a pool and one that has none do the same operations. Their
objects stay twins and their journals hold twins, as long as every value that
is taken from the pool is the one below.
-/

namespace Dexit.Core

open Parlia (Hash)
open Function List Option Account

namespace StateDB

/-- The same database without the pool, with its own objects and journal. -/
def plain (s : StateDB) (objects : Address → Option StateObject) (journal : List JournalEntry) :
    StateDB :=
  { s with stateObjects := objects, journal, storagePool := none }

/-- The entry would put an object back. -/
def resets : JournalEntry → Bool
  | .resetObject .. => true
  | _ => false

/-- Entries are equal, up to the objects that they would put back. -/
inductive EntryTwin (env : Env) : JournalEntry → JournalEntry → Prop
  | same (e : JournalEntry) (h : resets e = false) : EntryTwin env e e
  | reset {account : Address} {prev prev' : StateObject} {prevdestruct : Bool}
      (h : Twin env account (env.snap.isSome && prevdestruct) prev prev') :
      EntryTwin env (.resetObject account prev prevdestruct)
        (.resetObject account prev' prevdestruct)

/-- An account whose object was replaced is marked, until that is undone. -/
def Marked (env : Env) : (Address → Bool) → List JournalEntry → Prop
  | _, [] => True
  | marks, .resetObject account _ prevdestruct :: es =>
    (env.snap.isSome → marks account) ∧
      Marked env (if !prevdestruct && env.snap.isSome then update marks account false
        else marks) es
  | marks, _ :: es => Marked env marks es

structure Alike (env : Env) (s : StateDB) (objects : Address → Option StateObject)
    (journal : List JournalEntry) : Prop where
  objects : ∀ a, Option.Rel (Twin env a (s.snapDestructs a)) (s.stateObjects a) (objects a)
  journal : List.Forall₂ (EntryTwin env) s.journal journal
  marked : Marked env s.snapDestructs s.journal
  readOnly : s.writeOnSharedStorage = false

/-- `p` is `s` without its pool. -/
def Sim (env : Env) (s p : StateDB) : Prop :=
  ∃ objects journal, p = s.plain objects journal ∧ Alike env s objects journal

section
variable {env : Env} {s p : StateDB} {addr a : Address} {o o' : StateObject} {key : Hash}

section
variable (h : Sim env s p)
include h

theorem Sim.destructs : p.snapDestructs = s.snapDestructs := by
  obtain ⟨po, pj, rfl, -⟩ := h
  rfl

theorem Sim.find (a : Address) :
    Option.Rel (Twin env a (s.snapDestructs a)) (s.find env a) (p.find env a) := by
  obtain ⟨po, pj, rfl, halike⟩ := h
  have hrel := halike.objects a
  unfold find plain
  dsimp only
  generalize s.stateObjects a = found at hrel ⊢
  generalize po a = found' at hrel ⊢
  cases hrel with
  | none =>
    cases env.readAccount a with
    | none => exact .none
    | some data => exact .some (Twin.refl rfl)
  | some htwin => exact .some htwin

theorem Sim.setObject {new new' : Option StateObject}
    (hnew : Option.Rel (Twin env addr (s.snapDestructs addr)) new new') :
    Sim env { s with stateObjects := update s.stateObjects addr new }
      { p with stateObjects := update p.stateObjects addr new' } := by
  obtain ⟨po, pj, rfl, halike⟩ := h
  refine ⟨update po addr new', pj, rfl, { halike with objects := ?_ }⟩
  intro a
  by_cases ha : a = addr
  · subst ha
    simpa using hnew
  · simpa [update_of_ne ha] using halike.objects a

theorem Sim.setStateObject (htwin : Twin env addr (s.snapDestructs addr) o o') :
    Sim env (s.setStateObject addr o) (p.setStateObject addr o') :=
  h.setObject (.some htwin)

theorem Sim.load (addr : Address) : Sim env (s.load env addr) (p.load env addr) :=
  h.setObject (h.find addr)

/-- An entry that does not put an object back. -/
theorem Sim.append (e : JournalEntry) (he : resets e = false) :
    Sim env (s.append e) (p.append e) := by
  obtain ⟨po, pj, rfl, halike⟩ := h
  refine ⟨po, e :: pj, rfl, { halike with journal := ?_, marked := ?_ }⟩
  · exact List.Forall₂.cons (EntryTwin.same e he) halike.journal
  · cases e with
    | resetObject => cases he
    | _ => exact halike.marked

end

/-! ### The object of an account -/

/-- Live objects of one account in the two databases. -/
structure Live (env : Env) (s p : StateDB) (addr : Address) (o o' : StateObject) : Prop where
  sim : Sim env s p
  left : s.stateObjects addr = some o
  right : p.stateObjects addr = some o'
  twin : Twin env addr (s.snapDestructs addr) o o'
  notDeleted : o.deleted = false

theorem Sim.getStateObject (h : Sim env s p) (addr : Address) :
    (s.getStateObject env addr = (none, s.load env addr) ∧
      p.getStateObject env addr = (none, p.load env addr)) ∨
    ∃ o o', s.getStateObject env addr = (some o, s.load env addr) ∧
      p.getStateObject env addr = (some o', p.load env addr) ∧
      Live env (s.load env addr) (p.load env addr) addr o o' := by
  have hfind := h.find addr
  rw [getStateObject_eq, getStateObject_eq]
  generalize hs : s.find env addr = found at hfind ⊢
  generalize hp : p.find env addr = found' at hfind ⊢
  cases hfind with
  | none => exact Or.inl ⟨rfl, rfl⟩
  | @some o o' htwin =>
    cases hdel : o.deleted with
    | true =>
      have hdel' := htwin.deleted.symm.trans hdel
      exact Or.inl ⟨by simp [Option.filter, hdel], by simp [Option.filter, hdel']⟩
    | false =>
      have hdel' := htwin.deleted.symm.trans hdel
      refine Or.inr ⟨o, o', by simp [Option.filter, hdel], by simp [Option.filter, hdel'], ?_⟩
      exact ⟨h.load addr, (update_self addr _ _).trans hs,
        (update_self addr _ _).trans hp, htwin, hdel⟩

/-- A change of the object, with its entry. -/
theorem Live.change (h : Live env s p addr o o') (e : JournalEntry)
    {n n' : StateObject} (htwin : Twin env addr (s.snapDestructs addr) n n')
    (he : resets e = false) :
    Sim env ((s.append e).setStateObject addr n) ((p.append e).setStateObject addr n') :=
  (h.sim.append e he).setStateObject htwin

/-- Undoing the replacement takes the mark away exactly if it was not there. -/
theorem marks_undone :
    (if !(env.snap.isSome && s.snapDestructs addr) && env.snap.isSome then
      update (marks env s addr) addr false else marks env s addr) = s.snapDestructs := by
  unfold marks
  cases hsnap : env.snap.isSome <;> cases hmark : s.snapDestructs addr <;>
    simp [update_eq_self_iff, hmark]

section
variable (h : Sim env s p)
include h

/-- A new object in place of another one. -/
theorem Sim.reset {prev prev' : StateObject}
    (hprev : Twin env addr (s.snapDestructs addr) prev prev')
    (hnew : ∀ mark, Twin env addr mark o o') :
    Sim env ((({ s with snapDestructs := marks env s addr } : StateDB).append
        (.resetObject addr prev (env.snap.isSome && s.snapDestructs addr))).setStateObject addr o)
      ((({ p with snapDestructs := marks env p addr } : StateDB).append
        (.resetObject addr prev' (env.snap.isSome && p.snapDestructs addr))).setStateObject
          addr o') := by
  obtain ⟨po, pj, rfl, halike⟩ := h
  refine ⟨update po addr (some o'),
    .resetObject addr prev' (env.snap.isSome && s.snapDestructs addr) :: pj, rfl, ?_⟩
  refine { objects := ?_, journal := ?_, marked := ?_, readOnly := halike.readOnly }
  · intro a
    by_cases ha : a = addr
    · subst ha
      simpa [setStateObject] using hnew _
    · simpa [StateDB.setStateObject, StateDB.append, marks, update_of_ne ha] using halike.objects a
  · refine List.Forall₂.cons (EntryTwin.reset (hprev.remark ?_)) halike.journal
    cases env.snap.isSome <;> rfl
  · refine ⟨?_, ?_⟩
    · intro hsnap
      simp [StateDB.setStateObject, StateDB.append, marks, hsnap]
    · change Marked env (if _ then update (marks env s addr) addr false
        else marks env s addr) s.journal
      rw [marks_undone]
      exact halike.marked

/-- The new objects may be given the old balance. -/
theorem Sim.createObject (addr : Address) (hnew : ∀ mark, Twin env addr mark o o') :
    Sim env ((s.createObject env addr).2.2.setStateObject addr o)
      ((p.createObject env addr).2.2.setStateObject addr o') ∧
    Option.Rel (Twin env addr (s.snapDestructs addr)) (s.createObject env addr).2.1
      (p.createObject env addr).2.1 := by
  have hfind := h.find addr
  have htwice (t : StateDB) (n n' : StateObject) :
      (t.setStateObject addr n).setStateObject addr n' = t.setStateObject addr n' := by
    unfold StateDB.setStateObject
    rw [update_idem]
  unfold StateDB.createObject
  rw [getDeletedStateObject_eq, getDeletedStateObject_eq]
  generalize s.find env addr = found at hfind ⊢
  generalize p.find env addr = found' at hfind ⊢
  cases hfind with
  | none =>
    rw [htwice, htwice]
    exact ⟨((h.load addr).append (.createObject addr) rfl).setStateObject (hnew _), .none⟩
  | some htwin =>
    dsimp only
    rw [htwice, htwice, marked_eq, marked_eq]
    refine ⟨(h.load addr).reset htwin hnew, ?_⟩
    rw [← htwin.deleted]
    split
    · exact .none
    · exact .some htwin

theorem Sim.createAccount (addr : Address) :
    Sim env (s.createAccount env addr) (p.createAccount env addr) := by
  have hnew (balance : ℤ) (mark : Bool) : Twin env addr mark
      { newObject zero with data := { (newObject zero).data with balance } }
      { newObject zero with data := { (newObject zero).data with balance } } :=
    Twin.refl rfl
  have hprev := (h.createObject addr (hnew 0)).2
  have hsim (balance : ℤ) := (h.createObject addr (hnew balance)).1
  have hs := createObject_live env s addr
  have hp := createObject_live env p addr
  have hs' := createObject_new env s addr
  have hp' := createObject_new env p addr
  unfold StateDB.createAccount
  generalize s.createObject env addr = made at hprev hsim hs hs'
  generalize p.createObject env addr = made' at hprev hsim hp hp'
  obtain ⟨new, prev, t⟩ := made
  obtain ⟨new', prev', q⟩ := made'
  subst hs' hp'
  cases hprev with
  | none =>
    have hself := hsim 0
    rwa [show ({ newObject zero with
        data := { (newObject zero).data with balance := 0 } } : StateObject) =
          newObject zero from rfl, setStateObject_self hs, setStateObject_self hp] at hself
  | some htwin =>
    dsimp only
    rw [← htwin.data]
    exact hsim _

theorem Sim.getOrNewStateObject (addr : Address) :
    Live env (s.getOrNewStateObject env addr).2 (p.getOrNewStateObject env addr).2 addr
      (s.getOrNewStateObject env addr).1 (p.getOrNewStateObject env addr).1 := by
  unfold StateDB.getOrNewStateObject
  obtain ⟨hs, hp⟩ | ⟨o, o', hs, hp, hlive⟩ := h.getStateObject addr
  · rw [hs, hp]
    have hnew (mark : Bool) : Twin env addr mark (newObject zero) (newObject zero) :=
      Twin.refl rfl
    have hsim := ((h.load addr).createObject addr hnew).1
    rw [setStateObject_self (createObject_live env _ addr),
      setStateObject_self (createObject_live env _ addr)] at hsim
    rw [createObject_new, createObject_new]
    exact ⟨hsim, createObject_live env _ addr, createObject_live env _ addr, hnew _, rfl⟩
  · rw [hs, hp]
    exact hlive

/-! ### Storage -/

theorem Sim.fresh : p.Fresh env addr o key := by
  obtain ⟨po, pj, rfl, -⟩ := h
  intro _ _ value hvalue
  cases hvalue

end

theorem Live.objectCommittedState (h : Live env s p addr o o') (hfresh : s.Fresh env addr o key) :
    (s.objectCommittedState env addr o key).1 = (p.objectCommittedState env addr o' key).1 ∧
      ∃ n n', Live env (s.objectCommittedState env addr o key).2
        (p.objectCommittedState env addr o' key).2 addr n n' := by
  have hfake := h.twin.fakeStorage
  have hpending := congrFun h.twin.pendingStorage key
  have hreadOnly : s.writeOnSharedStorage = false ∧ p.writeOnSharedStorage = false := by
    obtain ⟨po, pj, rfl, halike⟩ := h.sim
    exact ⟨halike.readOnly, halike.readOnly⟩
  cases hkey : o.pendingStorage key with
  | some value =>
    rw [objectCommittedState_pending hfake.1 hkey,
      objectCommittedState_pending hfake.2 (hpending.symm.trans hkey)]
    exact ⟨rfl, o, o', h⟩
  | none =>
    obtain ⟨v, n, hs, hread⟩ := objectCommittedState_readAs hreadOnly.1 h.left hfake.1 hkey hfresh
    obtain ⟨w, n', hp, hread'⟩ :=
      objectCommittedState_readAs hreadOnly.2 h.right hfake.2 (hpending.symm.trans hkey) h.sim.fresh
    rw [h.sim.destructs] at hread'
    obtain ⟨hvalue, htwin⟩ := h.twin.read h.notDeleted hread hread'
    rw [hs, hp]
    refine ⟨hvalue, n, n', h.sim.setStateObject htwin, live_setStateObject, live_setStateObject, htwin, ?_⟩
    rw [hread.same]
    exact h.notDeleted

theorem Live.objectState (h : Live env s p addr o o')
    (hfresh : o.dirtyStorage key = none → s.Fresh env addr o key) :
    (s.objectState env addr o key).1 = (p.objectState env addr o' key).1 ∧
      ∃ n n', Live env (s.objectState env addr o key).2
        (p.objectState env addr o' key).2 addr n n' := by
  have hfake := h.twin.fakeStorage
  have hdirty := congrFun h.twin.dirtyStorage key
  unfold StateDB.objectState
  rw [hfake.1, hfake.2, ← hdirty]
  cases hkey : o.dirtyStorage key with
  | some value => exact ⟨rfl, o, o', h⟩
  | none => exact h.objectCommittedState (hfresh hkey)

/-- The slot that an operation reads below the dirty ones, if any, is one that
`P` allows to read. -/
def ReadsOnly (env : Env) (P : StateDB → Address → StateObject → Hash → Prop) (s : StateDB) :
    Op → Prop
  | .getState addr key => ∀ obj ∈ (s.getStateObject env addr).1, obj.dirtyStorage key = none →
    P (s.getStateObject env addr).2 addr obj key
  | .getCommittedState addr key => ∀ obj ∈ (s.getStateObject env addr).1,
    P (s.getStateObject env addr).2 addr obj key
  | .setState addr key _ => (s.getOrNewStateObject env addr).1.dirtyStorage key = none →
    P (s.getOrNewStateObject env addr).2 addr (s.getOrNewStateObject env addr).1 key
  | _ => True

section
variable (h : Sim env s p)
include h

/-- An operation on the object of an account, if there is one. -/
theorem Sim.onObject {β : Type} {nothing : β} {f f' : StateObject → StateDB → β × StateDB}
    (hf : ∀ o o', s.getStateObject env addr = (some o, s.load env addr) →
      Live env (s.load env addr) (p.load env addr) addr o o' →
      (f o (s.load env addr)).1 = (f' o' (p.load env addr)).1 ∧
        Sim env (f o (s.load env addr)).2 (f' o' (p.load env addr)).2) :
    let r := match s.getStateObject env addr with
      | (none, t) => (nothing, t)
      | (some obj, t) => f obj t
    let r' := match p.getStateObject env addr with
      | (none, t) => (nothing, t)
      | (some obj, t) => f' obj t
    r.1 = r'.1 ∧ Sim env r.2 r'.2 := by
  obtain ⟨hs, hp⟩ | ⟨o, o', hs, hp, hlive⟩ := h.getStateObject addr
  · rw [hs, hp]
    exact ⟨rfl, h.load addr⟩
  · rw [hp, hs]
    exact hf o o' hs hlive

theorem Sim.getState (hfresh : s.ReadsOnly env (Fresh env) (.getState addr key)) :
    (s.getState env addr key).1 = (p.getState env addr key).1 ∧
      Sim env (s.getState env addr key).2 (p.getState env addr key).2 := by
  refine h.onObject fun o o' hs hlive => ?_
  simp only [ReadsOnly, hs] at hfresh
  obtain ⟨hvalue, n, n', hlive'⟩ := hlive.objectState (hfresh o rfl)
  exact ⟨hvalue, hlive'.sim⟩

theorem Sim.getCommittedState (hfresh : s.ReadsOnly env (Fresh env) (.getCommittedState addr key)) :
    (s.getCommittedState env addr key).1 = (p.getCommittedState env addr key).1 ∧
      Sim env (s.getCommittedState env addr key).2 (p.getCommittedState env addr key).2 := by
  refine h.onObject fun o o' hs hlive => ?_
  simp only [ReadsOnly, hs] at hfresh
  obtain ⟨hvalue, n, n', hlive'⟩ := hlive.objectCommittedState (hfresh o rfl)
  exact ⟨hvalue, hlive'.sim⟩

theorem Sim.setState {value : Hash}
    (hfresh : s.ReadsOnly env (Fresh env) (.setState addr key value)) :
    Sim env (s.setState env addr key value) (p.setState env addr key value) := by
  have hlive := h.getOrNewStateObject addr
  obtain ⟨hvalue, n, n', hlive'⟩ := hlive.objectState hfresh
  unfold StateDB.setState
  dsimp only
  rw [hlive.twin.fakeStorage.1, hlive.twin.fakeStorage.2]
  dsimp only
  rw [← hvalue]
  split
  · exact hlive'.sim
  · unfold liveObject
    rw [hlive'.left, hlive'.right]
    exact hlive'.change (.storage addr key _) (hlive'.twin.setDirty key value) rfl

/-! ### Undoing -/

theorem Sim.modify {f : StateObject → StateObject}
    (hf : ∀ mark o o', Twin env addr mark o o' → Twin env addr mark (f o) (f o')) :
    Option.Rel (Sim env) (s.modify env addr f) (p.modify env addr f) := by
  unfold StateDB.modify
  obtain ⟨hs, hp⟩ | ⟨o, o', hs, hp, hlive⟩ := h.getStateObject addr
  · rw [hs, hp]
    exact .none
  · rw [hs, hp]
    exact .some (hlive.sim.setStateObject (hf _ o o' hlive.twin))

/-- An entry that puts no object back. -/
theorem Sim.revert (e : JournalEntry) (he : resets e = false) :
    Option.Rel (Sim env) (e.revert env s) (e.revert env p) := by
  cases e with
  | createObject account =>
    obtain ⟨po, pj, rfl, halike⟩ := h
    have hsim : Sim env
        { s with stateObjectsDirty := update s.stateObjectsDirty account false }
        { s.plain po pj with stateObjectsDirty := update s.stateObjectsDirty account false } :=
      ⟨po, pj, rfl, { halike with }⟩
    exact .some (hsim.setObject .none)
  | resetObject => cases he
  | suicide account prev prevbalance =>
    rw [revert_suicide, revert_suicide]
    have hrel := h.modify fun mark o o' (htwin : Twin env account mark o o') =>
      htwin.setSuicided prev prevbalance
    generalize s.modify env account _ = t at hrel ⊢
    generalize p.modify env account _ = q at hrel ⊢
    cases hrel with
    | none => exact .some (h.load account)
    | some hsim => exact .some hsim
  | balance account prev => exact h.modify fun mark o o' htwin => htwin.setBalance prev
  | nonce account prev => exact h.modify fun mark o o' htwin => htwin.setNonce prev
  | storage account key prevalue =>
    exact h.modify fun mark o o' htwin => htwin.setDirty key prevalue
  | code account prevcode prevhash =>
    exact h.modify fun mark o o' htwin => htwin.setCode prevcode prevhash
  | touch account => exact .some h
  | refund prev | addPreimage hash | accessListAddAccount address =>
    obtain ⟨po, pj, rfl, halike⟩ := h
    exact .some ⟨po, pj, rfl, { halike with }⟩
  | addLog txhash =>
    obtain ⟨po, pj, rfl, halike⟩ := h
    simp only [JournalEntry.revert]
    change Option.Rel _ _ (if s.logs txhash = [] then none else _)
    split
    · exact .none
    · exact .some ⟨po, pj, rfl, { halike with }⟩
  | accessListAddSlot address slot =>
    obtain ⟨po, pj, rfl, halike⟩ := h
    have hlist : (s.plain po pj).accessList = s.accessList := rfl
    simp only [JournalEntry.revert]
    rw [hlist]
    split
    · exact .some ⟨po, pj, rfl, halike⟩
    · next al _ =>
      cases al.deleteSlot address slot with
      | none => exact .none
      | some al' => exact .some ⟨po, pj, rfl, { halike with }⟩

theorem Sim.countDown (e : JournalEntry) : Sim env (match e.dirtied with
        | some addr => { s with dirties := update s.dirties addr (s.dirties addr - 1) }
        | none => s)
      (match e.dirtied with
        | some addr => { p with dirties := update p.dirties addr (p.dirties addr - 1) }
        | none => p) := by
  cases e.dirtied with
  | none => exact h
  | some addr =>
    obtain ⟨po, pj, rfl, halike⟩ := h
    exact ⟨po, pj, rfl, { halike with }⟩

end

/-- Undoing leaves the journal to its caller. -/
theorem undo_journal (env : Env) (s : StateDB) (e : JournalEntry) (journal : List JournalEntry) :
    undo env e { s with journal } = (undo env e s).map fun t => { t with journal } := by
  have hmodify (addr : Address) (f : StateObject → StateObject) :
      ({ s with journal } : StateDB).modify env addr f =
        (s.modify env addr f).map fun t => { t with journal } := by
    rw [modify_eq, modify_eq, Option.map_map]
    rfl
  have hrevert : e.revert env { s with journal } =
      (e.revert env s).map fun t => { t with journal } := by
    cases e with
    | resetObject account prev prevdestruct =>
      rw [revert_resetObject, revert_resetObject]
      rfl
    | suicide account prev prevbalance =>
      rw [revert_suicide, revert_suicide, hmodify]
      cases s.modify env account _ <;> rfl
    | balance account prev | nonce account prev | storage account key prevalue | code account prevcode prevhash => exact hmodify account _
    | addLog txhash =>
      simp only [JournalEntry.revert]
      split <;> rfl
    | accessListAddSlot address slot =>
      simp only [JournalEntry.revert]
      cases hal : s.accessList with
      | none => simp only [map_some, hal]
      | some al =>
        rw [Option.map_map]
        rfl
    | _ => rfl
  unfold undo
  rw [hrevert, Option.map_map, Option.map_map]
  refine map_congr fun t _ => ?_
  cases e.dirtied <;> rfl

/-- The last entries of both journals. -/
theorem Sim.undo {e e' : JournalEntry} {es es' : List JournalEntry} (h : Sim env s p)
    (hs : s.journal = e :: es) (hp : p.journal = e' :: es') :
    Option.Rel (Sim env) (undo env e { s with journal := es })
      (undo env e' { p with journal := es' }) := by
  obtain ⟨po, pj, rfl, halike⟩ := h
  have hjournal := halike.journal
  have hmarked := halike.marked
  cases hp
  rw [hs] at hjournal hmarked
  cases hjournal with
  | cons htwin hrest =>
    cases htwin with
    | same _ he =>
      have hsim : Sim env { s with journal := es } { s.plain po (e :: es') with journal := es' } := by
        refine ⟨po, es', rfl, halike.objects, hrest, ?_, halike.readOnly⟩
        cases e with
        | resetObject => cases he
        | _ => exact hmarked
      have hrel := hsim.revert e he
      unfold undo
      generalize e.revert env { s with journal := es } = t at hrel ⊢
      generalize e.revert env { s.plain po (e :: es') with journal := es' } = q at hrel ⊢
      cases hrel with
      | none => exact .none
      | some hsim => exact .some (hsim.countDown e)
    | reset hprev =>
      rename_i account prev prev' prevdestruct
      obtain ⟨hmark, hmarked⟩ := hmarked
      rw [undo_resetObject, undo_resetObject]
      refine .some ⟨update po account (some prev'), es', rfl, ?_, hrest, ?_, halike.readOnly⟩
      · intro a
        by_cases ha : a = account
        · subst ha
          simp only [restore, StateDB.setStateObject, update_self]
          refine .some (hprev.remark ?_)
          cases hsnap : env.snap.isSome with
          | false => rfl
          | true => cases prevdestruct <;> simp [hmark hsnap]
        · simpa [restore, StateDB.setStateObject, update_of_ne ha] using halike.objects a
      · have hmarks : (if !prevdestruct && env.snap.isSome then
            update s.snapDestructs account false else s.snapDestructs) =
            update s.snapDestructs account
              (if !prevdestruct && env.snap.isSome then false else s.snapDestructs account) := by
          split
          · rfl
          · rw [update_eq_self]
        rwa [hmarks] at hmarked

theorem undoAll_journal (es : List JournalEntry) (journal : List JournalEntry) :
    undoAll env es { s with journal } = (undoAll env es s).map fun t => { t with journal } := by
  induction es generalizing s with
  | nil => rfl
  | cons e es ih =>
    rw [undoAll, undoAll, undo_journal]
    cases undo env e s with
    | none => rfl
    | some t => exact ih

/-- Undoes the last `n` entries. -/
def unwind (env : Env) (s : StateDB) (n : ℕ) : Option StateDB :=
  undoAll env (s.journal.take n) { s with journal := s.journal.drop n }

theorem unwind_nil (h : s.journal = []) (n : ℕ) : s.unwind env n = some s := by
  have hdrop : s.journal.drop n = s.journal := by rw [h, drop_nil]
  unfold unwind
  rw [hdrop, h, take_nil, undoAll, ← h]

theorem unwind_cons {e : JournalEntry} {es : List JournalEntry} (h : s.journal = e :: es) (n : ℕ) :
    s.unwind env (n + 1) = (undo env e { s with journal := es }).bind fun t => t.unwind env n := by
  unfold unwind
  rw [h, take_succ_cons, drop_succ_cons, undoAll,
    undo_journal env s e (es.drop n), undo_journal env s e es]
  cases undo env e s <;> rfl

theorem Sim.journal_length (h : Sim env s p) : s.journal.length = p.journal.length := by
  obtain ⟨po, pj, rfl, halike⟩ := h
  exact halike.journal.length_eq

theorem Sim.unwind (h : Sim env s p) (n : ℕ) :
    Option.Rel (Sim env) (s.unwind env n) (p.unwind env n) := by
  induction n generalizing s p with
  | zero => exact .some h
  | succ n ih =>
    have hlength := h.journal_length
    cases hs : s.journal with
    | nil =>
      rw [hs] at hlength
      rw [unwind_nil hs, unwind_nil (eq_nil_of_length_eq_zero hlength.symm)]
      exact .some h
    | cons e es =>
      obtain ⟨e', es', hp⟩ : ∃ e' es', p.journal = e' :: es' :=
        exists_cons_of_length_pos (by rw [← hlength, hs]; exact Nat.succ_pos _)
      have hstep := h.undo hs hp
      rw [unwind_cons hs, unwind_cons hp]
      generalize StateDB.undo env e _ = t at hstep ⊢
      generalize StateDB.undo env e' _ = q at hstep ⊢
      cases hstep with
      | none => exact .none
      | some hsim => exact ih hsim

theorem revertJournal_eq (snapshot : ℕ) : s.revertJournal env snapshot =
    if snapshot ≤ s.journal.length then s.unwind env (s.journal.length - snapshot) else none := by
  unfold revertJournal
  rw [← undoAll_journal]
  rfl

theorem Sim.revertJournal (h : Sim env s p) (snapshot : ℕ) :
    Option.Rel (Sim env) (s.revertJournal env snapshot) (p.revertJournal env snapshot) := by
  rw [revertJournal_eq, revertJournal_eq, ← h.journal_length]
  split
  · exact h.unwind _
  · exact .none

/-- The snapshot with an id, and the snapshots before it. -/
def target (revisions : Revisions) (revid : ℕ) : Option (Revision × Revisions) :=
  let valid := revisions.validRevisions
  let idx := Go.search valid.length fun i => (valid[i]?).all fun r => r.id ≥ revid
  (valid[idx]?).bind fun revision =>
    if revision.id ≠ revid then none
    else some (revision,
      { validRevisions := valid.take idx
        nextRevisionId := revisions.nextRevisionId
        increasing := revisions.increasing.sublist (List.take_sublist idx valid)
        below := fun r hr => revisions.below r (List.mem_of_mem_take hr) })

theorem revertToSnapshot_eq (revid : ℕ) : s.revertToSnapshot env revid =
    (target s.revisions revid).bind fun (revision, revisions) =>
      (s.revertJournal env revision.journalIndex).map fun t => { t with revisions } := by
  unfold revertToSnapshot target
  dsimp only
  split
  · next hnone => rw [hnone]; rfl
  · next revision hsome =>
    rw [hsome, bind_some]
    split <;> rfl

theorem Sim.revertToSnapshot (h : Sim env s p) (revid : ℕ) :
    Option.Rel (Sim env) (s.revertToSnapshot env revid) (p.revertToSnapshot env revid) := by
  have hrevisions : p.revisions = s.revisions := by
    obtain ⟨po, pj, rfl, -⟩ := h
    rfl
  rw [revertToSnapshot_eq, revertToSnapshot_eq, hrevisions]
  cases target s.revisions revid with
  | none => exact .none
  | some found =>
    obtain ⟨revision, revisions⟩ := found
    have hrel := h.revertJournal revision.journalIndex
    dsimp only [bind_some]
    generalize s.revertJournal env _ = t at hrel ⊢
    generalize p.revertJournal env _ = q at hrel ⊢
    cases hrel with
    | none => exact .none
    | some hsim =>
      obtain ⟨po, pj, rfl, halike⟩ := hsim
      exact .some ⟨po, pj, rfl, { halike with }⟩

/-! ### Whole operations -/

theorem Live.objectSetBalance (h : Live env s p addr o o') (amount : ℤ) :
    Sim env (s.objectSetBalance addr o amount) (p.objectSetBalance addr o' amount) := by
  have hprev : o.data.balance = o'.data.balance := by rw [h.twin.data]
  unfold StateDB.objectSetBalance
  rw [← hprev]
  exact h.change (.balance addr o.data.balance) (h.twin.setBalance amount) rfl

section
variable (h : Sim env s p)
include h

theorem Sim.touch (addr : Address) : Sim env (s.touch addr) (p.touch addr) := by
  have hsim := h.append (.touch addr) rfl
  unfold StateDB.touch
  split
  · obtain ⟨po, pj, hp, halike⟩ := hsim
    exact ⟨po, pj, congrArg (·.dirty addr) hp, { halike with }⟩
  · exact hsim

theorem Sim.addPreimage (hash : Hash) (preimage : List UInt8) :
    Sim env (s.addPreimage hash preimage) (p.addPreimage hash preimage) := by
  obtain ⟨po, pj, rfl, halike⟩ := h
  have hsim : Sim env { s with preimages := update s.preimages hash (some preimage) }
      { s.plain po pj with preimages := update s.preimages hash (some preimage) } :=
    ⟨po, pj, rfl, { halike with }⟩
  have hpreimages : (s.plain po pj).preimages = s.preimages := rfl
  unfold addPreimage
  rw [hpreimages]
  split
  · exact ⟨po, pj, rfl, halike⟩
  · exact hsim.append (.addPreimage hash) rfl

theorem Sim.accessList : p.accessList = s.accessList := by
  obtain ⟨po, pj, rfl, -⟩ := h
  rfl

/-- The list is put in place, and an address and a slot may be logged. -/
theorem Sim.setAccessList (al : AccessList) :
    Sim env { s with accessList := some al } { p with accessList := some al } := by
  obtain ⟨po, pj, rfl, halike⟩ := h
  exact ⟨po, pj, rfl, { halike with }⟩

theorem Sim.appendIf (c : Bool) (e : JournalEntry) (he : resets e = false) :
    Sim env (if c then s.append e else s) (if c then p.append e else p) := by
  split
  · exact h.append e he
  · exact h

theorem Sim.addAddressToAccessList (addr : Address) :
    Sim env (s.addAddressToAccessList addr) (p.addAddressToAccessList addr) := by
  unfold StateDB.addAddressToAccessList
  rw [h.accessList]
  exact (h.setAccessList _).appendIf _ (.accessListAddAccount addr) rfl

theorem Sim.addSlotToAccessList (addr : Address) (slot : Hash) :
    Option.Rel (Sim env) (s.addSlotToAccessList addr slot) (p.addSlotToAccessList addr slot) := by
  unfold StateDB.addSlotToAccessList
  rw [h.accessList]
  split
  · exact .none
  · exact .some (((h.setAccessList _).appendIf _ (.accessListAddAccount addr) rfl).appendIf
      _ (.accessListAddSlot addr slot) rfl)

theorem Sim.exec {op : Op} (hfresh : s.ReadsOnly env (Fresh env) op) :
    Option.Rel (Sim env) (s.exec env op) (p.exec env op) := by
  cases op with
  | addBalance addr amount =>
    have hlive := h.getOrNewStateObject addr
    refine .some ?_
    unfold addBalance
    dsimp only
    rw [← hlive.twin.empty, ← hlive.twin.data]
    split
    · split
      · exact hlive.sim.touch addr
      · exact hlive.sim
    · exact hlive.objectSetBalance _
  | subBalance addr amount =>
    have hlive := h.getOrNewStateObject addr
    refine .some ?_
    unfold subBalance
    dsimp only
    rw [← hlive.twin.data]
    split
    · exact hlive.sim
    · exact hlive.objectSetBalance _
  | setBalance addr amount =>
    exact .some ((h.getOrNewStateObject addr).objectSetBalance amount)
  | setNonce addr nonce =>
    have hlive := h.getOrNewStateObject addr
    have hprev := congrArg Account.nonce hlive.twin.data
    refine .some ?_
    unfold setNonce
    dsimp only
    rw [← hprev]
    exact hlive.change (.nonce addr _) (hlive.twin.setNonce nonce) rfl
  | setCode addr code =>
    have hlive := h.getOrNewStateObject addr
    have hprev := congrArg codeHash hlive.twin.data
    refine .some ?_
    unfold setCode
    dsimp only
    rw [← hprev, ← hlive.twin.getCode]
    exact hlive.change (.code addr _ _) (hlive.twin.setCode (some code) (env.keccak code)) rfl
  | setState addr key value => exact .some (h.setState hfresh)
  | createAccount addr => exact .some (h.createAccount addr)
  | suicide addr =>
    refine .some (h.onObject fun o o' _ hlive => ⟨rfl, ?_⟩).2
    have hprev := congrArg balance hlive.twin.data
    rw [← hprev, ← hlive.twin.suicided]
    exact hlive.change (.suicide addr _ _) (hlive.twin.setSuicided true 0) rfl
  | addRefund gas =>
    obtain ⟨po, pj, rfl, halike⟩ := h
    have hsim : Sim env { s with refund := s.refund + gas }
      { s.plain po pj with refund := s.refund + gas } := ⟨po, pj, rfl, { halike with }⟩
    exact .some (hsim.append (.refund s.refund) rfl)
  | subRefund gas =>
    obtain ⟨po, pj, rfl, halike⟩ := h
    have hsim : Sim env { s with refund := s.refund - gas }
      { s.plain po pj with refund := s.refund - gas } := ⟨po, pj, rfl, { halike with }⟩
    change Option.Rel _ (if gas > s.refund then none else _) (if gas > s.refund then none else _)
    split
    · exact .none
    · exact .some (hsim.append (.refund s.refund) rfl)
  | addLog log =>
    obtain ⟨po, pj, rfl, halike⟩ := h
    obtain ⟨po', pj', hp, halike'⟩ := Sim.append ⟨po, pj, rfl, halike⟩ (.addLog s.thash) rfl
    exact .some ⟨po', pj', congrArg (fun t =>
      let log : Log := { log with
        txHash := t.thash, blockHash := t.bhash, txIndex := t.txIndex, index := t.logSize }
      { t with
        logs := update t.logs t.thash (t.logs t.thash ++ [log])
        logSize := t.logSize + 1 }) hp, { halike' with }⟩
  | addPreimage hash preimage => exact .some (h.addPreimage hash preimage)
  | addAddressToAccessList addr => exact .some (h.addAddressToAccessList addr)
  | addSlotToAccessList addr slot => exact h.addSlotToAccessList addr slot
  | load addr =>
    simp only [StateDB.exec, getStateObject_eq]
    exact .some (h.load addr)
  | getCode addr =>
    exact .some (h.onObject fun _ _ _ hlive =>
      ⟨hlive.twin.getCode, hlive.sim.setStateObject hlive.twin.keepCode⟩).2
  | getState addr key => exact .some (h.getState hfresh).2
  | getCommittedState addr key => exact .some (h.getCommittedState hfresh).2
  | snapshot =>
    obtain ⟨po, pj, rfl, halike⟩ := h
    have hlength := halike.journal.length_eq
    refine .some ⟨po, pj, ?_, { halike with }⟩
    simp only [snapshot, plain, hlength]
  | revertToSnapshot revid => exact h.revertToSnapshot revid

end

/-! ### Ends of transactions -/

theorem clearJournalAndRefund_eq : s.clearJournalAndRefund =
    { s with
      journal := []
      dirties := if s.journal.length > 0 then fun _ => 0 else s.dirties
      refund := if s.journal.length > 0 then 0 else s.refund
      revisions := { nextRevisionId := s.revisions.nextRevisionId } } := by
  unfold clearJournalAndRefund
  by_cases h : s.journal.length > 0
  · simp only [if_pos h]
  · have hnil : s.journal = [] := eq_nil_of_length_eq_zero (by omega)
    simp only [if_neg h, ← hnil]

theorem Sim.finalise (h : Sim env s p) (deleteEmptyObjects : Bool) :
    Sim env (s.finalise env deleteEmptyObjects) (p.finalise env deleteEmptyObjects) := by
  obtain ⟨po, pj, rfl, halike⟩ := h
  have hlength := halike.journal.length_eq
  have hsame (a : Address) : (po a).isSome = (s.stateObjects a).isSome ∧
      (po a).any (doomed deleteEmptyObjects) =
        (s.stateObjects a).any (doomed deleteEmptyObjects) := by
    have hrel := halike.objects a
    generalize s.stateObjects a = found at hrel ⊢
    generalize po a = found' at hrel ⊢
    cases hrel with
    | none => exact ⟨rfl, rfl⟩
    | some htwin => exact ⟨rfl, (htwin.doomed deleteEmptyObjects).symm⟩
  unfold finalise
  rw [clearJournalAndRefund_eq, clearJournalAndRefund_eq]
  simp only [plain, hsame, ← hlength]
  refine ⟨_, [], rfl, ?_, List.Forall₂.nil, trivial, halike.readOnly⟩
  intro a
  have hrel := halike.objects a
  dsimp only
  generalize s.stateObjects a = found at hrel ⊢
  generalize po a = found' at hrel ⊢
  by_cases hdirty : s.dirties a = 0
  · simpa [hdirty] using hrel
  simp only [ne_eq, hdirty, not_false_eq_true, if_true]
  cases hrel with
  | none => exact .none
  | some htwin =>
    rename_i o o'
    -- a doomed object is not read again, and the mark of another one stays
    simp only [map_some, any_some, ← htwin.doomed deleteEmptyObjects]
    by_cases hdoomed : doomed deleteEmptyObjects o
    · simp only [hdoomed, if_true]
      exact .some htwin.delete
    · simp only [hdoomed, Bool.false_eq_true, if_false, Bool.and_false, Bool.or_false]
      exact .some htwin.finalise

theorem Sim.intermediateRoot (h : Sim env s p) (deleteEmptyObjects : Bool) :
    Sim env (s.intermediateRoot env deleteEmptyObjects)
      (p.intermediateRoot env deleteEmptyObjects) := by
  have hsim := h.finalise deleteEmptyObjects
  unfold StateDB.intermediateRoot
  generalize s.finalise env deleteEmptyObjects = t at hsim ⊢
  generalize p.finalise env deleteEmptyObjects = q at hsim ⊢
  obtain ⟨po, pj, rfl, halike⟩ := hsim
  refine ⟨_, pj, rfl, { halike with objects := ?_ }⟩
  intro a
  have hrel := halike.objects a
  change Option.Rel _ (if t.stateObjectsPending a then (t.stateObjects a).map _ else t.stateObjects a)
    (if t.stateObjectsPending a then (po a).map _ else po a)
  generalize t.stateObjects a = found at hrel ⊢
  generalize po a = found' at hrel ⊢
  by_cases hpending : t.stateObjectsPending a
  · rw [if_pos hpending, if_pos hpending]
    cases hrel with
    | none => exact .none
    | some htwin =>
      simp only [map_some, ← htwin.deleted]
      split
      · exact .some htwin
      · exact .some htwin.updateTrie
  · rw [if_neg hpending, if_neg hpending]
    exact hrel

theorem Sim.prepare (h : Sim env s p) (thash bhash : Hash) (ti : ℕ) :
    Sim env (s.prepare thash bhash ti) (p.prepare thash bhash ti) := by
  obtain ⟨po, pj, rfl, halike⟩ := h
  exact ⟨po, pj, rfl, { halike with }⟩

end

end StateDB

end Dexit.Core
