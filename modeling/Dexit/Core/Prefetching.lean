import Dexit.Core.Lockstep

/-!
# Prefetching into the shared pool

The database that executes a block reads a pool of slots, and copies of it that
run ahead fill the pool. A copy may be made at any point, and the operations of
the copies may come between any two operations of the block.
-/

namespace Dexit.Core

open Parlia (Hash)
open Option

namespace StateDB

/-- An operation of block execution. -/
inductive Call
  | op (op : Op)
  | finalise (deleteEmptyObjects : Bool)
  | intermediateRoot (deleteEmptyObjects : Bool)
  | prepare (thash bhash : Hash) (ti : ℕ)

/-- `none` is a panic. -/
def call (env : Env) (s : StateDB) : Call → Option StateDB
  | .op op => s.exec env op
  | .finalise deleteEmptyObjects => some (s.finalise env deleteEmptyObjects)
  | .intermediateRoot deleteEmptyObjects => some (s.intermediateRoot env deleteEmptyObjects)
  | .prepare thash bhash ti => some (s.prepare thash bhash ti)

/-- What `GetState` and `GetCommittedState` return. -/
def answer (env : Env) (s : StateDB) : Call → List Hash
  | .op (.getState addr key) => [(s.getState env addr key).1]
  | .op (.getCommittedState addr key) => [(s.getCommittedState env addr key).1]
  | _ => []

/-- The answers of a run. -/
def answers (env : Env) : StateDB → List Call → Option (List Hash)
  | _, [] => some []
  | s, c :: cs => (s.call env c).bind fun t => (answers env t cs).map (s.answer env c ++ ·)

end StateDB

/-! ### The block and its prefetchers -/

/-- The pool is the one that `main` holds. -/
structure Prefetching where
  main : StateDB
  copies : List StateDB := []

inductive Event
  | main (c : StateDB.Call)
  | spawn
  | prefetch (i : ℕ) (c : StateDB.Call)

namespace Prefetching

/-- A copy with the pool as it is now. -/
def attach (sys : Prefetching) (copy : StateDB) : StateDB :=
  { copy with storagePool := sys.main.storagePool }

/-- An operation of a copy that would panic is not made. -/
def step (env : Env) (sys : Prefetching) : Event → Option Prefetching
  | .main c => (sys.main.call env c).map fun s => { sys with main := s }
  | .spawn =>
    some { sys with copies := sys.copies ++ [{ sys.main.copy with writeOnSharedStorage := true }] }
  | .prefetch i c =>
    match sys.copies[i]?.bind fun copy => (sys.attach copy).call env c with
    | none => some sys
    | some copy => some
      { main := { sys.main with storagePool := copy.storagePool }, copies := sys.copies.set i copy }

def answer (env : Env) (sys : Prefetching) : Event → List Hash
  | .main c => sys.main.answer env c
  | _ => []

/-- The answers that the block gets. -/
def answers (env : Env) : Prefetching → List Event → Option (List Hash)
  | _, [] => some []
  | sys, e :: es => (sys.step env e).bind fun t => (answers env t es).map (sys.answer env e ++ ·)

end Prefetching

/-- The operations of the block itself. -/
def mainCalls : List Event → List StateDB.Call :=
  List.filterMap fun | .main c => some c | _ => none

/-! ### Stale slots -/

/-- The slot in the state of the parent block. -/
def parentSlot (env : Env) (addr : Address) (key : Hash) : Hash :=
  match env.snap.bind (·.storage addr key) with
  | some value => value
  | none =>
    let root := (env.readAccount addr).map fun data => (newObject data).data.root
    env.storageTrie addr (root.getD emptyRoot) key

namespace StateDB

/-- The object has no value of its own for the slot, and what lies below it is
not the storage of the parent block: the account was destructed or made anew. -/
def Renewed (env : Env) (s : StateDB) (addr : Address) (obj : StateObject) (key : Hash) : Prop :=
  obj.pendingStorage key = none ∧ obj.originStorage key = none ∧
    cleanSlot env addr (s.snapDestructs addr) obj key ≠ parentSlot env addr key

/-- A slot that is read from the pool although the account was renewed. -/
def TakesStale (env : Env) (s : StateDB) (addr : Address) (obj : StateObject) (key : Hash) : Prop :=
  s.Renewed env addr obj key ∧ (s.shared addr key).isSome

/-- A slot of a renewed account that is put into the pool. -/
def PutsStale (env : Env) (s : StateDB) (addr : Address) (obj : StateObject) (key : Hash) : Prop :=
  s.Renewed env addr obj key ∧ s.writeOnSharedStorage ∧ s.shared addr key = none ∧
    ¬ (env.snap.isSome && s.snapDestructs addr)

end StateDB

namespace Prefetching

/-- The block does not take a stale slot from the pool, and a copy does not put
one there. -/
def Clean (env : Env) (sys : Prefetching) : Event → Prop
  | .main (.op op) => sys.main.ReadsOnly env (fun s a o k => ¬ s.TakesStale env a o k) op
  | .prefetch i (.op op) => ∀ copy ∈ sys.copies[i]?,
    (sys.attach copy).ReadsOnly env (fun s a o k => ¬ s.PutsStale env a o k) op
  | _ => True

def AllClean (env : Env) : Prefetching → List Event → Prop
  | _, [] => True
  | sys, e :: es => sys.Clean env e ∧ ∀ t ∈ sys.step env e, AllClean env t es

end Prefetching

/-! The conditions can be evaluated. -/

namespace StateDB

instance renewedDecidable (env : Env) (s : StateDB) (addr : Address) (obj : StateObject)
    (key : Hash) : Decidable (s.Renewed env addr obj key) :=
  inferInstanceAs (Decidable (_ ∧ _ ∧ _ ≠ _))

instance takesStaleDecidable (env : Env) (s : StateDB) (addr : Address) (obj : StateObject)
    (key : Hash) : Decidable (s.TakesStale env addr obj key) :=
  inferInstanceAs (Decidable (_ ∧ _))

instance putsStaleDecidable (env : Env) (s : StateDB) (addr : Address) (obj : StateObject)
    (key : Hash) : Decidable (s.PutsStale env addr obj key) :=
  inferInstanceAs (Decidable (_ ∧ _ ∧ _ ∧ ¬ _))

instance readsOnlyDecidable (env : Env) (P : StateDB → Address → StateObject → Hash → Prop)
    [hP : ∀ s a o k, Decidable (P s a o k)] (s : StateDB) :
    (op : Op) → Decidable (s.ReadsOnly env P op)
  | .getState addr _ =>
    inferInstanceAs (Decidable (∀ obj ∈ (s.getStateObject env addr).1, _ → _))
  | .getCommittedState addr _ =>
    inferInstanceAs (Decidable (∀ obj ∈ (s.getStateObject env addr).1, _))
  | .setState .. => inferInstanceAs (Decidable (_ → _))
  | .addBalance .. | .subBalance .. | .setBalance .. | .setNonce .. | .setCode ..
  | .createAccount _ | .suicide _ | .addRefund _ | .subRefund _ | .addLog _ | .addPreimage ..
  | .addAddressToAccessList _ | .addSlotToAccessList .. | .load _ | .getCode _ | .snapshot
  | .revertToSnapshot _ => .isTrue trivial

end StateDB

namespace Prefetching

open StateDB

instance cleanDecidable (env : Env) (sys : Prefetching) : (e : Event) → Decidable (sys.Clean env e)
  | .main (.op op) =>
    inferInstanceAs (Decidable (ReadsOnly env (fun s a o k => ¬ s.TakesStale env a o k) sys.main op))
  | .prefetch i (.op op) =>
    inferInstanceAs (Decidable (∀ copy ∈ sys.copies[i]?,
      ReadsOnly env (fun s a o k => ¬ s.PutsStale env a o k) (sys.attach copy) op))
  | .main (.finalise _) | .main (.intermediateRoot _) | .main (.prepare ..) | .spawn
  | .prefetch _ (.finalise _) | .prefetch _ (.intermediateRoot _) | .prefetch _ (.prepare ..) =>
    .isTrue trivial

instance allCleanDecidable (env : Env) :
    (sys : Prefetching) → (events : List Event) → Decidable (sys.AllClean env events)
  | _, [] => .isTrue trivial
  | sys, e :: es =>
    let _ (t : Prefetching) : Decidable (t.AllClean env es) := allCleanDecidable env t es
    inferInstanceAs (Decidable (sys.Clean env e ∧ ∀ t ∈ sys.step env e, AllClean env t es))

end Prefetching

/-! ### What is in the pool -/

namespace StateDB

section
variable {env : Env} {s t p : StateDB} {addr : Address} {obj : StateObject} {key : Hash}

/-- The pool holds slots of the parent block. -/
def PoolOf (env : Env) (s : StateDB) : Prop :=
  ∀ a k value, s.shared a k = some value → value = parentSlot env a k

/-- The pool is not touched. -/
structure SamePool (s t : StateDB) : Prop where
  pool : t.storagePool = s.storagePool
  writes : t.writeOnSharedStorage = s.writeOnSharedStorage

theorem SamePool.trans {u : StateDB} (hst : SamePool s t) (htu : SamePool t u) : SamePool s u :=
  ⟨htu.pool.trans hst.pool, htu.writes.trans hst.writes⟩

theorem SamePool.shared (h : SamePool s t) : t.shared = s.shared := by
  unfold StateDB.shared
  rw [h.pool]

theorem PoolOf.same (h : PoolOf env s) (hsame : SamePool s t) : PoolOf env t := by
  unfold PoolOf at h ⊢
  rwa [hsame.shared]

/-- Where the pool is right, a slot that is not stale is the one below. -/
theorem PoolOf.fresh (h : PoolOf env s) (hclean : ¬ s.TakesStale env addr obj key) :
    s.Fresh env addr obj key := by
  intro hpending horigin value hvalue
  by_contra hne
  refine hclean ⟨⟨hpending, horigin, ?_⟩, by rw [hvalue]; rfl⟩
  rw [← h addr key value hvalue]
  exact fun heq => hne heq.symm

section
variable (env : Env) (s : StateDB) (addr : Address)

theorem SamePool.createObject : SamePool s (s.createObject env addr).2.2 := by
  unfold StateDB.createObject
  rw [getDeletedStateObject_eq]
  cases s.find env addr with
  | none => exact ⟨rfl, rfl⟩
  | some prev =>
    dsimp only
    rw [marked_eq]
    exact ⟨rfl, rfl⟩

theorem SamePool.getStateObject : SamePool s (s.getStateObject env addr).2 := by
  rw [getStateObject_eq]
  exact ⟨rfl, rfl⟩

theorem SamePool.getOrNewStateObject : SamePool s (s.getOrNewStateObject env addr).2 := by
  unfold StateDB.getOrNewStateObject
  rw [getStateObject_eq]
  cases (s.find env addr).filter fun obj => !obj.deleted with
  | none =>
    have hsame := SamePool.createObject env (s.load env addr) addr
    exact { hsame with }
  | some obj => exact ⟨rfl, rfl⟩

theorem SamePool.createAccount : SamePool s (s.createAccount env addr) := by
  have hsame := SamePool.createObject env s addr
  unfold StateDB.createAccount
  split
  · next heq => rwa [heq] at hsame
  · next heq =>
    rw [heq] at hsame
    exact { hsame with }

end

theorem SamePool.modify {f : StateObject → StateObject} (h : s.modify env addr f = some t) :
    SamePool s t := by
  rw [modify_eq] at h
  obtain ⟨obj, -, rfl⟩ := map_eq_some_iff.mp h
  exact ⟨rfl, rfl⟩

variable {e : JournalEntry} {op : Op} {c : Call}

theorem SamePool.revert (h : e.revert env s = some t) : SamePool s t := by
  cases e with
  | resetObject account prev prevdestruct =>
    rw [revert_resetObject] at h
    cases h
    exact ⟨rfl, rfl⟩
  | suicide account prev prevbalance =>
    rw [revert_suicide] at h
    obtain h | ⟨-, h⟩ := or_eq_some_iff.mp h
    · exact SamePool.modify h
    · cases h
      exact ⟨rfl, rfl⟩
  | balance account prev | nonce account prev | storage account key prevalue | code account prevcode prevhash => exact SamePool.modify h
  | addLog txhash =>
    simp only [JournalEntry.revert] at h
    split at h
    · cases h
    · cases h
      exact ⟨rfl, rfl⟩
  | accessListAddSlot address slot =>
    simp only [JournalEntry.revert] at h
    split at h
    · cases h
      exact ⟨rfl, rfl⟩
    · obtain ⟨al, -, rfl⟩ := map_eq_some_iff.mp h
      exact ⟨rfl, rfl⟩
  | _ =>
    cases h
    exact ⟨rfl, rfl⟩

theorem SamePool.undo (h : s.undo env e = some t) : SamePool s t := by
  obtain ⟨t', ht', rfl⟩ := map_eq_some_iff.mp h
  have hsame := SamePool.revert ht'
  cases e.dirtied with
  | none => exact hsame
  | some addr => exact { hsame with }

theorem SamePool.undoAll {es : List JournalEntry} (h : undoAll env es s = some t) :
    SamePool s t := by
  induction es generalizing s with
  | nil =>
    cases h
    exact ⟨rfl, rfl⟩
  | cons e es ih =>
    obtain ⟨u, hu, ht⟩ := bind_eq_some_iff.mp h
    exact (SamePool.undo hu).trans (ih ht)

theorem SamePool.revertToSnapshot {revid : ℕ} (h : s.revertToSnapshot env revid = some t) :
    SamePool s t := by
  rw [revertToSnapshot_eq] at h
  obtain ⟨⟨revision, revisions⟩, -, h⟩ := bind_eq_some_iff.mp h
  obtain ⟨u, hu, rfl⟩ := map_eq_some_iff.mp h
  rw [revertJournal_eq] at hu
  split at hu
  · have hsame := SamePool.undoAll hu
    exact { hsame with }
  · cases hu

/-- What is allowed depends on the pool, which is the same for every slot that
the operation may read. -/
theorem ReadsOnly.mono {P Q : StateDB → Address → StateObject → Hash → Prop}
    (h : s.ReadsOnly env P op) (hPQ : ∀ t a o k, SamePool s t → P t a o k → Q t a o k) :
    s.ReadsOnly env Q op := by
  cases op with
  | getState addr key =>
    intro obj hobj hdirty
    exact hPQ _ _ _ _ (SamePool.getStateObject env s addr) (h obj hobj hdirty)
  | getCommittedState addr key =>
    intro obj hobj
    exact hPQ _ _ _ _ (SamePool.getStateObject env s addr) (h obj hobj)
  | setState addr key value =>
    intro hdirty
    exact hPQ _ _ _ _ (SamePool.getOrNewStateObject env s addr) (h hdirty)
  | _ => trivial

/-- The slot was put into the pool. -/
theorem shared_setOriginStorage_self {value found : Hash}
    (h : (s.setOriginStorage addr obj key value).shared addr key = some found)
    (hnone : s.shared addr key = none) : s.writeOnSharedStorage ∧ found = value := by
  unfold shared setOriginStorage at h
  split at h
  · next hwrites =>
    cases hpool : s.storagePool with
    | none =>
      rw [hpool] at h
      cases h
    | some pool =>
      rw [hpool] at h
      simp only [map_some, bind_some, Function.update_self, some.injEq] at h
      exact ⟨hwrites, h.symm⟩
  · rw [shared] at hnone
    rw [hnone] at h
    cases h

/-- A slot that is put into the pool is one of the parent block. -/
theorem PoolOf.objectCommittedState (h : PoolOf env s) (hclean : ¬ s.PutsStale env addr obj key) :
    PoolOf env (s.objectCommittedState env addr obj key).2 := by
  cases hfake : obj.fakeStorage with
  | some fake =>
    unfold StateDB.objectCommittedState
    rw [hfake]
    exact h
  | none =>
    have hvalue := objectCommittedState_fst env s addr obj key
    obtain heq | ⟨-, value, -, heq⟩ | ⟨hpending, ⟨horigin, hshared⟩, hmark, trie, -, heq⟩ :=
      objectCommittedState_cases env s addr key hfake
    · rwa [heq]
    · rw [heq]
      exact h.same ⟨rfl, rfl⟩
    · rw [heq]
      intro a k value hfound
      by_cases hslot : a ≠ addr ∨ k ≠ key
      · rw [shared_setOriginStorage hslot] at hfound
        exact h a k value hfound
      obtain ⟨rfl, rfl⟩ : a = addr ∧ k = key := by simpa [not_or] using hslot
      have hbelow : cleanSlot env a (s.snapDestructs a) obj k =
          (s.objectCommittedState env a obj k).1 := by
        rw [hvalue]
        unfold committedValue cleanSlot
        rw [hfake, hpending, horigin, hshared]
        rfl
      have hput := shared_setOriginStorage_self hfound hshared
      rw [hput.2, ← hbelow]
      by_contra hne
      exact hclean ⟨⟨hpending, horigin, hne⟩, hput.1, hshared, hmark⟩

theorem PoolOf.objectState (h : PoolOf env s)
    (hclean : obj.dirtyStorage key = none → ¬ s.PutsStale env addr obj key) :
    PoolOf env (s.objectState env addr obj key).2 := by
  unfold StateDB.objectState
  split
  · exact h
  · split
    · exact h
    · next hdirty => exact h.objectCommittedState (hclean hdirty)

/-- The state after an operation on the object of an account, if there is one. -/
theorem onObject_state {motive : StateDB → Prop} {β : Type} {nothing : β}
    {f : StateObject → StateDB → β × StateDB} (hload : motive (s.getStateObject env addr).2)
    (hf : ∀ obj ∈ (s.getStateObject env addr).1, motive (f obj (s.getStateObject env addr).2).2) :
    motive (match s.getStateObject env addr with
      | (none, t) => (nothing, t)
      | (some obj, t) => f obj t).2 := by
  generalize s.getStateObject env addr = found at hload hf ⊢
  obtain ⟨obj, t⟩ := found
  cases obj with
  | none => exact hload
  | some obj => exact hf obj rfl

/-- Operations that read no slot do not come near the pool. -/
theorem SamePool.exec (ht : s.exec env op = some t)
    (hgetState : ∀ addr key, op ≠ .getState addr key)
    (hgetCommittedState : ∀ addr key, op ≠ .getCommittedState addr key)
    (hsetState : ∀ addr key value, op ≠ .setState addr key value) : SamePool s t := by
  have hobject (addr : Address) := SamePool.getOrNewStateObject env s addr
  cases op with
  | addBalance addr amount =>
    cases ht
    unfold addBalance
    dsimp only
    split
    · split
      · unfold touch
        split <;> exact ⟨(hobject addr).pool, (hobject addr).writes⟩
      · exact hobject addr
    · exact ⟨(hobject addr).pool, (hobject addr).writes⟩
  | subBalance addr amount =>
    cases ht
    unfold subBalance
    dsimp only
    split
    · exact hobject addr
    · exact ⟨(hobject addr).pool, (hobject addr).writes⟩
  | setBalance addr amount | setNonce addr nonce | setCode addr code =>
    cases ht
    exact ⟨(hobject addr).pool, (hobject addr).writes⟩
  | createAccount addr =>
    cases ht
    exact SamePool.createAccount env s addr
  | suicide addr | getCode addr =>
    have hload := SamePool.getStateObject env s addr
    cases ht
    exact onObject_state hload fun _ _ => hload.trans ⟨rfl, rfl⟩
  | load addr =>
    cases ht
    exact SamePool.getStateObject env s addr
  | subRefund gas =>
    simp only [exec, subRefund] at ht
    split at ht
    · cases ht
    · cases ht
      exact ⟨rfl, rfl⟩
  | addPreimage hash preimage =>
    cases ht
    unfold addPreimage
    split <;> exact ⟨rfl, rfl⟩
  | addAddressToAccessList addr =>
    cases ht
    unfold addAddressToAccessList
    dsimp only
    split <;> exact ⟨rfl, rfl⟩
  | addSlotToAccessList addr slot =>
    simp only [exec, addSlotToAccessList] at ht
    split at ht
    · cases ht
    · cases ht
      split <;> split <;> exact ⟨rfl, rfl⟩
  | addRefund gas | addLog log | snapshot =>
    cases ht
    exact ⟨rfl, rfl⟩
  | revertToSnapshot revid => exact SamePool.revertToSnapshot ht
  | getState addr key => exact absurd rfl (hgetState addr key)
  | getCommittedState addr key => exact absurd rfl (hgetCommittedState addr key)
  | setState addr key value => exact absurd rfl (hsetState addr key value)

theorem PoolOf.exec (h : PoolOf env s)
    (hclean : s.ReadsOnly env (fun s a o k => ¬ s.PutsStale env a o k) op)
    (ht : s.exec env op = some t) : PoolOf env t := by
  cases op with
  | getState addr key =>
    have hpool := h.same (SamePool.getStateObject env s addr)
    cases ht
    exact onObject_state hpool fun obj hobj => hpool.objectState (hclean obj hobj)
  | getCommittedState addr key =>
    have hpool := h.same (SamePool.getStateObject env s addr)
    cases ht
    exact onObject_state hpool fun obj hobj => hpool.objectCommittedState (hclean obj hobj)
  | setState addr key value =>
    have hpool := h.same (SamePool.getOrNewStateObject env s addr)
    have hread := hpool.objectState hclean
    cases ht
    unfold setState
    dsimp only
    split
    · exact hpool.same ⟨rfl, rfl⟩
    · split
      · exact hread
      · exact hread.same ⟨rfl, rfl⟩
  | _ => exact h.same (SamePool.exec ht (by simp) (by simp) (by simp))

theorem PoolOf.call (h : PoolOf env s)
    (hclean : ∀ op, c = .op op → s.ReadsOnly env (fun s a o k => ¬ s.PutsStale env a o k) op)
    (ht : s.call env c = some t) : PoolOf env t := by
  have hfinalise (deleteEmptyObjects : Bool) : SamePool s (s.finalise env deleteEmptyObjects) := by
    unfold finalise
    rw [clearJournalAndRefund_eq]
    exact ⟨rfl, rfl⟩
  cases c with
  | op op => exact h.exec (hclean op rfl) ht
  | finalise deleteEmptyObjects =>
    cases ht
    exact h.same (hfinalise deleteEmptyObjects)
  | intermediateRoot deleteEmptyObjects =>
    cases ht
    exact h.same ⟨(hfinalise deleteEmptyObjects).pool, (hfinalise deleteEmptyObjects).writes⟩
  | prepare thash bhash ti =>
    cases ht
    exact h.same ⟨rfl, rfl⟩

/-! ### The block with and without the pool -/

theorem Sim.call (h : Sim env s p) (hfresh : ∀ op, c = .op op → s.ReadsOnly env (Fresh env) op) :
    s.answer env c = p.answer env c ∧ Option.Rel (Sim env) (s.call env c) (p.call env c) := by
  cases c with
  | op op =>
    refine ⟨?_, h.exec (hfresh op rfl)⟩
    cases op with
    | getState addr key => exact congrArg ([·]) (h.getState (hfresh _ rfl)).1
    | getCommittedState addr key => exact congrArg ([·]) (h.getCommittedState (hfresh _ rfl)).1
    | _ => rfl
  | finalise deleteEmptyObjects => exact ⟨rfl, Option.Rel.some (h.finalise deleteEmptyObjects)⟩
  | intermediateRoot deleteEmptyObjects =>
    exact ⟨rfl, Option.Rel.some (h.intermediateRoot deleteEmptyObjects)⟩
  | prepare thash bhash ti => exact ⟨rfl, Option.Rel.some (h.prepare thash bhash ti)⟩

/-- The block itself puts nothing into the pool. -/
theorem Sim.putsNothing (h : Sim env s p) (op : Op) :
    s.ReadsOnly env (fun s a o k => ¬ s.PutsStale env a o k) op := by
  have hall : s.ReadsOnly env (fun _ _ _ _ => True) op := by
    cases op <;> simp [ReadsOnly]
  refine hall.mono fun t a o k hsame _ hputs => ?_
  obtain ⟨po, pj, rfl, halike⟩ := h
  rw [PutsStale, hsame.writes, halike.readOnly] at hputs
  exact absurd hputs.2.1 Bool.false_ne_true

theorem Sim.new (env : Env) : Sim env newWithSharedPool {} := by
  refine ⟨fun _ => none, [], rfl, fun _ => Option.Rel.none, List.Forall₂.nil, trivial, rfl⟩

end

end StateDB

namespace Prefetching

open StateDB

variable {sys : Prefetching}

/-- The prefetchers change nothing but the pool. -/
theorem step_prefetchers {env : Env} {e : Event} (he : ∀ c, e ≠ .main c)
    (hpool : PoolOf env sys.main) (hclean : sys.Clean env e) :
    ∃ t pool, sys.step env e = some t ∧ t.main = { sys.main with storagePool := pool } ∧
      PoolOf env t.main := by
  cases e with
  | main c => exact absurd rfl (he c)
  | spawn => exact ⟨_, sys.main.storagePool, rfl, rfl, hpool⟩
  | prefetch i c =>
    simp only [step]
    cases hcall : sys.copies[i]?.bind fun copy => (sys.attach copy).call env c with
    | none => exact ⟨sys, sys.main.storagePool, rfl, rfl, hpool⟩
    | some copy' =>
      obtain ⟨copy, hcopy, hcall⟩ := bind_eq_some_iff.mp hcall
      have hattached : PoolOf env (sys.attach copy) := hpool
      have hclean' (op : Op) (hop : c = .op op) :
          (sys.attach copy).ReadsOnly env (fun s a o k => ¬ s.PutsStale env a o k) op := by
        subst hop
        exact hclean copy hcopy
      have hpool' : PoolOf env copy' := hattached.call hclean' hcall
      exact ⟨_, copy'.storagePool, rfl, rfl, hpool'⟩

theorem answers_eq {env : Env} {events : List Event} {p : StateDB}
    (hsim : Sim env sys.main p) (hpool : PoolOf env sys.main) (hclean : sys.AllClean env events) :
    sys.answers env events = p.answers env (mainCalls events) := by
  induction events generalizing sys p with
  | nil => rfl
  | cons e es ih =>
    obtain ⟨hnow, hlater⟩ := hclean
    cases e with
    | main c =>
      have hfresh (op : Op) (hop : c = .op op) : sys.main.ReadsOnly env (Fresh env) op := by
        subst hop
        have hnow : sys.main.ReadsOnly env (fun s a o k => ¬ s.TakesStale env a o k) op := hnow
        exact hnow.mono fun t a o k hsame hstale => (hpool.same hsame).fresh hstale
      have hmain : mainCalls (.main c :: es) = c :: mainCalls es := rfl
      obtain ⟨hanswer, hrel⟩ := hsim.call hfresh
      rw [hmain, answers, StateDB.answers, answer, hanswer]
      simp only [step] at hlater ⊢
      generalize hs : sys.main.call env c = found at hrel hlater ⊢
      generalize p.call env c = found' at hrel ⊢
      cases hrel with
      | none => rfl
      | some hsim' =>
        have hpool' := hpool.call (fun op _ => hsim.putsNothing op) hs
        have hrest := ih hsim' hpool' (hlater _ rfl)
        simp only [map_some, bind_some, hrest]
    | spawn | prefetch i c =>
      obtain ⟨t, pool, hstep, hmain, hpool'⟩ := step_prefetchers (fun _ h => Event.noConfusion h) hpool hnow
      have hsim' : Sim env t.main p := by
        rw [hmain]
        obtain ⟨po, pj, rfl, halike⟩ := hsim
        exact ⟨po, pj, rfl, { halike with }⟩
      have hrest := ih hsim' hpool' (hlater t hstep)
      rw [answers, hstep, bind_some, hrest]
      simp [answer, mainCalls]

/-- The pool is not seen where no stale slot comes into it or out of it. -/
theorem sharedPool_transparent (env : Env) (events : List Event)
    (hclean : AllClean env { main := newWithSharedPool } events) :
    answers env { main := newWithSharedPool } events = StateDB.answers env {} (mainCalls events) :=
  answers_eq (Sim.new env) nofun hclean

/-- One contract with a value in its first slot. -/
def oneSlot : Env where
  snap := some
    { account := fun a => some (if a = 7 then some ⟨1, 0, 1, 2⟩ else none)
      storage := fun a k => some (if a = 7 ∧ k = 1 then 5 else 0) }
  trieAccount _ := none
  storageTrie _ _ _ := 0
  contractCode _ _ := none
  keccak _ := 0

/-- A copy reads the slot ahead of the block, then the block destructs the
contract and makes it anew. -/
def rebuilt (slot : Hash) : List Event :=
  [.spawn, .prefetch 0 (.op (.getState 7 1)), .main (.op (.getState 7 1)),
    .main (.op (.setState 7 1 9)), .main (.finalise true), .main (.op (.getCommittedState 7 1)),
    .main (.op (.suicide 7)), .main (.finalise true), .main (.op (.createAccount 7)),
    .main (.op (.setNonce 7 1)), .main (.op (.getState 7 slot))]

theorem rebuilt_transparent :
    answers oneSlot { main := newWithSharedPool } (rebuilt 2) = some [5, 9, 0] := by
  rw [sharedPool_transparent oneSlot (rebuilt 2) (by decide +kernel)]
  decide +kernel

/-- The slot that the copy has read is still in the pool. -/
theorem rebuilt_resurrects :
    answers oneSlot { main := newWithSharedPool } (rebuilt 1) = some [5, 9, 5] ∧
      StateDB.answers oneSlot {} (mainCalls (rebuilt 1)) = some [5, 9, 0] := by
  constructor <;> decide +kernel

end Prefetching

end Dexit.Core
