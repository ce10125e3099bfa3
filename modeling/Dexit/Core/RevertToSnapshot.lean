import Dexit.Core.Revert

/-!
# Reverting to a snapshot restores the state

Between a snapshot and the revert to it any operations may run, with snapshots
and reverts of their own nested inside.
-/

namespace Dexit.Core

open Parlia (Hash)
open List Option

namespace StateDB

open UndoLog (Back)

/-- An operation between two `Finalise` calls. `load` stands for the getters
that only look at the account. -/
inductive Op
  | addBalance (addr : Address) (amount : ℤ)
  | subBalance (addr : Address) (amount : ℤ)
  | setBalance (addr : Address) (amount : ℤ)
  | setNonce (addr : Address) (nonce : UInt64)
  | setCode (addr : Address) (code : Code)
  | setState (addr : Address) (key value : Hash)
  | createAccount (addr : Address)
  | suicide (addr : Address)
  | addRefund (gas : UInt64)
  | subRefund (gas : UInt64)
  | addLog (log : Log)
  | addPreimage (hash : Hash) (preimage : List UInt8)
  | addAddressToAccessList (addr : Address)
  | addSlotToAccessList (addr : Address) (slot : Hash)
  | load (addr : Address)
  | getCode (addr : Address)
  | getState (addr : Address) (key : Hash)
  | getCommittedState (addr : Address) (key : Hash)
  | snapshot
  | revertToSnapshot (revid : ℕ)

/-- The state that an operation leaves; `none` is a panic. -/
def exec (env : Env) (s : StateDB) : Op → Option StateDB
  | .addBalance addr amount => some (s.addBalance env addr amount)
  | .subBalance addr amount => some (s.subBalance env addr amount)
  | .setBalance addr amount => some (s.setBalance env addr amount)
  | .setNonce addr nonce => some (s.setNonce env addr nonce)
  | .setCode addr code => some (s.setCode env addr code)
  | .setState addr key value => some (s.setState env addr key value)
  | .createAccount addr => some (s.createAccount env addr)
  | .suicide addr => some (s.suicide env addr).2
  | .addRefund gas => some (s.addRefund gas)
  | .subRefund gas => s.subRefund gas
  | .addLog log => some (s.addLog log)
  | .addPreimage hash preimage => some (s.addPreimage hash preimage)
  | .addAddressToAccessList addr => some (s.addAddressToAccessList addr)
  | .addSlotToAccessList addr slot => s.addSlotToAccessList addr slot
  | .load addr => some (s.getStateObject env addr).2
  | .getCode addr => some (s.getCode env addr).2
  | .getState addr key => some (s.getState env addr key).2
  | .getCommittedState addr key => some (s.getCommittedState env addr key).2
  | .snapshot => some s.snapshot.2
  | .revertToSnapshot revid => s.revertToSnapshot env revid

def run (env : Env) (s : StateDB) (ops : List Op) : Option StateDB := ops.foldlM (exec env) s

section
variable {env : Env} {s t u : StateDB}

variable {β : Type} {addr : Address} {op : Op} {revid : ℕ} {before : List Revision} {r : Revision}

/-- An operation on the object of an account, if there is one. -/
theorem Step.onObject {nothing : β} {f : StateObject → StateDB → β × StateDB}
    (hf : ∀ obj t, t.stateObjects addr = some obj → obj.deleted = false → Step env t (f obj t).2) :
    Step env s (match s.getStateObject env addr with
      | (none, t) => (nothing, t)
      | (some obj, t) => f obj t).2 := by
  rw [getStateObject_eq]
  cases hfilter : (s.find env addr).filter fun obj => !obj.deleted with
  | none => exact Step.load env s addr
  | some obj =>
    obtain ⟨hfind, hlive⟩ := filter_eq_some_iff.mp hfilter
    refine (Step.load env s addr).trans (hf obj _ ?_ (by simpa using hlive))
    exact (Function.update_self addr _ _).trans hfind

/-- What `SetState` does to an object that has no debug storage. -/
theorem Step.objectSetState {obj : StateObject} {key : Hash} (value : Hash)
    (hlive : s.stateObjects addr = some obj) (hdeleted : obj.deleted = false) (hgood : Good env s) :
    let read := s.objectState env addr obj key
    let live := read.2.liveObject addr obj
    Step env read.2 ((read.2.append (.storage addr key read.1)).setStateObject addr
      { live with dirtyStorage := Function.update live.dirtyStorage key (some value) }) := by
  have hagree : Agree env s (s.objectState env addr obj key).2 := Agree.objectState hgood hlive
  obtain ⟨obj', hlive', hdeleted'⟩ := objectState_live (hgood.plain_live hlive) hlive
  -- reading has not changed the value
  have hviews := hagree.views addr
  rw [view_live hlive, view_live hlive', some.injEq] at hviews
  have hvalue := objectState_fst.trans (congrFun (congrArg View.state hviews) key)
  dsimp only
  rw [liveObject, hlive', getD_some, hvalue]
  exact Step.setState hlive' (hdeleted'.trans hdeleted) value

theorem Step.exec_setState (env : Env) (s : StateDB) (addr : Address) (key value : Hash) :
    Step env s (s.setState env addr key value) := by
  obtain ⟨hstep, hlive, hdeleted⟩ := getOrNewStateObject_spec env s addr
  unfold StateDB.setState
  dsimp only at hstep hlive hdeleted ⊢
  intro hgood
  have hgood₁ := (hstep hgood).1
  rw [hgood₁.plain_live hlive]
  dsimp only
  refine hstep.trans ?_ hgood
  split
  · exact Step.objectState hlive
  · exact (Step.objectState hlive).trans (Step.objectSetState value hlive hdeleted hgood₁)

/-- Every operation but the two about snapshots is undone by its entries. -/
theorem Step.exec (h : s.exec env op = some t) (hsnapshot : op ≠ .snapshot)
    (hrevert : ∀ revid, op ≠ .revertToSnapshot revid) : Step env s t := by
  cases op with
  | addBalance addr amount =>
    obtain ⟨hstep, hlive, hdeleted⟩ := getOrNewStateObject_spec env s addr
    cases h
    unfold StateDB.addBalance
    dsimp only
    split
    · split
      · exact hstep.trans (Step.touch env _ addr)
      · exact hstep
    · exact hstep.trans (Step.objectSetBalance hlive hdeleted _)
  | subBalance addr amount =>
    obtain ⟨hstep, hlive, hdeleted⟩ := getOrNewStateObject_spec env s addr
    cases h
    unfold StateDB.subBalance
    dsimp only
    split
    · exact hstep
    · exact hstep.trans (Step.objectSetBalance hlive hdeleted _)
  | setBalance addr amount =>
    obtain ⟨hstep, hlive, hdeleted⟩ := getOrNewStateObject_spec env s addr
    cases h
    exact hstep.trans (Step.objectSetBalance hlive hdeleted amount)
  | setNonce addr nonce =>
    obtain ⟨hstep, hlive, hdeleted⟩ := getOrNewStateObject_spec env s addr
    cases h
    exact hstep.trans (Step.setNonce hlive hdeleted nonce)
  | setCode addr code =>
    obtain ⟨hstep, hlive, hdeleted⟩ := getOrNewStateObject_spec env s addr
    cases h
    exact hstep.trans (Step.setCode hlive hdeleted code _)
  | setState addr key value =>
    cases h
    exact Step.exec_setState env s addr key value
  | createAccount addr =>
    cases h
    exact Step.createAccount env s addr
  | suicide addr =>
    cases h
    exact Step.onObject fun _ _ hlive hdeleted => Step.suicide hlive hdeleted
  | addRefund gas =>
    cases h
    exact Step.refund env s _
  | subRefund gas =>
    simp only [StateDB.exec, StateDB.subRefund] at h
    split at h
    · cases h
    · cases h
      exact Step.refund env s _
  | addLog log =>
    cases h
    exact Step.addLog env s log
  | addPreimage hash preimage =>
    cases h
    exact Step.addPreimage env s hash preimage
  | addAddressToAccessList addr =>
    cases h
    exact Step.addAddressToAccessList env s addr
  | addSlotToAccessList addr slot => exact Step.addSlotToAccessList h
  | load addr =>
    cases h
    rw [getStateObject_eq]
    exact Step.load env s addr
  | getCode addr =>
    cases h
    exact Step.onObject fun _ _ hlive _ => Step.keepCode hlive
  | getState addr key =>
    cases h
    exact Step.onObject fun _ _ hlive _ => Step.objectState hlive
  | getCommittedState addr key =>
    cases h
    exact Step.onObject fun _ _ hlive _ => Step.objectCommittedState hlive
  | snapshot => exact absurd rfl hsnapshot
  | revertToSnapshot revid => exact absurd rfl (hrevert revid)

/-! ### Runs -/

/-- The snapshots taken since `base` point, in order, into the part of the
journal that was written since. -/
structure Nested (base t : StateDB) (more : List Revision) : Prop where
  revisions : t.revisions.validRevisions = base.revisions.validRevisions ++ more
  ordered : more.Pairwise fun r r' => r.journalIndex ≤ r'.journalIndex
  bounds : ∀ r ∈ more, base.journal.length ≤ r.journalIndex ∧ r.journalIndex ≤ t.journal.length

/-- A state of a run that began at `base`. -/
structure Inside (env : Env) (base t : StateDB) : Prop where
  back : ∃ es, t.journal = es ++ base.journal ∧ Back (journalLog env) base t es
  nested : ∃ more, Nested base t more

variable {base : StateDB}

theorem Inside.start (h : Good env base) : Inside env base base where
  back := ⟨[], rfl, Back.start h⟩
  nested := ⟨[], (append_nil _).symm, List.Pairwise.nil, by simp⟩

theorem Inside.step (h : Inside env base t) (hstep : Step env t u) : Inside env base u := by
  obtain ⟨es, hj, hback⟩ := h.back
  obtain ⟨-, hrev, new, hj', hstep⟩ := hstep hback.good
  obtain ⟨more, hmore⟩ := h.nested
  refine ⟨⟨new ++ es, by rw [hj', hj, append_assoc], hstep base es hback⟩, more, ?_⟩
  refine ⟨by rw [hrev, hmore.revisions], hmore.ordered, ?_⟩
  intro r hr
  have hb := hmore.bounds r hr
  rw [hj', length_append]
  omega

/-- Neither the journal nor the snapshots are something a getter shows. -/
theorem agree_bookkeeping (env : Env) (s : StateDB) (journal : List JournalEntry)
    (revisions : Revisions) : Agree env s { s with journal, revisions } :=
  Same.agree { Same.refl s with }

theorem Inside.snapshot (h : Inside env base t) : Inside env base t.snapshot.2 := by
  obtain ⟨es, hj, hback⟩ := h.back
  obtain ⟨more, hmore⟩ := h.nested
  refine ⟨⟨es, hj, hback.congr (agree_bookkeeping env t t.journal _)⟩,
    more ++ [⟨t.revisions.nextRevisionId, t.journal.length⟩], ?_⟩
  refine ⟨?_, ?_, ?_⟩
  · change t.revisions.validRevisions ++ _ = _
    rw [hmore.revisions, append_assoc]
  · refine pairwise_append.mpr ⟨hmore.ordered, pairwise_singleton _ _, ?_⟩
    intro r hr r' hr'
    rw [mem_singleton.mp hr']
    exact (hmore.bounds r hr).2
  · intro r hr
    obtain hr | hr := mem_append.mp hr
    · exact hmore.bounds r hr
    · rw [mem_singleton.mp hr]
      refine ⟨?_, le_rfl⟩
      rw [hj, length_append]
      exact Nat.le_add_left _ _

/-- Undoing the journal down to an index at or above the base. -/
theorem Inside.revertJournal (h : Inside env base t) {m : ℕ} (hlow : base.journal.length ≤ m)
    (hhigh : m ≤ t.journal.length) :
    ∃ u es, t.revertJournal env m = some u ∧ u.journal = es ++ base.journal ∧
      u.journal.length = m ∧ Back (journalLog env) base u es := by
  obtain ⟨es, hj, hback⟩ := h.back
  have hlen : t.journal.length = es.length + base.journal.length := by rw [hj, length_append]
  set n := t.journal.length - m with hn
  have hnes : n ≤ es.length := by omega
  have htake : t.journal.take n = es.take n := by rw [hj, take_append_of_le_length hnes]
  have hdrop : t.journal.drop n = es.drop n ++ base.journal := by
    rw [hj, drop_append_of_le_length hnes]
  rw [← take_append_drop n es] at hback
  obtain ⟨v, hv, hrest⟩ := hback.unwind_append
  refine ⟨{ v with journal := t.journal.drop n }, es.drop n, ?_, hdrop, ?_,
    hrest.congr (agree_bookkeeping env v _ v.revisions)⟩
  · rw [StateDB.revertJournal, if_pos hhigh, ← hn, htake, undoAll_eq_unwind, hv]
    rfl
  · rw [length_drop]
    omega

/-- A revert goes to one of the valid snapshots. -/
theorem revertToSnapshot_some (h : t.revertToSnapshot env revid = some u) :
    ∃ idx r, t.revisions.validRevisions[idx]? = some r ∧ r.id = revid ∧
      ∃ v, t.revertJournal env r.journalIndex = some v ∧
        ∃ revisions : Revisions, revisions.validRevisions = t.revisions.validRevisions.take idx ∧
          u = { v with revisions } := by
  unfold revertToSnapshot at h
  dsimp only at h
  split at h
  · cases h
  next r hidx =>
  split at h
  · cases h
  · next hid =>
    obtain ⟨v, hv, rfl⟩ := map_eq_some_iff.mp h
    exact ⟨_, r, hidx, not_not.mp hid, v, hv, _, rfl, rfl⟩

theorem Inside.revertToSnapshot (h : Inside env base t)
    (hrevid : base.revisions.nextRevisionId ≤ revid)
    (hu : t.revertToSnapshot env revid = some u) : Inside env base u := by
  obtain ⟨idx, r, hidx, hid, v, hv, revisions, htake, rfl⟩ := revertToSnapshot_some hu
  obtain ⟨more, hmore⟩ := h.nested
  -- the snapshot is not one of those before the base
  have hle : base.revisions.validRevisions.length ≤ idx := by
    by_contra hlt
    rw [hmore.revisions, getElem?_append_left (Nat.lt_of_not_le hlt)] at hidx
    have hbelow := base.revisions.below r (mem_of_getElem? hidx)
    omega
  rw [hmore.revisions, getElem?_append_right hle] at hidx
  rw [hmore.revisions, take_append, take_of_length_le hle] at htake
  set k := idx - base.revisions.validRevisions.length
  have hr := hmore.bounds r (mem_of_getElem? hidx)
  obtain ⟨v', es, hv', hj, hlen, hback⟩ := h.revertJournal hr.1 hr.2
  obtain rfl : v' = v := some.inj (hv'.symm.trans hv)
  refine ⟨⟨es, hj, hback.congr (agree_bookkeeping env v' v'.journal revisions)⟩, more.take k,
    htake, hmore.ordered.sublist (take_sublist k more), ?_⟩
  intro r' hr'
  refine ⟨(hmore.bounds r' (mem_of_mem_take hr')).1, ?_⟩
  -- an earlier snapshot points no further than the one reverted to
  obtain ⟨i, hi, rfl⟩ := mem_iff_getElem.mp hr'
  obtain ⟨hk, rfl⟩ := List.getElem?_eq_some_iff.mp hidx
  rw [length_take] at hi
  rw [hlen, getElem_take]
  exact pairwise_iff_getElem.mp hmore.ordered i k (by omega) hk (by omega)

/-- Every operation keeps a run inside, as long as it reverts to nothing that
was there before. -/
theorem Inside.exec (h : Inside env base t) (hu : t.exec env op = some u)
    (hop : ∀ revid, op = .revertToSnapshot revid → base.revisions.nextRevisionId ≤ revid) :
    Inside env base u := by
  by_cases hsnapshot : op = .snapshot
  · subst hsnapshot
    cases hu
    exact h.snapshot
  · by_cases hrevert : ∃ revid, op = .revertToSnapshot revid
    · obtain ⟨revid, rfl⟩ := hrevert
      exact h.revertToSnapshot (hop revid rfl) hu
    · exact h.step (Step.exec hu hsnapshot fun revid heq => hrevert ⟨revid, heq⟩)

theorem Inside.run {ops : List Op} (h : Inside env base t) (hu : t.run env ops = some u)
    (hops : ∀ revid, .revertToSnapshot revid ∈ ops → base.revisions.nextRevisionId ≤ revid) :
    Inside env base u := by
  induction ops generalizing t with
  | nil =>
    cases hu
    exact h
  | cons op ops ih =>
    obtain ⟨t₁, ht₁, hrest⟩ := bind_eq_some_iff.mp hu
    refine ih (h.exec ht₁ ?_) hrest fun revid hmem => hops revid (mem_cons_of_mem op hmem)
    rintro revid rfl
    exact hops revid mem_cons_self

/-- The search finds a snapshot that is still valid. -/
theorem search_revision {after : List Revision}
    (hsplit : t.revisions.validRevisions = before ++ r :: after) :
    Go.search t.revisions.validRevisions.length
      (fun i => (t.revisions.validRevisions[i]?).all fun r' => r'.id ≥ r.id) = before.length := by
  have hsorted := t.revisions.increasing
  rw [hsplit] at hsorted ⊢
  obtain ⟨-, htail, hcross⟩ := pairwise_append.mp hsorted
  refine Go.search_eq (by simp) ?_ ?_
  · intro i hi
    rw [getElem?_append_left hi, getElem?_eq_getElem hi]
    have hlt := hcross _ (getElem_mem hi) r mem_cons_self
    simpa using hlt
  · intro i hi _
    rw [getElem?_append_right hi]
    cases hget : (r :: after)[i - before.length]? with
    | none => rfl
    | some r' =>
      obtain rfl | hmem := mem_cons.mp (mem_of_getElem? hget)
      · simp
      · have hlt := (pairwise_cons.mp htail).1 r' hmem
        simpa using Nat.le_of_lt hlt

/-- A snapshot that the run began with can still be reverted to. -/
theorem Inside.revert_base (h : Inside env base t)
    (hbase : base.revisions.validRevisions = before ++ [r])
    (hr : r.journalIndex = base.journal.length) :
    ∃ u, t.revertToSnapshot env r.id = some u ∧ Agree env base u := by
  obtain ⟨more, hmore⟩ := h.nested
  obtain ⟨es, hj, -⟩ := h.back
  have hle : base.journal.length ≤ t.journal.length := by
    rw [hj, length_append]
    exact Nat.le_add_left _ _
  obtain ⟨v, es', hv, hj', hlen, hback⟩ := h.revertJournal le_rfl hle
  -- nothing of the run is left in the journal
  obtain rfl : es' = [] := by
    rw [hj', length_append] at hlen
    exact eq_nil_of_length_eq_zero (by omega)
  have hsplit : t.revisions.validRevisions = before ++ r :: more := by
    rw [hmore.revisions, hbase, append_assoc, singleton_append]
  have hget : t.revisions.validRevisions[before.length]? = some r := by
    rw [hsplit, getElem?_append_right le_rfl, Nat.sub_self]
    rfl
  have hsearch := search_revision hsplit
  have hagree : Agree env base v := hback.2
  unfold StateDB.revertToSnapshot
  dsimp only
  split
  · next hnone =>
    rw [hsearch, hget] at hnone
    cases hnone
  · next r' hsome =>
    rw [hsearch, hget] at hsome
    cases hsome
    rw [if_neg (not_not.mpr rfl), hr, hv]
    exact ⟨_, rfl, hagree.trans (agree_bookkeeping env v v.journal _)⟩

/-! ### What the getters show -/

/-- Everything that a getter shows is as it was, but for the count of changes
of one address. -/
structure Restored (env : Env) (s u : StateDB) : Prop where
  exist : ∀ a, (u.exist env a).1 = (s.exist env a).1
  balance : ∀ a, (u.getBalance env a).1 = (s.getBalance env a).1
  nonce : ∀ a, (u.getNonce env a).1 = (s.getNonce env a).1
  code : ∀ a, (u.getCode env a).1 = (s.getCode env a).1
  codeHash : ∀ a, (u.getCodeHash env a).1 = (s.getCodeHash env a).1
  state : ∀ a key, (u.getState env a key).1 = (s.getState env a key).1
  committed : ∀ a key, (u.getCommittedState env a key).1 = (s.getCommittedState env a key).1
  suicided : ∀ a, (u.hasSuicided env a).1 = (s.hasSuicided env a).1
  refund : u.refund = s.refund
  logs : u.logs = s.logs
  logSize : u.logSize = s.logSize
  preimages : u.preimages = s.preimages
  accessList : ∀ a slot, u.slotInAccessList a slot = s.slotInAccessList a slot
  snapDestructs : u.snapDestructs = s.snapDestructs
  dirties : ∀ a ≠ ripemd, u.dirties a = s.dirties a

/-- The view of an account that is not deleted. -/
def shown (env : Env) (s : StateDB) (addr : Address) : Option View :=
  (s.view env addr).filter fun v => !v.deleted

theorem shown_eq (env : Env) (s : StateDB) (addr : Address) : s.shown env addr =
    ((s.find env addr).filter fun obj => !obj.deleted).map
      (viewOf env addr (s.shared addr) (s.snapDestructs addr)) := by
  unfold shown view
  cases s.find env addr with
  | none => rfl
  | some obj => cases hdel : obj.deleted <;> simp [Option.filter, viewOf, hdel]

/-- A getter that reads one field of the object. -/
theorem getter_eq (f : StateObject → β) (g : View → β) {a : Address} (nothing : β)
    (hfg : ∀ obj, g (viewOf env a (s.shared a) (s.snapDestructs a) obj) = f obj) :
    (((s.getStateObject env a).1.map f).getD nothing) = ((s.shown env a).map g).getD nothing := by
  rw [getStateObject_eq, shown_eq, Option.map_map]
  congr 2
  funext obj
  exact (hfg obj).symm

section
variable (env : Env) (s : StateDB) (a : Address)

theorem getState_eq (key : Hash) :
    (s.getState env a key).1 = ((s.shown env a).map fun v => v.state key).getD 0 := by
  unfold getState
  rw [getStateObject_eq, shown_eq]
  cases (s.find env a).filter fun obj => !obj.deleted with
  | none => rfl
  | some obj => exact objectState_fst

theorem getCommittedState_eq (key : Hash) :
    (s.getCommittedState env a key).1 = ((s.shown env a).map fun v => v.committed key).getD 0 := by
  unfold getCommittedState
  rw [getStateObject_eq, shown_eq]
  cases (s.find env a).filter fun obj => !obj.deleted with
  | none => rfl
  | some obj => exact objectCommittedState_fst env _ a obj key

theorem getCode_eq : (s.getCode env a).1 = ((s.shown env a).map View.code).getD none := by
  unfold getCode
  rw [getStateObject_eq, shown_eq]
  cases (s.find env a).filter fun obj => !obj.deleted with
  | none => rfl
  | some obj => rfl

end

theorem slotInAccessList_eq (s : StateDB) (a : Address) (slot : Hash) :
    s.slotInAccessList a slot = (s.accessList.getD {}).contains a slot := by
  unfold slotInAccessList
  cases s.accessList <;> rfl

theorem Agree.restored (h : Agree env s u) : Restored env s u := by
  have hshown (a : Address) : u.shown env a = s.shown env a := by
    rw [shown, shown, h.views]
  have hgetter {β : Type} (f : StateObject → β) (g : View → β) (nothing : β) (a : Address)
      (hfg : ∀ pool d obj, g (viewOf env a pool d obj) = f obj) :
      (((u.getStateObject env a).1.map f).getD nothing) =
        (((s.getStateObject env a).1.map f).getD nothing) := by
    rw [getter_eq f g nothing (hfg _ _), getter_eq f g nothing (hfg _ _), hshown]
  constructor
  case exist =>
    intro a
    have hsome (o : Option StateObject) : o.isSome = (o.map fun _ => true).getD false := by
      cases o <;> rfl
    exact (hsome _).trans ((hgetter (fun _ => true) (fun _ => true) false a fun _ _ _ => rfl).trans
      (hsome _).symm)
  case balance => exact fun a => hgetter (·.data.balance) (·.data.balance) 0 a fun _ _ _ => rfl
  case nonce => exact fun a => hgetter (·.data.nonce) (·.data.nonce) 0 a fun _ _ _ => rfl
  case codeHash => exact fun a => hgetter (·.data.codeHash) (·.data.codeHash) 0 a fun _ _ _ => rfl
  case suicided => exact fun a => hgetter (·.suicided) (·.suicided) false a fun _ _ _ => rfl
  case code => exact fun a => by rw [getCode_eq, getCode_eq, hshown]
  case state => exact fun a key => by rw [getState_eq, getState_eq, hshown]
  case committed => exact fun a key => by rw [getCommittedState_eq, getCommittedState_eq, hshown]
  case accessList =>
    exact fun a slot => by rw [slotInAccessList_eq, slotInAccessList_eq, h.accessList]
  case dirties => exact fun a ha => (h.dirties a ha).symm
  case refund => exact h.refund.symm
  case logs => exact h.logs.symm
  case logSize => exact h.logSize.symm
  case preimages => exact h.preimages.symm
  case snapDestructs => exact h.destructs.symm

/-- An object that is only loaded has no debug storage. -/
theorem plain_of_live (h : ∀ a obj, s.stateObjects a = some obj → obj.fakeStorage = none)
    (a : Address) (v : View) (hv : s.view env a = some v) : v.fake = none := by
  obtain ⟨obj, hobj, rfl⟩ := map_eq_some_iff.mp hv
  obtain hlive | ⟨-, hread⟩ := or_eq_some_iff.mp hobj
  · exact h a obj hlive
  · obtain ⟨data, -, rfl⟩ := map_eq_some_iff.mp hread
    rfl

/-- Whatever runs between a snapshot and the revert to it, the revert succeeds
and gives back what the getters showed at the snapshot. -/
theorem revertToSnapshot_restores (env : Env) (s t : StateDB) (ops : List Op)
    (hfake : ∀ a obj, s.stateObjects a = some obj → obj.fakeStorage = none)
    (hpool : s.writeOnSharedStorage → s.storagePool.isSome → env.snap.isSome)
    (hnested : ∀ revid, .revertToSnapshot revid ∈ ops → s.snapshot.1 < revid)
    (hrun : s.snapshot.2.run env ops = some t) :
    ∃ u, t.revertToSnapshot env s.snapshot.1 = some u ∧ Restored env s u := by
  have hgood : Good env s.snapshot.2 := ⟨plain_of_live hfake, hpool⟩
  have hinside : Inside env s.snapshot.2 t := (Inside.start hgood).run hrun hnested
  have hlast : s.snapshot.2.revisions.validRevisions =
      s.revisions.validRevisions ++ [⟨s.snapshot.1, s.journal.length⟩] := rfl
  obtain ⟨u, hu, hagree⟩ := hinside.revert_base hlast rfl
  refine ⟨u, hu, Agree.restored ?_⟩
  exact (agree_bookkeeping env s s.journal _).trans hagree

end

/-- An account with code and a slot, below a snapshot layer. -/
def oneAccount : Env where
  snap := some {
    account := fun a => some (if a = 5 then some ⟨1, 100, 9, 8⟩ else none)
    storage := fun a key => some (if a = 5 ∧ key = 1 then 7 else 0) }
  trieAccount _ := none
  storageTrie _ _ _ := 0
  contractCode _ _ := some [0x60]
  keccak _ := 8

/-- The account is replaced and destroyed, with a revert nested inside. -/
def replaced : List Op :=
  [.getState 5 1, .addBalance ripemd 0, .createAccount 5, .snapshot, .setState 5 1 3,
    .addSlotToAccessList 5 1, .revertToSnapshot 1, .setCode 5 [1], .addSlotToAccessList 5 2,
    .suicide 5, .addBalance 6 10, .addRefund 4]

theorem replaced_restored : ∃ t u, StateDB.run oneAccount (snapshot {}).2 replaced = some t ∧
    t.revertToSnapshot oneAccount 0 = some u ∧ (u.getState oneAccount 5 1).1 = 7 ∧
    Restored oneAccount {} u := by
  have hsome : (StateDB.run oneAccount (snapshot {}).2 replaced).isSome := by decide +kernel
  obtain ⟨t, ht⟩ := isSome_iff_exists.mp hsome
  obtain ⟨u, hu, hrestored⟩ := revertToSnapshot_restores oneAccount {} t replaced nofun nofun
    (by simp [replaced, snapshot]) ht
  exact ⟨t, u, ht, hu, (hrestored.state 5 1).trans (by decide), hrestored⟩

/-- A call that overrides the storage of a contract: what a subcall writes there
stays when the subcall is reverted. -/
theorem overridden_kept :
    let s : StateDB := setStorage oneAccount {} 5 fun _ => none
    (s.getState oneAccount 5 1).1 = 0 ∧
      ((s.snapshot.2.run oneAccount [.setState 5 1 3]).bind fun t =>
        t.revertToSnapshot oneAccount s.snapshot.1).map
          (fun u => (u.getState oneAccount 5 1).1) = some 3 := by
  decide +kernel

end StateDB

end Dexit.Core
