import Dexit.Core.Pipe

/-!
# Pipelined import of a chain

A chain is imported twice: synchronously, where a block is done before the next
one starts, and in a pipeline, where the job of a block runs while the next
block is executed. The next block loads its objects from a layer whose roots
may be put right at any moment; it waits for the verdict before it leaves a
layer of its own.
-/

namespace Dexit.Core.Pipe

open Go List Function Snapshot
open Parlia (Hash)

/-- The root of an account, the empty one where there is no account. -/
def Tries.root (t : Tries) (a : Address) : Hash := ((t.accounts a).map (·.root)).getD emptyRoot

/-- The job of a block whose objects were loaded with the given roots. -/
def Job.ofLoaded (effects : Map Address Effect) (before : View) (loaded : Address → Hash) :
    Job where
  effects
  before
  roots a :=
    match effects.lookup a with
    | some (.update c) => if c.anew before a then emptyRoot else loaded a
    | _ => loaded a

/-- A state once its block is verified: the root that was computed, and the
answers of the snapshot. -/
structure Outcome where
  stateRoot : Hash
  layer : Tries

section
variable (h : Hasher)

/-! ### Synchronous import -/

def Block.job (b : Block) (t : Tries) : Job := .ofLoaded (b.exec t.view) t.view t.root

def Block.next (b : Block) (t : Tries) : Tries := (b.job t).tries h t

def Block.accepted (b : Block) (t : Tries) : Bool := (b.job t).verified h t b.root

def Tries.outcome (t : Tries) : Outcome := ⟨h.accountRoot t.accounts, t⟩

/-- The outcomes of a chain, from the state it starts in. -/
def synchronous : Tries → List Block → Option (List Outcome)
  | t, [] => some [t.outcome h]
  | t, b :: rest =>
    if b.accepted h t then (synchronous (b.next h t) rest).map (t.outcome h :: ·) else none

/-! ### Pipelined import -/

structure Obj where
  root : Hash
  rootCorrected : Bool := false

/-- A placeholder is replaced by a root that was found, and an empty root is
not found in the slim format. -/
def Obj.correct (o : Obj) (found : Option Hash) : Obj :=
  if o.root = dummyRoot ∧ o.rootCorrected = false then
    match found with
    | some root => ⟨root, true⟩
    | none => o
  else o

def Snapshot.load (s : Snapshot) (a : Address) : Obj :=
  ⟨((s.account a).map (·.full.root)).getD emptyRoot, false⟩

/-- What `finalise` does to the root of an object. -/
def Snapshot.finalise (s : Snapshot) (a : Address) (o : Obj) : Obj :=
  if s.top.corrected then o.correct ((s.account a).bind (·.root)) else o

/-- `CorrectAccountsRoot`, which looks at the accounts of one layer only. -/
def Snapshot.correctAccountsRoot (s : Snapshot) (a : Address) (o : Obj) : Obj :=
  o.correct ((s.top.accounts a).bind (·.root))

/-- A job in the background. It has a layer of its own unless the block has the
root of its parent. -/
structure Pending where
  job : Job
  expected : Hash
  layered : Bool

/-- The tries of the last verified state, the snapshot of the head, and the job
between the two. -/
structure Node where
  tries : Tries
  snap : Snapshot
  pending : Option Pending

namespace Node

/-- The snapshot after the job has put in the roots. -/
def corrected (n : Node) : Snapshot :=
  match n.pending with
  | some p => if p.layered then n.snap.correctAccounts (p.job.accountData h n.tries) else n.snap
  | none => n.snap

/-- The job runs to its end. -/
def settle (n : Node) : Option Node :=
  match n.pending with
  | some p =>
    if p.job.verified h n.tries p.expected then
      some ⟨p.job.tries h n.tries, n.corrected h, none⟩
    else none
  | none => some n

def outcome (n : Node) : Outcome := ⟨h.accountRoot n.tries.accounts, n.snap.flatten⟩

end Node

/-- What the execution of a block does with roots, and the one event in the
background that it can notice. -/
inductive Event
  | load (a : Address)
  | finalise (a : Address)
  | correct
  deriving DecidableEq

structure Work where
  snap : Snapshot
  objects : Address → Option Obj

namespace Work

def object (w : Work) (a : Address) : Obj := (w.objects a).getD (w.snap.load a)

def step (corrected : Snapshot) (w : Work) : Event → Work
  | .load a => { w with objects := update w.objects a (some (w.object a)) }
  | .finalise a =>
    { w with objects := update w.objects a ((w.objects a).map (w.snap.finalise a)) }
  | .correct => { w with snap := corrected }

end Work

namespace Node

def execute (n : Node) (events : List Event) : Work :=
  events.foldl (Work.step (n.corrected h)) ⟨n.snap, fun _ => none⟩

/-- The object of an account when its block has been validated: the parent is
verified, and what the journal still has is finalised. -/
def validated (n settled : Node) (effects : Map Address Effect) (events : List Event)
    (a : Address) : Obj :=
  let o := settled.snap.correctAccountsRoot a ((n.execute h events).object a)
  match effects.lookup a with
  | some (.update c) => if c.dirty then settled.snap.finalise a o else o
  | _ => o

/-- Executes, validates and commits a block. The job starts by finalising every
object once more. -/
def importBlock (n settled : Node) (b : Block) (events : List Event) : Node :=
  let effects := b.exec n.snap.view
  let objects := n.validated h settled effects events
  let layer := (Job.ofLoaded effects n.snap.view fun a => (objects a).root).populate
  let job := Job.ofLoaded effects n.snap.view fun a => (settled.snap.finalise a (objects a)).root
  let layered : Bool := b.root ≠ settled.snap.root
  { tries := settled.tries
    snap := if layered then ⟨b.root, settled.snap.flatten, layer⟩ else settled.snap
    pending := some ⟨job, b.root, layered⟩ }

end Node

/-- The outcomes of a chain, each block with the events of its execution. -/
def pipelined : Node → List (Block × List Event) → Option (List Outcome)
  | n, [] => (n.settle h).map fun settled => [settled.outcome h]
  | n, (b, events) :: rest => do
    let settled ← n.settle h
    let outcomes ← pipelined (n.importBlock h settled b events) rest
    return settled.outcome h :: outcomes

/-! ### The condition -/

/-- The account is loaded before the roots are put in. -/
def loadsEarly : List Event → Address → Bool
  | [], _ => true
  | .load b :: events, a => b = a || loadsEarly events a
  | .finalise _ :: events, a => loadsEarly events a
  | .correct :: _, _ => false

/-- The block leaves a placeholder for the empty root. -/
def Block.Empties (b : Block) (t : Tries) (a : Address) : Prop :=
  b.root ≠ h.accountRoot t.accounts ∧ (b.next h t).root a = emptyRoot ∧
    ∃ c, (b.exec t.view).lookup a = some (.update c) ∧ c.pending.keys ≠ []

/-- The block changes the account it loaded. -/
def Block.Keeps (b : Block) (t : Tries) (a : Address) : Prop :=
  ∃ c, (b.exec t.view).lookup a = some (.update c) ∧ c.anew t.view a = false

/-- No block changes an account that it loaded with a placeholder for the empty
root. -/
def Undisturbed : (Address → Prop) → Tries → List (Block × List Event) → Prop
  | _, _, [] => True
  | held, t, (b, events) :: rest =>
    (∀ a, held a → b.Keeps t a → loadsEarly events a = false) ∧
      Undisturbed (b.Empties h t) (b.next h t) rest

/-- Only the empty trie has the empty root. -/
def Tries.EmptyFree (t : Tries) : Prop :=
  ∀ a, h.storageRoot (t.storage a) = emptyRoot → t.storage a = fun _ => 0

/-- The hashes of a chain do not collide: a block with the root of its parent
leaves the state as it is, and no trie but the empty one has the empty root. -/
def CollisionFree : Tries → List Block → Prop
  | t, [] => t.EmptyFree h
  | t, b :: rest =>
    t.EmptyFree h ∧ (b.root = h.accountRoot t.accounts → b.next h t = t) ∧
      CollisionFree (b.next h t) rest

/-! ### Sound states -/

/-- The empty trie has the empty root, and none has the placeholder for its
root. -/
structure Hasher.Lawful : Prop where
  empty : h.storageRoot (fun _ => 0) = emptyRoot
  ne_dummyRoot : ∀ slots, h.storageRoot slots ≠ dummyRoot

/-- The accounts have the roots of their storage tries. -/
structure Tries.Sound (t : Tries) : Prop where
  root : ∀ a acc, t.accounts a = some acc → acc.root = h.storageRoot (t.storage a)
  absent : ∀ a, t.accounts a = none → t.storage a = fun _ => 0

end

section
variable {h : Hasher} {t : Tries}

theorem Tries.Sound.root_eq (hh : h.Lawful) (ht : t.Sound h) (a : Address) :
    t.root a = h.storageRoot (t.storage a) := by
  unfold Tries.root
  cases hacc : t.accounts a with
  | none => rw [ht.absent a hacc, hh.empty]; rfl
  | some acc => exact ht.root a acc hacc

namespace Job

/-- The objects of a job have the roots of the parent state. -/
def Rooted (job : Job) (t : Tries) : Prop :=
  job.before = t.view ∧ ∀ a c, job.effects.lookup a = some (.update c) →
    job.roots a = if c.anew t.view a then emptyRoot else t.root a

theorem rooted_ofLoaded {effects : Map Address Effect} {loaded : Address → Hash}
    (hloaded : ∀ a c, effects.lookup a = some (.update c) → c.anew t.view a = false →
      loaded a = t.root a) :
    (ofLoaded effects t.view loaded).Rooted t := by
  refine ⟨rfl, fun a c hc => ?_⟩
  change effects.lookup a = some (.update c) at hc
  simp only [ofLoaded, hc]
  cases hanew : c.anew t.view a with
  | true => rfl
  | false => exact hloaded a c hc hanew

section
variable {job : Job} (hh : h.Lawful) (ht : t.Sound h) (hfree : t.EmptyFree h) {a : Address}
  {c : Change}
include hh ht hfree

section
variable (hjob : job.Rooted t)
include hjob

section
variable (hc : job.effects.lookup a = some (.update c))
include hc

theorem Rooted.getTrie :
    job.getTrie h t a = (if c.anew t.view a then fun _ => 0 else t.storage a, false) := by
  unfold Job.getTrie
  rw [hjob.2 a c hc]
  cases c.anew t.view a with
  | true => simp
  | false =>
    rw [if_neg Bool.false_ne_true, ht.root_eq hh]
    by_cases hempty : h.storageRoot (t.storage a) = emptyRoot
    · rw [if_pos hempty, hfree a hempty]
      rfl
    · rw [if_neg hempty, if_pos rfl]
      rfl

theorem Rooted.slots : job.slots h t a c = fun key =>
      (c.pending.lookup key).getD (if c.anew t.view a then 0 else t.storage a key) := by
  funext key
  unfold Job.slots updateTrie
  rw [hjob.getTrie hh ht hfree hc, hjob.1]
  cases c.pending.lookup key with
  | none => cases c.anew t.view a <;> rfl
  | some value => cases c.anew t.view a <;> exact ite_eq_right_iff.mpr fun heq => heq.symm

theorem Rooted.updateRoot : job.updateRoot h t a c = h.storageRoot (job.slots h t a c) := by
  unfold Job.updateRoot
  split
  · next hnil =>
    have hnone : c.pending = ∅ := Map.eq_empty_of_no_keys (by rw [hnil]; rfl)
    rw [hjob.2 a c hc, hjob.slots hh ht hfree hc, hnone]
    cases c.anew t.view a with
    | true => exact hh.empty.symm
    | false => exact ht.root_eq hh a
  · rfl

end

theorem Rooted.sound : (job.tries h t).Sound h where
  root a acc hacc := by
    unfold Job.tries at hacc ⊢
    rcases hl : job.effects.lookup a with _ | _ | c
    · simp only [hl] at hacc ⊢
      exact ht.root a acc hacc
    · simp [hl] at hacc
    · simp only [hl, Option.some.injEq] at hacc ⊢
      rw [← hacc]
      exact hjob.updateRoot hh ht hfree hl
  absent a hacc := by
    unfold Job.tries at hacc ⊢
    rcases hl : job.effects.lookup a with _ | _ | c
    · simp only [hl] at hacc ⊢
      exact ht.absent a hacc
    · simp only [hl]
    · simp [hl] at hacc

/-- No trie is missing. -/
theorem Rooted.failed : job.failed h t = false := by
  unfold Job.failed
  rw [any_eq_false]
  rintro ⟨a, _ | c⟩ hmem
  · exact Bool.false_ne_true
  · have hc : job.effects.lookup a = some (.update c) := AList.mem_lookup_iff.mpr hmem
    simp [hjob.getTrie hh ht hfree hc]

theorem Rooted.tries_eq {job' : Job}
    (hjob' : job'.Rooted t) (heffects : job.effects = job'.effects) :
    job.tries h t = job'.tries h t := by
  have hslots : ∀ a c, job'.effects.lookup a = some (.update c) →
      job.slots h t a c = job'.slots h t a c := by
    intro a c hc
    rw [hjob.slots hh ht hfree (heffects ▸ hc), hjob'.slots hh ht hfree hc]
  unfold Job.tries
  rw [heffects, Tries.mk.injEq]
  constructor
  · funext a
    rcases hl : job'.effects.lookup a with _ | _ | c
    · rfl
    · rfl
    · simp only
      rw [hjob.updateRoot hh ht hfree (heffects ▸ hl), hjob'.updateRoot hh ht hfree hl, hslots a c hl]
  · funext a
    rcases hl : job'.effects.lookup a with _ | _ | c
    · rfl
    · rfl
    · exact hslots a c hl

/-- The slots of the layer are those of the new storage tries. -/
theorem Rooted.slot_populate (root : Hash) :
    Snapshot.slot ⟨root, t, job.populate⟩ = (job.tries h t).storage := by
  funext a key
  unfold slot Job.populate Job.tries
  rcases hl : job.effects.lookup a with _ | _ | c
  · simp [hl]
  · simp [hl]
  · simp only [hl]
    rw [hjob.slots hh ht hfree hl]
    unfold Change.anew
    cases hacc : t.accounts a with
    | none => simp [Tries.view, hacc, ht.absent a hacc]
    | some acc => simp [Tries.view, hacc]

theorem Rooted.view_populate (root : Hash) :
    Snapshot.view ⟨root, t, job.populate⟩ = (job.tries h t).view := by
  unfold view Tries.view
  rw [hjob.slot_populate hh ht hfree, View.mk.injEq]
  refine ⟨?_, rfl⟩
  funext a
  unfold account Job.populate Job.tries
  rcases hl : job.effects.lookup a with _ | _ | c
  · cases hacc : t.accounts a <;> simp [hl, hacc]
  · simp [hl]
  · simp [hl]

end

end

/-- Before its roots are in the layer, an account has a placeholder if the block
wrote to its storage. -/
theorem load_populate (job : Job) (h : Hasher) (t : Tries) (root : Hash) (a : Address) :
    (Snapshot.load ⟨root, t, job.populate⟩ a).root = (job.tries h t).root a ∨
      (Snapshot.load ⟨root, t, job.populate⟩ a).root = dummyRoot ∧
        ∃ c, job.effects.lookup a = some (.update c) ∧ c.pending.keys ≠ [] := by
  unfold load account Tries.root Job.populate Job.tries
  rcases hl : job.effects.lookup a with _ | _ | c
  · cases hacc : t.accounts a <;> simp [hl, hacc]
  · simp [hl]
  · by_cases hnil : c.pending.keys = []
    · left
      simp [hl, hnil, Job.updateRoot]
    · right
      simp [hl, hnil, Info.withRoot]

end Job

theorem root_of_accepted {b : Block} (hok : b.accepted h t = true) :
    h.accountRoot (b.next h t).accounts = b.root := by
  simp only [Block.accepted, Job.verified, Bool.and_eq_true, decide_eq_true_eq] at hok
  exact hok.1

theorem Block.job_rooted (b : Block) : (b.job t).Rooted t := Job.rooted_ofLoaded fun _ _ _ _ => rfl

end

/-- The snapshot answers as the state. -/
structure Snapshot.Answers (s : Snapshot) (t : Tries) : Prop where
  account : ∀ a, s.account a = (t.accounts a).map slim
  slot : s.slot = t.storage

namespace Snapshot.Answers

variable {s : Snapshot} {t : Tries}

theorem view (hs : s.Answers t) : s.view = t.view := by
  unfold Snapshot.view Tries.view
  rw [hs.slot, View.mk.injEq]
  refine ⟨?_, rfl⟩
  funext a
  rw [hs.account]
  cases t.accounts a <;> rfl

theorem flatten (hs : s.Answers t) : s.flatten = t := by
  unfold Snapshot.flatten
  have haccounts : (fun a => (s.account a).map Slim.full) = t.accounts := by
    funext a
    rw [hs.account, map_full_slim]
  rw [haccounts, hs.slot]

theorem load (hs : s.Answers t) (a : Address) : (s.load a).root = t.root a := by
  unfold Snapshot.load Tries.root
  rw [hs.account]
  cases t.accounts a with
  | none => rfl
  | some acc => simp

end Snapshot.Answers

/-! ### Objects of the next block -/

/-- The object has the root of its account, or a placeholder that stands in the
top layer, where only a held account has the empty root. -/
def Obj.Fits (settled : Node) (held : Address → Prop) (a : Address) (o : Obj) : Prop :=
  o.root = settled.tries.root a ∨ o = ⟨dummyRoot, false⟩ ∧
      settled.snap.top.accounts a = (settled.tries.accounts a).map slim ∧
      (settled.tries.root a = emptyRoot → held a)

/-- What a node settles to, and what its snapshot shows until then. -/
structure Follows (h : Hasher) (n settled : Node) (held : Address → Prop) : Prop where
  settles : n.settle h = some settled
  corrected_eq : n.corrected h = settled.snap
  sound : settled.tries.Sound h
  root : settled.snap.root = h.accountRoot settled.tries.accounts
  answers : settled.snap.Answers settled.tries
  view : n.snap.view = settled.tries.view
  unnoticed : n.snap.top.corrected = false ∨ n.snap = settled.snap
  load : ∀ a, (n.snap.load a).Fits settled held a

section
variable {h : Hasher} {n settled : Node} {held : Address → Prop} {a : Address} {o : Obj} {b : Block}

namespace Follows

theorem correct_of_root (hh : h.Lawful) (hn : Follows h n settled held) (found : Option Hash)
    (ho : o.root = settled.tries.root a) : o.correct found = o := by
  have hne : o.root ≠ dummyRoot := by
    rw [ho, hn.sound.root_eq hh]
    exact hh.ne_dummyRoot _
  unfold Obj.correct
  rw [if_neg (fun hand => hne hand.1)]

theorem finalise_of_root (hh : h.Lawful) (hn : Follows h n settled held) (s : Snapshot)
    (ho : o.root = settled.tries.root a) : s.finalise a o = o := by
  unfold finalise
  split
  · exact hn.correct_of_root hh _ ho
  · rfl

/-- Looking for the root of an account replaces the placeholder, unless the
root is empty. -/
theorem correct_placeholder (t : Tries) (a : Address) :
    (Obj.correct ⟨dummyRoot, false⟩ (((t.accounts a).map slim).bind (·.root))) =
      if t.root a = emptyRoot then ⟨dummyRoot, false⟩ else ⟨t.root a, true⟩ := by
  unfold Obj.correct Tries.root
  rw [if_pos ⟨rfl, rfl⟩]
  cases t.accounts a with
  | none => rfl
  | some acc =>
    simp only [Option.map_some, Option.bind_some, Option.getD_some, slim]
    by_cases hempty : acc.root = emptyRoot
    · simp only [if_pos hempty]
    · simp only [if_neg hempty]

theorem fits_finalise (hh : h.Lawful) (hn : Follows h n settled held) {s : Snapshot}
    (hs : s = n.snap ∨ s = settled.snap) (ho : o.Fits settled held a) :
    (s.finalise a o).Fits settled held a := by
  rcases ho with hroot | ⟨rfl, htop⟩
  · rw [hn.finalise_of_root hh s hroot]
    exact .inl hroot
  have hsettled : (settled.snap.finalise a ⟨dummyRoot, false⟩).Fits settled held a := by
    unfold finalise
    split
    · rw [hn.answers.account, correct_placeholder]
      split
      · exact .inr ⟨rfl, htop⟩
      · exact .inl rfl
    · exact .inr ⟨rfl, htop⟩
  rcases hs with rfl | rfl
  · rcases hn.unnoticed with hfalse | heq
    · rw [finalise, hfalse]
      exact .inr ⟨rfl, htop⟩
    · rw [heq]
      exact hsettled
  · exact hsettled

end Follows

/-! ### The execution of the next block -/

/-- The snapshot is that of the parent, with its roots or without them. -/
structure Work.Fits (n settled : Node) (held : Address → Prop) (w : Work) : Prop where
  snap : w.snap = n.snap ∨ w.snap = settled.snap
  objects : ∀ a o, w.objects a = some o → o.Fits settled held a

namespace Follows

variable {w : Work}

theorem fits_object (hn : Follows h n settled held) (hw : w.Fits n settled held)
    (a : Address) : (w.object a).Fits settled held a := by
  unfold Work.object
  cases ho : w.objects a with
  | none =>
    rcases hw.snap with hs | hs <;> rw [hs]
    · exact hn.load a
    · exact .inl (hn.answers.load a)
  | some o => exact hw.objects a o ho

section
variable (hh : h.Lawful) (hn : Follows h n settled held)
include hh hn

theorem fits_step
    (hw : w.Fits n settled held) (e : Event) : (w.step settled.snap e).Fits n settled held := by
  cases e with
  | load b =>
    refine ⟨hw.snap, fun a o ho => ?_⟩
    simp only [Work.step, update_apply] at ho
    split at ho
    · next hab =>
      cases ho
      rw [hab]
      exact hn.fits_object hw b
    · exact hw.objects a o ho
  | finalise b =>
    refine ⟨hw.snap, fun a o ho => ?_⟩
    simp only [Work.step, update_apply] at ho
    split at ho
    · next hab =>
      obtain ⟨o', ho', rfl⟩ := Option.map_eq_some_iff.mp ho
      rw [hab]
      exact hn.fits_finalise hh hw.snap (hw.objects b o' ho')
    · exact hw.objects a o ho
  | correct => exact ⟨.inr rfl, hw.objects⟩

theorem fits_execute (events : List Event) : (n.execute h events).Fits n settled held := by
  have hrun : ∀ w : Work, w.Fits n settled held →
      (events.foldl (Work.step settled.snap) w).Fits n settled held := by
    induction events with
    | nil => exact fun w hw => hw
    | cons e events ih => exact fun w hw => ih _ (hn.fits_step hh hw e)
  unfold Node.execute
  rw [hn.corrected_eq]
  exact hrun _ ⟨.inl rfl, nofun⟩

/-- Once the roots are in the layer, an object that is not there yet or has its
root will have it. -/
theorem root_of_corrected (events : List Event) (hsnap : w.snap = settled.snap) (ho : (w.object a).root = settled.tries.root a) :
    ((events.foldl (Work.step settled.snap) w).object a).root = settled.tries.root a := by
  induction events generalizing w with
  | nil => exact ho
  | cons e events ih =>
    cases e with
    | load b =>
      refine ih hsnap ?_
      by_cases hab : a = b
      · subst hab
        simpa [Work.step, Work.object] using ho
      · simpa [Work.step, Work.object, hab] using ho
    | finalise b =>
      refine ih hsnap ?_
      by_cases hab : a = b
      · subst hab
        cases hobj : w.objects a with
        | none => simpa [Work.step, Work.object, hobj] using ho
        | some o =>
          have hroot : o.root = settled.tries.root a := by simpa [Work.object, hobj] using ho
          simpa [Work.step, Work.object, hobj, hn.finalise_of_root hh w.snap hroot] using hroot
      · simpa [Work.step, Work.object, hab] using ho
    | correct =>
      refine ih rfl ?_
      rw [← hsnap]
      exact ho

variable {events : List Event}

theorem root_of_late (hlate : loadsEarly events a = false) :
    ((n.execute h events).object a).root = settled.tries.root a := by
  have hrun : ∀ w : Work, w.objects a = none →
      ((events.foldl (Work.step settled.snap) w).object a).root = settled.tries.root a := by
    induction events with
    | nil => simp [loadsEarly] at hlate
    | cons e events ih =>
      intro w hw
      cases e with
      | load b =>
        simp only [loadsEarly, Bool.or_eq_false_iff, decide_eq_false_iff_not] at hlate
        refine ih hlate.2 _ ?_
        simp [Work.step, Ne.symm hlate.1, hw]
      | finalise b =>
        refine ih hlate _ ?_
        by_cases hab : a = b
        · subst hab
          simp [Work.step, hw]
        · simp [Work.step, hab, hw]
      | correct =>
        refine hn.root_of_corrected hh events rfl ?_
        simp only [Work.step, Work.object, hw, Option.getD_none]
        exact hn.answers.load a
  unfold Node.execute
  rw [hn.corrected_eq]
  exact hrun _ rfl

theorem root_validated (effects : Map Address Effect)
    (hlate : held a → loadsEarly events a = false) :
    (n.validated h settled effects events a).root = settled.tries.root a := by
  have hcorrected : (settled.snap.correctAccountsRoot a
      ((n.execute h events).object a)).root = settled.tries.root a := by
    have hfits := hn.fits_object (hn.fits_execute hh events) a
    unfold correctAccountsRoot
    rcases hfits with hroot | ⟨heq, htop, hheld⟩
    · rw [hn.correct_of_root hh _ hroot]
      exact hroot
    by_cases hempty : settled.tries.root a = emptyRoot
    · have hroot := hn.root_of_late hh (hlate (hheld hempty))
      rw [hn.correct_of_root hh _ hroot]
      exact hroot
    · rw [heq, htop, correct_placeholder, if_neg hempty]
  unfold Node.validated
  rcases effects.lookup a with _ | _ | c
  · exact hcorrected
  · exact hcorrected
  · change (if c.dirty then _ else _ : Obj).root = _
    split
    · rw [hn.finalise_of_root hh _ hcorrected]
      exact hcorrected
    · exact hcorrected

end

end Follows

/-! ### The chain -/

/-- A block that has a layer of its own. -/
theorem follows_layered (hh : h.Lawful) {t : Tries} (ht : t.Sound h) (hfree : t.EmptyFree h)
    (hroot : h.accountRoot (b.next h t).accounts = b.root) {job layer : Job}
    (hjob : job.Rooted t) (hlayer : layer.Rooted t) (heffects : job.effects = b.exec t.view)
    (heffects' : layer.effects = b.exec t.view) (hdiff : b.root ≠ h.accountRoot t.accounts) :
    ∃ settled, settled.tries = b.next h t ∧
      Follows h ⟨t, ⟨b.root, t, layer.populate⟩, some ⟨job, b.root, true⟩⟩ settled
        (b.Empties h t) := by
  have hnext : job.tries h t = b.next h t := hjob.tries_eq hh ht hfree b.job_rooted heffects
  have hnext' : layer.tries h t = b.next h t := hlayer.tries_eq hh ht hfree b.job_rooted heffects'
  have hsame : layer.effects = job.effects := heffects'.trans heffects.symm
  have hcorrected : correctAccounts ⟨b.root, t, layer.populate⟩ (job.accountData h t) =
      correctAccounts ⟨b.root, t, job.populate⟩ (job.accountData h t) := by
    unfold correctAccounts Job.populate
    rw [hsame]
  refine ⟨⟨b.next h t,
    correctAccounts ⟨b.root, t, job.populate⟩ (job.accountData h t), none⟩, rfl, ?_⟩
  refine
    { settles := ?_
      corrected_eq := hcorrected
      sound := hnext ▸ hjob.sound hh ht hfree
      root := hroot.symm
      answers := ⟨fun a => by rw [account_corrected h rfl, hnext], ?_⟩
      view := by rw [hlayer.view_populate hh ht hfree, hnext']
      unnoticed := .inl rfl
      load := fun a => ?_ }
  · have hverified : job.verified h t b.root = true := by
      simp [Job.verified, hnext, hroot, hjob.failed hh ht hfree]
    simp only [Node.settle, hverified, if_true, hnext]
    rw [← hcorrected]
    rfl
  · rw [← hnext, ← hjob.slot_populate hh ht hfree b.root]
    rfl
  · rcases layer.load_populate h t b.root a with hload | ⟨hload, c, hc, hne⟩
    · rw [hnext'] at hload
      exact .inl hload
    refine .inr ⟨?_, ?_, fun hempty => ⟨hdiff, hempty, c, heffects' ▸ hc, hne⟩⟩
    · rw [← hload]
      rfl
    · rw [hsame] at hc
      rw [← hnext]
      simp [correctAccounts, Job.accountData, Job.tries, hc]

theorem Follows.importBlock (hh : h.Lawful) (hn : Follows h n settled held)
    {events : List Event} (hok : b.accepted h settled.tries = true)
    (hfree : settled.tries.EmptyFree h)
    (hkept : b.root = h.accountRoot settled.tries.accounts → b.next h settled.tries = settled.tries)
    (hlate : ∀ a, held a → b.Keeps settled.tries a → loadsEarly events a = false) :
    ∃ settled', settled'.tries = b.next h settled.tries ∧
      Follows h (n.importBlock h settled b events) settled' (b.Empties h settled.tries) := by
  have hroot := root_of_accepted hok
  have hobject : ∀ a c, (b.exec settled.tries.view).lookup a = some (.update c) →
      c.anew settled.tries.view a = false →
      (n.validated h settled (b.exec settled.tries.view) events a).root = settled.tries.root a := by
    intro a c hc hanew
    exact hn.root_validated hh _ fun hheld => hlate a hheld ⟨c, hc, hanew⟩
  have hobject' : ∀ a c, (b.exec settled.tries.view).lookup a = some (.update c) →
      c.anew settled.tries.view a = false →
      (settled.snap.finalise a (n.validated h settled (b.exec settled.tries.view) events a)).root =
        settled.tries.root a := by
    intro a c hc hanew
    rw [hn.finalise_of_root hh _ (hobject a c hc hanew)]
    exact hobject a c hc hanew
  unfold Node.importBlock
  rw [hn.view, hn.answers.flatten, hn.root]
  by_cases hsame : b.root = h.accountRoot settled.tries.accounts
  · refine ⟨⟨settled.tries, settled.snap, none⟩, (hkept hsame).symm, ?_⟩
    have hjob := Job.rooted_ofLoaded hobject'
    have htries := (hjob.tries_eq hh hn.sound hfree b.job_rooted rfl).trans (hkept hsame)
    -- the block has the root of its parent and leaves the snapshot as it is
    exact
      { settles := by simp [Node.settle, htries, Node.corrected, Job.verified, hsame,
          hjob.failed hh hn.sound hfree]
        corrected_eq := by simp [Node.corrected, hsame]
        sound := hn.sound
        root := hn.root
        answers := hn.answers
        view := by simp [hsame, hn.answers.view]
        unnoticed := .inr (by simp [hsame])
        load := fun a => .inl (by simp [hsame, hn.answers.load a]) }
  · obtain ⟨settled', hnext, hfollows⟩ := follows_layered hh hn.sound hfree hroot
      (Job.rooted_ofLoaded hobject') (Job.rooted_ofLoaded hobject) rfl rfl hsame
    refine ⟨settled', hnext, ?_⟩
    simpa [hsame] using hfollows

theorem Follows.outcome (hn : Follows h n settled held) :
    settled.outcome h = settled.tries.outcome h := by
  unfold Node.outcome Tries.outcome
  rw [hn.answers.flatten]

variable {outcomes : List Outcome}

theorem Follows.pipelined_eq (hh : h.Lawful) (hn : Follows h n settled held)
    {chain : List (Block × List Event)}
    (haccepted : synchronous h settled.tries (chain.map (·.1)) = some outcomes)
    (hfree : CollisionFree h settled.tries (chain.map (·.1)))
    (hquiet : Undisturbed h held settled.tries chain) :
    pipelined h n chain = some outcomes := by
  induction chain generalizing n settled held outcomes with
  | nil =>
    cases haccepted
    simp [pipelined, hn.settles, hn.outcome]
  | cons step rest ih =>
    simp only [map_cons, synchronous] at haccepted
    split at haccepted
    · next hok =>
      obtain ⟨tail, htail, rfl⟩ := Option.map_eq_some_iff.mp haccepted
      obtain ⟨settled', hnext, hfollows⟩ := hn.importBlock hh hok hfree.1 hfree.2.1 hquiet.1
      rw [← hnext] at htail
      have hrest := ih hfollows htail (hnext ▸ hfree.2.2) (hnext ▸ hquiet.2)
      simp [pipelined, hn.settles, hrest, hn.outcome]
    · exact absurd haccepted (Option.some_ne_none _).symm

/-- The head is verified, and no job runs. -/
structure Node.Idle (h : Hasher) (n : Node) : Prop where
  pending : n.pending = none
  sound : n.tries.Sound h
  answers : n.snap.Answers n.tries
  root : n.snap.root = h.accountRoot n.tries.accounts

theorem Node.Idle.follows (hn : n.Idle h) : Follows h n n fun _ => False where
  settles := by rw [Node.settle, hn.pending]
  corrected_eq := by rw [Node.corrected, hn.pending]
  sound := hn.sound
  root := hn.root
  answers := hn.answers
  view := hn.answers.view
  unnoticed := .inr rfl
  load a := .inl (hn.answers.load a)

/-- The states of a chain that is accepted synchronously. -/
theorem sound_of_synchronous (hh : h.Lawful) {t : Tries} (ht : t.Sound h) {blocks : List Block}
    (haccepted : synchronous h t blocks = some outcomes)
    (hfree : CollisionFree h t blocks) :
    outcomes.map (·.stateRoot) = h.accountRoot t.accounts :: blocks.map (·.root) ∧
      ∀ o ∈ outcomes, o.layer.Sound h := by
  induction blocks generalizing t outcomes with
  | nil =>
    cases haccepted
    simpa [Tries.outcome] using ht
  | cons b rest ih =>
    simp only [synchronous] at haccepted
    split at haccepted
    · next hok =>
      obtain ⟨tail, htail, rfl⟩ := Option.map_eq_some_iff.mp haccepted
      have hnext : (b.next h t).Sound h := b.job_rooted.sound hh ht hfree.1
      obtain ⟨hroots, hsound⟩ := ih hnext htail hfree.2.2
      have hroot := root_of_accepted hok
      refine ⟨?_, ?_⟩
      · rw [map_cons, hroots, map_cons, hroot]
        rfl
      · exact forall_mem_cons.mpr ⟨ht, hsound⟩
    · exact absurd haccepted (Option.some_ne_none _).symm

/-- A chain that is accepted synchronously is accepted in the pipeline with the
same outcomes, if no block changes an account that it loaded with a placeholder
for the empty root. -/
theorem pipelined_transparent (hh : h.Lawful) (hn : n.Idle h) {chain : List (Block × List Event)}
    {outcomes : List Outcome}
    (haccepted : synchronous h n.tries (chain.map (·.1)) = some outcomes)
    (hfree : CollisionFree h n.tries (chain.map (·.1)))
    (hquiet : Undisturbed h (fun _ => False) n.tries chain) :
    pipelined h n chain = some outcomes ∧
      outcomes.map (·.stateRoot) = h.accountRoot n.tries.accounts :: chain.map (·.1.root) ∧
      ∀ o ∈ outcomes, ∀ a acc, o.layer.accounts a = some acc →
        acc.root = h.storageRoot (o.layer.storage a) ∧ acc.root ≠ dummyRoot := by
  obtain ⟨hroots, hsound⟩ := sound_of_synchronous hh hn.sound haccepted hfree
  refine ⟨hn.follows.pipelined_eq hh haccepted hfree hquiet, ?_, fun o ho a acc hacc => ?_⟩
  · rw [hroots, map_map]
    rfl
  · have hroot := (hsound o ho).root a acc hacc
    exact ⟨hroot, hroot ▸ hh.ne_dummyRoot _⟩

end

/-! ### An account whose storage is emptied -/

/-- Storage roots tell whether the first slot is empty, and the root of the
state tells the balance and the storage root of one account. -/
def oneSlot : Hasher where
  storageRoot slots := if slots 1 = 0 then emptyRoot else 1
  accountRoot accounts := ((accounts 7).map fun acc => acc.root + BitVec.ofInt 256 acc.balance).getD 0

/-- One account with one slot. -/
def filled : Tries where
  accounts a := if a = 7 then some ⟨0, 0, 1, emptyCodeHash⟩ else none
  storage a key := if a = 7 ∧ key = 1 then 5 else 0

def filledNode : Node where
  tries := filled
  snap := ⟨oneSlot.accountRoot filled.accounts, filled,
    ⟨fun _ => false, fun _ => none, fun _ => ∅, false⟩⟩
  pending := none

/-- Empties the slot. -/
def wipe : Block where
  root := emptyRoot
  exec _ := (∅ : Map Address Effect).insert 7
    (.update { info := ⟨0, 0, emptyCodeHash⟩, pending := (∅ : Map Hash Hash).insert 1 0 })

/-- Pays the account. -/
def pay : Block where
  root := emptyRoot + 3
  exec _ := (∅ : Map Address Effect).insert 7 (.update { info := ⟨0, 3, emptyCodeHash⟩ })

theorem oneSlot_lawful : oneSlot.Lawful where
  empty := rfl
  ne_dummyRoot slots := by
    change (if slots 1 = 0 then emptyRoot else 1) ≠ dummyRoot
    split <;> decide

theorem filled_sound : filled.Sound oneSlot where
  root a acc hacc := by
    simp only [filled, Option.ite_none_right_eq_some, Option.some.injEq] at hacc
    rw [← hacc.2, hacc.1]
    decide
  absent a hacc := by
    have ha : a ≠ 7 := by simpa [filled] using hacc
    simp [filled, ha]

theorem filledNode_idle : filledNode.Idle oneSlot where
  pending := rfl
  sound := filled_sound
  answers := ⟨fun _ => rfl, rfl⟩
  root := rfl

theorem emptyFree_filled : filled.EmptyFree oneSlot := by
  intro a hroot
  by_cases ha : a = 7
  · subst ha
    exact absurd hroot (by decide)
  · simp [filled, ha]

theorem wipe_storage : (wipe.next oneSlot filled).storage = fun _ _ => 0 := by
  rw [Block.next, ← wipe.job_rooted.slot_populate oneSlot_lawful filled_sound emptyFree_filled 0]
  funext a key
  by_cases ha : a = 7
  · subst ha
    change (((∅ : Map Hash Hash).insert 1 0).lookup key).getD (filled.storage 7 key) = 0
    by_cases hkey : key = 1
    · subst hkey
      rfl
    · rw [AList.lookup_insert_ne hkey]
      exact if_neg fun hand => hkey hand.2
  · have hnone : (wipe.job filled).effects.lookup a = none := AList.lookup_insert_ne ha
    have hzero : filled.storage a key = 0 := if_neg fun hand => ha hand.1
    simp [slot, Job.populate, hnone, hzero]

/-- A payment leaves all storage as it is. -/
theorem pay_storage {t : Tries} (ht : t.Sound oneSlot) (hfree : t.EmptyFree oneSlot) :
    (pay.next oneSlot t).storage = t.storage := by
  rw [Block.next, ← pay.job_rooted.slot_populate oneSlot_lawful ht hfree 0]
  funext a key
  by_cases ha : a = 7
  · subst ha
    rfl
  · have hnone : (pay.job t).effects.lookup a = none := AList.lookup_insert_ne ha
    simp [slot, Job.populate, hnone]

/-- Loaded after its root is in the layer, the account has the empty root. -/
theorem wiped_accepted : ∃ outcomes,
    pipelined oneSlot filledNode [(wipe, []), (pay, [.correct, .load 7])] = some outcomes ∧
      outcomes.map (·.stateRoot) = [1, emptyRoot, emptyRoot + 3] ∧
      ∀ o ∈ outcomes, ∀ a acc, o.layer.accounts a = some acc →
        acc.root = oneSlot.storageRoot (o.layer.storage a) ∧ acc.root ≠ dummyRoot := by
  obtain ⟨outcomes, haccepted⟩ : ∃ outcomes,
      synchronous oneSlot filledNode.tries [wipe, pay] = some outcomes :=
    Option.isSome_iff_exists.mp (by decide +kernel)
  have hwiped : (wipe.next oneSlot filled).EmptyFree oneSlot := fun a _ => congrFun wipe_storage a
  have hpaid : (pay.next oneSlot (wipe.next oneSlot filled)).EmptyFree oneSlot := by
    have hsound : (wipe.next oneSlot filled).Sound oneSlot :=
      wipe.job_rooted.sound oneSlot_lawful filled_sound emptyFree_filled
    intro a _
    rw [pay_storage hsound hwiped]
    exact congrFun wipe_storage a
  have hfree : CollisionFree oneSlot filledNode.tries [wipe, pay] :=
    ⟨emptyFree_filled, fun hsame => absurd hsame (by decide), hwiped,
      fun hsame => absurd hsame (by decide +kernel), hpaid⟩
  have hquiet : Undisturbed oneSlot (fun _ => False) filledNode.tries
      [(wipe, []), (pay, [.correct, .load 7])] :=
    ⟨fun _ hheld => hheld.elim, fun _ _ _ => rfl, trivial⟩
  exact ⟨outcomes, pipelined_transparent oneSlot_lawful filledNode_idle haccepted hfree hquiet⟩

/-- Loaded before its root is in the layer, the account keeps the placeholder,
and a chain that is accepted synchronously is rejected. -/
theorem wiped_rejected :
    (synchronous oneSlot filledNode.tries [wipe, pay]).isSome = true ∧
      (pipelined oneSlot filledNode [(wipe, []), (pay, [.load 7, .correct])]).isSome = false := by
  decide +kernel

end Dexit.Core.Pipe
