import Dexit.Core.PipeCommit

/-!
# Blocks with a wrong root in the pipeline

A block is written as head before its root has been checked. The verdict is
kept in the snapshot layer of the block, and the layers are found by their
roots. A bad head is undone by whoever looks up its layer and finds a verdict
against it. Left out is the cache of the last sixteen bad blocks, with which
`ValidateBody` refuses one that comes again: here it is executed once more.
-/

namespace Dexit.Core.Pipe

open Option
open Function
open Parlia (Hash)

/-- `verifiedCh`, which is nil for a layer made without pipelining. -/
inductive Channel
  | none
  | pending
  | closed
  deriving DecidableEq

structure TreeLayer where
  snap : Snapshot
  verifiedCh : Channel
  valid : Bool

namespace TreeLayer

/-- `Verified`. -/
def verified (l : TreeLayer) : Bool := l.verifiedCh ≠ .pending

/-- `WaitAndGetVerifyRes`, for a layer that is verified. -/
def waitAndGetVerifyRes (l : TreeLayer) : Bool := l.verifiedCh = .none || l.valid

/-- `CorrectAccounts`. -/
def correctAccounts (l : TreeLayer) (accounts : Address → Option Slim) : TreeLayer :=
  { l with snap := l.snap.correctAccounts accounts }

/-- `MarkValid`. -/
def markValid (l : TreeLayer) : TreeLayer := { l with valid := true }

def close (l : TreeLayer) : TreeLayer := { l with verifiedCh := .closed }

end TreeLayer

structure Header where
  hash : Hash
  root : Hash
  deriving DecidableEq

/-- The current block and its ancestors, the layers of the snapshot tree, and
the states in the trie database. -/
structure Chain where
  canonical : List Header
  layers : Hash → Option TreeLayer
  states : Hash → Option Tries

/-- Applies a method to the layer with a root. -/
def modify (layers : Hash → Option TreeLayer) (root : Hash) (f : TreeLayer → TreeLayer) :
    Hash → Option TreeLayer :=
  update layers root ((layers root).map f)

/-- The objects of a block when it is committed: their roots once the block is
validated, and once the job has finalised them. -/
structure Roots where
  validated : Address → Hash
  finalised : Address → Hash

section
variable (h : Hasher)

namespace Chain

/-- What a block finds: the layer and the state of the head. -/
def parent (c : Chain) : Option (TreeLayer × Tries) := do
  let head ← c.canonical.head?
  let layer ← c.layers head.root
  let tries ← c.states head.root
  return (layer, tries)

def job (layer : TreeLayer) (b : Block) (loaded : Address → Hash) : Job :=
  .ofLoaded (b.exec layer.snap.view) layer.snap.view loaded

/-- `Commit` leaves a layer, unless the block has the root of its parent, and
the block is written as head. -/
def commit (c : Chain) (layer : TreeLayer) (b : Block) (hash : Hash) (roots : Roots) : Chain :=
  { c with
    canonical := ⟨hash, b.root⟩ :: c.canonical
    layers :=
      if b.root = layer.snap.root then c.layers
      else update c.layers b.root (some
        ⟨⟨b.root, layer.snap.flatten, (job layer b roots.validated).populate⟩, .pending, false⟩) }

/-- The job in the background, to its end. The channel that it closes belongs
to no layer if the block has the root of its parent. -/
def commitTrie (c : Chain) (layer : TreeLayer) (t : Tries) (b : Block) (roots : Roots) : Chain :=
  let job := job layer b roots.finalised
  let own (f : TreeLayer → TreeLayer) (layers : Hash → Option TreeLayer) :=
    if b.root = layer.snap.root then layers else modify layers b.root f
  let layers := own (·.correctAccounts (job.accountData h t)) c.layers
  if job.verified h t b.root then
    { c with
      layers := own TreeLayer.close (modify layers b.root TreeLayer.markValid)
      states := update c.states b.root (some (job.tries h t)) }
  else { c with layers := own TreeLayer.close layers }

/-- Imports a block on the head and waits for the verdict. The parent has to be
valid. -/
def importBlock (c : Chain) (b : Block) (hash : Hash) (roots : Roots) : Option Chain := do
  let (layer, t) ← c.parent
  if layer.waitAndGetVerifyRes then
    return (c.commit layer b hash roots).commitTrie h layer t b roots
  else none

/-- The root of the state after the execution of a block. -/
def executedRoot (c : Chain) (b : Block) (roots : Roots) : Option Hash := do
  let (layer, t) ← c.parent
  return h.accountRoot ((job layer b roots.finalised).tries h t).accounts

/-- `setHeadBeyondRoot` without a root: back to a block whose state is there. -/
def setHead (c : Chain) : List Header → List Header
  | [] => []
  | [genesis] => [genesis]
  | b :: rest => if (c.states b.root).isSome then b :: rest else setHead c rest

def tryRewindBadBlocks (c : Chain) : Chain :=
  match c.canonical with
  | [] => c
  | head :: rest =>
    match c.layers head.root with
    | some layer =>
      if layer.verified && !layer.waitAndGetVerifyRes then { c with canonical := c.setHead rest }
      else c
    | none => c

/-- `tryRewindBadBlocks` has run until it changes nothing more. -/
def RewindsTo (c c' : Chain) : Prop :=
  (∃ n, tryRewindBadBlocks^[n] c = c') ∧ c'.tryRewindBadBlocks = c'

/-- The block is gone, and all is as before it. -/
structure Undone (c : Chain) (block : Header) (c' : Chain) : Prop where
  not_canonical : block ∉ c'.canonical
  head : c'.canonical.head? = c.canonical.head?
  answers : ∀ root layer, c.layers root = some layer → ∃ layer', c'.layers root = some layer' ∧
    layer'.snap.account = layer.snap.account ∧ layer'.snap.slot = layer.snap.slot

/-! ### Chains imported in the pipeline -/

/-- The head is valid, and its layer has the accounts of its state. -/
structure AtHead (c : Chain) (head : Header) (rest : List Header) (layer : TreeLayer)
    (t : Tries) : Prop where
  canonical : c.canonical = head :: rest
  layer_eq : c.layers head.root = some layer
  state_eq : c.states head.root = some t
  valid : layer.waitAndGetVerifyRes = true
  accounts : layer.snap.flatten.accounts = t.accounts

/-- Every valid layer has the accounts of its root. -/
structure Sound (c : Chain) : Prop where
  root : ∀ root layer, c.layers root = some layer → layer.snap.root = root
  accounts : ∀ root layer, c.layers root = some layer → layer.waitAndGetVerifyRes = true →
    h.accountRoot layer.snap.flatten.accounts = root
  head : ∃ head rest layer t, c.AtHead head rest layer t

/-- A chain that was imported up to here without pipelining. -/
structure Unpipelined (c : Chain) : Prop where
  sound : c.Sound h
  channels : ∀ root layer, c.layers root = some layer → layer.verifiedCh = .none

/-- A block that gets the root of its parent leaves the accounts as they are. -/
def CollisionFree (c : Chain) (b : Block) (roots : Roots) : Prop :=
  ∀ layer t, c.parent = some (layer, t) →
    h.accountRoot ((job layer b roots.finalised).tries h t).accounts = layer.snap.root →
    ((job layer b roots.finalised).tries h t).accounts = t.accounts

/-- The chains that pipelined import leads to, with good blocks and bad ones. -/
inductive Reached : Chain → Prop
  | start {c : Chain} : c.Unpipelined h → Reached c
  | next {c c' c'' : Chain} {b : Block} {hash : Hash} {roots : Roots} : Reached c →
      c.CollisionFree h b roots → c.importBlock h b hash roots = some c' → c'.RewindsTo c'' →
      Reached c''

end Chain

end

/-! ### The layer of a block -/

namespace Chain

variable {h : Hasher} {c c' : Chain} {b : Block} {hash : Hash} {roots : Roots}
  {layer : TreeLayer} {t : Tries}

/-- What the job leaves in the tree. -/
def ownLayer (h : Hasher) (layer : TreeLayer) (t : Tries) (b : Block) (roots : Roots) :
    TreeLayer where
  snap := Snapshot.correctAccounts
    ⟨b.root, layer.snap.flatten, (job layer b roots.validated).populate⟩
    ((job layer b roots.finalised).accountData h t)
  verifiedCh := .closed
  valid := (job layer b roots.finalised).verified h t b.root

theorem ownLayer_accounts (hbelow : layer.snap.flatten.accounts = t.accounts) :
    (ownLayer h layer t b roots).snap.flatten.accounts =
      ((job layer b roots.finalised).tries h t).accounts := by
  funext a
  have haccount := account_corrected h hbelow (job layer b roots.finalised) b.root a
  change ((ownLayer h layer t b roots).snap.account a).map Slim.full = _
  -- the accounts of the first layer are gone, and the rest does not depend on roots
  change (ownLayer h layer t b roots).snap.account a = _ at haccount
  rw [haccount, map_full_slim]

section
variable (hparent : c.parent = some (layer, t)) (hvalid : layer.waitAndGetVerifyRes = true)
include hparent hvalid

theorem importBlock_eq : c.importBlock h b hash roots = some
      { canonical := ⟨hash, b.root⟩ :: c.canonical
        layers :=
          if b.root ≠ layer.snap.root then
            update c.layers b.root (some (ownLayer h layer t b roots))
          else if (job layer b roots.finalised).verified h t b.root then
            modify c.layers b.root TreeLayer.markValid
          else c.layers
        states :=
          if (job layer b roots.finalised).verified h t b.root then
            update c.states b.root (some ((job layer b roots.finalised).tries h t))
          else c.states } := by
  unfold importBlock
  rw [hparent]
  by_cases heq : b.root = layer.snap.root
  · simp only [bind_eq_bind, bind_some, hvalid, if_true, commitTrie, commit, heq]
    cases hverified : (job layer b roots.finalised).verified h t layer.snap.root with
    | true => simp
    | false => simp
  · simp only [bind_eq_bind, bind_some, hvalid, if_true, commitTrie, commit, ne_eq, heq,
      not_false_eq_true, if_false, ownLayer, modify, update_self, map_some, update_idem]
    cases hverified : (job layer b roots.finalised).verified h t b.root with
    | true => simp [TreeLayer.close, TreeLayer.markValid, TreeLayer.correctAccounts]
    | false => simp [TreeLayer.close, TreeLayer.correctAccounts]

end

/-- The tree with one more layer. -/
def withLayer (c : Chain) (root : Hash) (layer : TreeLayer) : Chain :=
  { c with layers := update c.layers root (some layer) }

theorem withLayer_self (root : Hash) : (c.withLayer root layer).layers root = some layer :=
  update_self ..

theorem withLayer_of_ne {root root' : Hash} (hne : root' ≠ root) :
    (c.withLayer root layer).layers root' = c.layers root' :=
  update_of_ne hne ..

/-! ### Rewinding -/

theorem RewindsTo.eq {c₁ c₂ : Chain} (h₁ : c.RewindsTo c₁) (h₂ : c.RewindsTo c₂) : c₁ = c₂ := by
  obtain ⟨⟨n, rfl⟩, hn⟩ := h₁
  obtain ⟨⟨m, rfl⟩, hm⟩ := h₂
  have hleft := iterate_fixed hn m
  have hright := iterate_fixed hm n
  rw [← hleft, ← hright, ← iterate_add_apply, ← iterate_add_apply, add_comm]

/-! ### Every chain is sound -/

section
variable {head : Header} {rest : List Header} {root : Hash}

section
variable (hhead : c.AtHead head rest layer t)
include hhead

theorem AtHead.parent : c.parent = some (layer, t) := by
  simp [Chain.parent, hhead.canonical, hhead.layer_eq, hhead.state_eq]

/-- Another layer does not change the head. -/
theorem AtHead.withLayer
    (hne : head.root ≠ root) (new : TreeLayer) : (c.withLayer root new).AtHead head rest layer t :=
  { hhead with layer_eq := (withLayer_of_ne hne).trans hhead.layer_eq }

theorem AtHead.rewindsTo_self : c.RewindsTo c :=
  ⟨⟨0, rfl⟩, by simp [tryRewindBadBlocks, hhead.canonical, hhead.layer_eq, hhead.valid]⟩

theorem AtHead.executedRoot : c.executedRoot h b roots =
      some (h.accountRoot ((job layer b roots.finalised).tries h t).accounts) := by
  simp [Chain.executedRoot, hhead.parent]

end

/-- The verdict on a block with a wrong root. -/
theorem verified_of_ne {job : Job}
    (hne : h.accountRoot (job.tries h t).accounts ≠ root) : job.verified h t root = false := by
  simp [Job.verified, hne]

theorem root_of_verified {job : Job} (hverified : job.verified h t root = true) :
    h.accountRoot (job.tries h t).accounts = root := by
  by_contra hne
  rw [verified_of_ne hne] at hverified
  exact Bool.false_ne_true hverified

section
variable (hhead : c.AtHead head rest layer t)
include hhead

section
variable (hroot : layer.snap.root = head.root)
include hroot

/-- A block with a verdict against it and a layer of its own is rewound in one
step. -/
theorem AtHead.own_bad (hne : b.root ≠ layer.snap.root)
    (hverdict : (job layer b roots.finalised).verified h t b.root = false)
    (hc' : c.importBlock h b hash roots = some c') :
    c'.RewindsTo (c.withLayer b.root (ownLayer h layer t b roots)) := by
  have hcanonical : c'.canonical = ⟨hash, b.root⟩ :: head :: rest ∧
      c'.layers b.root = some (ownLayer h layer t b roots) ∧
      c'.states = c.states ∧
      { c' with canonical := head :: rest } = c.withLayer b.root (ownLayer h layer t b roots) := by
    rw [importBlock_eq hhead.parent hhead.valid, if_pos hne, some.injEq] at hc'
    simp only [hverdict, Bool.false_eq_true, if_false] at hc'
    subst hc'
    rw [← hhead.canonical]
    exact ⟨rfl, withLayer_self _, rfl, rfl⟩
  obtain ⟨hcanonical, hlayer, hstates, hrewound⟩ := hcanonical
  have hown : (ownLayer h layer t b roots).waitAndGetVerifyRes = false := by
    simp [TreeLayer.waitAndGetVerifyRes, ownLayer, hverdict]
  have hstate : (c'.states head.root).isSome = true := by simp [hstates, hhead.state_eq]
  constructor
  · -- the bad head goes, and the block below it is the head: its state is there
    have hset : c'.setHead (head :: rest) = head :: rest := by
      cases rest with
      | nil => rfl
      | cons b rest => simp [setHead, hstate]
    have hverified : (ownLayer h layer t b roots).verified = true := rfl
    refine ⟨1, ?_⟩
    rw [iterate_one, ← hrewound]
    simp [tryRewindBadBlocks, hcanonical, hlayer, hverified, hown, hset]
  · exact (hhead.withLayer (hroot ▸ hne.symm) _).rewindsTo_self.2

/-- A block with the root of its parent stays when the verdict is against it. -/
theorem AtHead.shared_bad (heq : b.root = layer.snap.root)
    (hverdict : (job layer b roots.finalised).verified h t b.root = false)
    (hc' : c.importBlock h b hash roots = some c') :
    c' = { c with canonical := ⟨hash, b.root⟩ :: c.canonical } ∧
      c'.AtHead ⟨hash, b.root⟩ c.canonical layer t := by
  rw [importBlock_eq hhead.parent hhead.valid, if_neg (not_not.mpr heq), some.injEq] at hc'
  simp only [hverdict, Bool.false_eq_true, if_false] at hc'
  subst hc'
  have hkey : b.root = head.root := heq.trans hroot
  exact ⟨rfl, rfl, hkey ▸ hhead.layer_eq, hkey ▸ hhead.state_eq, hhead.valid, hhead.accounts⟩

/-- A block with a verdict for it becomes the head, whether its layer is its own
or that of its parent. -/
theorem AtHead.good (hverdict : (job layer b roots.finalised).verified h t b.root = true)
    (hfree : c.CollisionFree h b roots) (hc' : c.importBlock h b hash roots = some c') :
    ∃ new : TreeLayer, new.snap.root = b.root ∧ c'.layers = (c.withLayer b.root new).layers ∧
      c'.AtHead ⟨hash, b.root⟩ c.canonical new ((job layer b roots.finalised).tries h t) := by
  rw [importBlock_eq hhead.parent hhead.valid, hverdict, some.injEq] at hc'
  by_cases heq : b.root = layer.snap.root
  · simp only [if_true, if_neg (not_not.mpr heq)] at hc'
    have hlayer : c.layers b.root = some layer := by
      rw [heq, hroot]
      exact hhead.layer_eq
    have hlayers : modify c.layers b.root TreeLayer.markValid =
        update c.layers b.root (some layer.markValid) := by
      rw [modify, hlayer, map_some]
    rw [hlayers] at hc'
    subst hc'
    have haccounts := hfree layer t hhead.parent ((root_of_verified hverdict).trans heq)
    exact ⟨layer.markValid, heq.symm, rfl, rfl, update_self .., update_self ..,
      by simp [TreeLayer.waitAndGetVerifyRes, TreeLayer.markValid],
      hhead.accounts.trans haccounts.symm⟩
  · simp only [if_true, if_pos heq] at hc'
    subst hc'
    exact ⟨ownLayer h layer t b roots, rfl, rfl, rfl, update_self .., update_self ..,
      by simp [TreeLayer.waitAndGetVerifyRes, ownLayer, hverdict], ownLayer_accounts hhead.accounts⟩

end

end

/-- A new layer keeps the chain sound if it has the accounts of its root or is
not valid. -/
theorem Sound.update (hc : c.Sound h) {new : TreeLayer}
    (hlayers : c'.layers = (c.withLayer root new).layers) (hroot : new.snap.root = root)
    (hnew : new.waitAndGetVerifyRes = true → h.accountRoot new.snap.flatten.accounts = root)
    (hhead : c'.AtHead head rest layer t) : c'.Sound h where
  root := by
    intro r l hl
    rw [hlayers] at hl
    by_cases heq : r = root
    · subst heq
      rw [withLayer_self, some.injEq] at hl
      exact hl ▸ hroot
    · rw [withLayer_of_ne heq] at hl
      exact hc.root r l hl
  accounts := by
    intro r l hl hvalid
    rw [hlayers] at hl
    by_cases heq : r = root
    · subst heq
      rw [withLayer_self, some.injEq] at hl
      subst hl
      exact hnew hvalid
    · rw [withLayer_of_ne heq] at hl
      exact hc.accounts r l hl hvalid
  head := ⟨_, _, _, _, hhead⟩

end

/-- A block keeps the chain sound, whatever the verdict. -/
theorem Sound.next {c'' : Chain} (hc : c.Sound h) (hfree : c.CollisionFree h b roots)
    (hc' : c.importBlock h b hash roots = some c') (hrewound : c'.RewindsTo c'') : c''.Sound h := by
  obtain ⟨head, rest, layer, t, hhead⟩ := hc.head
  have hroot : layer.snap.root = head.root := hc.root _ _ hhead.layer_eq
  cases hverdict : (job layer b roots.finalised).verified h t b.root with
  | true =>
    obtain ⟨new, hnew, hlayers, hhead'⟩ := hhead.good hroot hverdict hfree hc'
    rw [hrewound.eq hhead'.rewindsTo_self]
    refine hc.update hlayers hnew (fun _ => ?_) hhead'
    rw [hhead'.accounts, root_of_verified hverdict]
  | false =>
    by_cases heq : b.root = layer.snap.root
    · obtain ⟨rfl, hhead'⟩ := hhead.shared_bad hroot heq hverdict hc'
      rw [hrewound.eq hhead'.rewindsTo_self]
      exact ⟨hc.root, hc.accounts, _, _, _, _, hhead'⟩
    · rw [hrewound.eq (hhead.own_bad hroot heq hverdict hc')]
      refine hc.update rfl rfl (fun hvalid => ?_) (hhead.withLayer (hroot ▸ Ne.symm heq) _)
      simp [TreeLayer.waitAndGetVerifyRes, ownLayer, hverdict] at hvalid

theorem Reached.sound (hc : Reached h c) : c.Sound h := by
  induction hc with
  | start hc => exact hc.sound
  | next _ hfree hc' hrewound ih => exact ih.next hfree hc' hrewound

/-- A block with a wrong root is undone if no layer has the root that it claims,
and it is not undone if a valid layer has it. -/
theorem badBlock_undone {root : Hash} (hc : Reached h c)
    (hexecuted : c.executedRoot h b roots = some root) (hwrong : b.root ≠ root)
    (hnew : ⟨hash, b.root⟩ ∉ c.canonical) (hc' : c.importBlock h b hash roots = some c') :
    (∃ c'', c'.RewindsTo c'') ∧ ∀ c'', c'.RewindsTo c'' →
      (c.layers b.root = none → c.Undone ⟨hash, b.root⟩ c'') ∧
        ∀ claimed, c.layers b.root = some claimed → claimed.waitAndGetVerifyRes = true →
          ¬c.Undone ⟨hash, b.root⟩ c'' := by
  obtain ⟨head, rest, layer, t, hhead⟩ := hc.sound.head
  have hroot : layer.snap.root = head.root := hc.sound.root _ _ hhead.layer_eq
  rw [hhead.executedRoot, some.injEq] at hexecuted
  subst hexecuted
  have hverdict := verified_of_ne hwrong.symm
  by_cases heq : b.root = layer.snap.root
  · obtain ⟨rfl, hhead'⟩ := hhead.shared_bad hroot heq hverdict hc'
    refine ⟨⟨_, hhead'.rewindsTo_self⟩, fun c'' hrewound => ?_⟩
    rw [hrewound.eq hhead'.rewindsTo_self]
    constructor
    · intro hnone
      rw [heq, hroot, hhead.layer_eq] at hnone
      exact absurd hnone (some_ne_none layer)
    · intro _ _ _ hundone
      exact hundone.not_canonical List.mem_cons_self
  · have hown := hhead.own_bad hroot heq hverdict hc'
    refine ⟨⟨_, hown⟩, fun c'' hrewound => ?_⟩
    rw [hrewound.eq hown]
    constructor
    · intro hnone
      refine ⟨hnew, rfl, fun r l hl => ⟨l, ?_, rfl, rfl⟩⟩
      have hr : r ≠ b.root := by
        rintro rfl
        rw [hnone] at hl
        exact some_ne_none l hl.symm
      rw [withLayer_of_ne hr]
      exact hl
    · intro claimed hclaimed hvalid hundone
      obtain ⟨l, hl, haccount, _⟩ := hundone.answers _ _ hclaimed
      rw [withLayer_self, some.injEq] at hl
      have hflat : l.snap.flatten.accounts = claimed.snap.flatten.accounts := by
        unfold Snapshot.flatten
        rw [haccount]
      rw [← hl, ownLayer_accounts hhead.accounts] at hflat
      have hclaim := hc.sound.accounts _ _ hclaimed hvalid
      rw [← hflat] at hclaim
      exact hwrong hclaim.symm

/-! ### A payment under a false root -/

/-- A chain of one block. -/
def ledger : Chain where
  canonical := [⟨100, 1⟩]
  layers root := if root = 1 then some ⟨filledNode.snap, .none, false⟩ else none
  states root := if root = 1 then some filled else none

/-- Pays the account, and claims a root. -/
def forged (root : Hash) : Block := { pay with root }

/-- The account was loaded with its root. -/
def loadedRoots : Roots := ⟨fun _ => 1, fun _ => 1⟩

theorem ledger_atHead : ledger.AtHead ⟨100, 1⟩ [] ⟨filledNode.snap, .none, false⟩ filled where
  canonical := rfl
  layer_eq := rfl
  state_eq := rfl
  valid := rfl
  accounts := congrArg Tries.accounts filledNode_idle.answers.flatten

theorem ledger_reached : Reached oneSlot ledger := by
  have hlayer : ∀ root layer, ledger.layers root = some layer →
      root = 1 ∧ layer = ⟨filledNode.snap, .none, false⟩ := by
    intro root layer hl
    simp only [ledger, ite_none_right_eq_some, some.injEq] at hl
    exact ⟨hl.1, hl.2.symm⟩
  refine .start ⟨⟨?_, ?_, _, _, _, _, ledger_atHead⟩, ?_⟩
  · intro root layer hl
    obtain ⟨rfl, rfl⟩ := hlayer root layer hl
    decide
  · intro root layer hl _
    obtain ⟨rfl, rfl⟩ := hlayer root layer hl
    decide
  · intro root layer hl
    obtain ⟨rfl, rfl⟩ := hlayer root layer hl
    rfl

theorem forged_executedRoot (root : Hash) :
    ledger.executedRoot oneSlot (forged root) loadedRoots = some 4 := rfl

theorem forged_imported (root : Hash) :
    ∃ c', ledger.importBlock oneSlot (forged root) 101 loadedRoots = some c' :=
  ⟨_, importBlock_eq ledger_atHead.parent rfl⟩

/-- With a root of its own, the block is undone. -/
theorem forged_undone : ∃ c' c'', ledger.importBlock oneSlot (forged 9) 101 loadedRoots = some c' ∧
    c'.RewindsTo c'' ∧ ledger.Undone ⟨101, 9⟩ c'' := by
  obtain ⟨c', hc'⟩ := forged_imported 9
  obtain ⟨⟨c'', hrewound⟩, hall⟩ := badBlock_undone ledger_reached (forged_executedRoot 9)
    (by decide) (by decide) hc'
  exact ⟨c', c'', hc', hrewound, (hall c'' hrewound).1 rfl⟩

/-- With the root of its parent, the block stays. -/
theorem forged_stays : Reached oneSlot ledger ∧
    ledger.executedRoot oneSlot (forged 1) loadedRoots = some 4 ∧
    ∃ c', ledger.importBlock oneSlot (forged 1) 101 loadedRoots = some c' ∧ c'.RewindsTo c' ∧
      c'.canonical = [⟨101, 1⟩, ⟨100, 1⟩] ∧ ¬ledger.Undone ⟨101, 1⟩ c' := by
  refine ⟨ledger_reached, forged_executedRoot 1, ?_⟩
  obtain ⟨c', hc'⟩ := forged_imported 1
  obtain ⟨rfl, hhead⟩ := ledger_atHead.shared_bad (by decide) (by decide) (by decide +kernel) hc'
  refine ⟨_, hc', hhead.rewindsTo_self, rfl, fun hundone => ?_⟩
  exact hundone.not_canonical List.mem_cons_self

end Chain

end Dexit.Core.Pipe
