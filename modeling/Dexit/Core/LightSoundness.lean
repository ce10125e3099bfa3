import Dexit.Core.LightProcess

/-!
# Light processing is sound

What light processing hands to the snapshot tree describes the tries that it
leaves, whatever the peer put into the diff layer.
-/

namespace Dexit.Core.Light

open Go List Option AList Function
open Parlia (Hash)

/-! ### The snapshot layer -/

/-- The accounts and slots of a state, as the snapshot tree answers. -/
structure Flat where
  account : Address → Option TrieAccount
  storage : Address → Slots

/-- The account that the state database makes from a blob of a snapshot. -/
def readBlob (b : Backend) (blob : Bytes) : Option TrieAccount :=
  if blob = [] then none else (b.decode blob).map fun account => account.toTrie.fill

/-- A snapshot layer with the given data over another one. -/
def Flat.update (b : Backend) (flat : Flat) (s : SnapData) : Flat where
  account addr :=
    match s.snapAccounts.lookup addr with
    | some blob => readBlob b blob
    | none => if addr ∈ s.snapDestructs then none else flat.account addr
  storage addr key :=
    ((s.snapStorage.lookup addr).bind (·.lookup key)).getD
      ((if addr ∈ s.snapDestructs then noSlots else flat.storage addr) key)

/-- A state: its account trie, with filled accounts, and the contents of its
storage tries, with the roots that the accounts record. -/
structure State (b : Backend) where
  accounts : Address → Option TrieAccount
  storage : Address → Slots
  filled : ∀ a acc, accounts a = some acc → acc.fill = acc
  rooted : ∀ a acc, accounts a = some acc → b.storageRoot (storage a) = acc.root
  absent : ∀ a, accounts a = none → storage a = noSlots

def State.flat {b : Backend} (s : State b) : Flat := ⟨s.accounts, s.storage⟩

/-- Storage tries have the root that they are opened at, nothing decodes to an
account, and the hash of the empty trie is known. -/
structure Backend.Lawful (b : Backend) : Prop where
  opened : ∀ a root trie, b.openStorageTrie a root = some trie → b.storageRoot trie = root
  empty : b.storageRoot noSlots = emptyRoot
  nothing : b.decode [] = none

/-- The contents of storage tries that occur: those of the parent state, those
in the database and the empty one. -/
def contents {b : Backend} (parent : State b) : Set Slots :=
  { c | c = noSlots ∨ (∃ a, c = parent.storage a) ∨ ∃ a root, b.openStorageTrie a root = some c }

/-- The storage trie of an account that light processing leaves. -/
def Processed.storageTrie (b : Backend) (out : Processed) (addr : Address) (acc : TrieAccount) :
    Option Slots :=
  (out.diffTries.lookup addr).or (b.openStorageTrie addr acc.root)

/-! ### One account -/

/-- What the shared data holds for one account. -/
structure Entry where
  trie : Option TrieAccount
  blob : Option Bytes
  change : Option (Map Bytes Bytes)
  tree : Option Slots

def Work.entry (w : Work) (addr : Address) : Entry where
  trie := w.stateTrie addr
  blob := w.snapAccounts.lookup addr
  change := w.snapStorage.lookup addr
  tree := w.diffTries.lookup addr

/-- What the loop can do with an account. -/
inductive Settles (b : Backend) (addr : Address) (e : Entry) : Entry → Prop
  | redundant {latest : SlimAccount} (hblob : fullAccount b (e.blob.getD []) = some latest)
      (hsame : previousAccount e.trie = latest.toTrie) :
      Settles b addr e { e with blob := none, change := none }
  | rewritten {latest : SlimAccount} {trie : Slots} {change : Map Bytes Bytes}
      (hblob : fullAccount b (e.blob.getD []) = some latest)
      (hopen : b.openStorageTrie addr (previousAccount e.trie).root = some trie)
      (hchange : e.change = some change)
      (hroot : b.storageRoot (applyChanges trie change) = latest.toTrie.root) :
      Settles b addr e
        { e with trie := some latest.toTrie, tree := some (applyChanges trie change) }
  | kept {latest : SlimAccount} (hblob : fullAccount b (e.blob.getD []) = some latest)
      (hroot : latest.toTrie.root = (previousAccount e.trie).root) :
      Settles b addr e { e with trie := some latest.toTrie, change := none }

section
variable {b : Backend} {fullDiffCode : Map Hash Bytes} {w w' : Work} {addr : Address}
  {stateTrie : Address → Option TrieAccount}

variable {tree trie : Slots} {order : List Address} {key : Bytes} {block : Block}

theorem updateStorage_ok {snapStorage : Map Address (Map Bytes Bytes)} {root : Hash}
    {previous : TrieAccount}
    (h : updateStorage b snapStorage addr root previous = .ok tree) :
    ∃ trie change, b.openStorageTrie addr previous.root = some trie ∧
      snapStorage.lookup addr = some change ∧ tree = applyChanges trie change ∧
      b.storageRoot tree = root := by
  unfold updateStorage at h
  split at h
  · cases h
  next trie hopen =>
  split at h
  · cases h
  next change hchange =>
  dsimp only at h
  split at h
  · cases h
  · next hroot =>
    cases h
    exact ⟨trie, change, hopen, hchange, rfl, (not_not.mp hroot).symm⟩

/-- An account is settled, and nothing is done to the others. -/
theorem processAccount_ok (h : processAccount b fullDiffCode w addr = .ok w') :
    Settles b addr (w.entry addr) (w'.entry addr) ∧ ∀ a ≠ addr, w'.entry a = w.entry a := by
  unfold processAccount at h
  split at h
  · cases h
  next latest hblob =>
  dsimp only at h
  split at h
  · next hsame =>
    cases h
    refine ⟨?_, ?_⟩
    · have hentry : Settles b addr (w.entry addr) _ := Settles.redundant hblob hsame
      simpa [Work.entry] using hentry
    · intro a ha
      simp [Work.entry, lookup_erase_ne ha]
  · obtain ⟨diffCode, -, h⟩ := Outcome.bind_ok.mp h
    split at h
    · obtain ⟨tree, htree, h⟩ := Outcome.bind_ok.mp h
      obtain ⟨trie, change, hopen, hchange, rfl, hroot⟩ := updateStorage_ok htree
      cases h
      refine ⟨?_, ?_⟩
      · have hentry := Settles.rewritten (e := w.entry addr) hblob hopen hchange hroot
        simpa [Work.entry] using hentry
      · intro a ha
        simp [Work.entry, update_of_ne ha, lookup_insert_ne ha]
    · next hroot =>
      cases h
      refine ⟨?_, ?_⟩
      · have hentry : Settles b addr (w.entry addr) _ := Settles.kept hblob (not_not.mp hroot)
        simpa [Work.entry] using hentry
      · intro a ha
        simp [Work.entry, update_of_ne ha, lookup_erase_ne ha]

/-- Every account of the list is settled once. -/
theorem processAll_ok (hnodup : order.Nodup)
    (h : order.foldlM (processAccount b fullDiffCode) w = .ok w') (a : Address) :
    (a ∈ order → Settles b a (w.entry a) (w'.entry a)) ∧ (a ∉ order → w'.entry a = w.entry a) := by
  induction order generalizing w with
  | nil =>
    cases h
    exact ⟨nofun, fun _ => rfl⟩
  | cons addr rest ih =>
    obtain ⟨hfirst, hnodup⟩ := nodup_cons.mp hnodup
    obtain ⟨u, hu, h⟩ := Outcome.bind_ok.mp h
    obtain ⟨hsettles, hothers⟩ := processAccount_ok hu
    obtain ⟨hin, hout⟩ := ih hnodup h
    by_cases ha : a = addr
    · subst ha
      refine ⟨fun _ => ?_, fun hnot => absurd mem_cons_self hnot⟩
      rw [hout hfirst]
      exact hsettles
    · rw [hothers a ha] at hin hout
      refine ⟨fun hmem => ?_, fun hnot => hout fun hmem => hnot (mem_cons_of_mem _ hmem)⟩
      exact hin ((mem_cons.mp hmem).resolve_left ha)

/-! ### Contents -/

theorem bytesToHash_emptyRootBytes : bytesToHash emptyRootBytes = emptyRoot := by decide +kernel

/-- The account in the snapshot is the one in the trie. -/
theorem readBlob_fullAccount {blob : Bytes} {latest : SlimAccount} (hb : b.Lawful)
    (h : fullAccount b blob = some latest) : readBlob b blob = some latest.toTrie.fill := by
  obtain ⟨account, hdecode, rfl⟩ := map_eq_some_iff.mp h
  have hblob : blob ≠ [] := by
    rintro rfl
    rw [hb.nothing] at hdecode
    cases hdecode
  unfold readBlob
  rw [if_neg hblob, hdecode, map_some, some.injEq]
  have hroot : (if bytesToHash account.root = 0 then emptyRoot else bytesToHash account.root) =
      if bytesToHash (if account.root = [] then emptyRootBytes else account.root) = 0 then emptyRoot
      else bytesToHash (if account.root = [] then emptyRootBytes else account.root) := by
    by_cases hnil : account.root = []
    · rw [if_pos hnil, hnil, bytesToHash_emptyRootBytes]
      decide
    · rw [if_neg hnil]
  have hcode : (if account.codeHash = [] then emptyCode else account.codeHash) =
      if (if account.codeHash = [] then emptyCode else account.codeHash) = [] then emptyCode
      else if account.codeHash = [] then emptyCode else account.codeHash := by
    by_cases hnil : account.codeHash = []
    · rw [if_pos hnil, if_neg (by decide)]
    · rw [if_neg hnil, if_neg hnil]
  simp only [SlimAccount.toTrie, TrieAccount.fill, TrieAccount.mk.injEq, true_and]
  exact ⟨hroot, hcode⟩

theorem foldl_changes {entries : List (Sigma fun _ : Bytes => Bytes)} (h : entries.NodupKeys) :
    entries.foldl (fun trie e => if e.2 ≠ [] then tryUpdate trie e.1 e.2 else tryDelete trie e.1)
      trie key = (entries.dlookup key).getD (trie key) := by
  induction entries generalizing trie with
  | nil => rfl
  | cons e rest ih =>
    obtain ⟨k, v⟩ := e
    obtain ⟨hfirst, hrest⟩ := nodupKeys_cons.mp h
    have hstep : (if v ≠ [] then tryUpdate trie k v else tryDelete trie k) =
        update trie k v := by
      split
      · rfl
      · next hv => rw [not_not.mp hv, tryDelete]
    rw [foldl_cons, hstep, ih hrest]
    by_cases hk : key = k
    · subst hk
      rw [dlookup_eq_none.mpr hfirst, dlookup_cons_eq]
      simp
    · rw [dlookup_cons_ne _ _ hk, update_of_ne hk]

/-- A trie with changes holds the changed values and the old ones. -/
theorem applyChanges_apply {change : Map Bytes Bytes} :
    applyChanges trie change key = (change.lookup key).getD (trie key) :=
  foldl_changes change.nodupKeys

theorem validateState_ok {receipts : List Receipt} {usedGas : UInt64}
    (h : validateState b block stateTrie receipts usedGas = .ok ()) :
    b.accountRoot stateTrie = block.root := by
  unfold validateState at h
  split at h
  · cases h
  split at h
  · cases h
  split at h
  · cases h
  · split at h
    · cases h
    · next hroot => exact (not_not.mp hroot).symm

theorem lookup_withoutRedundant (w : Work) (a : Address) :
    (Map.deleteAll w.snapStorage (w.snapStorage.keys.filter (· ∉ w.snapAccounts))).lookup a =
      if a ∈ w.snapAccounts then w.snapStorage.lookup a else none := by
  refine ext fun change => ?_
  rw [Map.lookup_deleteAll]
  by_cases ha : a ∈ w.snapAccounts
  · simp [ha]
  · simp only [mem_filter, decide_not, ha, decide_false, Bool.not_false, and_true, if_false,
      reduceCtorEq, iff_false, not_and, not_not]
    intro hlookup
    exact mem_keys.mpr (Map.mem_iff_lookup.mpr ⟨change, hlookup⟩)

/-! ### The layer and the tries -/

/-- The flat state is the one in the tries that light processing leaves. -/
structure Describes (b : Backend) (flat : Flat) (out : Processed) : Prop where
  accounts : ∀ a, flat.account a = (out.stateTrie a).map TrieAccount.fill
  roots : ∀ a acc trie, out.stateTrie a = some acc → out.storageTrie b a acc = some trie →
    b.storageRoot trie = acc.root
  slots : ∀ a acc trie, out.stateTrie a = some acc → out.storageTrie b a acc = some trie →
    flat.storage a = trie
  absent : ∀ a, out.stateTrie a = none → flat.storage a = noSlots

/-- One account before the loop: what the trie holds after the destructs, with
the slots that are left. -/
structure Base (b : Backend) (parent : State b) (addr : Address) (trie : Option TrieAccount)
    (old : Slots) : Prop where
  filled : ∀ acc, trie = some acc → acc.fill = acc
  rooted : b.storageRoot old = (previousAccount trie).root
  absent : trie = none → old = noSlots
  occurs : old ∈ contents parent

theorem Base.start (hb : b.Lawful) (parent : State b) (addr : Address) (destructed : Prop)
    [Decidable destructed] : Base b parent addr (if destructed then none else parent.accounts addr)
      (if destructed then noSlots else parent.storage addr) := by
  by_cases hd : destructed
  · rw [if_pos hd, if_pos hd]
    exact ⟨nofun, hb.empty, fun _ => rfl, .inl rfl⟩
  rw [if_neg hd, if_neg hd]
  refine ⟨parent.filled addr, ?_, parent.absent addr, .inr (.inl ⟨addr, rfl⟩)⟩
  cases hacc : parent.accounts addr with
  | none =>
    rw [parent.absent addr hacc]
    exact hb.empty
  | some acc =>
    rw [previousAccount, getD_some, parent.filled addr acc hacc]
    exact parent.rooted addr acc hacc

/-- A trie that is opened at the old root holds the old slots. -/
theorem Base.opened {parent : State b} {trie : Option TrieAccount} {old : Slots}
    (h : Base b parent addr trie old) (hb : b.Lawful)
    (hinj : Set.InjOn b.storageRoot (contents parent))
    (hopen : b.openStorageTrie addr (previousAccount trie).root = some tree) : tree = old := by
  refine hinj (.inr (.inr ⟨addr, _, hopen⟩)) h.occurs ?_
  rw [hb.opened _ _ _ hopen, h.rooted]

/-- The same for one account. -/
structure Matches (b : Backend) (addr : Address) (e : Entry) (account : Option TrieAccount)
    (storage : Slots) : Prop where
  account : account = e.trie.map TrieAccount.fill
  slots : ∀ acc tree, e.trie = some acc → e.tree.or (b.openStorageTrie addr acc.root) = some tree →
    b.storageRoot tree = acc.root ∧ storage = tree
  absent : e.trie = none → storage = noSlots

variable {parent : State b} {e e' : Entry} {old : Slots}

section
variable (h : Base b parent addr e.trie old)
  (hb : b.Lawful)
  (hinj : Set.InjOn b.storageRoot (contents parent))
  (htree : e.tree = none)
include h hb hinj htree

/-- An account that is left as it was. -/
theorem Base.unchanged : Matches b addr e e.trie old := by
  refine ⟨?_, ?_, h.absent⟩
  · cases htrie : e.trie with
    | none => rfl
    | some acc => rw [map_some, h.filled acc htrie]
  · intro acc tree htrie hopen
    rw [htree, none_or] at hopen
    refine ⟨hb.opened _ _ _ hopen, (h.opened hb hinj ?_).symm⟩
    rwa [htrie, previousAccount, getD_some, h.filled acc htrie]

/-- Whatever the loop does with an account, the layer says the same of it. -/
theorem Base.settled (hsettles : Settles b addr e e') : Matches b addr e' (match e'.blob with
        | some blob => readBlob b blob
        | none => e.trie)
      (fun key => ((if e'.blob.isSome then e'.change else none).bind (·.lookup key)).getD (old key)) := by
  have hblobSome {latest : SlimAccount} (hblob : fullAccount b (e.blob.getD []) = some latest) :
      ∃ blob, e.blob = some blob ∧ readBlob b blob = some latest.toTrie.fill := by
    cases hfound : e.blob with
    | none =>
      rw [hfound, getD_none, fullAccount, hb.nothing] at hblob
      cases hblob
    | some blob =>
      rw [hfound] at hblob
      exact ⟨blob, rfl, readBlob_fullAccount hb hblob⟩
  cases hsettles with
  | redundant hblob hsame =>
    have hmatches := h.unchanged hb hinj htree
    exact { hmatches with }
  | rewritten hblob hopen hchange hroot =>
    obtain ⟨blob, hfound, hread⟩ := hblobSome hblob
    obtain rfl := h.opened hb hinj hopen
    refine ⟨?_, ?_, nofun⟩
    · simp only [hfound, hread, map_some]
    · intro acc tree hacc hfind
      cases hacc
      simp only [some_or, some.injEq] at hfind
      subst hfind
      refine ⟨hroot, ?_⟩
      funext key
      rw [applyChanges_apply]
      simp [hfound, hchange]
  | kept hblob hroot =>
    obtain ⟨blob, hfound, hread⟩ := hblobSome hblob
    refine ⟨?_, ?_, nofun⟩
    · simp only [hfound, hread, map_some]
    · intro acc tree hacc hopen
      cases hacc
      simp only [htree, none_or] at hopen
      refine ⟨hb.opened _ _ _ hopen, ?_⟩
      rw [hroot] at hopen
      rw [h.opened hb hinj hopen]
      simp

end

end

/-- For every diff layer: if light processing succeeds, the account trie has the
root of the block, the storage tries have the roots that the accounts record, and
the snapshot layer holds exactly the accounts and slots in these tries. -/
theorem lightProcess_describes (b : Backend) (hb : b.Lawful) (parent : State b)
    (hinj : Set.InjOn b.storageRoot (contents parent)) (diffLayer : DiffLayer) (block : Block)
    (order : List Address)
    (horder : ∀ snap, diffLayerToSnap diffLayer = .ok snap → order.Perm snap.snapAccounts.keys)
    (out : Processed) (h : lightProcess b parent.accounts diffLayer block order = .ok out) :
    b.accountRoot out.stateTrie = block.root ∧ Describes b (parent.flat.update b out.snap) out := by
  obtain ⟨snap, hsnap, h⟩ := Outcome.bind_ok.mp h
  obtain ⟨w, hw, h⟩ := Outcome.bind_ok.mp h
  obtain ⟨⟨⟩, hvalid, h⟩ := Outcome.bind_ok.mp h
  cases h
  -- the data after the loop, without the storage that has no account
  let layer : SnapData := { snap with
    snapAccounts := w.snapAccounts
    snapStorage := Map.deleteAll w.snapStorage (w.snapStorage.keys.filter (· ∉ w.snapAccounts)) }
  have hperm := horder snap hsnap
  have hnodup : order.Nodup := hperm.nodup_iff.mpr snap.snapAccounts.keys_nodup
  have hall (a : Address) : Matches b a (w.entry a) ((parent.flat.update b layer).account a)
      ((parent.flat.update b layer).storage a) := by
    have hbase := Base.start hb parent a (a ∈ snap.snapDestructs)
    obtain ⟨hin, hnot⟩ := processAll_ok hnodup hw a
    have hacc : (parent.flat.update b layer).account a =
        match (w.entry a).blob with
        | some blob => readBlob b blob
        | none => if a ∈ snap.snapDestructs then none else parent.accounts a := rfl
    have hslots : (parent.flat.update b layer).storage a = fun key =>
        ((if (w.entry a).blob.isSome then (w.entry a).change else none).bind (·.lookup key)).getD
          ((if a ∈ snap.snapDestructs then noSlots else parent.storage a) key) := by
      simp only [layer, Flat.update, lookup_withoutRedundant, Work.entry, lookup_isSome]
      rfl
    rw [hacc, hslots]
    by_cases ha : a ∈ order
    · exact hbase.settled hb hinj rfl (hin ha)
    -- the layer does not name the account
    have hblob : snap.snapAccounts.lookup a = none :=
      lookup_eq_none.mpr fun hmem => ha (hperm.mem_iff.mpr (mem_keys.mp hmem))
    have hmatches := hbase.unchanged (e := ⟨_, none, snap.snapStorage.lookup a, none⟩) hb hinj rfl
    rw [hnot ha]
    simp only [Work.entry, hblob]
    exact hmatches
  exact ⟨validateState_ok hvalid, {
    accounts := fun a => (hall a).account
    roots := fun a acc trie hacc hfind => ((hall a).slots acc trie hacc hfind).1
    slots := fun a acc trie hacc hfind => ((hall a).slots acc trie hacc hfind).2
    absent := fun a => (hall a).absent }⟩

/-- A contract whose storage root is the value of its first slot. -/
def toy : Backend where
  decode
    | [nonce, root] =>
      some ⟨UInt64.ofNat nonce.toNat, 0, if root = 0 then [] else [root], []⟩
    | _ => none
  keccak _ := 0
  accountRoot t := ((t 7).map fun acc => acc.root + BitVec.ofNat 256 acc.nonce.toNat).getD 0
  storageRoot c := if c [1] = [] then emptyRoot else bytesToHash (c [1])
  openStorageTrie _ root :=
    if root = emptyRoot then some noSlots
    else if root = 5 then some fun key => if key = [1] then [5] else []
    else none
  readCode _ := []
  createBloom _ := 0
  deriveSha _ := 0

theorem toy_lawful : toy.Lawful where
  opened a root trie h := by
    simp only [toy] at h ⊢
    split at h
    · next hroot =>
      cases h
      exact hroot.symm
    · split at h
      · next hroot =>
        cases h
        rw [hroot]
        decide +kernel
      · cases h
  empty := rfl
  nothing := rfl

def toyParent : State toy where
  accounts a := if a = 7 then some ⟨1, 0, 5, emptyCode⟩ else none
  storage a key := if a = 7 ∧ key = [1] then [5] else []
  filled a acc h := by
    split at h
    · cases h
      decide
    · cases h
  rooted a acc h := by
    split at h
    · next ha =>
      cases h
      subst ha
      decide +kernel
    · cases h
  absent a h := by
    split at h
    · cases h
    · next ha =>
      funext key
      simp [ha, noSlots]

/-- The contract is destructed and made anew; the other account is not changed. -/
def toyLayer : DiffLayer where
  destructs := [7]
  accounts := [⟨7, [2, 9]⟩, ⟨8, [0, 0]⟩]
  storages := [⟨7, [[1], [2]], [[9], []]⟩, ⟨8, [[1]], [[6]]⟩]

theorem toyLayer_described : ∃ out,
    lightProcess toy toyParent.accounts toyLayer ⟨11, 0, 0, 0⟩ [7, 8] = .ok out ∧
      toy.accountRoot out.stateTrie = 11 ∧
      Describes toy (toyParent.flat.update toy out.snap) out := by
  have hcontents (c : Slots) (hc : c ∈ contents toyParent) :
      c = noSlots ∨ c = fun key => if key = [1] then [5] else [] := by
    obtain rfl | ⟨a, rfl⟩ | ⟨a, root, h⟩ := hc
    · exact .inl rfl
    · by_cases ha : a = 7
      · exact .inr (by simp [toyParent, ha])
      · exact .inl (toyParent.absent a (if_neg ha))
    · simp only [toy] at h
      split at h
      · exact .inl (some.inj h).symm
      · split at h
        · exact .inr (some.inj h).symm
        · cases h
  have hinj : Set.InjOn toy.storageRoot (contents toyParent) := by
    have hdiffer : toy.storageRoot noSlots ≠
        toy.storageRoot fun key => if key = [1] then [5] else [] := by
      decide +kernel
    intro c hc c' hc' heq
    obtain rfl | rfl := hcontents c hc <;> obtain rfl | rfl := hcontents c' hc'
    · rfl
    · exact absurd heq hdiffer
    · exact absurd heq.symm hdiffer
    · rfl
  have horder (snap : SnapData) (h : diffLayerToSnap toyLayer = .ok snap) :
      [7, 8].Perm snap.snapAccounts.keys := by
    have hkeys : ((diffLayerToSnap toyLayer).toOption.map (·.snapAccounts.keys)) = some [8, 7] := by
      decide +kernel
    rw [h] at hkeys
    have hkeys : snap.snapAccounts.keys = [8, 7] := some.inj hkeys
    rw [hkeys]
    decide
  have hok : ((lightProcess toy toyParent.accounts toyLayer ⟨11, 0, 0, 0⟩ [7, 8]).toOption).isSome := by
    decide +kernel
  cases hout : lightProcess toy toyParent.accounts toyLayer ⟨11, 0, 0, 0⟩ [7, 8] with
  | error e => rw [hout] at hok; cases hok
  | ok out =>
    exact ⟨out, rfl, lightProcess_describes toy toy_lawful toyParent hinj toyLayer _ [7, 8] horder
      out hout⟩

end Dexit.Core.Light
