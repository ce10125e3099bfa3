import Dexit.Parlia.Agreement
import Dexit.Parlia.Protocol

/-! Which blocks a verifier accepts. The errors of initializations, slashes and
registrations are only logged, so a proposer may leave them out, and may add
the registrations that the nested loop asks for. -/

namespace Dexit.Parlia

open Replay List

section
variable {World : Type}

/-- The block is where it was in `s`, and `received` is still to come. -/
structure Waits (s : BlockState World) (received : List Tx) (t : BlockState World) : Prop where
  world : t.world = s.world
  txs : t.txs = s.txs
  receipts : t.receipts = s.receipts
  received : t.receivedTxs = some received

theorem Waits.feed (s : BlockState World) (received : List Tx) : Waits s received (s.feed received) :=
  ⟨rfl, rfl, rfl, rfl⟩

theorem Waits.issue {s t : BlockState World} {received : List Tx} (h : Waits s received t)
    (msg : CallMsg) : Waits s received (t.issue msg) :=
  { h with }

/-- Runs the messages up to the first error, which is ignored. -/
def attempt (net : Network World) (q : Node) (header : Header) (mining : Bool)
    (msgs : List CallMsg) : Engine World Unit :=
  swallow (forEach (applyTransaction net q header mining) msgs)

variable {net : Network World} {q : Node} {header : Header} {snap : Snapshot} {mining : Bool}
  {msg : CallMsg} {msgs : List CallMsg} {s t : BlockState World} {received : List Tx}
  {b u : BlockState World} {tx : Tx} {balance : ℕ} {txs : List Tx} {asked : CallMsg → Prop}

/-! ## Messages that are not there -/

/-- Only the first of the messages is tried. -/
def tried (msgs : List CallMsg) (s : BlockState World) : BlockState World :=
  match msgs with
  | [] => s
  | msg :: _ => s.issue msg

theorem tried_waits (msgs : List CallMsg) (s : BlockState World) (received : List Tx) :
    Waits s received ((tried msgs s).feed received) := by
  cases msgs with
  | nil => exact Waits.feed s received
  | cons msg _ => exact ⟨rfl, rfl, rfl, rfl⟩

theorem attempt_ignored (hcompares : ∀ msg ∈ msgs, ¬ (msg.sender = q.val ∧ mining = true))
    (h : ∀ tx ∈ received.head?, ∀ msg ∈ msgs, tx.data ≠ msg.data) :
    exec (attempt net q header mining msgs) (s.feed received) =
      (.ok (), (tried msgs s).feed received) := by
  cases msgs with
  | nil => rfl
  | cons msg later =>
    obtain ⟨e, he⟩ : ∃ e, exec (applyTransaction net q header mining msg) (s.feed received) =
        (.error e, (s.feed received).issue msg) := by
      apply exec_apply_refused (hcompares msg mem_cons_self)
      intro tx htx hm
      exact h tx htx msg mem_cons_self hm.data
    have hstop : exec (forEach (applyTransaction net q header mining) (msg :: later))
        (s.feed received) = (.error e, (s.feed received).issue msg) := exec_bind_error he
    rw [attempt, exec_swallow, hstop]
    rfl

theorem pushes_ignored (hq : q.val ≠ header.coinbase)
    (h : ∀ tx ∈ received.head?, tx.data.isPush = false) (txs : List Tx) :
    Preserves (Waits s received) (forEach (pushOwners net q header true) txs) := by
  apply Preserves.forEach
  intro tx _
  apply Preserves.bind
  · exact Preserves.of_eq fun _ => rfl
  · intro receipts
    apply Preserves.forEach
    intro r _
    apply Preserves.swallow
    intro t ht
    obtain ⟨e, he⟩ : ∃ e, exec (pushOwner net q header true r.contractAddress _) t =
        (.error e, t.issue _) := by
      apply exec_apply_refused
      · rintro ⟨heq, -⟩
        exact hq heq.symm
      · intro next hnext hm
        rw [ht.received] at hnext
        have hpush := h next hnext
        rw [hm.data] at hpush
        cases hpush
    rw [he]
    exact ht.issue _

/-! ## Messages that cannot run -/

/-- A message that fails may be taken from the received ones or not. -/
theorem apply_idle (q : Node) (mining : Bool) (hno : ¬ Runs net header s.world msg)
    (ht : Waits s received t) :
    ∃ e u taken rest, exec (applyTransaction net q header mining msg) t = (.error e, u) ∧
      Waits s rest u ∧ received = taken ++ rest ∧
      Follows net header s.stage [msg] taken s.stage := by
  by_cases hcompares : msg.sender = q.val ∧ mining = true
  · -- a node that signs does not look at what it received
    obtain ⟨e, he⟩ : ∃ e, exec (applyTransaction net q header mining msg) t =
        (.error e, t.issue msg) := by
      cases hsign : q.signTxFn.sign msg.sender (expectedTx net t.world msg) net.chainId with
      | error e => exact ⟨e, exec_apply_unsigned hcompares hsign⟩
      | ok tx =>
        rw [exec_apply_signed hcompares hsign]
        obtain ⟨e, hrun, -⟩ | ⟨w, g, logs, hcall, -⟩ := execute_cases net header msg tx (t.issue msg)
        · exact ⟨e, hrun⟩
        · exact absurd ⟨_, hcall⟩ (ht.world ▸ hno)
    exact ⟨e, _, [], received, he, ht.issue msg, rfl, .absent hno (.done _)⟩
  by_cases hnext : ∃ tx rest, received = tx :: rest ∧ Matches net s.world msg tx
  · obtain ⟨tx, rest, rfl, hm⟩ := hnext
    rw [← ht.world] at hm
    have htaken : exec (applyTransaction net q header mining msg) t =
        exec (execute net header msg tx) ((t.issue msg).feed rest) :=
      exec_apply_taken hcompares ht.received hm
    obtain ⟨e, hrun, -⟩ | ⟨w, g, logs, hcall, -⟩ :=
      execute_cases net header msg tx ((t.issue msg).feed rest)
    · refine ⟨e, _, [tx], rest, htaken.trans hrun, ⟨ht.world, ht.txs, ht.receipts, rfl⟩, rfl, ?_⟩
      rw [ht.world] at hm
      apply Follows.present hm
      rw [Stage.take_of_fails hno]
      exact .done _
    · exact absurd ⟨_, hcall⟩ (ht.world ▸ hno)
  · obtain ⟨e, he⟩ : ∃ e, exec (applyTransaction net q header mining msg) t =
        (.error e, t.issue msg) := by
      apply exec_apply_refused hcompares
      intro tx htx hm
      rw [ht.received] at htx
      cases received with
      | nil => cases htx
      | cons first rest =>
        cases htx
        rw [ht.world] at hm
        exact hnext ⟨tx, rest, rfl, hm⟩
    exact ⟨e, _, [], received, he, ht.issue msg, rfl, .absent hno (.done _)⟩

theorem attempt_idle (q : Node) (mining : Bool)
    (hno : ∀ msg ∈ msgs, ¬ Runs net header s.world msg) (ht : Waits s received t) :
    ∃ u taken rest, exec (attempt net q header mining msgs) t = (.ok (), u) ∧
      Waits s rest u ∧ received = taken ++ rest ∧
      Follows net header s.stage msgs taken s.stage := by
  cases msgs with
  | nil => exact ⟨t, [], received, rfl, ht, rfl, .done _⟩
  | cons msg later =>
    obtain ⟨e, u, taken, rest, hrun, hu, rfl, hfollows⟩ :=
      apply_idle q mining (hno msg mem_cons_self) ht
    have hstop : exec (forEach (applyTransaction net q header mining) (msg :: later)) t =
        (.error e, u) := exec_bind_error hrun
    refine ⟨u, taken, rest, ?_, hu, rfl, ?_⟩
    · rw [attempt, exec_swallow, hstop]
    · -- the messages after the first failure are not even tried
      have hlater : Follows net header s.stage later [] s.stage :=
        .of_absent fun m hm => hno m (mem_cons_of_mem _ hm)
      have hall := hfollows.append hlater
      rwa [append_nil] at hall

/-! ## The steps of a verifier -/

/-- The checks of `Finalize` before any system call. -/
structure Checked (net : Network World) (header : Header) (snap : Snapshot) : Prop where
  epoch : checkEpoch net header = .ok ()
  turn : header.difficulty ≠ diffInTurn → ∃ v, snap.supposeValidator = .ok v

theorem exec_initFirst :
    exec (initFirst net q header mining) s =
      (.ok (), (exec (attempt net q header mining (dueInits header)) s).2) := by
  unfold initFirst dueInits
  split
  · unfold attempt
    rfl
  · rfl

section
variable (hturn : header.difficulty ≠ diffInTurn → ∃ v, snap.supposeValidator = .ok v)
include hturn

theorem exec_slashSpoiled : exec (slashSpoiled net q header mining snap) s =
      exec (attempt net q header mining (dueSlash header snap)) s := by
  unfold slashSpoiled dueSlash
  by_cases hd : header.difficulty = diffInTurn
  · rw [if_neg (not_not.mpr hd), if_pos hd]
    rfl
  obtain ⟨v, hv⟩ := hturn hd
  have hval : exec (lifts snap.supposeValidator : Engine World Address) s = (.ok v, s) := by
    rw [hv]
    rfl
  rw [if_pos hd, if_neg hd, exec_bind_ok hval, hv]
  simp only
  split
  · rfl
  · rw [attempt, exec_swallow, exec_swallow, exec_forEach_singleton]
    rfl

theorem exec_openingCalls : exec (openingCalls net q header mining snap) s =
      exec (attempt net q header mining (dueSlash header snap))
        (exec (attempt net q header mining (dueInits header)) s).2 := by
  unfold openingCalls
  rw [exec_bind_ok exec_initFirst, exec_slashSpoiled hturn]

end

theorem finalize_checked
    (h : exec (finalize net q header snap) s = (.ok (), t)) : Checked net header snap := by
  have hepoch : checkEpoch net header = .ok () := by
    cases hcheck : checkEpoch net header with
    | ok _ => rfl
    | error e =>
      unfold finalize at h
      rw [hcheck] at h
      cases h
  refine ⟨hepoch, ?_⟩
  intro hd
  cases hv : snap.supposeValidator with
  | ok v => exact ⟨v, rfl⟩
  | error e =>
    obtain ⟨u, hopen⟩ : ∃ u, exec (openingCalls net q header false snap) s = (.error e, u) := by
      unfold openingCalls slashSpoiled
      rw [exec_bind_ok exec_initFirst, if_pos hd, hv]
      exact ⟨_, exec_bind_error rfl⟩
    have hcalls := ((exec_finalize hepoch).mp h).1
    unfold systemCalls at hcalls
    rw [exec_bind_error hopen] at hcalls
    cases hcalls

/-- What is left of `Finalize` after the opening calls and the registrations. -/
theorem exec_verifier (hchecked : Checked net header snap) {v : BlockState World}
    (hopen : exec (openingCalls net q header false snap) s = (.ok (), u))
    (hpushes : exec (forEach (pushOwners net q header true) (u.txs.filter Tx.creates)) u =
      (.ok (), v)) :
    exec (finalize net q header snap) s = (.ok (), t) ↔
      exec (rewardIfAny net q header false (net.db.getBalance u.world SystemAddress)
        header.coinbase (calledContracts u.txs)) v = (.ok (), t) ∧
      t.receivedTxs.getD [] = [] := by
  rw [exec_finalize hchecked.epoch, systemCalls, exec_bind_ok hopen, exec_distributeIncoming,
    hpushes]

/-! ## Nothing to leave out -/

/-- None of the messages due before the deposit can run, and the loop over the
receipts asks for no registration but the one that is due. -/
structure Idle (net : Network World) (header : Header) (snap : Snapshot) (b : BlockState World) :
    Prop where
  inits : ∀ msg ∈ dueInits header, ¬ Runs net header b.world msg
  slash : ∀ msg ∈ dueSlash header snap, ¬ Runs net header b.world msg
  registrations : ∀ msg ∈ registrations net header b.txs b.receipts, ¬ Runs net header b.world msg
  loop : (∀ tx ∈ b.txs, tx.creates = false) ∨
    ∃ tx, b.txs = [tx] ∧ ownerOf net.pubkeyAddress tx = deployer net header tx

theorem exec_single_push {r : Receipt} (hr : t.receipts = [r]) :
    exec (forEach (pushOwners net q header mining) [tx]) t = exec (attempt net q header mining
        [pushMessage header r.contractAddress (ownerOf net.pubkeyAddress tx)]) t := by
  rw [exec_forEach_singleton, pushOwners, exec_bind_ok (exec_reads _ t), hr, exec_forEach_singleton,
    attempt, exec_swallow, exec_swallow, exec_forEach_singleton]
  rfl

theorem registrations_idle (hlen : b.receipts.length = b.txs.length) (hidle : Idle net header snap b)
    (ht : Waits b received t) :
    ∃ u registered rest,
      exec (forEach (pushOwners net q header true) (t.txs.filter Tx.creates)) t = (.ok (), u) ∧
        Waits b rest u ∧ received = registered ++ rest ∧
        Follows net header b.stage (registrations net header b.txs b.receipts) registered
          b.stage := by
  rw [ht.txs]
  by_cases hnone : b.txs.filter Tx.creates = []
  · rw [hnone]
    exact ⟨t, [], received, rfl, ht, rfl, .of_absent hidle.registrations⟩
  obtain hall | ⟨tx, htxs, howner⟩ := hidle.loop
  · exact absurd (filter_eq_nil_iff.mpr (by simpa using hall)) hnone
  have hcreates : tx.creates = true := by simpa [htxs] using hnone
  obtain ⟨r, hr⟩ := single_receipt hlen htxs
  have hdue : registrations net header b.txs b.receipts =
      [pushMessage header r.contractAddress (ownerOf net.pubkeyAddress tx)] := by
    simp [registrations, deployments, htxs, hr, hcreates, howner]
  have hfilter : b.txs.filter Tx.creates = [tx] := by
    simp [htxs, hcreates]
  rw [hfilter, exec_single_push (ht.receipts.trans hr)]
  have hno := hidle.registrations
  rw [hdue] at hno ⊢
  exact attempt_idle q true hno ht

theorem reward_follows (ht : Waits b received t)
    (hrun : exec (rewardIfAny net q header false balance header.coinbase (calledContracts b.txs)) t
      = (.ok (), u)) (hu : u.receivedTxs.getD [] = []) :
    ∃ s, Follows net header (b.stage.pay net header balance) (dueDeposit header balance b.txs)
      received s := by
  unfold rewardIfAny at hrun
  unfold dueDeposit
  split at hrun
  case isTrue h0 =>
    cases hrun
    rw [ht.received] at hu
    have hnil : received = [] := hu
    rw [if_pos h0, hnil]
    exact ⟨_, .done _⟩
  case isFalse h0 =>
    rw [if_neg h0]
    obtain ⟨tx, rest, hnext, hm, hrest⟩ := apply_taken_of_ok (by simp) hrun
    have hreceived : received = tx :: rest := by
      have heq : t.receivedTxs = some (tx :: rest) := hnext
      rw [ht.received] at heq
      exact Option.some.inj heq
    have hnil : rest = [] := by
      rw [hrest] at hu
      exact hu
    have hm : Matches net (payOut net header balance t.world) _ tx := hm
    rw [ht.world] at hm
    rw [hreceived, hnil]
    exact ⟨_, .present hm (.done _)⟩

theorem prescribed_of_idle (hlen : b.receipts.length = b.txs.length) (hidle : Idle net header snap b)
    (hrun : exec (finalize net q header snap) (b.feed received) = (.ok (), t)) :
    Prescribed net header snap b received := by
  have hchecked := finalize_checked hrun
  have hopen : exec (openingCalls net q header false snap) (b.feed received) = _ :=
    exec_openingCalls hchecked.turn
  obtain ⟨u₁, inits, rest, hrun₁, hu₁, rfl, hinits⟩ :=
    attempt_idle q false hidle.inits (Waits.feed b received)
  obtain ⟨u, slashes, rest, hrun₂, hu, rfl, hslashes⟩ :=
    attempt_idle q false hidle.slash hu₁
  rw [hrun₁, hrun₂] at hopen
  obtain ⟨v, registered, rest, hpushes, hv, rfl, hregistered⟩ := registrations_idle hlen hidle hu
  obtain ⟨hreward, hnil⟩ := (exec_verifier hchecked hopen hpushes).mp hrun
  rw [hu.world, hu.txs] at hreward
  obtain ⟨w, hdeposit⟩ := reward_follows hv hreward hnil
  exact ⟨inits, slashes, registered, rest, _, _, _, w, rfl, hinits, hslashes, hregistered, hdeposit⟩

/-! ## What a proposer may choose -/

theorem Calldata.not_push {data : Calldata} (h : data.isDeposit = true) : data.isPush = false := by
  cases data <;> first | rfl | cases h

/-- The deposit alone, or nothing if there is no reward. -/
def closing (net : Network World) (header : Header) (balance : ℕ) (world : World)
    (txs : List Tx) : List Tx :=
  (dueDeposit header balance txs).map (expectedTx net (payOut net header balance world))

theorem closing_data {world : World}
    (h : tx ∈ closing net header balance world txs) : tx.data.isDeposit = true := by
  obtain ⟨msg, hmsg, rfl⟩ := mem_map.mp h
  rw [dueDeposit_data hmsg]
  rfl

/-- The registrations that the loop asks for. -/
def Asked (net : Network World) (header : Header) (txs : List Tx) (msg : CallMsg) : Prop :=
  ∃ creator ∈ txs.filter Tx.creates, ∃ c,
    msg = pushMessage header c (ownerOf net.pubkeyAddress creator)

theorem push_of_asked (h : ∃ msg, Asked net header txs msg ∧ tx.data = msg.data) :
    tx.data.isPush = true := by
  obtain ⟨_, ⟨creator, -, c, rfl⟩, hdata⟩ := h
  rw [hdata]
  rfl

theorem added_kind {added : List Tx} {world : World} (hpush : ∀ tx ∈ added, tx.data.isPush = true)
    (htx : tx ∈ added ++ closing net header balance world txs) :
    tx.data.isPush = true ∨ tx.data.isDeposit = true := by
  obtain htx | htx := mem_append.mp htx
  · exact .inl (hpush tx htx)
  · exact .inr (closing_data htx)

/-- The deposit of the block can be made, also after registrations that the loop
asks for. -/
def DepositRuns (net : Network World) (header : Header) (b : BlockState World) : Prop :=
  ∀ msgs added s, (∀ msg ∈ msgs, Asked net header b.txs msg) →
    Follows net header b.stage msgs added s →
    ∀ msg ∈ dueDeposit header (net.db.getBalance b.world SystemAddress) b.txs,
      Runs net header (payOut net header (net.db.getBalance b.world SystemAddress) s.world) msg

theorem closing_accepted (hdep : ∀ msg ∈ dueDeposit header balance txs,
      Runs net header (payOut net header balance s.world) msg)
    (hs : s.receivedTxs = some (closing net header balance s.world txs)) :
    ∃ t, exec (rewardIfAny net q header false balance header.coinbase (calledContracts txs)) s =
      (.ok (), t) ∧ t.receivedTxs.getD [] = [] := by
  unfold rewardIfAny
  by_cases h0 : balance = 0
  · rw [if_pos h0]
    refine ⟨s, rfl, ?_⟩
    rw [hs, closing, dueDeposit, if_pos h0]
    rfl
  · rw [if_neg h0, exec_distributeReward]
    obtain ⟨⟨w, g, logs⟩, hcall⟩ :=
      hdep (depositMessage header balance header.coinbase (calledContracts txs)) (by
        rw [dueDeposit, if_neg h0]
        exact mem_singleton_self _)
    have hnext : (paid net header balance s).receivedTxs = some [expectedTx net
        (payOut net header balance s.world)
        (depositMessage header balance header.coinbase (calledContracts txs))] := by
      refine hs.trans ?_
      rw [closing, dueDeposit, if_neg h0]
      rfl
    have htaken : exec (applyTransaction net q header false _) (paid net header balance s) =
      exec (execute net header _ _) _ := exec_apply_taken (by simp) hnext rfl
    exact ⟨_, htaken.trans (exec_execute_ok hcall), rfl⟩

/-- A loop that takes at least `k` transactions of a proposer who adds all that
it asks for, from any state with at least `m` receipts. -/
def Absorbs (net : Network World) (header : Header) (m : ℕ) (asked : CallMsg → Prop)
    (f : Engine World Unit) (k : ℕ) : Prop :=
  ∀ s : BlockState World, m ≤ s.receipts.length →
    ∃ (msgs : List CallMsg) (added : List Tx) (t : BlockState World), k ≤ added.length ∧
      (∀ msg ∈ msgs, asked msg) ∧ Follows net header s.stage msgs added t.stage ∧
      m ≤ t.receipts.length ∧ ∀ rest, exec f (s.feed (added ++ rest)) = (.ok (), t.feed rest)

theorem Absorbs.forEach {α : Type} {m k : ℕ}
    {body : α → Engine World Unit} {xs : List α} (h : ∀ a ∈ xs, Absorbs net header m asked (body a) k) :
    Absorbs net header m asked (forEach body xs) (xs.length * k) := by
  induction xs with
  | nil =>
    intro s hs
    exact ⟨[], [], s, by simp, by simp, .done _, hs, fun _ => rfl⟩
  | cons a rest ih =>
    intro s hs
    obtain ⟨msgs, added, t, hk, hall, hf, ht, hrun⟩ := h a mem_cons_self s hs
    obtain ⟨msgs', later, u, hk', hall', hf', hu, hrun'⟩ :=
      ih (fun b hb => h b (mem_cons_of_mem _ hb)) t ht
    refine ⟨msgs ++ msgs', added ++ later, u, ?_, ?_, hf.append hf', hu, ?_⟩
    · rw [length_append, length_cons, Nat.add_mul, Nat.one_mul]
      omega
    · intro msg hmsg
      exact (mem_append.mp hmsg).elim (hall msg) (hall' msg)
    · intro end_
      rw [append_assoc]
      exact (exec_bind_ok (hrun _)).trans (hrun' end_)

section
variable (hq : q.val ≠ header.coinbase) (m : ℕ)
include hq m

theorem push_absorbs {c o : Address} (h : asked (pushMessage header c o)) :
    Absorbs net header m asked (swallow (pushOwner net q header true c o)) 1 := by
  intro s hs
  let msg := pushMessage header c o
  let tx := expectedTx net s.world msg
  have hcompares : ¬ (msg.sender = q.val ∧ true = true) := by
    rintro ⟨heq, -⟩
    exact hq heq.symm
  have hstage : (exec (execute net header msg tx) (s.issue msg)).2.stage =
        s.stage.take net header msg tx ∧
      m ≤ (exec (execute net header msg tx) (s.issue msg)).2.receipts.length := by
    obtain ⟨e, hrun, hno⟩ | ⟨w, g, logs, hcall, hrun⟩ :=
      execute_cases net header msg tx (s.issue msg)
    · rw [hrun]
      exact ⟨(Stage.take_of_fails (s := s.stage) hno tx).symm, hs⟩
    · rw [hrun]
      have hgrow : (record net header msg tx (s.issue msg) w g logs).receipts.length =
          s.receipts.length + 1 := length_append
      have hcall : net.call (newEVMBlockContext header) msg s.stage.world = .ok (w, g, logs) := hcall
      refine ⟨?_, hgrow ▸ Nat.le_succ_of_le hs⟩
      rw [Stage.take, hcall]
      rfl
  refine ⟨[msg], [tx], (exec (execute net header msg tx) (s.issue msg)).2, le_rfl, ?_, ?_,
    hstage.2, ?_⟩
  · rintro msg' hmsg'
    rw [mem_singleton.mp hmsg']
    exact h
  · rw [hstage.1]
    exact .present rfl (.done _)
  · intro rest
    have htaken : exec (applyTransaction net q header true msg) (s.feed (tx :: rest)) =
        exec (execute net header msg tx) ((s.issue msg).feed rest) :=
      exec_apply_taken hcompares rfl rfl
    refine congrArg (Prod.mk _) ?_
    refine (congrArg Prod.snd htaken).trans ?_
    rw [execute_shadows]

theorem pushOwners_absorbs (htx : tx ∈ txs.filter Tx.creates) :
    Absorbs net header m (Asked net header txs) (pushOwners net q header true tx) m := by
  intro s hs
  have hloop : Absorbs net header m (Asked net header txs)
      (Replay.forEach (fun r : Receipt => swallow (pushOwner net q header true r.contractAddress
        (ownerOf net.pubkeyAddress tx))) s.receipts) (s.receipts.length * 1) := by
    apply Absorbs.forEach
    intro r _
    exact push_absorbs hq m ⟨tx, htx, _, rfl⟩
  obtain ⟨msgs, added, t, hk, hall, hf, ht, hrun⟩ := hloop s hs
  exact ⟨msgs, added, t, by omega, hall, hf, ht, fun rest => hrun rest⟩

end

/-- Registrations and deposits are none of the opening messages. -/
theorem opening_data (snap : Snapshot) (hkind : tx.data.isPush = true ∨ tx.data.isDeposit = true)
    (hmsg : msg ∈ dueInits header ∨ msg ∈ dueSlash header snap) : tx.data ≠ msg.data := by
  intro heq
  rw [heq] at hkind
  obtain hmsg | hmsg := hmsg
  · rw [dueInits_data hmsg] at hkind
    simp [Calldata.isPush, Calldata.isDeposit] at hkind
  · obtain ⟨a, rfl⟩ := dueSlash_data hmsg
    simp [slashMessage, getSystemMessage, Calldata.isPush, Calldata.isDeposit] at hkind

theorem opening_ignored (q : Node) (hchecked : Checked net header snap) (b : BlockState World) :
    ∃ u : BlockState World, u.world = b.world ∧ u.txs = b.txs ∧ u.receipts = b.receipts ∧
      ∀ received : List Tx, (∀ tx ∈ received, tx.data.isPush = true ∨ tx.data.isDeposit = true) →
      exec (openingCalls net q header false snap) (b.feed received) = (.ok (), u.feed received) := by
  have hinits := tried_waits (dueInits header) b []
  have hslash := tried_waits (dueSlash header snap) (tried (dueInits header) b) []
  refine ⟨tried (dueSlash header snap) (tried (dueInits header) b), hslash.world.trans hinits.world,
    hslash.txs.trans hinits.txs, hslash.receipts.trans hinits.receipts, ?_⟩
  intro received hkind
  have hkind : ∀ tx ∈ received.head?, tx.data.isPush = true ∨ tx.data.isDeposit = true :=
    fun tx htx => hkind tx (mem_of_mem_head? htx)
  rw [exec_openingCalls hchecked.turn,
    attempt_ignored (by simp) fun tx htx msg hmsg => opening_data snap (hkind tx htx) (.inl hmsg),
    attempt_ignored (by simp) fun tx htx msg hmsg => opening_data snap (hkind tx htx) (.inr hmsg)]

section
variable {b : BlockState World} (hq : q.val ≠ header.coinbase) (hdep : DepositRuns net header b)
  (hchecked : Checked net header snap)
include hchecked

theorem accepts_closing {u v : BlockState World}
    (hruns : ∀ msg ∈ dueDeposit header (net.db.getBalance b.world SystemAddress) b.txs,
      Runs net header (payOut net header (net.db.getBalance b.world SystemAddress) v.world) msg)
    (hopen : exec (openingCalls net q header false snap) (b.feed received) = (.ok (), u))
    (hworld : u.world = b.world) (htxs : u.txs = b.txs)
    (hpushes : exec (forEach (pushOwners net q header true) (b.txs.filter Tx.creates)) u =
      (.ok (), v))
    (hv : v.receivedTxs = some (closing net header (net.db.getBalance b.world SystemAddress)
      v.world b.txs)) :
    ∃ t, exec (finalize net q header snap) (b.feed received) = (.ok (), t) := by
  obtain ⟨t, hreward, hnil⟩ := closing_accepted (q := q) hruns hv
  rw [← hworld, ← htxs] at hreward
  rw [← htxs] at hpushes
  exact ⟨t, (exec_verifier hchecked hopen hpushes).mpr ⟨hreward, hnil⟩⟩

include hq hdep

/-- A proposer may leave out everything but the deposit. -/
theorem accepts_deposit_alone :
    ∃ t, exec (finalize net q header snap) (b.feed (closing net header
      (net.db.getBalance b.world SystemAddress) b.world b.txs)) = (.ok (), t) := by
  generalize hL : closing net header (net.db.getBalance b.world SystemAddress) b.world b.txs = L
  have hdeposit : ∀ tx ∈ L, tx.data.isDeposit = true := by
    intro tx htx
    rw [← hL] at htx
    exact closing_data htx
  obtain ⟨u, hworld, htxs, hreceipts, hopen⟩ := opening_ignored q hchecked b
  have hwaits : Waits b L (u.feed L) := ⟨hworld, htxs, hreceipts, rfl⟩
  have hskip : Preserves (Waits b L)
      (forEach (pushOwners net q header true) (b.txs.filter Tx.creates)) := by
    apply pushes_ignored hq
    intro tx htx
    exact Calldata.not_push (hdeposit tx (mem_of_mem_head? htx))
  have hv := hskip _ hwaits
  apply accepts_closing hchecked _ (hopen L fun tx htx => .inr (hdeposit tx htx)) hworld htxs
    (pushes_run _ _)
  · rw [hv.received, hv.world, hL]
  · rw [hv.world]
    exact hdep [] [] b.stage (by simp) (.done _)

/-- A proposer may add every registration that the loop asks for. -/
theorem accepts_registrations :
    ∃ added world t, (b.txs.filter Tx.creates).length * b.receipts.length ≤ added.length ∧
      (∀ tx ∈ added, ∃ msg, Asked net header b.txs msg ∧ tx.data = msg.data) ∧
      exec (finalize net q header snap) (b.feed (added ++ closing net header
        (net.db.getBalance b.world SystemAddress) world b.txs)) = (.ok (), t) := by
  obtain ⟨u, hworld, htxs, hreceipts, hopen⟩ := opening_ignored q hchecked b
  have habsorb : Absorbs net header b.receipts.length (Asked net header b.txs)
      (forEach (pushOwners net q header true) (b.txs.filter Tx.creates))
      ((b.txs.filter Tx.creates).length * b.receipts.length) :=
    Absorbs.forEach fun tx htx => pushOwners_absorbs hq _ htx
  obtain ⟨msgs, added, v, hlen, hmsgs, hf, -, hrun⟩ :=
    habsorb u (Nat.le_of_eq (congrArg List.length hreceipts.symm))
  rw [BlockState.stage, hworld, htxs] at hf
  have hasked : ∀ tx ∈ added, ∃ msg, Asked net header b.txs msg ∧ tx.data = msg.data := by
    intro tx htx
    obtain ⟨msg, hmsg, hdata⟩ := hf.data_mem tx htx
    exact ⟨msg, hmsgs msg hmsg, hdata⟩
  obtain ⟨t, ht⟩ := accepts_closing (v := v.feed _) hchecked (hdep msgs added v.stage hmsgs hf)
    (hopen _ fun _ => added_kind fun tx htx => push_of_asked (hasked tx htx)) hworld htxs (hrun _) rfl
  exact ⟨added, v.world, t, hlen, hasked, ht⟩

end

/-! ## The registrations among the system transactions -/

theorem Prescribed.no_others (h : Prescribed net header snap b received)
    (hkind : ∀ tx ∈ received, tx.data.isPush = true ∨ tx.data.isDeposit = true) :
    ∃ registered deposits s₃ s₄, received = registered ++ deposits ∧
      (∀ msg ∈ dueInits header, ¬ Runs net header b.world msg) ∧
      (∀ msg ∈ dueSlash header snap, ¬ Runs net header b.world msg) ∧
      Follows net header b.stage (registrations net header b.txs b.receipts) registered s₃ ∧
      Follows net header (s₃.pay net header (net.db.getBalance b.world SystemAddress))
        (dueDeposit header (net.db.getBalance b.world SystemAddress) b.txs) deposits s₄ := by
  obtain ⟨inits, slashes, registered, deposits, s₁, s₂, s₃, s₄, rfl, hinits, hslashes, hregistered,
    hdeposits⟩ := h
  obtain ⟨rfl, rfl, hno⟩ := hinits.none_taken fun tx htx msg hmsg =>
    opening_data snap (hkind tx (mem_append_left _ htx)) (.inl hmsg)
  obtain ⟨rfl, rfl, hno'⟩ := hslashes.none_taken fun tx htx msg hmsg =>
    opening_data snap (hkind tx (mem_append_right _ (mem_append_left _ htx))) (.inr hmsg)
  exact ⟨registered, deposits, s₃, s₄, rfl, hno, hno', hregistered, hdeposits⟩

/-- Registrations and deposits are told apart by their data. -/
theorem filter_isPush {registered deposits : List Tx}
    (hr : ∀ tx ∈ registered, tx.data.isPush = true)
    (hd : ∀ tx ∈ deposits, tx.data.isPush = false) :
    (registered ++ deposits).filter (fun tx => tx.data.isPush) = registered := by
  rw [filter_append, filter_eq_self.mpr hr, filter_eq_nil_iff.mpr, append_nil]
  intro tx htx
  rw [hd tx htx]
  decide

section
variable {b : BlockState World} (hq : q.val ≠ header.coinbase)
  (hlen : b.receipts.length = b.txs.length) (hdep : DepositRuns net header b)
  (hchecked : Checked net header snap)
  (h : ∀ received t, exec (finalize net q header snap) (b.feed received) = (.ok (), t) →
    Prescribed net header snap b received)
include hq hlen hdep hchecked h

theorem loop_of_prescribed :
    (∀ tx ∈ b.txs, tx.creates = false) ∨
      ∃ tx, b.txs = [tx] ∧ ownerOf net.pubkeyAddress tx = deployer net header tx := by
  obtain ⟨added, world, t, hcount, hasked, ht⟩ := accepts_registrations (b := b) hq hdep hchecked
  have hpush : ∀ tx ∈ added, tx.data.isPush = true := fun tx htx => push_of_asked (hasked tx htx)
  obtain ⟨registered, deposits, s₃, s₄, heq, -, -, hregistered, hdeposits⟩ :=
    (h _ t ht).no_others fun _ => added_kind hpush
  have hsame : added = registered := by
    refine (filter_isPush hpush ?_).symm.trans ((congrArg _ heq).trans (filter_isPush ?_ ?_))
    · intro tx htx
      exact Calldata.not_push (closing_data htx)
    · intro tx htx
      obtain ⟨msg, hmsg, hdata⟩ := hregistered.data_mem tx htx
      obtain ⟨c, o, rfl⟩ := registrations_data hmsg
      rw [hdata]
      rfl
    · intro tx htx
      obtain ⟨msg, hmsg, hdata⟩ := hdeposits.data_mem tx htx
      rw [hdata, dueDeposit_data hmsg]
      rfl
  subst hsame
  -- at most one registration for every creation, but one for every receipt was added
  have hle := hregistered.length_le
  rw [length_registrations hlen] at hle
  rw [hlen] at hcount
  obtain hnone | ⟨tx, htxs, hcreates⟩ := single_creation (hcount.trans hle)
  · exact .inl hnone
  refine .inr ⟨tx, htxs, ?_⟩
  obtain ⟨r, hr⟩ := single_receipt hlen htxs
  obtain ⟨first, hfirst⟩ : ∃ first, first ∈ added := by
    apply exists_mem_of_length_pos
    apply Nat.lt_of_lt_of_le _ hcount
    simp [htxs, hcreates]
  obtain ⟨_, ⟨creator, hcreator, c, rfl⟩, hdata⟩ := hasked first hfirst
  obtain ⟨msg, hmsg, hdata'⟩ := hregistered.data_mem first hfirst
  rw [htxs] at hcreator
  obtain rfl : creator = tx := mem_singleton.mp (mem_filter.mp hcreator).1
  have hdue : registrations net header b.txs b.receipts =
      [pushMessage header r.contractAddress (deployer net header creator)] := by
    simp [registrations, deployments, htxs, hr, hcreates]
  rw [hdue, mem_singleton] at hmsg
  rw [hmsg, hdata] at hdata'
  exact (Calldata.pushContractOwner.inj hdata').2

end

/-- A node accepts only what the protocol prescribes if nothing that is due before
the deposit could run. A node other than the proposer accepts something else if that
is not so, and the deposit of the block can be made. -/
theorem accepts_only_prescribed_iff {b : BlockState World}
    (hlen : b.receipts.length = b.txs.length) :
    ((Checked net header snap → Idle net header snap b) →
      ∀ systemTxs t, exec (finalize net q header snap) (b.feed systemTxs) = (.ok (), t) →
        Prescribed net header snap b systemTxs) ∧
    (q.val ≠ header.coinbase → DepositRuns net header b →
      (∀ systemTxs t, exec (finalize net q header snap) (b.feed systemTxs) = (.ok (), t) →
        Prescribed net header snap b systemTxs) →
      Checked net header snap → Idle net header snap b) := by
  constructor
  · intro hidle systemTxs t hrun
    exact prescribed_of_idle hlen (hidle (finalize_checked hrun)) hrun
  · intro hq hdep h hchecked
    obtain ⟨t, ht⟩ := accepts_deposit_alone (b := b) hq hdep hchecked
    obtain ⟨registered, deposits, s₃, s₄, heq, hinits, hslash, hregistered, -⟩ :=
      (h _ t ht).no_others fun tx htx => .inr (closing_data htx)
    refine ⟨hinits, hslash, (hregistered.none_taken ?_).2.2,
      loop_of_prescribed hq hlen hdep hchecked h⟩
    intro tx htx msg hmsg hdata
    obtain ⟨c, o, rfl⟩ := registrations_data hmsg
    have hkind := closing_data (heq ▸ mem_append_left deposits htx)
    rw [hdata] at hkind
    cases hkind

end

/-! ## A slash left out -/

theorem accounts_deposit_runs (header : Header) (b : BlockState Accounts) :
    DepositRuns accountsNet header b := by
  intro msgs added s _ _ msg hmsg
  rw [dueDeposit_data hmsg]
  refine ⟨_, if_neg (Nat.not_lt.mpr ?_)⟩
  simp [payOut, accountsNet, accountsDB, depositMessage, getSystemMessage]

def transfer : Tx := { creation with recipient := some 0x42, data := .raw [] }

/-- A block with one transfer, which paid a fee. -/
def transferred : BlockState Accounts :=
  { deployed with
    txs := [transfer]
    receipts := deployed.receipts.map fun r => { r with txHash := transfer, contractAddress := 0 } }

theorem transferred_idle : Idle accountsNet secondHeader oneValidator transferred where
  inits := by simp [dueInits, secondHeader]
  slash := by simp [dueSlash, secondHeader]
  registrations := by
    have hnone : registrations accountsNet secondHeader transferred.txs transferred.receipts = [] :=
      rfl
    simp [hnone]
  loop := .inl (by decide)

def twoValidators : Snapshot := newSnapshot 1 0 ⟨[1, 2], by decide⟩

theorem twoValidators_turn : twoValidators.supposeValidator = .ok 1 := by
  have hsorted : twoValidators.sorted = [1, 2] := by
    have hset : twoValidators.validators.1 = insert 1 {2} := rfl
    have hle : ∀ b ∈ ({2} : Finset Address), (1 : Address) ≤ b := by
      intro b hb
      rw [Finset.mem_singleton.mp hb]
      decide
    have hnew : (1 : Address) ∉ ({2} : Finset Address) := by
      decide
    rw [Snapshot.sorted, hset, Finset.sort_insert _ hle hnew, Finset.sort_singleton]
  unfold Snapshot.supposeValidator
  rw [hsorted]
  rfl

/-- Validator 2 signs out of turn. -/
def spoiledHeader : Header := { secondHeader with coinbase := 2, difficulty := diffNoTurn }

def bystander : Node := ⟨3, wallet⟩

theorem spoiled_due : dueSlash spoiledHeader twoValidators = [slashMessage spoiledHeader 1] := by
  unfold dueSlash
  rw [twoValidators_turn]
  rfl

theorem spoiled_checked : Checked accountsNet spoiledHeader twoValidators :=
  ⟨rfl, fun _ => ⟨1, twoValidators_turn⟩⟩

theorem spoiled_runs :
    Runs accountsNet spoiledHeader transferred.world (slashMessage spoiledHeader 1) :=
  ⟨_, rfl⟩

/-- In turn and without creations nothing but the deposit is accepted; out of turn
something that is not prescribed is. -/
theorem transferred_prescribed :
    (∃ systemTxs t, exec (finalize accountsNet observer secondHeader oneValidator)
      (transferred.feed systemTxs) = (.ok (), t)) ∧
    (∀ systemTxs t, exec (finalize accountsNet observer secondHeader oneValidator)
      (transferred.feed systemTxs) = (.ok (), t) →
      Prescribed accountsNet secondHeader oneValidator transferred systemTxs) ∧
    ¬ ∀ systemTxs t, exec (finalize accountsNet bystander spoiledHeader twoValidators)
      (transferred.feed systemTxs) = (.ok (), t) →
      Prescribed accountsNet spoiledHeader twoValidators transferred systemTxs := by
  refine ⟨⟨closing accountsNet secondHeader 100000 transferred.world transferred.txs, _, rfl⟩, ?_, ?_⟩
  · exact (accepts_only_prescribed_iff rfl).1 fun _ => transferred_idle
  · intro h
    have hidle := (accepts_only_prescribed_iff rfl).2 (by decide)
      (accounts_deposit_runs spoiledHeader transferred) h spoiled_checked
    exact hidle.slash _ (by rw [spoiled_due]; exact mem_cons_self) spoiled_runs

/-- The slash of validator 1 is due and would run, but a block with the deposit
alone is accepted. -/
theorem dropped_slash_accepted : ∃ systemTxs t,
    exec (finalize accountsNet bystander spoiledHeader twoValidators)
      (transferred.feed systemTxs) = (.ok (), t) ∧
    systemTxs.map Tx.data = [.deposit 2 []] ∧
    dueSlash spoiledHeader twoValidators = [slashMessage spoiledHeader 1] ∧
    Runs accountsNet spoiledHeader transferred.world (slashMessage spoiledHeader 1) ∧
    ¬ Prescribed accountsNet spoiledHeader twoValidators transferred systemTxs := by
  have hq : bystander.val ≠ spoiledHeader.coinbase := by decide
  obtain ⟨t, ht⟩ := accepts_deposit_alone hq (accounts_deposit_runs spoiledHeader transferred)
    spoiled_checked
  refine ⟨_, t, ht, rfl, spoiled_due, spoiled_runs, ?_⟩
  intro h
  obtain ⟨-, -, -, -, -, -, hslash, -⟩ := h.no_others fun tx htx => .inr (closing_data htx)
  rw [spoiled_due] at hslash
  exact hslash _ mem_cons_self spoiled_runs

end Dexit.Parlia
