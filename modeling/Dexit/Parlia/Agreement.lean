import Dexit.Parlia.Signers
import Dexit.Parlia.SystemCalls

/-! A verifier that is fed the system transactions of a proposer does what the
proposer did, unless it holds the proposer's key and the block registers
contracts: then it signs the registrations again and does not take them. -/

namespace Dexit.Parlia

open Go Replay List
open Function

section
variable {World : Type}

/-- The proposer can sign the message and the EVM runs it. -/
def Goes (net : Network World) (p : Node) (header : Header) (world : World) (msg : CallMsg) :
    Prop :=
  (∃ tx, p.signTxFn.sign msg.sender (expectedTx net world msg) net.chainId = .ok tx) ∧
    Runs net header world msg

/-- The next system transaction does not stand for a message that fails now.
Deposits are left out: a deposit that fails ends the block. -/
def tape (net : Network World) (p : Node) (header : Header) : Tape (BlockState World) Tx where
  log := BlockState.txs
  feed := BlockState.feed
  fresh s rest := ∀ tx ∈ rest.head?, ∀ msg : CallMsg, msg.sender = header.coinbase →
    msg.data.isDeposit = false → Matches net s.world msg tx → Goes net p header s.world msg

variable {net : Network World} {p q : Node} {header : Header} {snap : Snapshot} {mining : Bool}
  {msg : CallMsg} {s t : BlockState World}

theorem proposer_cases (net : Network World) (header : Header) (hp : msg.sender = p.val)
    (s : BlockState World) :
    (∃ e, exec (applyTransaction net p header true msg) s = (.error e, s.issue msg) ∧
      ¬ Goes net p header s.world msg) ∨
    ∃ tx w g logs, Matches net s.world msg tx ∧ Goes net p header s.world msg ∧
      net.call (newEVMBlockContext header) msg s.world = .ok (w, g, logs) ∧
      exec (applyTransaction net p header true msg) s =
        (.ok (), record net header msg tx (s.issue msg) w g logs) := by
  cases h : p.signTxFn.sign msg.sender (expectedTx net s.world msg) net.chainId with
  | error e =>
    refine .inl ⟨e, exec_apply_unsigned ⟨hp, rfl⟩ h, ?_⟩
    rintro ⟨⟨tx, htx⟩, -⟩
    rw [h] at htx
    cases htx
  | ok tx =>
    have hsigned : exec (applyTransaction net p header true msg) s =
        exec (execute net header msg tx) (s.issue msg) := exec_apply_signed ⟨hp, rfl⟩ h
    obtain ⟨e, hrun, hno⟩ | ⟨w, g, logs, hcall, hrun⟩ :=
      execute_cases net header msg tx (s.issue msg)
    · exact .inl ⟨e, hsigned.trans hrun, fun hgo => hno hgo.2⟩
    · exact .inr ⟨tx, w, g, logs, sign_matches h, ⟨⟨tx, h⟩, _, hcall⟩, hcall, hsigned.trans hrun⟩

/-! ## A verifier that compares -/

section
variable (hp : p.val = header.coinbase)
include hp

theorem replays_apply (hsender : msg.sender = header.coinbase) (hd : msg.data.isDeposit = false)
    (hq : ¬ (q.val = header.coinbase ∧ mining = true)) :
    Replays (tape net p header) (applyTransaction net p header true msg)
      (applyTransaction net q header mining msg) := by
  have hcompares : ¬ (msg.sender = q.val ∧ mining = true) := by
    rintro ⟨h, hm⟩
    exact hq ⟨h.symm.trans hsender, hm⟩
  intro s rest hfresh
  obtain ⟨e, hrun, hno⟩ | ⟨tx, w, g, logs, hmatch, hgo, hcall, hrun⟩ :=
    proposer_cases net header (hsender.trans hp.symm) s
  · rw [hrun] at hfresh ⊢
    -- the next transaction belongs to a later message
    obtain ⟨e', he'⟩ : ∃ e', exec (applyTransaction net q header mining msg) (s.feed rest) =
        (.error e', (s.feed rest).issue msg) := by
      apply exec_apply_refused hcompares
      intro tx htx hm
      exact hno (hfresh tx htx msg hsender hd hm)
    exact ⟨[], by simp [tape], hfresh, .error e', he', rfl⟩
  · rw [hrun]
    refine ⟨[tx], rfl, ?_, .ok (), ?_, rfl⟩
    · rintro next hnext msg' hsender' - hm'
      cases hnext
      obtain rfl := hmatch.message_eq hm' (hsender'.trans hsender.symm)
      exact hgo
    · have htaken : exec (applyTransaction net q header mining msg) (s.feed (tx :: rest)) =
          exec (execute net header msg tx) ((s.issue msg).feed rest) :=
        exec_apply_taken hcompares rfl hmatch
      exact htaken.trans (exec_execute_ok hcall)

theorem replays_openingCalls :
    Replays (tape net p header) (openingCalls net p header true snap)
      (openingCalls net q header false snap) := by
  apply Replays.bind
  · unfold initFirst
    split
    · apply Replays.swallow
      apply Replays.forEach
      intro c
      exact replays_apply hp rfl rfl (by simp)
    · exact Replays.pure ()
  · intro _
    unfold slashSpoiled
    split
    · apply Replays.bind (Replays.lifts _)
      intro spoiledVal
      split
      · exact Replays.pure ()
      · apply Replays.swallow
        exact replays_apply hp rfl rfl (by simp)
    · exact Replays.pure ()

theorem finishes_reward (balance : ℕ) (contAddr : List Address) :
    Finishes (tape net p header) (rewardIfAny net p header true balance p.val contAddr)
      (rewardIfAny net q header false balance header.coinbase contAddr) := by
  intro s t a hrun
  unfold rewardIfAny at hrun ⊢
  split at hrun
  case isTrue h0 =>
    cases hrun
    rw [if_pos h0]
    exact ⟨[], by simp [tape], by simp [tape], rfl⟩
  case isFalse h0 =>
    rw [if_neg h0]
    rw [exec_distributeReward, hp] at hrun
    obtain ⟨e, hno, -⟩ | ⟨tx, w, g, logs, hmatch, -, hcall, hyes⟩ :=
      proposer_cases net header (show (depositMessage header balance header.coinbase
        contAddr).sender = p.val from hp.symm) (paid net header balance s)
    · rw [hno] at hrun
      cases hrun
    rw [hyes] at hrun
    cases hrun
    refine ⟨[tx], rfl, ?_, ?_⟩
    · rintro next hnext msg' - hd hm
      cases hnext
      rw [← hm.data, hmatch.data] at hd
      cases hd
    · have htaken : exec (applyTransaction net q header false
          (depositMessage header balance header.coinbase contAddr))
          (paid net header balance (s.feed [tx])) = exec (execute net header _ tx) _ :=
        exec_apply_taken (by simp) rfl hmatch
      exact exec_distributeReward.trans (htaken.trans (exec_execute_ok hcall))

theorem finishes_distributeIncoming (hq : q.val ≠ header.coinbase) :
    Finishes (tape net p header) (distributeIncoming net p header true p.val)
      (distributeIncoming net q header false header.coinbase) := by
  apply (Replays.reads fun _ _ => rfl).finishes
  intro world
  apply (Replays.reads fun _ _ => rfl).finishes
  intro txs
  have hpush (tx : Tx) : Replays (tape net p header) (pushOwners net p header true tx)
      (pushOwners net q header true tx) := by
    apply Replays.bind (Replays.reads fun _ _ => rfl)
    intro receipts
    apply Replays.forEach
    intro r
    apply Replays.swallow
    exact replays_apply hp rfl rfl fun h => hq h.1
  apply (Replays.forEach hpush _).finishes
  intro _
  exact finishes_reward hp _ _

/-! ## A verifier that holds the proposer's key -/

/-- Such a node signs the registrations and leaves the received ones alone. -/
theorem own_push_shadows (rest : List Tx) (contract owner : Address) :
    Shadows (BlockState.feed rest) (pushOwner net p header true contract owner)
      (pushOwner net p header true contract owner) := by
  let msg := pushMessage header contract owner
  have hsign : msg.sender = p.val ∧ true = true := ⟨hp.symm, rfl⟩
  intro s
  unfold pushOwner
  cases h : p.signTxFn.sign msg.sender (expectedTx net s.world msg) net.chainId with
  | error e =>
    rw [exec_apply_unsigned hsign h]
    exact exec_apply_unsigned hsign h
  | ok tx =>
    have hfed : exec (applyTransaction net p header true msg) (s.feed rest) =
        exec (execute net header msg tx) ((s.feed rest).issue msg) := exec_apply_signed hsign h
    rw [exec_apply_signed hsign h, hfed]
    exact execute_shadows rest (s.issue _)

theorem own_pushes_shadow (rest : List Tx) (txs : List Tx) :
    Shadows (BlockState.feed rest) (forEach (pushOwners net p header true) txs)
      (forEach (pushOwners net p header true) txs) := by
  apply Shadows.forEach
  intro tx
  apply Shadows.bind
  · exact Shadows.reads fun _ => rfl
  · intro receipts
    apply Shadows.forEach
    intro r
    apply Shadows.swallow
    exact own_push_shadows hp rest _ _

end

variable {balance : ℕ} {val : Address} {contAddr : List Address} {pending : Header} {time : UInt64}

/-- The deposit is not a registration: one that is next stays there. -/
theorem reward_leaves_push {tx : Tx}
    {rest : List Tx} (hnext : s.receivedTxs = some (tx :: rest)) (htx : tx.data.isPush = true)
    (hrun : exec (rewardIfAny net q header false balance val contAddr) s = (.ok (), t)) :
    t.receivedTxs = some (tx :: rest) := by
  unfold rewardIfAny at hrun
  split at hrun
  · cases hrun
    exact hnext
  rw [exec_distributeReward] at hrun
  obtain ⟨e, he⟩ : ∃ e, exec (applyTransaction net q header false
      (depositMessage header balance val contAddr)) (paid net header balance s) =
      (.error e, (paid net header balance s).issue (depositMessage header balance val contAddr)) := by
    apply exec_apply_refused (by simp)
    intro next hmem hm
    have heq : (paid net header balance s).receivedTxs = some (tx :: rest) := hnext
    rw [heq] at hmem
    cases hmem
    rw [hm.data] at htx
    cases htx
  rw [he] at hrun
  cases hrun

/-! ## What each step appends -/

theorem openingCalls_appends :
    Appends BlockState.txs (fun tx => tx.data.isPush = false)
      (openingCalls net p header mining snap) := by
  have hcall : ∀ msg : CallMsg, msg.data.isPush = false →
      Appends BlockState.txs (fun tx => tx.data.isPush = false)
        (applyTransaction net p header mining msg) := by
    intro msg hmsg
    apply (apply_appends net p header mining msg).mono
    intro tx htx
    rw [htx, hmsg]
  apply Appends.bind
  · unfold initFirst
    split
    · apply Appends.swallow
      apply Appends.forEach
      intro c
      exact hcall _ rfl
    · exact Appends.of_eq fun _ => rfl
  · intro _
    unfold slashSpoiled
    split
    · apply Appends.bind
      · apply Appends.of_eq
        intro s
        cases snap.supposeValidator <;> rfl
      · intro spoiledVal
        split
        · exact Appends.of_eq fun _ => rfl
        · apply Appends.swallow
          exact hcall _ rfl
    · exact Appends.of_eq fun _ => rfl

theorem pushes_append (txs : List Tx) :
    Appends BlockState.txs (fun tx => tx.data.isPush = true)
      (forEach (pushOwners net p header mining) txs) := by
  apply Appends.forEach
  intro tx
  apply Appends.bind (Appends.of_eq fun _ => rfl)
  intro receipts
  apply Appends.forEach
  intro r
  apply Appends.swallow
  apply (apply_appends net p header mining _).mono
  intro tx htx
  rw [htx]
  rfl

theorem reward_appends :
    Appends BlockState.txs (fun tx => tx.data.isPush = false)
      (rewardIfAny net p header mining balance val contAddr) := by
  unfold rewardIfAny
  split
  · exact Appends.of_eq fun _ => rfl
  apply Appends.bind (Appends.of_eq fun _ => rfl)
  intro _
  apply (apply_appends net p header mining _).mono
  intro tx htx
  rw [htx]
  rfl

section
variable (hp : p.val = header.coinbase)
include hp

theorem own_distribution (later : List Tx) :
    exec (distributeIncoming net p header false header.coinbase) (s.feed later) =
      exec (rewardIfAny net p header false (net.db.getBalance s.world SystemAddress)
        header.coinbase (calledContracts s.txs))
        ((exec (forEach (pushOwners net p header true) (s.txs.filter Tx.creates)) s).2.feed
          later) := by
  have hpushes : exec (forEach (pushOwners net p header true) (s.txs.filter Tx.creates))
      (s.feed later) = (_, _) := own_pushes_shadow hp later (s.txs.filter Tx.creates) s
  refine exec_distributeIncoming.trans ?_
  rw [BlockState.feed_txs, hpushes]
  rfl

/-- Verifying what a run recorded leads to the same state, exactly when no
registration is in the way. -/
def Echoed (verify : Engine World Unit) (s t : BlockState World) : Prop :=
  ∃ new, t.txs = s.txs ++ new ∧
    ((∀ tx ∈ new, tx.data.isPush = false) → exec verify (s.feed new) = (.ok (), t.feed [])) ∧
    ((∃ tx ∈ new, tx.data.isPush = true) → ∀ u, exec verify (s.feed new) = (.ok (), u) →
      u.receivedTxs.getD [] ≠ [])

theorem distributes_itself
    (hrun : exec (distributeIncoming net p header true p.val) s = (.ok (), t)) :
    Echoed (distributeIncoming net p header false header.coinbase) s t := by
  have hpushes : Appends BlockState.txs (fun tx => tx.data.isPush = true)
      (forEach (pushOwners net p header true) (s.txs.filter Tx.creates)) := pushes_append _
  obtain ⟨pushed, hpushed, hpush⟩ := hpushes s
  rw [exec_distributeIncoming] at hrun
  generalize hu : (exec (forEach (pushOwners net p header true) (s.txs.filter Tx.creates)) s).2 = u
    at hrun hpushed
  have hreward : Finishes (tape net p header) _ (rewardIfAny net p header false _ _ _) :=
    finishes_reward hp (net.db.getBalance s.world SystemAddress) (calledContracts s.txs)
  obtain ⟨paid, hpaid, -, hgo⟩ := hreward u t () hrun
  have hnone : ∀ tx ∈ paid, tx.data.isPush = false := by
    have happ : Appends BlockState.txs (fun tx => tx.data.isPush = false)
      (rewardIfAny net p header true (net.db.getBalance s.world SystemAddress) p.val
        (calledContracts s.txs)) := reward_appends
    obtain ⟨paid', hpaid', hnone⟩ := happ u
    rw [hrun] at hpaid'
    have heq : u.txs ++ paid' = u.txs ++ paid := hpaid'.symm.trans hpaid
    rwa [append_cancel_left heq] at hnone
  refine ⟨pushed ++ paid, ?_, ?_, ?_⟩
  · have hpaid : t.txs = u.txs ++ paid := hpaid
    rw [hpaid, hpushed, append_assoc]
  · intro hno
    have hnil : pushed = [] := by
      cases pushed with
      | nil => rfl
      | cons tx rest =>
        have hyes : tx.data.isPush = true := hpush tx mem_cons_self
        rw [hno tx (by simp)] at hyes
        cases hyes
    rw [own_distribution hp, hu, hnil]
    exact hgo
  · rintro ⟨tx, hmem, htx⟩ v hv
    cases pushed with
    | nil =>
      have hfalse := hnone tx hmem
      rw [hfalse] at htx
      cases htx
    | cons first rest =>
      rw [own_distribution hp, hu] at hv
      have hleft := reward_leaves_push rfl (hpush first mem_cons_self) hv
      rw [hleft]
      simp

/-- The proposer gets through its own system transactions exactly when none of
them registers a contract. -/
theorem follows_itself (hrun : exec (systemCalls net p header true snap p.val) s = (.ok (), t)) :
    Echoed (systemCalls net p header false snap header.coinbase) s t := by
  obtain ⟨_, u, hopen, hrun⟩ := of_exec_bind hrun
  obtain ⟨later, hlater, hyes, hno⟩ := distributes_itself hp hrun
  -- what the proposer records can be followed from any other address
  obtain ⟨a, ha⟩ : ∃ a, a ≠ header.coinbase := by
    by_cases h0 : (0 : Address) = header.coinbase
    · exact ⟨1, by rw [← h0]; decide⟩
    · exact ⟨0, h0⟩
  have helse : Finishes (tape net p header) (distributeIncoming net p header true p.val)
      (distributeIncoming net ⟨a, p.signTxFn⟩ header false header.coinbase) :=
    finishes_distributeIncoming hp ha
  obtain ⟨later', hlater', hfresh, -⟩ := helse u t () hrun
  obtain rfl : later = later' := append_cancel_left (hlater.symm.trans hlater')
  have hback : Replays (tape net p header) (openingCalls net p header true snap)
      (openingCalls net p header false snap) := replays_openingCalls hp
  obtain ⟨new, hnew, -, r, hgo, hr⟩ := hback s later (by rw [hopen]; exact hfresh)
  rw [hopen] at hnew hgo hr
  obtain rfl := toOption_ok hr
  have hgo : exec (openingCalls net p header false snap) (s.feed (new ++ later)) =
    (.ok (), u.feed later) := hgo
  have hopening : ∀ tx ∈ new, tx.data.isPush = false := by
    have happ : Appends BlockState.txs (fun tx => tx.data.isPush = false)
      (openingCalls net p header true snap) := openingCalls_appends
    obtain ⟨new', hnew', hnone⟩ := happ s
    rw [hopen] at hnew'
    rwa [append_cancel_left (hnew'.symm.trans hnew)] at hnone
  have hall : exec (systemCalls net p header false snap header.coinbase)
      (s.feed (new ++ later)) = exec (distributeIncoming net p header false header.coinbase)
        (u.feed later) := by
    rw [systemCalls, exec_bind_ok hgo]
  refine ⟨new ++ later, ?_, ?_, ?_⟩
  · have hnew : u.txs = s.txs ++ new := hnew
    rw [hlater, hnew, append_assoc]
  · intro hnone
    rw [hall]
    exact hyes fun tx htx => hnone tx (mem_append_right _ htx)
  · rintro ⟨tx, hmem, htx⟩
    rw [hall]
    apply hno
    obtain hmem | hmem := mem_append.mp hmem
    · rw [hopening tx hmem] at htx
      cases htx
    · exact ⟨tx, hmem, htx⟩

end

/-! ## The header -/

section
variable (header : Header) (signature : List UInt8) {vanity validators room : List UInt8}
  (hextra : header.extra.1 = vanity ++ validators ++ room) (hroom : room.length = extraSeal)
include hextra hroom

theorem signed_extra :
    (header.signed signature).extra.1 = vanity ++ validators ++ copy room signature := by
  have hlen : header.extra.1.length - extraSeal = (vanity ++ validators).length := by
    rw [hextra, length_append, hroom, Nat.add_sub_cancel]
  simp only [Header.signed, hlen]
  rw [hextra, take_left, drop_left]

theorem signed_sub (hvanity : vanity.length = extraVanity) :
    ∃ bytes, (header.signed signature).extra.sub extraVanity
      ((header.signed signature).extra.1.length - extraSeal) = some bytes ∧
      bytes.1 = validators := by
  rw [signed_extra header signature hextra hroom, length_append, length_copy, hroom,
    Nat.add_sub_cancel, ← hvanity]
  exact Slice.sub_append (signed_extra header signature hextra hroom)

end

theorem length_vanityOf : (vanityOf net header).length = extraVanity := by
  unfold vanityOf
  rw [length_append, (net.nextForkHash header.number64).2, length_take,
    length_append, length_replicate]
  simp only [extraVanity, nextForkHashSize]
  omega

theorem prepare_cases (h : prepare net p pending snap time = .ok header) :
    ∃ validators difficulty extra, epochBytes net pending = .ok validators ∧
      calcDifficulty snap p.val = .ok difficulty ∧
      extra.1 = vanityOf net pending ++ validators ++ List.replicate extraSeal 0 ∧
      header = { pending with
        coinbase := p.val, difficulty := difficulty, extra := extra, mixDigest := 0, time := time } := by
  obtain ⟨difficulty, hdiff, h⟩ := Outcome.bind_ok.mp h
  obtain ⟨validators, hval, h⟩ := Outcome.bind_ok.mp h
  simp only at h
  split at h
  · split at h
    · cases h
    · cases h
      exact ⟨validators, difficulty, _, hval, hdiff, rfl, rfl⟩
  · cases h

/-- A header that was prepared and signed announces the validators that a
verifier expects. -/
theorem prepared_checkEpoch
    (h : prepare net p pending snap time = .ok header) (gasUsed : UInt64) (uncles : Hash)
    (signature : List UInt8) :
    checkEpoch net (Header.signed { header with gasUsed := gasUsed, uncleHash := uncles }
      signature) = .ok () := by
  obtain ⟨validators, difficulty, extra, hval, -, hextra, rfl⟩ := prepare_cases h
  obtain ⟨bytes, hsub, hbytes⟩ := signed_sub { pending with
    coinbase := p.val, difficulty, extra, mixDigest := 0, time, gasUsed, uncleHash := uncles }
    signature hextra length_replicate length_vanityOf
  unfold epochBytes at hval
  by_cases hepoch : pending.number64 % net.parlia.epoch = 0
  · rw [if_pos hepoch] at hval
    cases hcur : net.getCurrentValidators pending.parentHash with
    | error e =>
      rw [hcur] at hval
      cases hval
    | ok current =>
      rw [hcur] at hval
      cases hval
      refine (if_pos hepoch).trans ?_
      refine (congrArg (· >>= _) hcur).trans ?_
      simp only [Outcome.ok_bind, hsub]
      exact if_neg (not_not.mpr hbytes)
  · exact if_neg hepoch

theorem assembled {block : Block}
    (h : exec (finalizeAndAssemble net p header snap) s = (.ok block, t)) :
    ∃ u, exec (systemCalls net p header true snap p.val) s = (.ok (), u) ∧
      block.header = { header with gasUsed := u.usedGas, uncleHash := uncleHash } ∧
      block.transactions = u.txs ∧
      t.receipts = u.receipts ∧
      net.db.intermediateRoot (net.isEIP158 header.number) u.world = (t.world, block.root) := by
  unfold finalizeAndAssemble at h
  obtain ⟨_, u, hrun, h⟩ := of_exec_bind h
  rw [exec_bind_ok (exec_reads _ u)] at h
  split at h
  · cases h
  · cases h
    exact ⟨u, hrun, rfl, rfl, rfl, rfl⟩

end

/-! ## Agreement -/

section
variable {World : Type}

/-- The transactions of a block after those it was assembled from. -/
def Block.systemTxs (block : Block) (b : BlockState World) : List Tx :=
  block.transactions.drop b.txs.length

/-- After the common transactions of the block, a node that finalizes it gets
to the transactions, receipts, gas and state of the proposer. -/
def Reproduces (net : Network World) (q : Node) (header : Header) (snap : Snapshot)
    (b : BlockState World) (block : Block) (assembled : BlockState World) : Prop :=
  ∃ u, exec (finalize net q header snap) (b.feed (block.systemTxs b)) = (.ok (), u) ∧
    u.receivedTxs = some [] ∧ u.txs = block.transactions ∧ u.receipts = assembled.receipts ∧
    u.usedGas = block.header.gasUsed ∧
    net.db.intermediateRoot (net.isEIP158 header.number) u.world = (assembled.world, block.root)

/-- A node reproduces the block of a proposer exactly when it does not hold the
proposer's key or the block registers no contract. -/
theorem proposal_reproduced_iff {net : Network World} {p q : Node} {snap : Snapshot}
    {pending header : Header} {time : UInt64} {b t : BlockState World} {block : Block}
    (hprepared : prepare net p pending snap time = .ok header)
    (hassembled : exec (finalizeAndAssemble net p header snap) b = (.ok block, t))
    (hown : q.val = p.val → q = p) (signature : List UInt8) :
    Reproduces net q (block.header.signed signature) snap b block t ↔
      ¬ (q.val = header.coinbase ∧ ∃ tx ∈ block.systemTxs b, tx.data.isPush = true) := by
  have hp : p.val = header.coinbase := by
    obtain ⟨-, -, -, -, -, -, rfl⟩ := prepare_cases hprepared
    rfl
  obtain ⟨u, hrun, hheader, htxs, hreceipts, hroot⟩ := assembled hassembled
  have hfinal : ∀ s v, exec (finalize net q (block.header.signed signature) snap) s = (.ok (), v) ↔
      exec (systemCalls net q header false snap header.coinbase) s = (.ok (), v) ∧
        v.receivedTxs.getD [] = [] := by
    intro s v
    rw [hheader, exec_finalize (prepared_checkEpoch hprepared _ _ _)]
    -- the system calls look neither at the gas used nor at the extra data
    rfl
  have hreproduces : exec (systemCalls net q header false snap header.coinbase)
      (b.feed (block.systemTxs b)) = (.ok (), u.feed []) →
      Reproduces net q (block.header.signed signature) snap b block t := by
    intro hgo
    refine ⟨u.feed [], (hfinal _ _).mpr ⟨hgo, rfl⟩, rfl, htxs.symm, hreceipts.symm, ?_, ?_⟩
    · rw [hheader]
      rfl
    · rw [hheader]
      exact hroot
  by_cases hq : q.val = header.coinbase
  · obtain rfl : q = p := hown (hq.trans hp.symm)
    obtain ⟨new, hnew, hyes, hno⟩ := follows_itself hp hrun
    have hsystem : block.systemTxs b = new := by
      rw [Block.systemTxs, htxs, hnew, drop_left]
    constructor
    · rintro ⟨v, hv, -⟩ ⟨-, hpush⟩
      rw [hsystem] at hv hpush
      obtain ⟨hv, hnil⟩ := (hfinal _ _).mp hv
      exact hno hpush v hv hnil
    · intro hnone
      apply hreproduces
      rw [hsystem]
      apply hyes
      intro tx htx
      by_contra hpush
      rw [hsystem] at hnone
      exact hnone ⟨hq, tx, htx, by simpa using hpush⟩
  · constructor
    · rintro - ⟨h, -⟩
      exact hq h
    · intro _
      obtain ⟨new, hnew, -, hgo⟩ := ((replays_openingCalls hp).finishes fun _ =>
        finishes_distributeIncoming hp hq) b u () hrun
      have hnew : u.txs = b.txs ++ new := hnew
      have hsystem : block.systemTxs b = new := by
        rw [Block.systemTxs, htxs, hnew, drop_left]
      apply hreproduces
      rw [hsystem]
      exact hgo

end

/-! ## A chain of accounts -/

/-- Accounts without code: a call moves its value. -/
structure Accounts where
  nonce : Address → UInt64
  balance : Address → ℕ

def Accounts.move (w : Accounts) (sender recipient : Address) (value : ℕ) : Accounts :=
  let left := update w.balance sender (w.balance sender - value)
  { w with balance := update left recipient (left recipient + value) }

def accountsDB : StateDB Accounts where
  getNonce w a := w.nonce a
  setNonce w a n := { w with nonce := update w.nonce a n }
  getBalance w a := w.balance a
  setBalance w a n := { w with balance := update w.balance a n }
  addBalance w a n := { w with balance := update w.balance a (w.balance a + n) }
  finalise _ w := w
  intermediateRoot _ w := (w, 0)

/-- No fork is ahead. -/
def noFork : { bytes : List UInt8 // bytes.length = nextForkHashSize } := ⟨[0, 0, 0, 0], rfl⟩

def accountsNet : Network Accounts where
  chainId := 56
  parlia := plainConfig
  isByzantium _ := true
  isEIP158 _ := true
  signer _ := .EIP155Signer 56
  pubkeyAddress _ _ _ _ := some 7
  db := accountsDB
  call _ msg w :=
    if w.balance msg.sender < msg.value then .error .failedCall
    else .ok (w.move msg.sender msg.recipient msg.value, msg.gas - 21000, [])
  chain := ⟨fun _ _ => some (blockBy 1 1 0)⟩
  getCurrentValidators _ := .ok [1]
  nextForkHash _ := noFork

def wallet : SignerTxFn where
  sign _ tx chainId := .ok { tx with v := 2 * chainId + 35, r := 1, s := 1 }
  keeps h := by
    cases h
    exact ⟨_, _, _, rfl⟩

def proposer : Node := ⟨1, wallet⟩
def observer : Node := ⟨2, wallet⟩

def oneValidator : Snapshot := newSnapshot 1 0 ⟨[1], by decide⟩

def creation : Tx where
  type := .LegacyTxType
  nonce := 0
  gasPrice := 1
  gas := 100000
  recipient := none
  value := 0
  data := .raw [0x60]
  chainIdField := 0
  accessList := []
  v := 147
  r := 1
  s := 1

/-- A block with one transaction that created the contract 0x42 and paid a fee. -/
def deployed : BlockState Accounts where
  world := ⟨fun _ => 0, fun a => if a = SystemAddress then 100000 else 0⟩
  txs := [creation]
  receipts := [{
    postState := none
    cumulativeGasUsed := 100000
    txHash := creation
    gasUsed := 100000
    logs := []
    blockNumber := 2
    transactionIndex := 0
    contractAddress := 0x42 }]
  receivedTxs := none
  usedGas := 100000
  issued := []

theorem oneValidator_turn : oneValidator.supposeValidator = .ok 1 := by
  have hsorted : oneValidator.sorted = [1] := Finset.sort_singleton _ _
  unfold Snapshot.supposeValidator
  rw [hsorted]
  rfl

theorem oneValidator_difficulty : calcDifficulty oneValidator 1 = .ok diffInTurn := by
  unfold calcDifficulty Snapshot.inturn
  rw [oneValidator_turn]
  rfl

def secondHeader : Header where
  parentHash := 0
  coinbase := 1
  difficulty := diffInTurn
  number := 2
  gasLimit := 30000000
  gasUsed := 0
  time := 3
  extra := ⟨List.replicate 97 0, by decide⟩

theorem secondHeader_prepared :
    prepare accountsNet proposer (blockBy 1 2 0) oneValidator 3 = .ok secondHeader := by
  unfold prepare
  have hdiff : calcDifficulty oneValidator proposer.val = .ok diffInTurn := oneValidator_difficulty
  rw [hdiff]
  rfl

/-- Another node reproduces a block that registers a contract. -/
theorem registration_reproduced_elsewhere : ∃ block t,
    exec (finalizeAndAssemble accountsNet proposer secondHeader oneValidator) deployed =
      (.ok block, t) ∧
    block.transactions.map Tx.data = [.raw [0x60], .pushContractOwner 0x42 7, .deposit 1 []] ∧
    Reproduces accountsNet observer (block.header.signed []) oneValidator deployed block t := by
  have hne : observer.val ≠ proposer.val := by decide
  refine ⟨_, _, rfl, rfl, ?_⟩
  apply (proposal_reproduced_iff secondHeader_prepared rfl (fun h => absurd h hne) []).mpr
  rintro ⟨h, -⟩
  exact hne h

/-- The proposer itself refuses the same block: it has signed the registration
again and finds it in the place of the deposit. -/
theorem own_registration_refused : ∃ block t,
    prepare accountsNet proposer (blockBy 1 2 0) oneValidator 3 = .ok secondHeader ∧
    exec (finalizeAndAssemble accountsNet proposer secondHeader oneValidator) deployed =
      (.ok block, t) ∧
    (exec (finalize accountsNet proposer (block.header.signed []) oneValidator)
      (deployed.feed (block.systemTxs deployed))).1 = .error .unexpectedTransaction ∧
    ¬ Reproduces accountsNet proposer (block.header.signed []) oneValidator deployed block t := by
  refine ⟨_, _, secondHeader_prepared, rfl, rfl, ?_⟩
  rintro ⟨u, hu, -⟩
  have hfails := congrArg Prod.fst hu
  cases hfails

end Dexit.Parlia
