import Dexit.Go.Map

/-!
# The loop that schedules reorg runs

`scheduleReorgLoop` (core/tx_pool.go) answers reset and promote requests with a
channel, collects transaction events, and hands what has come in since the last
launch to one background `runReorg` at a time. What the run does with its
arguments is not modelled here: for the loop it is a goroutine that closes its
channel at some point. A request and the receive of its answer are one step,
since the loop sends the answer before it looks at anything else, and only the
requester it has just served is waiting for one.

`batch` is the part of the record between two launches, and `Merges` says what
the arguments of a run are made of.
-/

namespace Dexit.TxPool

open Go Option

variable (Head Addr Tx : Type)

structure ResetRequest where
  oldHead : Head
  newHead : Head
  deriving DecidableEq

/-- What is sent to the loop: `reqResetCh`, `reqPromoteCh` and `queueTxEventCh`. -/
inductive Request where
  | reset (req : ResetRequest Head)
  | promote (set : StructSet Addr)
  | event (tx : Tx)

/-- The arguments of a `runReorg`. Channels are numbers. -/
structure Reorg where
  done : ℕ
  reset : Option (ResetRequest Head)
  dirtyAccounts : Option (StructSet Addr)
  events : Map Addr (Map ℕ Tx)

/-- A request that the loop has taken, with the `nextDone` of that moment (which is
the answer to it, except for an event) and the number of runs started before. -/
structure Answer where
  request : Request Head Addr Tx
  nextDone : ℕ
  launched : ℕ

/-- The variables of the loop, then what is around it: the number of channels made,
the runs started so far, the channels closed and the requests taken. -/
structure Loop where
  curDone : Option ℕ
  nextDone : ℕ
  launchNextRun : Bool
  reset : Option (ResetRequest Head)
  dirtyAccounts : Option (StructSet Addr)
  queuedEvents : Map Addr (Map ℕ Tx)
  made : ℕ
  runs : List (Reorg Head Addr Tx)
  closed : List ℕ
  record : List (Answer Head Addr Tx)

/-- What can happen before shutdown: a request arrives, a background run returns and
closes its channel, the loop sees that `curDone` is closed. -/
inductive Event where
  | request (req : Request Head Addr Tx)
  | finish (done : ℕ)
  | wake

variable {Head Addr Tx}

def Request.isEvent : Request Head Addr Tx → Bool
  | .event _ => true
  | _ => false

namespace Loop

def start : Loop Head Addr Tx where
  curDone := none
  nextDone := 0
  launchNextRun := false
  reset := none
  dirtyAccounts := none
  queuedEvents := ∅
  made := 1
  runs := []
  closed := []
  record := []

/-- The top of the loop: launch the next background reorg if needed. -/
def launch (s : Loop Head Addr Tx) : Loop Head Addr Tx :=
  if s.curDone = none ∧ s.launchNextRun then
    { s with
      runs := s.runs ++ [⟨s.nextDone, s.reset, s.dirtyAccounts, s.queuedEvents⟩]
      curDone := some s.nextDone
      nextDone := s.made
      made := s.made + 1
      launchNextRun := false
      reset := none
      dirtyAccounts := none
      queuedEvents := ∅ }
  else s

/-- At its `select` the loop has nothing left to launch. -/
def AtSelect (s : Loop Head Addr Tx) : Prop := s.launchNextRun = true → s.curDone ≠ none

theorem atSelect_launch {s : Loop Head Addr Tx} : s.launch.AtSelect := by
  unfold Loop.launch
  split
  · intro hfalse
    exact nomatch hfalse
  · next hno =>
    intro hl hc
    exact hno ⟨hc, hl⟩

/-- Reset request: update head if request is already pending. -/
def updateReset (reset : Option (ResetRequest Head)) (req : ResetRequest Head) : ResetRequest Head :=
  match reset with
  | none => req
  | some reset => { reset with newHead := req.newHead }

variable [DecidableEq Addr]

/-- `accountSet.merge`. -/
def merge (set other : StructSet Addr) : StructSet Addr := set.addAll other.keys

/-- Promote request: update address set if request is already pending. -/
def updateDirty (dirtyAccounts : Option (StructSet Addr)) (req : StructSet Addr) : StructSet Addr :=
  match dirtyAccounts with
  | none => req
  | some dirtyAccounts => merge dirtyAccounts req

section Steps
variable (sender : Tx → Addr) (nonce : Tx → ℕ)

/-- The branches of the `select` that receive a request. -/
def take (s : Loop Head Addr Tx) (req : Request Head Addr Tx) : Loop Head Addr Tx :=
  let s' : Loop Head Addr Tx :=
    { s with record := s.record ++ [⟨req, s.nextDone, s.runs.length⟩] }
  match req with
  | .reset req =>
    { s' with
      reset := some (updateReset s.reset req)
      launchNextRun := true }
  | .promote set =>
    { s' with
      dirtyAccounts := some (updateDirty s.dirtyAccounts set)
      launchNextRun := true }
  | .event tx =>
    -- queue up the event, but don't schedule a reorg
    { s' with queuedEvents := s.queuedEvents.put (sender tx) (nonce tx) tx }

/-- One event, `none` where it cannot happen. The loop is back at its `select`
afterwards. -/
def step (s : Loop Head Addr Tx) : Event Head Addr Tx → Option (Loop Head Addr Tx)
  | .request req => some (s.take sender nonce req).launch
  | .finish done =>
    if done ∈ s.runs.map Reorg.done ∧ done ∉ s.closed then
      some { s with closed := done :: s.closed }
    else none
  | .wake =>
    match s.curDone with
    | none => none
    | some c => if c ∈ s.closed then some { s with curDone := none }.launch else none

/-- The loop under a sequence of events. -/
def run (s : Loop Head Addr Tx) (es : List (Event Head Addr Tx)) : Option (Loop Head Addr Tx) :=
  es.foldlM (step sender nonce) s

end Steps

end Loop

/-! ## What a run is made of -/

def resets (as : List (Answer Head Addr Tx)) : List (ResetRequest Head) :=
  as.filterMap fun a => match a.request with
    | .reset req => some req
    | _ => none

def promotes (as : List (Answer Head Addr Tx)) : List (StructSet Addr) :=
  as.filterMap fun a => match a.request with
    | .promote set => some set
    | _ => none

def queued (as : List (Answer Head Addr Tx)) : List Tx :=
  as.filterMap fun a => match a.request with
    | .event tx => some tx
    | _ => none

/-- The requests that were answered with channel `c`, and the events taken meanwhile. -/
def batch (as : List (Answer Head Addr Tx)) (c : ℕ) : List (Answer Head Addr Tx) :=
  as.filter fun a => a.nextDone = c

variable [DecidableEq Addr]

/-- The last event of an account and nonce. -/
def lastEvent (sender : Tx → Addr) (nonce : Tx → ℕ) (txs : List Tx) (a : Addr) (n : ℕ) : Option Tx :=
  (txs.filter fun tx => sender tx = a ∧ nonce tx = n).getLast?

/-- The arguments are those of the requests `as` together: the old head of the first
reset and the new head of the last one, the union of the promote sets, and for each
account and nonce the last event. -/
structure Merges (sender : Tx → Addr) (nonce : Tx → ℕ) (as : List (Answer Head Addr Tx))
    (reset : Option (ResetRequest Head)) (dirtyAccounts : Option (StructSet Addr))
    (events : Map Addr (Map ℕ Tx)) : Prop where
  oldHead : reset.map ResetRequest.oldHead = (resets as).head?.map ResetRequest.oldHead
  newHead : reset.map ResetRequest.newHead = (resets as).getLast?.map ResetRequest.newHead
  dirty : ∀ a, (∃ set, dirtyAccounts = some set ∧ a ∈ set) ↔ ∃ set ∈ promotes as, a ∈ set
  event : ∀ a n, (events.inner a).lookup n = lastEvent sender nonce (queued as) a n

section Merging
variable {sender : Tx → Addr} {nonce : Tx → ℕ} {as : List (Answer Head Addr Tx)}
  {reset : Option (ResetRequest Head)} {dirtyAccounts : Option (StructSet Addr)}
  {events : Map Addr (Map ℕ Tx)} {c k : ℕ}

theorem merges_nil : Merges sender nonce ([] : List (Answer Head Addr Tx)) none none ∅ where
  oldHead := rfl
  newHead := rfl
  dirty := by simp [promotes]
  event := fun a n => by
    rfl

section
variable (h : Merges sender nonce as reset dirtyAccounts events)
include h

theorem Merges.reset_taken (req : ResetRequest Head) :
    Merges sender nonce (as ++ [⟨.reset req, c, k⟩])
      (some (Loop.updateReset reset req)) dirtyAccounts events where
  oldHead := by
    have hr : resets (as ++ [⟨.reset req, c, k⟩]) = resets as ++ [req] := by simp [resets]
    have hold := h.oldHead
    cases reset <;> cases hhead : (resets as).head? <;> simp_all [Loop.updateReset]
  newHead := by
    have hr : resets (as ++ [⟨.reset req, c, k⟩]) = resets as ++ [req] := by simp [resets]
    rw [hr, List.getLast?_concat]
    cases reset <;> rfl
  dirty := by simpa [promotes] using h.dirty
  event := by simpa [queued] using h.event

theorem Merges.promote_taken (set : StructSet Addr) :
    Merges sender nonce (as ++ [⟨.promote set, c, k⟩]) reset
      (some (Loop.updateDirty dirtyAccounts set)) events where
  oldHead := by simpa [resets] using h.oldHead
  newHead := by simpa [resets] using h.newHead
  dirty := by
    intro a
    have hp : promotes (as ++ [⟨.promote set, c, k⟩]) = promotes as ++ [set] := by simp [promotes]
    have hdirty := h.dirty a
    simp only [hp, List.mem_append, List.mem_singleton, or_and_right, exists_or, exists_eq_left]
    rw [← hdirty]
    cases dirtyAccounts with
    | none => simp [Loop.updateDirty]
    | some dirty =>
      simp only [some.injEq, exists_eq_left', Loop.updateDirty, Loop.merge, StructSet.mem_addAll]
      exact or_comm
  event := by simpa [queued] using h.event

theorem Merges.event_taken (tx : Tx) :
    Merges sender nonce (as ++ [⟨.event tx, c, k⟩]) reset dirtyAccounts
      (events.put (sender tx) (nonce tx) tx) where
  oldHead := by simpa [resets] using h.oldHead
  newHead := by simpa [resets] using h.newHead
  dirty := by simpa [promotes] using h.dirty
  event := by
    intro a n
    have hq : queued (as ++ [⟨.event tx, c, k⟩]) = queued as ++ [tx] := by simp [queued]
    rw [hq, lastEvent, List.filter_append]
    by_cases hkey : sender tx = a ∧ nonce tx = n
    · obtain ⟨rfl, rfl⟩ := hkey
      simp [Map.put, Map.inner_insert]
    have hold := h.event a n
    rw [lastEvent] at hold
    have hnil : [tx].filter (fun tx => sender tx = a ∧ nonce tx = n) = [] := by simp [hkey]
    rw [hnil, List.append_nil, ← hold, Map.put, Map.inner_insert]
    split
    · next ha =>
      subst ha
      exact AList.lookup_insert_ne fun hn => hkey ⟨rfl, hn.symm⟩
    · rfl

end

end Merging

/-- What a requester gets of a run, `later` being the rest of its batch: a reset to the
head it asked for or to that of a later request, its accounts, or the event, unless
another one of the same account and nonce came after it. -/
def Covers (sender : Tx → Addr) (nonce : Tx → ℕ) (r : Reorg Head Addr Tx)
    (later : List (Answer Head Addr Tx)) : Request Head Addr Tx → Prop
  | .reset req => ∃ reset ∈ r.reset, ∃ req' ∈ req :: resets later, reset.newHead = req'.newHead
  | .promote set => ∀ a ∈ set, ∃ dirty ∈ r.dirtyAccounts, a ∈ dirty
  | .event tx => (∀ tx' ∈ queued later, ¬ (sender tx' = sender tx ∧ nonce tx' = nonce tx)) →
      (r.events.inner (sender tx)).lookup (nonce tx) = some tx

/-- A run whose arguments are those of a batch covers every request of it. -/
theorem Merges.covers {sender : Tx → Addr} {nonce : Tx → ℕ} {r : Reorg Head Addr Tx}
    {before later : List (Answer Head Addr Tx)} {a : Answer Head Addr Tx}
    (h : Merges sender nonce (before ++ a :: later) r.reset r.dirtyAccounts r.events) :
    Covers sender nonce r later a.request := by
  obtain ⟨req, c, k⟩ := a
  cases req with
  | reset req =>
    have hr : resets (before ++ ⟨.reset req, c, k⟩ :: later) =
        resets before ++ req :: resets later := by simp [resets]
    have hnew := h.newHead
    rw [hr, List.getLast?_append_of_ne_nil _ (List.cons_ne_nil _ _),
      List.getLast?_eq_some_getLast (List.cons_ne_nil _ _), map_some,
      map_eq_some_iff] at hnew
    obtain ⟨reset, hreset, hnew⟩ := hnew
    exact ⟨reset, hreset, _, List.getLast_mem _, hnew⟩
  | promote set =>
    intro acc hacc
    exact (h.dirty acc).mpr ⟨set, by simp [promotes], hacc⟩
  | event tx =>
    intro hlast
    have hq : queued (before ++ ⟨.event tx, c, k⟩ :: later) =
        queued before ++ tx :: queued later := by simp [queued]
    have hnone : (queued later).filter
        (fun tx' => sender tx' = sender tx ∧ nonce tx' = nonce tx) = [] := by
      rw [List.filter_eq_nil_iff]
      intro tx' htx'
      simpa using hlast tx' htx'
    rw [h.event, hq, lastEvent, List.filter_append, List.filter_cons_of_pos (by simp), hnone,
      List.getLast?_concat]

/-! ## The invariant of the loop -/

namespace Loop
variable {sender : Tx → Addr} {nonce : Tx → ℕ} {s s' : Loop Head Addr Tx}

/-- Channel `i` is made for run `i`, and holds the requests between launch `i - 1` and
launch `i`. -/
structure Inv (sender : Tx → Addr) (nonce : Tx → ℕ) (s : Loop Head Addr Tx) : Prop where
  next : s.nextDone = s.runs.length
  fresh : s.made = s.runs.length + 1
  done : ∀ i (r : Reorg Head Addr Tx), s.runs[i]? = some r → r.done = i
  closed_lt : ∀ c ∈ s.closed, c < s.runs.length
  active : ∀ c < s.runs.length, c ∈ s.closed ∨ s.curDone = some c
  taken : ∀ a ∈ s.record, a.nextDone = a.launched ∧ a.launched ≤ s.runs.length
  wanted : ∀ a ∈ s.record, a.launched = s.runs.length → a.request.isEvent = false →
    s.launchNextRun = true
  run_args : ∀ i (r : Reorg Head Addr Tx), s.runs[i]? = some r →
    Merges sender nonce (batch s.record i) r.reset r.dirtyAccounts r.events
  next_args : Merges sender nonce (batch s.record s.runs.length) s.reset s.dirtyAccounts
    s.queuedEvents

theorem inv_start : (start : Loop Head Addr Tx).Inv sender nonce where
  next := rfl
  fresh := rfl
  done := by simp [start]
  closed_lt := by simp [start]
  active := by simp [start]
  taken := by simp [start]
  wanted := by simp [start]
  run_args := by simp [start]
  next_args := merges_nil

section
variable (h : s.Inv sender nonce)
include h

theorem batch_eq_nil {c : ℕ} (hc : s.runs.length < c) : batch s.record c = [] := by
  rw [batch, List.filter_eq_nil_iff]
  intro a ha hac
  have htaken := h.taken a ha
  simp only [decide_eq_true_eq] at hac
  omega

theorem Inv.launch : s.launch.Inv sender nonce := by
  unfold Loop.launch
  split
  case isFalse => exact h
  case isTrue hgo =>
    -- the run that starts takes the arguments collected so far, under the channel kept for it
    have hruns : ∀ i r, (s.runs ++ [⟨s.nextDone, s.reset, s.dirtyAccounts, s.queuedEvents⟩])[i]? = some r →
        s.runs[i]? = some r ∨
          i = s.runs.length ∧ r = ⟨s.nextDone, s.reset, s.dirtyAccounts, s.queuedEvents⟩ := by
      intro i r hi
      rw [List.getElem?_append] at hi
      split at hi
      · exact .inl hi
      next hlt =>
      rw [List.getElem?_singleton] at hi
      split at hi
      · exact .inr ⟨by omega, (some.inj hi).symm⟩
      · exact nomatch hi
    refine
      { next := by simp [h.fresh]
        fresh := by simp [h.fresh]
        done := ?_
        closed_lt := ?_
        active := ?_
        taken := ?_
        wanted := ?_
        run_args := ?_
        next_args := ?_ }
    · intro i r hi
      rcases hruns i r hi with hold | ⟨rfl, rfl⟩
      · exact h.done i r hold
      · exact h.next
    · intro c hc
      have := h.closed_lt c hc
      simp only [List.length_append, List.length_singleton]
      omega
    · intro c hc
      simp only [List.length_append, List.length_singleton] at hc
      by_cases hcl : c < s.runs.length
      · have hold := h.active c hcl
        rw [hgo.1] at hold
        exact .inl (hold.resolve_right (fun hn => nomatch hn))
      · exact .inr (congrArg some (by rw [h.next]; omega))
    · intro a ha
      have hold := h.taken a ha
      simp only [List.length_append, List.length_singleton]
      omega
    · intro a ha hlast
      have hold := h.taken a ha
      simp only [List.length_append, List.length_singleton] at hlast
      omega
    · intro i r hi
      rcases hruns i r hi with hold | ⟨rfl, rfl⟩
      · exact h.run_args i r hold
      · exact h.next_args
    · simp only [List.length_append, List.length_singleton]
      rw [batch_eq_nil h (Nat.lt_succ_self _)]
      exact merges_nil

/-- Taking a request changes the record and the arguments of the next run. -/
theorem Inv.of_taken {req : Request Head Addr Tx} {b : Bool}
    {reset : Option (ResetRequest Head)} {dirtyAccounts : Option (StructSet Addr)}
    {events : Map Addr (Map ℕ Tx)} (hb : s.launchNextRun = true ∨ req.isEvent = false → b = true)
    (hargs : Merges sender nonce
      (batch s.record s.nextDone ++ [⟨req, s.nextDone, s.runs.length⟩]) reset dirtyAccounts events) :
    Inv sender nonce
      { s with
        record := s.record ++ [⟨req, s.nextDone, s.runs.length⟩]
        launchNextRun := b
        reset := reset
        dirtyAccounts := dirtyAccounts
        queuedEvents := events } where
  next := h.next
  fresh := h.fresh
  done := h.done
  closed_lt := h.closed_lt
  active := h.active
  taken := by
    intro a ha
    rcases List.mem_append.mp ha with hold | hnew
    · exact h.taken a hold
    · obtain rfl := List.mem_singleton.mp hnew
      exact ⟨h.next, le_refl _⟩
  wanted := by
    intro a ha hlast hreq
    rcases List.mem_append.mp ha with hold | hnew
    · exact hb (.inl (h.wanted a hold hlast hreq))
    · obtain rfl := List.mem_singleton.mp hnew
      exact hb (.inr hreq)
  run_args := by
    intro i r hi
    have hlt : i < s.runs.length := (List.getElem?_eq_some_iff.mp hi).1
    have hne : s.nextDone ≠ i := by rw [h.next]; omega
    simpa [batch, hne] using h.run_args i r hi
  next_args := by
    simpa [batch, h.next] using hargs

theorem Inv.take (req : Request Head Addr Tx) : (s.take sender nonce req).Inv sender nonce := by
  have hnow : Merges sender nonce (batch s.record s.nextDone) s.reset s.dirtyAccounts
      s.queuedEvents := by
    rw [h.next]
    exact h.next_args
  cases req with
  | reset req => exact h.of_taken (fun _ => rfl) (hnow.reset_taken req)
  | promote set => exact h.of_taken (fun _ => rfl) (hnow.promote_taken set)
  | event tx => exact h.of_taken (fun hb => hb.resolve_right (by simp [Request.isEvent])) (hnow.event_taken tx)

theorem Inv.step (hat : s.AtSelect) {e : Event Head Addr Tx}
    (hs : s.step sender nonce e = some s') : s'.Inv sender nonce ∧ s'.AtSelect := by
  cases e with
  | request req =>
    obtain rfl := some.inj hs
    exact ⟨(h.take req).launch, atSelect_launch⟩
  | finish done =>
    rw [Loop.step, ite_none_right_eq_some] at hs
    obtain ⟨⟨hrun, hopen⟩, hs⟩ := hs
    obtain rfl := some.inj hs
    obtain ⟨r, hr, rfl⟩ := List.mem_map.mp hrun
    obtain ⟨i, hi⟩ := List.mem_iff_getElem?.mp hr
    refine ⟨{ h with closed_lt := ?_, active := ?_ }, hat⟩
    · intro c hc
      rcases List.mem_cons.mp hc with rfl | hold
      · rw [h.done i r hi]
        exact (List.getElem?_eq_some_iff.mp hi).1
      · exact h.closed_lt c hold
    · intro c hc
      exact (h.active c hc).imp_left (List.mem_cons_of_mem _)
  | wake =>
    rw [Loop.step] at hs
    split at hs
    · exact nomatch hs
    next c hcur =>
    rw [ite_none_right_eq_some] at hs
    obtain ⟨hclosed, hs⟩ := hs
    obtain rfl := some.inj hs
    refine ⟨Inv.launch { h with active := ?_ }, atSelect_launch⟩
    intro d hd
    rcases h.active d hd with hold | hold
    · exact .inl hold
    · obtain rfl : c = d := some.inj (hcur.symm.trans hold)
      exact .inl hclosed

theorem Inv.run {es : List (Event Head Addr Tx)} (hat : s.AtSelect)
    (hs : s.run sender nonce es = some s') : s'.Inv sender nonce ∧ s'.AtSelect := by
  induction es generalizing s with
  | nil =>
    obtain rfl := some.inj hs
    exact ⟨h, hat⟩
  | cons e es ih =>
    rw [Loop.run, List.foldlM_cons, bind_eq_bind, bind_eq_some_iff] at hs
    obtain ⟨t, ht, hs⟩ := hs
    obtain ⟨h', hat'⟩ := h.step hat ht
    exact ih h' hat' hs

end

/-- In every state of the loop before shutdown: at most one run is active; a channel is
closed by the run it was made for; that run is the first one to start after every
request that was answered with the channel, merges the requests answered with it,
and so covers them; a request for which no run has started yet starts one as soon as
the end of the active one is seen; and an event goes into the first run that starts
after it, and into no other. -/
theorem scheduled_runs_cover (sender : Tx → Addr) (nonce : Tx → ℕ)
    (es : List (Event Head Addr Tx)) (s : Loop Head Addr Tx)
    (h : start.run sender nonce es = some s) :
    (∀ r ∈ s.runs, ∀ r' ∈ s.runs, r.done ∉ s.closed → r'.done ∉ s.closed → r = r') ∧
    (∀ c ∈ s.closed, ∃ r ∈ s.runs, r.done = c) ∧
    (∀ r ∈ s.runs, Merges sender nonce (batch s.record r.done) r.reset r.dirtyAccounts r.events) ∧
    (∀ before a later, s.record = before ++ a :: later →
      (∃ r, s.runs[a.launched]? = some r ∧ Covers sender nonce r (batch later r.done) a.request ∧
        ∀ i r', s.runs[i]? = some r' → (r'.done = a.nextDone ↔ i = a.launched)) ∨
      a.nextDone = s.nextDone ∧ (∀ r ∈ s.runs, r.done ≠ a.nextDone) ∧
        (a.request.isEvent = false → s.launchNextRun = true ∧ s.curDone ≠ none)) ∧
    (∀ r ∈ s.runs, ∀ a n tx, (r.events.inner a).lookup n = some tx →
      ∃ ans ∈ s.record, ans.request = .event tx ∧ ans.nextDone = r.done ∧
        s.runs[ans.launched]? = some r) := by
  obtain ⟨inv, hat⟩ := inv_start.run (fun hl => nomatch hl) h
  have index : ∀ r ∈ s.runs, s.runs[r.done]? = some r := by
    intro r hr
    obtain ⟨i, hi⟩ := List.mem_iff_getElem?.mp hr
    rwa [inv.done i r hi]
  have bound : ∀ r ∈ s.runs, r.done < s.runs.length := fun r hr =>
    (List.getElem?_eq_some_iff.mp (index r hr)).1
  have args : ∀ r ∈ s.runs,
      Merges sender nonce (batch s.record r.done) r.reset r.dirtyAccounts r.events := fun r hr =>
    inv.run_args _ r (index r hr)
  refine ⟨?_, ?_, args, ?_, ?_⟩
  · intro r hr r' hr' hopen hopen'
    have hcur := (inv.active _ (bound r hr)).resolve_left hopen
    have hcur' := (inv.active _ (bound r' hr')).resolve_left hopen'
    have hdone : r.done = r'.done := some.inj (hcur.symm.trans hcur')
    have hboth := index r hr
    rw [hdone, index r' hr'] at hboth
    exact (some.inj hboth).symm
  · intro c hc
    have hlt := inv.closed_lt c hc
    exact ⟨s.runs[c], List.getElem_mem hlt, inv.done c _ (List.getElem?_eq_getElem hlt)⟩
  · intro before a later hrec
    have ha : a ∈ s.record := by simp [hrec]
    obtain ⟨hchan, hle⟩ := inv.taken a ha
    rcases Nat.lt_or_eq_of_le hle with hlt | heq
    · -- the run of this channel has been launched
      refine .inl ⟨s.runs[a.launched], List.getElem?_eq_getElem hlt, ?_, ?_⟩
      · have hmerge := args s.runs[a.launched] (List.getElem_mem hlt)
        have hdone := inv.done _ _ (List.getElem?_eq_getElem hlt)
        have hsplit : batch s.record s.runs[a.launched].done =
            batch before s.runs[a.launched].done ++ a :: batch later s.runs[a.launched].done := by
          rw [hrec, batch, List.filter_append, List.filter_cons_of_pos (by simp [hdone, hchan])]
          rfl
        rw [hsplit] at hmerge
        exact hmerge.covers
      · intro i r' hi
        rw [inv.done i r' hi, hchan]
    · refine .inr ⟨by rw [hchan, heq, inv.next], ?_, ?_⟩
      · intro r hr hdone
        have := bound r hr
        omega
      · intro hreq
        have hlaunch := inv.wanted a ha heq hreq
        exact ⟨hlaunch, hat hlaunch⟩
  · intro r hr a n tx htx
    rw [(args r hr).event, lastEvent] at htx
    have hmem := List.mem_of_mem_filter (List.mem_of_getLast? htx)
    rw [queued, List.mem_filterMap] at hmem
    obtain ⟨ans, hans, heq⟩ := hmem
    rw [batch, List.mem_filter, decide_eq_true_iff] at hans
    refine ⟨ans, hans.1, ?_, hans.2, ?_⟩
    · split at heq <;> simp_all
    · rw [← (inv.taken ans hans.1).1, hans.2]
      exact index r hr

/-- Two transactions of account 7 with nonce 5, the second one at a higher price, then
the promotion of the account. A transaction is its sender, nonce and price. -/
def repriced : List (Event ℕ ℕ (ℕ × ℕ × ℕ)) :=
  [.request (.event (7, 5, 10)), .request (.event (7, 5, 11)),
    .request (.promote (AList.singleton 7 ())), .finish 0, .wake]

theorem scheduled_runs_cover_repriced :
    ∃ s, start.run Prod.fst (fun tx => tx.2.1) repriced = some s ∧
      s.runs.length = 1 ∧ s.closed = [0] ∧ ∀ c ∈ s.closed, ∃ r ∈ s.runs, r.done = c := by
  obtain ⟨s, hs⟩ : ∃ s, start.run Prod.fst (fun tx => tx.2.1) repriced = some s := ⟨_, rfl⟩
  refine ⟨s, hs, ?_, ?_, (scheduled_runs_cover _ _ repriced s hs).2.1⟩
  · obtain rfl := some.inj hs
    rfl
  · obtain rfl := some.inj hs
    rfl

/-- The event of the first transaction is in no run: the queue is keyed by the nonce, and
the second one has taken its place before the launch. Nothing is queued any more. -/
theorem repriced_event_not_passed :
    ∃ s, start.run Prod.fst (fun tx => tx.2.1) repriced = some s ∧
      s.curDone = none ∧ s.queuedEvents.entries = [] ∧
      (7, 5, 10) ∈ queued s.record ∧
      ∀ r ∈ s.runs, ∀ list ∈ r.events.entries, ∀ e ∈ list.2.entries, e.2 ≠ (7, 5, 10) := by
  refine ⟨_, rfl, rfl, rfl, ?_, ?_⟩
  · decide +kernel
  · decide +kernel

end Loop

end Dexit.TxPool
