import Mathlib.Data.Int.Basic

/-!
# Call frames and the read-only mode

`Call`, `CallCode`, `DelegateCall`, `StaticCall` and `create` (core/vm/evm.go) and the loop of
`EVMInterpreter.Run`, over what the getters of the state show. A snapshot is a copy of it.

What byte code does is a finite tree, since gas runs out: the instructions that a frame gets
to, with the frames below each call, and how it ends. An instruction that is not paid for ends
its frame with a fault.
-/

namespace Dexit.Vm

/-- The nonce does not wrap here: a static call never increments it. -/
structure Account where
  balance : ℤ := 0
  nonce : ℕ := 0
  code : List UInt8 := []
  storage : ℕ → ℕ := fun _ => 0
  suicided : Bool := false

/-- The accounts that exist, and the logs. -/
structure State (Address : Type) where
  accounts : Address → Option Account
  logs : List (Address × List ℕ × List UInt8)

variable {Address : Type}

namespace State

variable [DecidableEq Address] (s : State Address) (a : Address)

def get : Account := (s.accounts a).getD {}

def exist : Bool := (s.accounts a).isSome

def set (account : Account) : State Address :=
  { s with accounts := Function.update s.accounts a (some account) }

def addBalance (amount : ℤ) : State Address :=
  s.set a { s.get a with balance := (s.get a).balance + amount }

def setNonce (nonce : ℕ) : State Address := s.set a { s.get a with nonce }

/-- The balance is carried over. -/
def createAccount : State Address := s.set a { balance := (s.get a).balance }

def suicide : State Address :=
  if s.exist a then s.set a { s.get a with suicided := true, balance := 0 } else s

/-- `Transfer`. -/
def transfer (sender recipient : Address) (amount : ℤ) : State Address :=
  (s.addBalance sender (-amount)).addBalance recipient amount

end State

inductive CallKind
  | call
  | callCode
  | delegateCall
  | staticCall
  deriving DecidableEq

/-- A frame fails at its end or not; one that creates returns code, whose storage may be `paid`. -/
inductive Instr (Address : Type)
  | other
  | sstore (key value : ℕ)
  | log (topics : List ℕ) (data : List UInt8)
  | selfdestruct (beneficiary : Address)
  | create (address : Address) (value : ℕ) (init : List (Instr Address)) (fails : Bool)
      (ret : List UInt8) (paid : Bool)
  | call (kind : CallKind) (addr : Address) (value : ℕ) (callee : List (Instr Address)) (fails : Bool)

/-- The `writes` of the jump tables, and the value of a CALL. -/
def Instr.writes : Instr Address → Bool
  | .sstore .. | .log .. | .selfdestruct .. | .create .. => true
  | .call .call _ value _ _ => value != 0
  | _ => false

def Instr.halts : Instr Address → Bool
  | .selfdestruct _ => true
  | _ => false

structure Config (Address : Type) where
  isHomestead : Bool
  isEIP158 : Bool
  isByzantium : Bool
  noRecursion : Bool
  precompile : Address → Bool

/-- `EVM` and its interpreter. -/
structure Evm (Address : Type) where
  readOnly : Bool
  depth : ℕ
  state : State Address

namespace Evm

variable (cfg : Config Address) (e : Evm Address)

/-- A frame: whether it has failed, and what it leaves. -/
abbrev Body (Address : Type) := Evm Address → Bool × Evm Address

/-- `Run` around its loop. -/
def run (readOnly : Bool) (body : Body Address) : Bool × Evm Address :=
  let r := body { e with depth := e.depth + 1, readOnly := readOnly || e.readOnly }
  (r.1, { r.2 with
    depth := r.2.depth - 1
    readOnly := if readOnly && !e.readOnly then false else r.2.readOnly })

/-- A snapshot is taken, and restored where the frame fails. -/
def guarded (body : Body Address) : Evm Address :=
  let r := body e
  if r.1 then { r.2 with state := e.state } else r.2

/-- The checks that every kind of call starts with. -/
def blocked : Bool := cfg.noRecursion && e.depth > 0 || e.depth > 1024

def canTransfer (caller : Address) (value : ℕ) : Bool := (e.state.get caller).balance ≥ value

/-- The code of `addr`, or the precompile there, which fails or not and writes nothing. -/
def runCode (addr : Address) (fails readOnly : Bool) (body : Body Address) : Body Address := fun e =>
  if cfg.precompile addr then (fails, e) else e.run readOnly body

section
variable [DecidableEq Address]

def call (caller addr : Address) (value : ℕ) (fails : Bool) (body : Body Address) : Evm Address :=
  if e.blocked cfg || value != 0 && !e.canTransfer caller value then e
  else if !e.state.exist addr && !cfg.precompile addr && cfg.isEIP158 && value == 0 then e
  else e.guarded fun e =>
    let s := if e.state.exist addr then e.state else e.state.createAccount addr
    let e := { e with state := s.transfer caller addr value }
    if !cfg.precompile addr && (e.state.get addr).code.isEmpty then (false, e)
    else runCode cfg addr fails false body e

def callCode (caller addr : Address) (value : ℕ) (fails : Bool) (body : Body Address) : Evm Address :=
  if e.blocked cfg || !e.canTransfer caller value then e
  else e.guarded (runCode cfg addr fails false body)

def delegateCall (addr : Address) (fails : Bool) (body : Body Address) : Evm Address :=
  if e.blocked cfg then e else e.guarded (runCode cfg addr fails false body)

def staticCall (addr : Address) (fails : Bool) (body : Body Address) : Evm Address :=
  if e.blocked cfg then e
  else e.guarded fun e => runCode cfg addr fails true body { e with state := e.state.addBalance addr 0 }

/-- `create`, with the code that the frame returns. -/
def create (caller address : Address) (value : ℕ) (ret : List UInt8) (paid : Bool) (body : Body Address) :
    Evm Address :=
  if e.depth > 1024 || !e.canTransfer caller value then e
  else
    let e := { e with state := e.state.setNonce caller ((e.state.get caller).nonce + 1) }
    if (e.state.get address).nonce != 0 || !(e.state.get address).code.isEmpty then e
    else e.guarded fun e =>
      let s := e.state.createAccount address
      let s := if cfg.isEIP158 then s.setNonce address 1 else s
      let e := { e with state := s.transfer caller address value }
      if cfg.noRecursion && e.depth > 0 then (false, e)
      else
        let r := e.run false body
        if r.1 || cfg.isEIP158 && ret.length > 24576 then (true, r.2)
        else if paid then
          (false, { r.2 with state := r.2.state.set address { r.2.state.get address with code := ret } })
        else (cfg.isHomestead, r.2)

mutual

/-- The execution of an instruction in a frame of `self`. -/
def exec (self : Address) : Instr Address → Evm Address → Evm Address
  | .other, e => e
  | .sstore key value, e =>
    let account := e.state.get self
    { e with state := e.state.set self { account with storage := Function.update account.storage key value } }
  | .log topics data, e => { e with state := { e.state with logs := e.state.logs ++ [(self, topics, data)] } }
  | .selfdestruct beneficiary, e =>
    { e with state := (e.state.addBalance beneficiary (e.state.get self).balance).suicide self }
  | .create address value init fails ret paid, e =>
    e.create cfg self address value ret paid (loop address init fails)
  | .call kind addr value callee fails, e =>
    match kind with
    | .call => e.call cfg self addr value fails (loop addr callee fails)
    | .callCode => e.callCode cfg self addr value fails (loop self callee fails)
    | .delegateCall => e.delegateCall cfg addr fails (loop self callee fails)
    | .staticCall => e.staticCall cfg addr fails (loop addr callee fails)

/-- The loop of `Run`. -/
def loop (self : Address) : List (Instr Address) → Bool → Body Address
  | [], fails, e => (fails, e)
  | i :: rest, fails, e =>
    if e.readOnly && cfg.isByzantium && i.writes then (true, e)
    else if i.halts then (false, exec self i e)
    else loop self rest fails (exec self i e)

end

end

/-! ## Read-only frames -/

/-- The mode is the same, and the getters show the same. -/
structure Quiet (e e' : Evm Address) : Prop where
  readOnly : e'.readOnly = e.readOnly
  accounts : ∀ a, e'.state.get a = e.state.get a
  logs : e'.state.logs = e.state.logs

/-- A frame that changes nothing where the mode is read-only. -/
def Silent (body : Body Address) : Prop := ∀ e : Evm Address, e.readOnly = true → Quiet e (body e).2

variable {cfg} {e e' e'' : Evm Address} {a : Address} {body : Body Address} {fails readOnly : Bool}

theorem Quiet.refl : Quiet e e := ⟨rfl, fun _ => rfl, rfl⟩

theorem Quiet.trans (h : Quiet e e') (h' : Quiet e' e'') : Quiet e e'' :=
  ⟨h'.readOnly.trans h.readOnly, fun a => (h'.accounts a).trans (h.accounts a), h'.logs.trans h.logs⟩

theorem Quiet.guarded (h : Quiet e (body e).2) : Quiet e (e.guarded body) := by
  rw [Evm.guarded]
  split
  · exact ⟨h.readOnly, fun _ => rfl, rfl⟩
  · exact h

/-- The flag is set by the outermost frame that is read-only, and taken back by it. -/
theorem Quiet.run (hmode : (readOnly || e.readOnly) = true) (hbody : Silent body) :
    Quiet e (e.run readOnly body).2 := by
  have hquiet := hbody { e with depth := e.depth + 1, readOnly := readOnly || e.readOnly } hmode
  refine ⟨?_, hquiet.accounts, hquiet.logs⟩
  have hinner := hquiet.readOnly
  cases readOnly <;> cases hro : e.readOnly <;> simp_all [Evm.run]

theorem Quiet.runCode (hmode : (readOnly || e.readOnly) = true) (hbody : Silent body) :
    Quiet e (runCode cfg a fails readOnly body e).2 := by
  rw [Evm.runCode]
  split
  · exact .refl
  · exact Quiet.run hmode hbody

variable [DecidableEq Address]

theorem Quiet.set {account : Account} (h : account = e.state.get a) :
    Quiet e { e with state := e.state.set a account } := by
  refine ⟨rfl, fun b => ?_, rfl⟩
  by_cases hb : b = a
  · subst hb
    simp [State.get, State.set, h]
  · simp [State.get, State.set, hb]

theorem Quiet.addBalance_zero : Quiet e { e with state := e.state.addBalance a 0 } :=
  Quiet.set (by rw [Int.add_zero])

theorem Quiet.staticCall (hbody : Silent body) : Quiet e (e.staticCall cfg a fails body) := by
  rw [Evm.staticCall]
  split
  · exact .refl
  · exact Quiet.guarded (Quiet.addBalance_zero.trans (Quiet.runCode rfl hbody))

/-- A call without value may create the account, which has nothing then. -/
theorem Quiet.call {caller : Address} (hmode : e.readOnly = true) (hbody : Silent body) :
    Quiet e (e.call cfg caller a 0 fails body) := by
  rw [Evm.call]
  split
  · exact .refl
  split
  · exact .refl
  refine Quiet.guarded ?_
  have hcreate : Quiet e { e with state := if e.state.exist a then e.state else e.state.createAccount a } := by
    split
    · exact .refl
    · refine Quiet.set ?_
      simp_all [State.exist, State.get]
  dsimp only
  generalize (if e.state.exist a then e.state else e.state.createAccount a) = s at hcreate ⊢
  have htransfer :=
    (hcreate.trans (Quiet.addBalance_zero (a := caller))).trans (Quiet.addBalance_zero (a := a))
  split
  · exact htransfer
  · exact htransfer.trans (Quiet.runCode (htransfer.readOnly.trans hmode) hbody)

mutual

theorem exec_quiet (self : Address) (i : Instr Address) (hi : i.writes = false) (hcfg : cfg.isByzantium = true)
    (e : Evm Address) (hmode : e.readOnly = true) : Quiet e (exec cfg self i e) := by
  cases i with
  | other => exact .refl
  | sstore | log | selfdestruct | create => cases hi
  | call kind addr value callee fails =>
    have hbody (self : Address) := loop_quiet self callee fails hcfg
    cases kind with
    | call =>
      obtain rfl : value = 0 := by simpa [Instr.writes] using hi
      exact Quiet.call hmode (hbody addr)
    | callCode =>
      rw [exec, Evm.callCode]
      split
      · exact .refl
      · exact Quiet.guarded (Quiet.runCode hmode (hbody self))
    | delegateCall =>
      rw [exec, Evm.delegateCall]
      split
      · exact .refl
      · exact Quiet.guarded (Quiet.runCode hmode (hbody self))
    | staticCall => exact Quiet.staticCall (hbody addr)

theorem loop_quiet (self : Address) (is : List (Instr Address)) (fails : Bool) (hcfg : cfg.isByzantium = true) :
    Silent (loop cfg self is fails) := by
  intro e hmode
  cases is with
  | nil => exact .refl
  | cons i rest =>
    rw [loop]
    split
    · exact .refl
    next hi =>
    have hi : i.writes = false := by simpa [hmode, hcfg] using hi
    have hstep := exec_quiet self i hi hcfg e hmode
    have hrest := loop_quiet self rest fails hcfg _ (hstep.readOnly.trans hmode)
    split
    · exact hstep
    · exact hstep.trans hrest

end

/-- Whatever runs below a static call, the state and the mode are as before. -/
theorem staticCall_changes_nothing (hcfg : cfg.isByzantium = true) (e : Evm Address) (addr : Address)
    (callee : List (Instr Address)) (fails : Bool) :
    Quiet e (e.staticCall cfg addr fails (loop cfg addr callee fails)) :=
  Quiet.staticCall (loop_quiet addr callee fails hcfg)

/-- A contract that would store, and calls itself without value before it. -/
theorem staticCall_changes_nothing_sstore :
    let cfg : Config Bool := ⟨true, true, true, false, fun _ => false⟩
    let e : Evm Bool := ⟨false, 1, ⟨fun _ => some { code := [0x55] }, []⟩⟩
    Quiet e (e.staticCall cfg true false (loop cfg true [.call .call true 0 [] false, .sstore 1 2] false)) :=
  staticCall_changes_nothing rfl _ true _ false

end Evm

end Dexit.Vm
