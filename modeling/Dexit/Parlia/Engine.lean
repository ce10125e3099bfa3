import Dexit.Parlia.Seal
import Dexit.Parlia.Transaction
import Dexit.Replay

/-! The system transactions of a block: how a proposer appends them when it
assembles the block, and how a node finds them again when it finalizes it. -/

namespace Dexit.Parlia

open Go Replay List

structure Log where
  address : Address
  topics : List Hash
  data : List UInt8
  deriving DecidableEq, Repr

/-- A receipt; `txHash` is represented by the transaction. System transactions
leave `contractAddress` zero. -/
structure Receipt where
  postState : Option Hash
  cumulativeGasUsed : UInt64
  txHash : Tx
  gasUsed : UInt64
  logs : List Log
  blockNumber : ℕ
  transactionIndex : ℕ
  contractAddress : Address
  deriving DecidableEq, Repr

structure CallMsg where
  sender : Address
  recipient : Address
  gas : UInt64
  gasPrice : ℕ
  value : ℕ
  data : Calldata
  deriving DecidableEq, Repr

/-- What the EVM sees of the block; older block hashes are found through the
hash of the parent. -/
structure BlockContext where
  parentHash : Hash
  coinbase : Address
  blockNumber : ℕ
  time : UInt64
  difficulty : ℕ
  gasLimit : UInt64

/-- The operations of the state database that the engine uses. -/
structure StateDB (World : Type) where
  getNonce : World → Address → UInt64
  setNonce : World → Address → UInt64 → World
  getBalance : World → Address → ℕ
  setBalance : World → Address → ℕ → World
  addBalance : World → Address → ℕ → World
  finalise : Bool → World → World
  intermediateRoot : Bool → World → World × Hash

/-- What all honest nodes of a chain share. `call` is the EVM: it returns the
new state, the gas left and the logs, and undoes everything on an error. -/
structure Network (World : Type) where
  chainId : ℕ
  parlia : ParliaConfig
  isByzantium : ℕ → Bool
  isEIP158 : ℕ → Bool
  signer : ℕ → Signer
  pubkeyAddress : SigHash → ℕ → ℕ → UInt8 → Option Address
  db : StateDB World
  call : BlockContext → CallMsg → World → Except Err (World × UInt64 × List Log)
  chain : ChainReader
  getCurrentValidators : Hash → Except Err (List Address)
  nextForkHash : UInt64 → { bytes : List UInt8 // bytes.length = nextForkHashSize }

/-- A wallet signs a transaction or fails; it changes nothing but the
signature. -/
structure SignerTxFn where
  sign : Address → Tx → ℕ → Except Err Tx
  keeps : ∀ {a tx chainId tx'}, sign a tx chainId = .ok tx' →
    ∃ v r s, tx' = { tx with v := v, r := r, s := s }

structure Node where
  val : Address
  signTxFn : SignerTxFn

/-- A block under construction. `receivedTxs` are the system transactions that
came with the block, `none` when it is being assembled; `issued` lists the
system messages so far, whatever became of them. -/
structure BlockState (World : Type) where
  world : World
  txs : List Tx
  receipts : List Receipt
  receivedTxs : Option (List Tx)
  usedGas : UInt64
  issued : List CallMsg

abbrev Engine (World α : Type) : Type := M (BlockState World) Err α

section
variable {World : Type} (net : Network World) (p : Node) (header : Header)

def newEVMBlockContext : BlockContext where
  parentHash := header.parentHash
  coinbase := header.coinbase
  blockNumber := header.number
  time := header.time
  difficulty := header.difficulty
  gasLimit := header.gasLimit

/-- `math.MaxUint64 / 2`. -/
def systemGas : UInt64 := 0x7fffffffffffffff

def getSystemMessage (sender recipient : Address) (data : Calldata) (value : ℕ) : CallMsg where
  sender := sender
  recipient := recipient
  gas := systemGas
  gasPrice := 0
  value := value
  data := data

/-- The transaction that a system message stands for in a given state. -/
def expectedTx (world : World) (msg : CallMsg) : Tx :=
  Tx.newTransaction (net.db.getNonce world msg.sender) msg.recipient msg.value msg.gas msg.gasPrice
    msg.data

/-- The proposer signs the expected transaction; everybody else compares it with
the next one received and takes that. -/
def obtainTx (mining : Bool) (msg : CallMsg) : Engine World Tx := do
  let world ← reads BlockState.world
  let received ← reads BlockState.receivedTxs
  let expected := expectedTx net world msg
  if msg.sender = p.val ∧ mining = true then
    lifts (p.signTxFn.sign msg.sender expected net.chainId)
  else
    match received with
    | some (actual :: rest) =>
      if actual.eip155Hash net.chainId = expected.eip155Hash net.chainId then do
        writes fun s => { s with receivedTxs := some rest }
        pure actual
      else fails .unexpectedTransaction
    | _ => fails .missingTransaction

/-- Updates the state with the pending changes of a transaction; only old
receipts have a state root. -/
def close (world : World) : World × Option Hash :=
  if net.isByzantium header.number then (net.db.finalise true world, none)
  else
    let (world, root) := net.db.intermediateRoot (net.isEIP158 header.number) world
    (world, some root)

/-- The state after a call that turned `before` into `after`. -/
def settled (msg : CallMsg) (before after : World) : World :=
  net.db.setNonce (close net header after).1 msg.sender (net.db.getNonce before msg.sender + 1)

/-- The block after a successful call, with the receipt appended. -/
def record (msg : CallMsg) (tx : Tx) (s : BlockState World) (world : World) (returnGas : UInt64)
    (logs : List Log) : BlockState World :=
  let gasUsed := msg.gas - returnGas
  { s with
    world := settled net header msg s.world world
    txs := s.txs ++ [tx]
    usedGas := s.usedGas + gasUsed
    receipts := s.receipts ++ [{
      postState := (close net header world).2
      cumulativeGasUsed := s.usedGas + gasUsed
      txHash := tx
      gasUsed := gasUsed
      logs := logs
      blockNumber := header.number
      transactionIndex := s.txs.length
      contractAddress := 0 }] }

/-- Runs a message in the EVM. -/
def execute (msg : CallMsg) (tx : Tx) : Engine World Unit := do
  let world ← reads BlockState.world
  match net.call (newEVMBlockContext header) msg world with
  | .error e => fails e
  | .ok (world', returnGas, logs) =>
    writes fun s => record net header msg tx s world' returnGas logs

def applyTransaction (mining : Bool) (msg : CallMsg) : Engine World Unit := do
  writes fun s => { s with issued := s.issued ++ [msg] }
  let tx ← obtainTx net p mining msg
  execute net header msg tx

/-! ## The system messages -/

def slashMessage (spoiledVal : Address) : CallMsg :=
  getSystemMessage header.coinbase SLASH_CONTRACT_ADDR (.slash spoiledVal) 0

def initMessage (c : Address) : CallMsg := getSystemMessage header.coinbase c .init 0

def pushMessage (contract owner : Address) : CallMsg :=
  getSystemMessage header.coinbase VALIDATOR_CONTRACT_ADDR (.pushContractOwner contract owner) 0

def depositMessage (amount : ℕ) (validator : Address) (contAddr : List Address) : CallMsg :=
  getSystemMessage header.coinbase VALIDATOR_CONTRACT_ADDR (.deposit validator contAddr) amount

def slash (mining : Bool) (spoiledVal : Address) : Engine World Unit :=
  applyTransaction net p header mining (slashMessage header spoiledVal)

/-- The contracts that are initialized in the first block. -/
def initContracts : List Address :=
  [VALIDATOR_CONTRACT_ADDR, SLASH_CONTRACT_ADDR, LIGHT_CLIENT_ADDR, RELAYERHUB_CONTRACT_ADDR,
    TOKEN_HUB_ADDR, INCENTIVIZE_ADDR, CROSS_CHAIN_CONTRACT_ADDR]

/-- Stops at the first error. -/
def initContract (mining : Bool) : Engine World Unit :=
  forEach (fun c => applyTransaction net p header mining (initMessage header c)) initContracts

def pushOwner (mining : Bool) (contract owner : Address) : Engine World Unit :=
  applyTransaction net p header mining (pushMessage header contract owner)

def distributeToValidator (mining : Bool) (amount : ℕ) (validator : Address)
    (contAddr : List Address) : Engine World Unit :=
  applyTransaction net p header mining (depositMessage header amount validator contAddr)

/-- The contracts that the transactions called. -/
def calledContracts (txs : List Tx) : List Address :=
  txs.filterMap fun tx => if tx.data.isEmpty then none else tx.recipient

/-- The inner loop: one call for every receipt the block has when it starts.
The length of a contract address is that of its type, so no receipt is left
out. -/
def pushOwners (mining : Bool) (tx : Tx) : Engine World Unit := do
  let receipts ← reads BlockState.receipts
  forEach (fun rec => swallow (pushOwner net p header mining rec.contractAddress
    (ownerOf net.pubkeyAddress tx))) receipts

/-- The rewards move from the system address to the proposer, who deposits
them. The share of the system contract is switched off in the source. -/
def distributeReward (mining : Bool) (balance : ℕ) (val : Address) (contAddr : List Address) :
    Engine World Unit := do
  writes fun s => { s with
    world := net.db.addBalance (net.db.setBalance s.world SystemAddress 0) header.coinbase balance }
  distributeToValidator net p header mining balance val contAddr

def rewardIfAny (mining : Bool) (balance : ℕ) (val : Address) (contAddr : List Address) :
    Engine World Unit :=
  if balance = 0 then pure () else distributeReward net p header mining balance val contAddr

/-- The owners are pushed by a node that is told to sign even when it only
verifies. -/
def distributeIncoming (mining : Bool) (val : Address) : Engine World Unit := do
  let world ← reads BlockState.world
  let txs ← reads BlockState.txs
  forEach (pushOwners net p header true) (txs.filter Tx.creates)
  rewardIfAny net p header mining (net.db.getBalance world SystemAddress) val (calledContracts txs)

/-! ## Blocks -/

/-- A validator that missed its turn is slashed, unless it was not allowed to
sign. An error is ignored: the slash channel may be disabled. -/
def slashSpoiled (mining : Bool) (snap : Snapshot) : Engine World Unit :=
  if header.difficulty ≠ diffInTurn then do
    let spoiledVal ← lifts snap.supposeValidator
    if snap.signedRecently spoiledVal then pure ()
    else swallow (slash net p header mining spoiledVal)
  else pure ()

def initFirst (mining : Bool) : Engine World Unit :=
  if header.number = 1 then swallow (initContract net p header mining) else pure ()

/-- The bytes of a validator set in the extra data of an epoch block. -/
def validatorsBytes (validators : List Address) : List UInt8 :=
  (validators.mergeSort fun a b => decide (a ≤ b)).flatMap addressToBytes

/-- An epoch block announces the validators of the contract. -/
def checkEpoch : Except Err Unit :=
  if header.number64 % net.parlia.epoch = 0 then do
    let newValidators ← net.getCurrentValidators header.parentHash
    match header.extra.sub extraVanity (header.extra.1.length - extraSeal) with
    | none => .error .panic
    | some bytes =>
      if bytes.1 ≠ validatorsBytes newValidators then .error .errMismatchingEpochValidators
      else .ok ()
  else .ok ()

def openingCalls (mining : Bool) (snap : Snapshot) : Engine World Unit := do
  initFirst net p header mining
  slashSpoiled net p header mining snap

/-- The system calls of a block, the same for a proposer and a verifier. -/
def systemCalls (mining : Bool) (snap : Snapshot) (val : Address) : Engine World Unit := do
  openingCalls net p header mining snap
  distributeIncoming net p header mining val

/-- `Finalize` on the snapshot of the parent block. -/
def finalize (snap : Snapshot) : Engine World Unit := do
  lifts (checkEpoch net header)
  systemCalls net p header false snap header.coinbase
  let received ← reads BlockState.receivedTxs
  if received.getD [] = [] then pure () else fails .systemTxsMismatch

structure Block where
  header : Header
  root : Hash
  transactions : List Tx

/-- `FinalizeAndAssemble` on the snapshot of the parent block; the gas used by
the header is that of the block under construction. -/
def finalizeAndAssemble (snap : Snapshot) : Engine World Block := do
  systemCalls net p header true snap p.val
  let usedGas ← reads BlockState.usedGas
  if header.gasLimit < usedGas then fails .gasLimitExceeded
  else do
    let world ← reads BlockState.world
    let txs ← reads BlockState.txs
    let (world, root) := net.db.intermediateRoot (net.isEIP158 header.number) world
    writes fun s => { s with world := world }
    pure {
      header := { header with gasUsed := usedGas, uncleHash := uncleHash }
      root := root
      transactions := txs }

/-- `CalcDifficulty`. -/
def calcDifficulty (snap : Snapshot) (signer : Address) : Except Err ℕ := do
  let inturn ← snap.inturn signer
  pure (if inturn then diffInTurn else diffNoTurn)

/-- The extra data before the validators: what the miner set, padded or cut,
and the hash of the next fork. -/
def vanityOf : List UInt8 :=
  (header.extra.1 ++ replicate (extraVanity - nextForkHashSize - header.extra.1.length) 0).take
      (extraVanity - nextForkHashSize) ++ (net.nextForkHash header.number64).1

/-- Only an epoch block announces validators. -/
def epochBytes : Except Err (List UInt8) :=
  if header.number64 % net.parlia.epoch = 0 then
    (net.getCurrentValidators header.parentHash).map validatorsBytes
  else .ok []

/-- `Prepare`; the time is taken from the clock. -/
def prepare (snap : Snapshot) (time : UInt64) : Except Err Header := do
  let difficulty ← calcDifficulty snap p.val
  let validators ← epochBytes net header
  let extra := vanityOf net header ++ validators ++ replicate extraSeal 0
  if h : extra.length < maxLen then
    match net.chain.getHeader header.parentHash (header.number64 - 1) with
    | none => .error .errUnknownAncestor
    | some _ => .ok { header with
        coinbase := p.val
        difficulty := difficulty
        extra := ⟨extra, h⟩
        mixDigest := 0
        time := time }
  else .error .panic

/-- `Seal` copies the signature into the space that `Prepare` left. -/
def Header.signed (signature : List UInt8) : Header :=
  let suffix := header.extra.1.length - extraSeal
  { header with extra := ⟨header.extra.1.take suffix ++ copy (header.extra.1.drop suffix) signature,
      by
        rw [length_append, length_copy, ← length_append, take_append_drop]
        exact header.extra.2⟩ }

end

end Dexit.Parlia
