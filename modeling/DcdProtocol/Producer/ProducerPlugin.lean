import DcdProtocol.Chain.Controller

/-!
# The producer plugin

The producer plugin decides when the node builds a block, and for whom.  Its production loop
starts a pending block on head, speculatively or to be produced, and sets a timer; when the timer
fires, the pending block is signed and committed.  Received blocks, block vault syncs, snapshots
and changes of the options interrupt it.

The plugin runs on the controller of `Chain.Controller`.  What else decides about a step is an
input: the readings of the clock (each call of `now` has its own), the outcome of the transactions
of a block, the answers of the block vault.  A timer may fire at any moment after it was set, even
if it was cancelled, because its handler may be queued already; handlers compare a correlation id
for that reason.  `produced` and `starts` record the history of a run.
-/

namespace DcdProtocol.Producer

open Library Chain

/-! ## Time -/

/-- The block timestamp of a time point, in microseconds.  The milliseconds are converted to 64
unsigned bits before the epoch is subtracted, and the slot is cut to 32 bits. -/
def timestampOf (t : ℤ) : BlockTimestamp :=
  ⟨.ofNat (((t.tdiv 1000 - blockTimestampEpoch) % 2 ^ 64).toNat / blockIntervalMs)⟩

def blockIntervalUs : ℤ := 500000

/-- `calculate_pending_block_time` at the given time. -/
def calculatePendingBlockTime (now : ℤ) (head : BlockHeaderState) : ℤ :=
  let base := max now head.header.timestamp.toTimePoint
  base + (blockIntervalUs - base.tmod blockIntervalUs)

/-! ## State -/

inductive PendingBlockMode
  | producing
  | speculating
  deriving DecidableEq

/-- `producer_watermark`. -/
structure Watermark where
  blockNum : UInt32
  timestamp : BlockTimestamp
  deriving DecidableEq

inductive TimerHandler
  | scheduleProductionLoop
  | maybeProduceBlock
  deriving DecidableEq

structure Timer where
  corelationId : ℕ
  handler : TimerHandler
  deriving DecidableEq

/-- A block that was started to be produced: the head it is built on and the time asked for. -/
structure Start where
  head : BlockState
  time : BlockTimestamp

/-- The options that do not change while the node runs. -/
structure ProducerConfig where
  producers : List Name
  /-- The keys of `_signature_providers`. -/
  signatureProviders : List PublicKey
  acceptTransactions : Bool := true
  terminateAtBlock : UInt32 := 0

structure ProducerPlugin where
  chain : Controller
  productionEnabled : Bool := false
  pauseProduction : Bool := false
  maxIrreversibleBlockAge : ℤ := -1
  producerWatermarks : FlatMap Name Watermark := .empty
  pendingBlockMode : PendingBlockMode := .speculating
  latestRejectedBlockNum : UInt32 := 0
  timerCorelationId : ℕ := 0
  timers : List Timer := []
  /-- The blocks that `produce_block` has committed. -/
  produced : List BlockState := []
  starts : List Start := []

abbrev ProducerM := Stateful ProducerPlugin ChainException

inductive StartBlockResult
  | succeeded
  | failed
  | waitingForBlock
  | waitingForProduction
  | exhausted
  deriving DecidableEq

/-- How the transactions of a pending block end. -/
inductive TransactionsOutcome
  | processed
  | deadlineReached
  | guardException

/-- What `start_block` returns then. -/
def TransactionsOutcome.result : TransactionsOutcome → StartBlockResult
  | processed => .succeeded
  | deadlineReached => .exhausted
  | guardException => .failed

/-- What the environment decides about one pass of the production loop. -/
structure LoopInput where
  /-- `now` in `start_block`. -/
  now : ℤ
  /-- `now` in `calculate_pending_block_time`. -/
  pendingNow : ℤ
  irreversibleBlockAge : ℤ := 0
  startThrows : Bool := false
  transactions : TransactionsOutcome := .processed
  /-- The age of the irreversible block in `production_disabled_by_policy`. -/
  policyBlockAge : ℤ := 0
  /-- `now` in `calculate_pending_block_time` while waiting for a block. -/
  waitingNow : ℤ := 0

/-- What the environment decides about a block that is produced. -/
structure ProduceInput where
  contents : Controller.BlockContents
  signer : Sha256 → List Signature
  /-- There is no block vault, or it accepts the block. -/
  vaultAccepts : Bool := true
  commitThrows : Bool := false
  outcome : Controller.BlockOutcome := {}

/-- A received block and what the environment decides about it. -/
structure BlockInput where
  block : Controller.ReceivedBlock
  inBlockLog : Bool := false
  now : ℤ := 0
  outcome : Controller.BlockOutcome := {}
  again : Controller.BlockOutcome := {}

/-! ## Watermarks -/

def considerNewWatermark (cfg : ProducerConfig) (watermarks : FlatMap Name Watermark)
    (producer : Name) (blockNum : UInt32) (timestamp : BlockTimestamp) :
    FlatMap Name Watermark :=
  match watermarks.find? producer with
  | some w =>
    watermarks.insert producer ⟨max w.blockNum blockNum, ⟨max w.timestamp.slot timestamp.slot⟩⟩
  | none =>
    if producer ∈ cfg.producers then watermarks.emplace producer ⟨blockNum, timestamp⟩
    else watermarks

def onBlockHeader (cfg : ProducerConfig) (watermarks : FlatMap Name Watermark) (b : BlockState) :
    FlatMap Name Watermark :=
  considerNewWatermark cfg watermarks b.header.producer b.blockNum b.header.timestamp

namespace ProducerPlugin

variable (cfg : ProducerConfig) (ctx : HeaderContext)

/-- The controller `chain` after one of its operations, with its signals handled. -/
def absorb (chain : Controller) (s : ProducerPlugin) : ProducerPlugin :=
  { s with
    chain := { chain with acceptedHeaders := [] }
    producerWatermarks := chain.acceptedHeaders.foldl (onBlockHeader cfg) s.producerWatermarks }

def onChain {α : Type} (x : ControllerM α) : ProducerM α :=
  x.zoom chain (absorb cfg)

def assert (c : Prop) [Decidable c] (type : ExceptionType) (what : String) : ProducerM Unit :=
  Stateful.ofExcept (dcdAssert c type what)

def abortBlock : ProducerM Unit := onChain cfg Controller.abortBlock

/-! ## Timers -/

/-- A timer is set, with a new correlation id. -/
def setTimer (handler : TimerHandler) : ProducerM Unit :=
  modify fun s =>
    { s with
      timerCorelationId := s.timerCorelationId + 1
      timers := s.timers ++ [⟨s.timerCorelationId + 1, handler⟩] }

/-- `minimum_offset`: the next block at least, and past the watermark. -/
def minimumOffset (s : ProducerPlugin) (producer : Name) (current : BlockTimestamp) : UInt32 :=
  match s.producerWatermarks.find? producer with
  | none => 1
  | some w =>
    let blockNum := s.chain.head.blockNum + if s.chain.pending.isSome then 1 else 0
    let offset := if w.blockNum > blockNum then w.blockNum - blockNum + 1 else 1
    if w.timestamp.slot > current.slot then max offset (w.timestamp.slot - current.slot + 1)
    else offset

/-- `calculate_next_block_time`; the distance to the producer's turn wraps around the schedule. -/
def calculateNextBlockTime (s : ProducerPlugin) (producer : Name) (current : BlockTimestamp) :
    Option ℤ :=
  let schedule := s.chain.head.activeSchedule.producers
  let index := schedule.findIdx fun p => p.producerName = producer
  if index = schedule.length then none
  else
    let minimumSlot := current.slot + s.minimumOffset producer current
    let minimumIndex :=
      minimumSlot.toNat % (schedule.length * producerRepetitions) / producerRepetitions
    if index = minimumIndex then some (BlockTimestamp.mk minimumSlot).toTimePoint
    else
      let distance := if minimumIndex ≤ index then index - minimumIndex
        else index + schedule.length - minimumIndex
      let firstSlot := minimumSlot - minimumSlot % .ofNat producerRepetitions
      some (BlockTimestamp.mk (firstSlot + .ofNat (distance * producerRepetitions))).toTimePoint

def calculateProducerWakeUpTime (s : ProducerPlugin) (ref : BlockTimestamp) : Option ℤ :=
  cfg.producers.foldl (fun wakeUp p =>
    match s.calculateNextBlockTime p ref with
    | none => wakeUp
    | some t =>
      match wakeUp with
      | none => some (t - blockIntervalUs)
      | some w => some (min w (t - blockIntervalUs))) none

def scheduleDelayedProductionLoop (wakeUpTime : Option ℤ) : ProducerM Unit :=
  if wakeUpTime.isSome then setTimer .scheduleProductionLoop else pure ()

/-! ## Starting a block -/

/-- The policies under which a scheduled producer does not produce. -/
def productionRefused (s : ProducerPlugin) (i : LoopInput) (scheduled : ProducerAuthority) : Bool :=
  !s.productionEnabled
  || decide (scheduled.producerName ∉ cfg.producers)
  || decide ((scheduled.authority.keys.filter (·.key ∈ cfg.signatureProviders)).length = 0)
  || s.pauseProduction
  || decide (0 ≤ s.maxIrreversibleBlockAge ∧ s.maxIrreversibleBlockAge ≤ i.irreversibleBlockAge)
  || decide (s.latestRejectedBlockNum > s.chain.head.blockNum)

/-- The watermark of the producer excludes a block on head at this time. -/
def watermarkExcludes (head : BlockHeaderState) (time : BlockTimestamp) : Option Watermark → Bool
  | none => false
  | some w => decide (w.blockNum > head.blockNum) || decide (w.timestamp.slot ≥ time.slot)

/-- The mode that `start_block` chooses for a block of the scheduled producer. -/
def chooseMode (s : ProducerPlugin) (i : LoopInput) (scheduled : ProducerAuthority)
    (time : BlockTimestamp) : PendingBlockMode :=
  if productionRefused cfg s i scheduled then .speculating
  else if watermarkExcludes s.chain.head.toBlockHeaderState time
      (s.producerWatermarks.find? scheduled.producerName) then .speculating
  else .producing

/-- The blocks after the watermark, as far as they can be counted. -/
def blocksSinceWatermark (head : BlockHeaderState) : Option Watermark → UInt16
  | none => 0
  | some w =>
    if w.blockNum < head.blockNum then (min 65535 (head.blockNum - w.blockNum)).toUInt16 else 0

/-- `blocks_to_confirm` of a block that is to be produced; irreversible blocks are not confirmed. -/
def blocksToConfirm (head : BlockHeaderState) (watermark : Option Watermark) : UInt16 :=
  (min (blocksSinceWatermark head watermark).toUInt32
    (head.blockNum - head.dposIrreversibleBlocknum)).toUInt16

def pendingBlockSigningAuthority : BlockStage → BlockSigningAuthority
  | .building p => p.validBlockSigningAuthority
  | .assembled p _ => p.validBlockSigningAuthority
  | .completed b => b.validBlockSigningAuthority

/-- The pending block is aborted, and the start of a block to be produced recorded. -/
def abortAndRecord (time : BlockTimestamp) (mode : PendingBlockMode) : ProducerM Unit := do
  abortBlock cfg
  modify fun s =>
    if mode = .producing then { s with starts := s.starts ++ [⟨s.chain.head, time⟩] } else s

/-- The last part of `start_block`: the pending block is replaced by a new one.  An exception of
the controller is dropped. -/
def replacePendingBlock (i : LoopInput) (scheduled : ProducerAuthority) (time : BlockTimestamp)
    (mode : PendingBlockMode) : ProducerM StartBlockResult := do
  let s ← get
  let confirm : UInt16 :=
    if mode = .producing then
      blocksToConfirm s.chain.head.toBlockHeaderState
        (s.producerWatermarks.find? scheduled.producerName)
    else 0
  abortAndRecord cfg time mode
  try
    onChain cfg (Controller.startBlock ctx time confirm i.startThrows)
  catch _ => pure ()
  let s ← get
  match s.chain.pending with
  | none => pure .failed
  | some stage =>
    modify fun s =>
      if mode = .producing ∧ pendingBlockSigningAuthority stage ≠ scheduled.authority then
        { s with pendingBlockMode := .speculating }
      else s
    pure i.transactions.result

def startBlock (i : LoopInput) : ProducerM StartBlockResult := do
  let s ← get
  let head := s.chain.head
  if !cfg.acceptTransactions then pure .waitingForBlock
  else if 0 < cfg.terminateAtBlock ∧ cfg.terminateAtBlock < head.blockNum then pure .failed
  else
    let blockTime := calculatePendingBlockTime i.pendingNow head.toBlockHeaderState
    match head.getScheduledProducer (timestampOf blockTime) with
    | none => throw ⟨.undefinedBehaviour, "the active schedule is empty"⟩
    | some scheduled =>
      let mode := chooseMode cfg s i scheduled (timestampOf blockTime)
      modify fun s => { s with pendingBlockMode := mode }
      if mode = .speculating ∧ i.now - head.header.timestamp.toTimePoint > 5000000 then
        pure .waitingForBlock
      else if mode = .producing ∧ i.now < blockTime - blockIntervalUs then
        -- the production window is not open yet; a pending block stays
        scheduleDelayedProductionLoop
          (calculateProducerWakeUpTime cfg s (timestampOf (blockTime - blockIntervalUs)))
        pure .waitingForProduction
      else if mode = .speculating ∧ s.pendingBlockMode = .producing then
        -- the last block of the producer's round has just been produced
        scheduleDelayedProductionLoop (some (blockTime - blockIntervalUs))
        pure .waitingForProduction
      else replacePendingBlock cfg ctx i scheduled (timestampOf blockTime) mode

/-! ## The production loop -/

def scheduleMaybeProduceBlock : ProducerM Unit := do
  let s ← get
  assert (s.chain.pending.isSome = true) .missingPendingBlockState
    "producing without pending_block_state"
  setTimer .maybeProduceBlock

def productionDisabledByPolicy (s : ProducerPlugin) (i : LoopInput) : Bool :=
  !s.productionEnabled || s.pauseProduction
    || decide (0 ≤ s.maxIrreversibleBlockAge ∧ s.maxIrreversibleBlockAge ≤ i.policyBlockAge)

def pendingBlockTime : BlockStage → BlockTimestamp
  | .building p => p.timestamp
  | .assembled p _ => p.timestamp
  | .completed b => b.header.timestamp

/-- What the loop does after a block has been started speculatively. -/
def scheduleSpeculative (i : LoopInput) : ProducerM Unit := do
  let s ← get
  if cfg.producers ≠ [] ∧ productionDisabledByPolicy s i = false then
    match s.chain.pending with
    | none => throw ⟨.missingPendingBlockState, "speculating without pending_block_state"⟩
    | some stage =>
      scheduleDelayedProductionLoop (calculateProducerWakeUpTime cfg s (pendingBlockTime stage))
  else pure ()

/-- What the loop does after `start_block` waits for a block. -/
def scheduleWaiting (i : LoopInput) : ProducerM Unit := do
  let s ← get
  if cfg.producers ≠ [] ∧ productionDisabledByPolicy s i = false then
    scheduleDelayedProductionLoop (calculateProducerWakeUpTime cfg s (timestampOf
      (calculatePendingBlockTime i.waitingNow s.chain.head.toBlockHeaderState)))
  else pure ()

/-- What the loop does after a block has been started. -/
def scheduleStarted (i : LoopInput) : ProducerM Unit := do
  let s ← get
  match s.pendingBlockMode with
  | .producing => scheduleMaybeProduceBlock
  | .speculating => scheduleSpeculative cfg i

/-- What the loop does after `start_block`. -/
def scheduleNext (i : LoopInput) : StartBlockResult → ProducerM Unit
  | .failed => setTimer .scheduleProductionLoop
  | .waitingForBlock => scheduleWaiting cfg i
  | .waitingForProduction => pure ()
  | .succeeded => scheduleStarted cfg i
  | .exhausted => scheduleStarted cfg i

def scheduleProductionLoop (i : LoopInput) : ProducerM Unit := do
  let result ← startBlock cfg ctx i
  scheduleNext cfg i result

/-- A scoped exit that runs the production loop, whether `x` returns or throws.  Its own exceptions
are dropped. -/
def ensureProductionLoop (i : LoopInput) (x : ProducerM Unit) : ProducerM Unit := do
  try x
  catch e =>
    try scheduleProductionLoop cfg ctx i
    catch _ => pure ()
    throw e
  try scheduleProductionLoop cfg ctx i
  catch _ => pure ()

/-! ## Producing a block -/

/-- A block of the block vault's that it does not accept. -/
def checkVault (i : ProduceInput) (b : BlockState) : ProducerM Unit :=
  if i.vaultAccepts then pure ()
  else do
    modify fun s => { s with latestRejectedBlockNum := b.blockNum }
    throw ⟨.blockValidationError, "Block rejected by block vault"⟩

def produceBlock (i : ProduceInput) : ProducerM Unit := do
  let s ← get
  assert (s.pendingBlockMode = .producing) .producerException
    "called produce_block while not actually producing"
  match s.chain.pending with
  | none => throw ⟨.missingPendingBlockState,
      "pending_block_state does not exist but it should, another plugin may have corrupted it"⟩
  | some stage =>
    assert (((pendingBlockSigningAuthority stage).keys.filter
        (·.key ∈ cfg.signatureProviders)).length > 0) .producerPrivKeyNotFound
      "Attempting to produce a block for which we don't have any relevant private keys"
    onChain cfg (Controller.finalizeBlock ctx { i.contents with completion := .sign i.signer })
    let s ← get
    match s.chain.pending with
    | some (.completed b) =>
      checkVault i b
      onChain cfg (Controller.commitBlock ctx i.commitThrows i.outcome)
      modify fun s => { s with produced := s.produced ++ [b] }
    | _ => throw ⟨.undefinedBehaviour, "finalize_block has returned a block"⟩

/-- `maybe_produce_block`.  Every exception of `produce_block` is dropped. -/
def maybeProduceBlock (i : ProduceInput) (loop : LoopInput) : ProducerM Unit :=
  ensureProductionLoop cfg ctx loop do
    try produceBlock cfg ctx i
    catch _ => abortBlock cfg

/-! ## Received blocks -/

/-- `fetch_block_by_id` finds the block. -/
def knows (s : ProducerPlugin) (i : BlockInput) : Bool :=
  (s.chain.forkDb.getBlock (i.block.header.calculateId ctx.crypto)).isSome || i.inBlockLog

/-- The part of `create_block_state_future` that runs before a pending block is aborted. -/
def createBlockStateFuture (s : ProducerPlugin) (i : BlockInput) : ProducerM Unit :=
  assert ((s.chain.forkDb.getBlockHeader i.block.header.previous).isSome = true)
    .unlinkableBlockException "unlinkable block ${id}"

def pushBlock (i : BlockInput) : ProducerM Unit :=
  onChain cfg (Controller.pushBlock ctx i.block i.outcome i.again)

/-- `on_sync_block`, without the check of connectivity, which is never asked for. -/
def onSyncBlock (i : BlockInput) : ProducerM Unit := do
  let s ← get
  if knows ctx s i then pure ()
  else
    createBlockStateFuture s i
    abortBlock cfg
    pushBlock cfg ctx i

def onIncomingBlock (i : BlockInput) (loop : LoopInput) : ProducerM Unit := do
  let s ← get
  if s.pendingBlockMode = .producing then pure ()
  else
    assert ((i.block.header.timestamp.toTimePoint : ℤ) < i.now + 7000000) .blockFromTheFuture
      "received a block from the future, ignoring it: ${id}"
    if knows ctx s i then pure ()
    else
      createBlockStateFuture s i
      abortBlock cfg
      ensureProductionLoop cfg ctx loop do
        pushBlock cfg ctx i
        let s ← get
        assert (s.chain.head.header.timestamp.slot ≠ 0xffffffff) .overflowException
          "block timestamp overflow"
        modify fun s =>
          if i.now ≤ (BlockTimestamp.mk (s.chain.head.header.timestamp.slot + 1)).toTimePoint then
            { s with productionEnabled := true }
          else s

/-! ## Transactions -/

/-- `block_is_exhausted`: the check of the resource limits is commented out. -/
def blockIsExhausted : Bool := false

/-- `process_incoming_transaction_async`: whether the block has room left.  `fits` says whether the
transaction does. -/
def processIncomingTransactionAsync (s : ProducerPlugin) (fits : Bool) : Bool :=
  if s.chain.pending.isNone || fits then true else !blockIsExhausted

def restartSpeculativeBlock (loop : LoopInput) : ProducerM Unit := do
  abortBlock cfg
  scheduleProductionLoop cfg ctx loop

def onIncomingTransactionAsync (fits : Bool) (loop : LoopInput) : ProducerM Unit := do
  let s ← get
  if processIncomingTransactionAsync s fits then pure ()
  else if s.pendingBlockMode = .producing then scheduleMaybeProduceBlock
  else restartSpeculativeBlock cfg ctx loop

/-! ## The API -/

def pause : ProducerM Unit := modify fun s => { s with pauseProduction := true }

/-- A change of the options makes the plugin reconsider a speculative block. -/
def reconsider (loop : LoopInput) : ProducerM Unit := do
  let s ← get
  if s.pendingBlockMode = .speculating then do
    abortBlock cfg
    scheduleProductionLoop cfg ctx loop
  else pure ()

def resume (loop : LoopInput) : ProducerM Unit := do
  modify fun s => { s with pauseProduction := false }
  reconsider cfg ctx loop

def updateRuntimeOptions (maxIrreversibleBlockAge : Option ℤ) (loop : LoopInput) :
    ProducerM Unit :=
  match maxIrreversibleBlockAge with
  | none => pure ()
  | some age => do
    modify fun s => { s with maxIrreversibleBlockAge := age }
    reconsider cfg ctx loop

/-- `get_integrity_hash`, and the writing of a snapshot. -/
def readState (loop : LoopInput) : ProducerM Unit := do
  let s ← get
  if s.chain.pending.isSome then do
    abortBlock cfg
    scheduleProductionLoop cfg ctx loop
  else pure ()

/-! ## Runs -/

/-- The handler of a timer: it does nothing if another timer has been set since. -/
def runTimer (t : Timer) (i : ProduceInput) (loop : LoopInput) : ProducerM Unit := do
  modify fun s => { s with timers := s.timers.erase t }
  let s ← get
  if t.corelationId = s.timerCorelationId then
    match t.handler with
    | .scheduleProductionLoop => scheduleProductionLoop cfg ctx loop
    | .maybeProduceBlock => maybeProduceBlock cfg ctx i loop
  else pure ()

end ProducerPlugin

inductive ProducerInput
  /-- A timer that has been set fires. -/
  | timer (t : Timer) (produce : ProduceInput) (loop : LoopInput)
  | syncBlock (i : BlockInput)
  | incomingBlock (i : BlockInput) (loop : LoopInput)
  | incomingTransaction (fits : Bool) (loop : LoopInput)
  | pause
  | resume (loop : LoopInput)
  | updateRuntimeOptions (maxIrreversibleBlockAge : Option ℤ) (loop : LoopInput)
  | readState (loop : LoopInput)

namespace ProducerPlugin

variable (cfg : ProducerConfig) (ctx : HeaderContext)

def operation (s : ProducerPlugin) : ProducerInput → ProducerM Unit
  | .timer t i loop => if t ∈ s.timers then runTimer cfg ctx t i loop else pure ()
  | .syncBlock i => onSyncBlock cfg ctx i
  | .incomingBlock i loop => onIncomingBlock cfg ctx i loop
  | .incomingTransaction fits loop => onIncomingTransactionAsync cfg ctx fits loop
  | .pause => pause
  | .resume loop => resume cfg ctx loop
  | .updateRuntimeOptions age loop => updateRuntimeOptions cfg ctx age loop
  | .readState loop => readState cfg ctx loop

def step (s : ProducerPlugin) (i : ProducerInput) : ProducerPlugin :=
  ((operation cfg ctx s i).exec s).2

/-- The end of `plugin_startup`, on the controller as it is then. -/
def startUp (chain : Controller) (productionEnabled pauseProduction : Bool) (loop : LoopInput) :
    ProducerPlugin :=
  ((scheduleProductionLoop cfg ctx loop).exec
    { chain := { chain with pending := none, acceptedHeaders := [] }
      productionEnabled, pauseProduction }).2

end ProducerPlugin

end DcdProtocol.Producer
