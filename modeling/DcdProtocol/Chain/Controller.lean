import DcdProtocol.Chain.ForkDatabase
import DcdProtocol.Chain.FinishNext

/-!
# The controller

The controller builds, applies and undoes blocks.  Modelled are its head, the fork database, the
pending block with its stages, and the rate the fee manager keeps outside of the database; the
database itself and the execution of transactions are not.  What they decide is an input of the
operations: `ApplyOutcome` says where `apply_block` throws, if it does.

An exception leaves the changes made before it, so the operations are `Stateful`.  Two fields
record the history of a run: `executions` is written whenever transactions are executed, with
the head they are executed on and the rate in the fee manager, and `events` at each operation
that moves head or rate other than by completing a block.  `acceptedHeaders` are the signals that
no other part of the node has handled yet.
-/

namespace DcdProtocol.Chain

open Library

/-- `block_stage_type`. -/
inductive BlockStage
  | building (p : PendingBlockHeaderState)
  | assembled (p : PendingBlockHeaderState) (h : SignedBlockHeader)
  | completed (b : BlockState)

/-- The execution of the transactions of a block. -/
structure Execution where
  head : BlockState
  rate : Double

inductive RateEvent
  /-- `pop_block` moved head from `block` to `prev`. -/
  | popped (block prev : BlockState)
  /-- An exception kept a block with this rate from becoming head after the fee manager had taken
  the rate over; `head` is head then. -/
  | notAdopted (rate : Double) (head : BlockState)
  /-- The process started with `head`. -/
  | started (head : BlockState)

structure Controller where
  /-- `read_mode == db_read_mode::IRREVERSIBLE`. -/
  readIrreversible : Bool := false
  forkDb : ForkDatabase
  head : BlockState
  pending : Option BlockStage := none
  /-- `contract_cur_rate` of the fee manager. -/
  contractCurRate : Double := .one
  executions : List Execution := []
  events : List RateEvent := []
  /-- The blocks for which `accepted_block_header` has been emitted. -/
  acceptedHeaders : List BlockState := []

abbrev ControllerM := Stateful Controller ChainException

/-- How an `apply_block` ends. -/
inductive ApplyOutcome
  | startThrows
  | executionThrows
  | commitThrows
  | applied
  deriving DecidableEq

namespace Controller

def activeRate (s : Controller) : ProducerRateInfo :=
  match s.pending with
  | none => s.head.activeRate
  | some (.completed b) => b.activeRate
  | some (.building p) => p.activeRate
  | some (.assembled p _) => p.activeRate

def assert (c : Prop) [Decidable c] (type : ExceptionType) (what : String) : ControllerM Unit :=
  Stateful.ofExcept (dcdAssert c type what)

def onForkDb {α : Type} (x : Stateful ForkDatabase ChainException α) : ControllerM α :=
  x.zoom forkDb fun forkDb s => { s with forkDb }

def updateForkDb (f : ForkDatabase → Except ChainException ForkDatabase) : ControllerM Unit :=
  onForkDb do
    let db ← get
    let db ← Stateful.ofExcept (f db)
    set db

def throwIf (c : Bool) : ControllerM Unit :=
  if c then throw ⟨.external, ""⟩ else pure ()

def emitAcceptedBlockHeader (b : BlockState) : ControllerM Unit :=
  modify fun s => { s with acceptedHeaders := s.acceptedHeaders ++ [b] }

/-! ## The pending block -/

/-- `start_block`.  `throws` stands for its failure after the header has been started. -/
def startBlock (ctx : HeaderContext) (time : BlockTimestamp) (confirmed : UInt16) (throws : Bool) :
    ControllerM Unit := do
  let s ← get
  assert (s.pending.isNone = true) .blockValidateException "pending block already exists"
  let p ← Stateful.ofExcept (s.head.next ctx.crypto time confirmed)
  throwIf throws
  modify fun s => { s with pending := some (.building p) }

/-- The execution of transactions in the pending block, each of which has its fee computed with
the rate in the fee manager. -/
def executeTransactions : ControllerM Unit := do
  let s ← get
  match s.pending with
  | some (.building _) =>
    modify fun s => { s with executions := s.executions ++ [⟨s.head, s.contractCurRate⟩] }
  | _ => throw ⟨.undefinedBehaviour, "there is no block being built"⟩

/-- What the transactions of a block contribute to its header, and how it is signed. -/
structure BlockContents where
  transactionMroot : Sha256 := {}
  actionMroot : Sha256 := {}
  newProducers : Option ProducerAuthoritySchedule := none
  newRate : Option ProducerRateInfo := none
  newProtocolFeatureActivations : List Sha256 := []
  completion : Completion

/-- `finalize_block` with a signer. -/
def finalizeBlock (ctx : HeaderContext) (contents : BlockContents) : ControllerM Unit := do
  let s ← get
  match s.pending with
  | none => throw ⟨.blockValidateException,
      "it is not valid to finalize when there is no pending block"⟩
  | some (.building p) =>
    let h ← Stateful.ofExcept (p.makeBlockHeader ctx contents.transactionMroot
      contents.actionMroot contents.newProducers contents.newRate
      contents.newProtocolFeatureActivations)
    modify fun s => { s with pending := some (.assembled p h) }
    let b ← Stateful.ofExcept (p.complete ctx h contents.completion)
    modify fun s => { s with pending := some (.completed ⟨b, false⟩) }
  | some _ => throw ⟨.blockValidateException, "already called finalize_block"⟩

def abortBlock : ControllerM Unit := modify fun s => { s with pending := none }

def getNewRateParams : ControllerM Unit :=
  modify fun s => { s with contractCurRate := s.activeRate.rate }

/-- `commit_block`.  `addToForkDb` and `logIrreversible` are what it does besides for a block
that is not in the fork database; `throws` stands for the failure of what lies between. -/
def commitBlockWith (addToForkDb : BlockState → ControllerM Unit) (throws : Bool)
    (logIrreversible : ControllerM Unit) : ControllerM Unit := do
  getNewRateParams
  let rate := (← get).activeRate.rate
  try
    match (← get).pending with
    | some (.completed b) =>
      addToForkDb b
      throwIf throws
      logIrreversible
    | _ => throw ⟨.blockValidateException,
        "cannot call commit_block until pending block is completed"⟩
  catch e =>
    abortBlock
    modify fun s => { s with events := s.events ++ [.notAdopted rate s.head] }
    throw e
  modify fun s => { s with pending := none }

/-! ## Applying and popping blocks -/

/-- `apply_block`: `finalize_block` and the comparison of the block id throw or confirm the block
that is applied.  The caller moves head. -/
def applyBlock (ctx : HeaderContext) (b : BlockState) (outcome : ApplyOutcome) :
    ControllerM Unit :=
  try
    startBlock ctx b.header.timestamp b.header.confirmed (outcome = .startThrows)
    executeTransactions
    throwIf (outcome = .executionThrows)
    modify fun s => { s with pending := some (.completed b) }
    commitBlockWith (fun _ => pure ()) (outcome = .commitThrows) (pure ())
  catch e =>
    abortBlock
    throw e

def setHead (b : BlockState) : ControllerM Unit := modify fun s => { s with head := b }

/-- An applied block becomes valid, and head. -/
def adoptBlock (b : BlockState) : ControllerM Unit := do
  try
    updateForkDb fun db => db.markValid b
  catch e =>
    modify fun s => { s with events := s.events ++ [.notAdopted b.activeRate.rate s.head] }
    throw e
  setHead { b with validated := true }

def popBlock : ControllerM Unit := do
  let s ← get
  let prev ← match s.forkDb.getBlock s.head.header.previous with
    | some prev => pure prev
    | none => do
      assert (s.forkDb.root.id = s.head.header.previous) .blockValidateException
        "attempt to pop beyond last irreversible block"
      pure s.forkDb.root
  modify fun s => { s with head := prev, events := s.events ++ [.popped s.head prev] }

/-! ## Irreversibility -/

/-- What the environment decides about blocks: how each is applied, and which cannot be written
to the block log. -/
structure BlockOutcome where
  apply : BlockState → ApplyOutcome := fun _ => .applied
  logThrows : BlockState → Bool := fun _ => false

def advanceRoot : Option Sha256 → ControllerM Unit
  | none => pure ()
  | some id => onForkDb (ForkDatabase.advanceRoot id)

/-- The loop of `log_irreversible` over the blocks that have become irreversible, oldest first.
In irreversible mode they are applied only now. -/
def logBlocks (ctx : HeaderContext) (readIrreversible : Bool) (o : BlockOutcome) :
    Option Sha256 → List BlockState → ControllerM Unit
  | root, [] => advanceRoot root
  | root, b :: bs => do
    try
      if readIrreversible then
        applyBlock ctx b (o.apply b)
        setHead { b with validated := true }
        updateForkDb fun db => db.markValid b
      throwIf (o.logThrows b)
    catch e =>
      advanceRoot root
      throw e
    logBlocks ctx readIrreversible o (some b.id) bs

def logIrreversible (ctx : HeaderContext) (o : BlockOutcome) : ControllerM Unit := do
  let s ← get
  let forkHead := if s.readIrreversible then s.forkDb.pendingHead else s.forkDb.head
  if forkHead.dposIrreversibleBlocknum ≤ s.forkDb.root.blockNum then pure ()
  else
    let branch := s.forkDb.fetchBranch forkHead.id forkHead.dposIrreversibleBlocknum
    logBlocks ctx s.readIrreversible o none branch.reverse

/-! ## Fork switches -/

/-- One `pop_block` for each block of a branch. -/
def popBlocks : List BlockState → ControllerM Unit
  | [] => pure ()
  | _ :: bs => do
    popBlock
    popBlocks bs

/-- The assertion after the pops of a branch. -/
def assertPopped (branch : List BlockState) (what : String) : ControllerM Unit := do
  match branch.getLast? with
  | none => throw ⟨.undefinedBehaviour, "the branch is empty"⟩
  | some b =>
    let s ← get
    assert (s.head.id = b.header.previous) .forkDatabaseException what

/-- The blocks of the old branch, oldest first. -/
def reapply (ctx : HeaderContext) (again : BlockOutcome) : List BlockState → ControllerM Unit
  | [] => pure ()
  | b :: bs => do
    applyBlock ctx b (again.apply b)
    setHead b
    reapply ctx again bs

/-- The loop of a fork switch over the blocks of the new branch, oldest first.  `applied` are
those applied already.  After an exception they are popped, and the old branch is applied again. -/
def switchTo (ctx : HeaderContext) (o again : BlockOutcome) (oldBranch : List BlockState) :
    List BlockState → List BlockState → ControllerM Unit
  | _, [] => pure ()
  | applied, b :: bs => do
    try
      applyBlock ctx b (o.apply b)
      adoptBlock b
    catch e =>
      updateForkDb fun db => db.remove b.id
      popBlocks applied
      assertPopped oldBranch
        "loss of sync between fork_db and chainbase during fork switch reversal"
      reapply ctx again oldBranch.reverse
      throw e
    switchTo ctx o again oldBranch (applied ++ [b]) bs

/-- `maybe_switch_forks`; `again` says how the old branch is applied again, if it is. -/
def maybeSwitchForks (ctx : HeaderContext) (newHead : BlockState) (o again : BlockOutcome) :
    ControllerM Unit := do
  let s ← get
  if newHead.header.previous = s.head.id then
    try
      applyBlock ctx newHead (o.apply newHead)
      adoptBlock newHead
    catch e =>
      updateForkDb fun db => db.remove newHead.id
      throw e
    logIrreversible ctx o
  else if newHead.id = s.head.id then pure ()
  else
    let (newBranch, oldBranch) ← Stateful.ofExcept
      (s.forkDb.fetchBranchFrom newHead.id s.head.id)
    popBlocks oldBranch
    unless oldBranch = [] do
      assertPopped oldBranch "loss of sync between fork_db and chainbase during fork switch"
    switchTo ctx o again oldBranch [] newBranch.reverse
    logIrreversible ctx o

/-! ## Blocks from elsewhere -/

/-- A received block: its header and the signatures in its extensions. -/
structure ReceivedBlock where
  header : SignedBlockHeader
  additionalSignatures : List Signature := []

/-- `create_block_state_future` and `push_block`. -/
def pushBlock (ctx : HeaderContext) (block : ReceivedBlock) (o again : BlockOutcome) :
    ControllerM Unit := do
  let s ← get
  assert (s.pending.isNone = true) .blockValidateException
    "it is not valid to push a block when there is a pending block"
  match s.forkDb.getBlockHeader block.header.previous with
  | none => throw ⟨.unlinkableBlockException, "unlinkable block ${id}"⟩
  | some prev =>
    let b ← Stateful.ofExcept
      (prev.nextHeader ctx block.header block.additionalSignatures false)
    assert ((s.forkDb.getBlock b.id).isNone = true) .forkDatabaseException
      "we already know about this block: ${id}"
    updateForkDb fun db => db.add ⟨b, false⟩ false
    emitAcceptedBlockHeader ⟨b, false⟩
    if s.readIrreversible then logIrreversible ctx o
    else
      let s ← get
      maybeSwitchForks ctx s.forkDb.pendingHead o again

/-- `replay_push_block`, for a block of the block log or a reversible one. -/
def replayPushBlock (ctx : HeaderContext) (block : ReceivedBlock) (irreversible : Bool)
    (o again : BlockOutcome) : ControllerM Unit := do
  let s ← get
  assert (s.pending.isNone = true) .blockValidateException
    "it is not valid to push a block when there is a pending block"
  let b ← Stateful.ofExcept
    (s.head.nextHeader ctx block.header block.additionalSignatures true)
  if irreversible then
    emitAcceptedBlockHeader ⟨b, false⟩
    applyBlock ctx ⟨b, false⟩ (o.apply ⟨b, false⟩)
    setHead ⟨b, false⟩
  else
    updateForkDb fun db => db.add ⟨b, false⟩ true
    emitAcceptedBlockHeader ⟨b, false⟩
    maybeSwitchForks ctx ⟨b, false⟩ o again

/-! ## The controller's own blocks -/

def addCompleted (b : BlockState) : ControllerM Unit := do
  updateForkDb fun db => db.add b false
  updateForkDb fun db => db.markValid b
  emitAcceptedBlockHeader b
  modify fun s => { s with head := s.forkDb.head }
  let s ← get
  assert (s.head.toBlockHeaderState = b.toBlockHeaderState) .forkDatabaseException
    "committed block did not become the new head in fork database"

def commitBlock (ctx : HeaderContext) (throws : Bool) (o : BlockOutcome) : ControllerM Unit :=
  commitBlockWith addCompleted throws (logIrreversible ctx o)

/-! ## Starting -/

/-- A process that starts with the head of a fork database and an empty fee manager. -/
def started (s : Controller) (forkDb : ForkDatabase) : Controller :=
  { s with
    forkDb
    head := forkDb.head
    pending := none
    acceptedHeaders := []
    contractCurRate := .one
    events := s.events ++ [.started forkDb.head] }

/-- `startup` on an existing database. -/
def restart : ControllerM Unit :=
  modify fun s => s.started (if s.readIrreversible then s.forkDb.rollbackHeadToRoot else s.forkDb)

/-- `startup` from a snapshot with the given head. -/
def startFromSnapshot (head : BlockHeaderState) : ControllerM Unit :=
  modify fun s => s.started (.reset head)

def genesis (ctx : HeaderContext) (g : GenesisState) (readIrreversible : Bool) : Controller where
  readIrreversible
  forkDb := .reset (genesisHeaderState ctx.crypto g)
  head := ⟨genesisHeaderState ctx.crypto g, true⟩

end Controller

/-! ## Runs -/

inductive ControllerInput
  | startBlock (time : BlockTimestamp) (confirmed : UInt16) (throws : Bool)
  | pushTransaction
  | finalizeBlock (contents : Controller.BlockContents)
  | commitBlock (throws : Bool) (o : Controller.BlockOutcome)
  | abortBlock
  | pushBlock (block : Controller.ReceivedBlock) (o again : Controller.BlockOutcome)
  | restart
  | startFromSnapshot (head : BlockHeaderState)
  | replayBlock (block : Controller.ReceivedBlock) (irreversible : Bool)
      (o again : Controller.BlockOutcome)
  /-- The last part of `init`, after a change of the read mode. -/
  | applyPendingHead (o again : Controller.BlockOutcome)

namespace Controller

def operation (ctx : HeaderContext) : ControllerInput → ControllerM Unit
  | .startBlock time confirmed throws => startBlock ctx time confirmed throws
  | .pushTransaction => executeTransactions
  | .finalizeBlock contents => finalizeBlock ctx contents
  | .commitBlock throws o => commitBlock ctx throws o
  | .abortBlock => abortBlock
  | .pushBlock block o again => pushBlock ctx block o again
  | .restart => restart
  | .startFromSnapshot head => startFromSnapshot head
  | .replayBlock block irreversible o again => replayPushBlock ctx block irreversible o again
  | .applyPendingHead o again => do
    let s ← get
    maybeSwitchForks ctx s.forkDb.pendingHead o again

/-- The state after an operation, whether it returns or throws. -/
def step (ctx : HeaderContext) (s : Controller) (i : ControllerInput) : Controller :=
  ((operation ctx i).exec s).2

end Controller

end DcdProtocol.Chain
