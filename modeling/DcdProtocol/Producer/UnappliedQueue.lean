import DcdProtocol.Chain.Types
import DcdProtocol.Library.MultiIndex
import DcdProtocol.Library.Stateful

/-!
# The unapplied transaction queue

A transaction that is submitted to the producer plugin comes with a callback that is to be called
with the outcome.  It is executed at once if a block is being built.  If it does not fit into the
block, or if there is no block, it is put into the queue of unapplied transactions together with its
callback, and is tried again in the next block.  The queue has at most one entry for a transaction.
It also has the transactions of aborted blocks and of forks, and those that are applied in every block
until they expire; these have no callback.

What the chain answers is part of the input: whether a block is being built, its time, whether the
transaction is known, and what came of its execution.  Loops get one answer for every round; when there
is none left, the deadline has passed.  `block_is_exhausted` is always false.

A callback is the number of the submission that it came with; `called` has the calls.  An empty
callback throws.
-/

namespace DcdProtocol.Producer

open Library
open Chain (Sha256)
open MultiIndex (findKey eraseKey afterKey insertByRank replaceKey)

/-! ## Entries -/

inductive TrxEnumType
  | unknown
  | persisted
  | forked
  | aborted
  | incomingPersisted
  | incoming
  deriving DecidableEq

def TrxEnumType.rank : TrxEnumType → ℕ
  | .unknown => 0
  | .persisted => 1
  | .forked => 2
  | .aborted => 3
  | .incomingPersisted => 4
  | .incoming => 5

def TrxEnumType.ofIncoming (persistUntilExpired : Bool) : TrxEnumType :=
  if persistUntilExpired then .incomingPersisted else .incoming

def TrxEnumType.isIncoming (t : TrxEnumType) : Bool := t = .incoming ∨ t = .incomingPersisted

/-- What the queue reads of a `transaction_metadata`. -/
structure TrxMeta where
  id : Sha256
  expiration : ℕ
  estimatedSize : ℕ
  firstAuthorizer : UInt64
  deriving DecidableEq

structure UnappliedTransaction where
  trxMeta : TrxMeta
  trxType : TrxEnumType
  /-- The callback; `none` if the function is empty. -/
  next : Option ℕ := none
  /-- The number of insertions before this one. -/
  inserted : ℕ
  deriving DecidableEq

namespace UnappliedTransaction

def id (e : UnappliedTransaction) : Sha256 := e.trxMeta.id

def expiry (e : UnappliedTransaction) : ℕ := e.trxMeta.expiration

def rank (e : UnappliedTransaction) : ℕ := e.trxType.rank

end UnappliedTransaction

/-! ## The queue -/

inductive FailureCode
  | blockCpuUsageExceeded
  | blockNetUsageExceeded
  | deadlineException
  | txDuplicate
  | other (code : ℕ)
  deriving DecidableEq

inductive QueueException
  /-- The queue would exceed its size. -/
  | txResourceExhaustion
  /-- `std::bad_function_call`: an empty callback is called. -/
  | badFunctionCall
  /-- Thrown by `push_transaction`. -/
  | pushTransaction
  deriving DecidableEq

inductive Response
  | expired
  | duplicate
  | failed (code : FailureCode)
  | thrown (e : QueueException)
  | trace
  deriving DecidableEq

structure QueueConfig where
  maxTransactionQueueSize : ℕ
  /-- `sizeof(unapplied_transaction)`. -/
  entrySize : ℕ
  disablePersistUntilExpired : Bool

/-- `unapplied_transaction_queue`, and what happened to the callbacks. -/
structure TrxQueue where
  /-- In the order of the index by type. -/
  queue : List UnappliedTransaction := []
  /-- `size_in_bytes`, of 64 bits. -/
  sizeInBytes : ℕ := 0
  insertions : ℕ := 0
  /-- The callbacks that were called, and what with. -/
  called : List (ℕ × Response) := []
  /-- The number of submissions, each with a callback of its own. -/
  handed : ℕ := 0
  deriving DecidableEq

abbrev QueueM := Stateful TrxQueue QueueException

namespace TrxQueue

variable (cfg : QueueConfig)

def calcSize (trx : TrxMeta) : ℕ := cfg.entrySize + trx.estimatedSize

def find (s : TrxQueue) (id : Sha256) : Option UnappliedTransaction :=
  findKey UnappliedTransaction.id id s.queue

/-- `next(response)`. -/
def call (next : Option ℕ) (response : Response) : QueueM Unit :=
  match next with
  | none => throw .badFunctionCall
  | some callback => modify fun s => { s with called := s.called ++ [(callback, response)] }

/-- `if( itr->next ) itr->next( response )`. -/
def callIfAny (next : Option ℕ) (response : Response) : QueueM Unit :=
  match next with
  | none => pure ()
  | some callback => call (some callback) response

/-- The insertion of a transaction that is not in the queue; `added` checks the size after it. -/
def insertNew (trx : TrxMeta) (trxType : TrxEnumType) (next : Option ℕ) : QueueM Unit := do
  modify fun s => { s with
    queue := insertByRank UnappliedTransaction.rank ⟨trx, trxType, next, s.insertions⟩ s.queue
    insertions := s.insertions + 1 }
  let s ← get
  Stateful.ofExcept (check (trxType.isIncoming = false ∨
    (s.sizeInBytes + calcSize cfg trx) % 2 ^ 64 < cfg.maxTransactionQueueSize) .txResourceExhaustion)
  set { s with sizeInBytes := (s.sizeInBytes + calcSize cfg trx) % 2 ^ 64 }

/-- `queue.insert`, which does nothing if the transaction is in the queue. -/
def insert (trx : TrxMeta) (trxType : TrxEnumType) : QueueM Unit := do
  let s ← get
  match s.find trx.id with
  | some _ => pure ()
  | none => insertNew cfg trx trxType none

/-- `erase`, with `removed`. -/
def erase (e : UnappliedTransaction) : QueueM Unit :=
  modify fun s => { s with
    queue := eraseKey UnappliedTransaction.id e.id s.queue
    sizeInBytes := (s.sizeInBytes + 2 ^ 64 - calcSize cfg e.trxMeta % 2 ^ 64) % 2 ^ 64 }

/-- `modify`. -/
def replace (e : UnappliedTransaction) : QueueM Unit :=
  modify fun s => { s with
    queue := replaceKey UnappliedTransaction.id UnappliedTransaction.rank e.id e s.queue }

def firstExpiring : List UnappliedTransaction → Option UnappliedTransaction
  | [] => none
  | e :: es =>
    match firstExpiring es with
    | none => some e
    | some e' =>
      if e.expiry < e'.expiry ∨ e.expiry = e'.expiry ∧ e.inserted < e'.inserted then some e
      else some e'

/-- `clear_expired`; the deadline passes after `rounds`. -/
def clearExpired (pendingBlockTime : ℕ) : ℕ → QueueM Bool
  | 0 => pure false
  | rounds + 1 => do
    let s ← get
    match firstExpiring s.queue with
    | none => pure true
    | some e =>
      if e.expiry > pendingBlockTime then pure true
      else do
        callIfAny e.next .expired
        erase cfg e
        clearExpired pendingBlockTime rounds

/-- The part of `clear_applied` for one receipt with a packed transaction. -/
def clearOne (id : Sha256) : QueueM Unit := do
  let s ← get
  match s.find id with
  | none => pure ()
  | some e => do
    callIfAny e.next .duplicate
    if e.trxType ≠ .persisted ∧ e.trxType ≠ .incomingPersisted then erase cfg e
    else replace { e with next := none }

def clearApplied (ids : List Sha256) : QueueM Unit := ids.forM (clearOne cfg)

/-- `add_forked`, with the transactions of the blocks in order. -/
def addForked (trxs : List TrxMeta) : QueueM Unit := trxs.forM fun trx => insert cfg trx .forked

def addAborted (trxs : List TrxMeta) : QueueM Unit := trxs.forM fun trx => insert cfg trx .aborted

def addPersisted (trx : TrxMeta) : QueueM Unit := do
  let s ← get
  match s.find trx.id with
  | none => insertNew cfg trx .persisted none
  | some e => if e.trxType ≠ .persisted then replace { e with trxType := .persisted } else pure ()

def addIncoming (trx : TrxMeta) (persistUntilExpired : Bool) (next : Option ℕ) : QueueM Unit := do
  let s ← get
  match s.find trx.id with
  | none => insertNew cfg trx (.ofIncoming persistUntilExpired) next
  | some e => replace { e with trxType := .ofIncoming persistUntilExpired, next }

/-! ## Executing transactions -/

/-- What came of `push_transaction`. -/
inductive PushOutcome
  | threw
  | except (code : FailureCode)
  | executed
  deriving DecidableEq

def exceptionIsExhausted (code : FailureCode) (deadlineIsSubjective : Bool) : Bool :=
  code = .blockCpuUsageExceeded ∨ code = .blockNetUsageExceeded ∨
    (code = .deadlineException ∧ deadlineIsSubjective = true)

/-- What the chain answers about a transaction. -/
structure ChainAnswer where
  /-- `is_building_block`. -/
  building : Bool
  /-- The time of the pending block, or of head. -/
  blockTime : ℕ
  /-- `is_known_unexpired_transaction`. -/
  known : Bool
  deadlineIsSubjective : Bool
  outcome : PushOutcome
  deriving DecidableEq

/-- The `try` block of `process_incoming_transaction_async`. -/
def tryIncoming (trx : TrxMeta) (persistUntilExpired : Bool) (next : Option ℕ) (a : ChainAnswer) :
    QueueM Unit :=
  if trx.expiration < a.blockTime then call next .expired
  else if a.known then call next .duplicate
  else if !a.building then addIncoming cfg trx persistUntilExpired next
  else
    match a.outcome with
    | .threw => throw .pushTransaction
    | .except code =>
      if exceptionIsExhausted code a.deadlineIsSubjective then
        addIncoming cfg trx persistUntilExpired next
      else call next (.failed code)
    | .executed =>
      if persistUntilExpired && !cfg.disablePersistUntilExpired then do
        addPersisted cfg trx
        call next .trace
      else call next .trace

/-- `process_incoming_transaction_async`; an exception goes to the callback. -/
def processIncoming (trx : TrxMeta) (persistUntilExpired : Bool) (next : Option ℕ) (a : ChainAnswer) :
    QueueM Unit :=
  tryCatch (tryIncoming cfg trx persistUntilExpired next a) fun e => call next (.thrown e)

/-- The body of the loop of `process_unapplied_trxs`: the accounts of the transactions that failed
and count. -/
def processUnapplied (failures : List UInt64) (e : UnappliedTransaction) (a : ChainAnswer) :
    QueueM (List UInt64) :=
  -- `failure_limit`, with `max_failures_per_account`
  if 3 ≤ failures.count e.trxMeta.firstAuthorizer then do
    erase cfg e
    pure failures
  else
    match a.outcome with
    | .threw => pure failures
    | .except code =>
      if exceptionIsExhausted code a.deadlineIsSubjective then pure failures
      else do
        callIfAny e.next .trace
        erase cfg e
        pure (if code = .txDuplicate then failures else e.trxMeta.firstAuthorizer :: failures)
    | .executed =>
      if e.trxType ≠ .persisted then do
        callIfAny e.next .trace
        erase cfg e
        pure failures
      else pure failures

/-- The loop of `process_unapplied_trxs`. -/
def processUnappliedLoop : List UInt64 → List UnappliedTransaction → List ChainAnswer → QueueM Bool
  | _, [], _ => pure true
  | _, _ :: _, [] => pure false
  | failures, e :: es, a :: answers => do
    let failures ← processUnapplied cfg failures e a
    processUnappliedLoop failures es answers

def processUnappliedTrxs (producing : Bool) (answers : List ChainAnswer) : QueueM Bool := do
  let s ← get
  processUnappliedLoop cfg []
    (s.queue.filter fun e =>
      if producing then e.rank ≤ TrxEnumType.rank .aborted else e.trxType = .persisted) answers

def incomingBegin (s : TrxQueue) : Option Sha256 :=
  (s.queue.find? fun e => e.trxType.isIncoming).map UnappliedTransaction.id

/-- One incoming transaction: it is taken from the queue and processed; the next one. -/
def processNext (id : Sha256) (a : ChainAnswer) : QueueM (Option Sha256) := do
  let s ← get
  match s.find id with
  | none => pure none
  | some e => do
    erase cfg e
    processIncoming cfg e.trxMeta (e.trxType = .incomingPersisted) e.next a
    pure ((afterKey UnappliedTransaction.id id s.queue).map UnappliedTransaction.id)

/-- The loop of `process_incoming_trxs`. -/
def processIncomingLoop : ℕ → Option Sha256 → List ChainAnswer → QueueM Bool
  | 0, _, _ => pure true
  | _ + 1, none, _ => pure true
  | _ + 1, some _, [] => pure false
  | limit + 1, some id, a :: answers => do
    let itr ← processNext cfg id a
    processIncomingLoop limit itr answers

def processIncomingTrxs (pendingIncomingProcessLimit : ℕ) (answers : List ChainAnswer) :
    QueueM Bool := do
  let s ← get
  processIncomingLoop cfg pendingIncomingProcessLimit s.incomingBegin answers

/-- How `incoming_trx_weight` is computed with. -/
structure WeightOps (ω : Type) where
  zero : ω
  atLeastOne : ω → Bool
  minusOne : ω → ω
  /-- `+= _incoming_defer_ratio`. -/
  plusRatio : ω → ω

variable {ω : Type} (ops : WeightOps ω)

/-- The inner loop of `process_scheduled_and_incoming_trxs`: the limit, the weight and the position
after it, and whether the deadline has passed. -/
def processShare : ℕ → ω → Option Sha256 → List ChainAnswer →
    QueueM ((ℕ × ω × Option Sha256) × Bool)
  | 0, weight, itr, _ => pure ((0, weight, itr), false)
  | limit + 1, weight, none, _ => pure ((limit + 1, weight, none), false)
  | limit + 1, weight, some id, answers =>
    if ops.atLeastOne weight then
      match answers with
      | [] => pure ((limit + 1, weight, some id), true)
      | a :: answers => do
        let itr ← processNext cfg id a
        processShare limit (ops.minusOne weight) itr answers
    else pure ((limit + 1, weight, some id), false)

/-- The loop of `process_scheduled_and_incoming_trxs` over the scheduled transactions that are
executed; each comes with the answers about incoming transactions that are processed before it. -/
def processScheduledLoop : List (List ChainAnswer) → ℕ → ω → Option Sha256 → QueueM Unit
  | [], _, _, _ => pure ()
  | answers :: scheduled, limit, weight, itr => do
    let r ← processShare cfg ops limit weight itr answers
    let weight := if r.1.1 = 0 then ops.zero else ops.plusRatio r.1.2.1
    if r.2 then pure () else processScheduledLoop scheduled r.1.1 weight r.1.2.2

def processScheduledAndIncomingTrxs (pendingIncomingProcessLimit : ℕ)
    (scheduled : List (List ChainAnswer)) : QueueM Unit := do
  let s ← get
  processScheduledLoop cfg ops scheduled pendingIncomingProcessLimit ops.zero s.incomingBegin

/-! ## Inputs -/

inductive Input
  /-- A transaction is submitted, with a new callback. -/
  | incomingTransaction (trx : TrxMeta) (persistUntilExpired : Bool) (a : ChainAnswer)
  | removeExpired (pendingBlockTime rounds : ℕ)
  | processUnapplied (producing : Bool) (answers : List ChainAnswer)
  | processScheduled (limit : ℕ) (scheduled : List (List ChainAnswer))
  | processIncoming (limit : ℕ) (answers : List ChainAnswer)
  /-- `on_block`, with the ids of the packed transactions of the block. -/
  | blockAccepted (ids : List Sha256)
  | blockAborted (trxs : List TrxMeta)
  | forked (trxs : List TrxMeta)

def Input.code : Input → QueueM Unit
  | .incomingTransaction trx persistUntilExpired a => do
    let s ← get
    set { s with handed := s.handed + 1 }
    TrxQueue.processIncoming cfg trx persistUntilExpired (some s.handed) a
  | .removeExpired pendingBlockTime rounds => discard (clearExpired cfg pendingBlockTime rounds)
  | .processUnapplied producing answers => discard (processUnappliedTrxs cfg producing answers)
  | .processScheduled limit scheduled => processScheduledAndIncomingTrxs cfg ops limit scheduled
  | .processIncoming limit answers => discard (processIncomingTrxs cfg limit answers)
  | .blockAccepted ids => clearApplied cfg ids
  | .blockAborted trxs => addAborted cfg trxs
  | .forked trxs => addForked cfg trxs

/-- The queue after an input, which may throw. -/
def step (s : TrxQueue) (input : Input) : TrxQueue := (Stateful.exec (input.code cfg ops) s).2

end TrxQueue

end DcdProtocol.Producer
