import DcdProtocol.Chain.ApplyContext
import DcdProtocol.Chain.FeeRate

/-!
# The life of a transaction

A transaction that `push_transaction` accepts is executed at once, or stored as a generated
transaction if it has a delay.  Generated transactions, those that contracts have sent among
them, are executed by `push_scheduled_transaction` in a later block.  Both go through `exec`, which
first schedules an action `onfee` that charges the fee.

What the actions of a transaction do is an input: the deferred transactions they send and cancel,
the changes they make to accounts, permissions and fees, and the exception they throw, if they do.
A transaction that fails leaves no change.

`fees`, `checks` and `sends` record the history of the database: the executed `onfee` actions, the
calls of `check_authorization` whose callers went on, and the deferred transactions that contracts
have sent, with whether the contract was privileged.
-/

namespace DcdProtocol.Chain

open Library

/-! ## The state -/

/-- An executed `onfee` action.  `actions` are those of the transaction it was executed for, and
`generated` is the object of the transaction if it was a generated one. -/
structure FeeCharge where
  trxId : Sha256
  payer : Name
  amount : Int64
  actions : List Action
  generated : Option GeneratedTransaction

/-- A call of `check_authorization`. -/
structure AuthorizationRecord where
  manager : AuthorizationManager
  input : AuthorizationInput

inductive TransactionStatus
  | executed
  | softFail
  | hardFail
  | delayed
  | expired
  deriving DecidableEq, Repr

/-- `transaction_receipt`; `input` says whether it carries the packed transaction. -/
structure TransactionReceipt where
  trxId : Sha256
  input : Bool
  status : TransactionStatus
  deriving DecidableEq, Repr

structure TransactionState where
  db : TransactionDatabase
  /-- `transaction_multi_index`: ids and expirations. -/
  transactions : List (Sha256 × UInt32) := []
  feeTables : FeeTables
  contractCurRate : Double := .one
  maxTransactionLifetime : UInt32 := 3600
  blockSummaries : UInt16 → Sha256 := fun _ => {}
  pendingBlockTime : ℤ := 0
  headBlockId : Sha256 := {}
  /-- The receipts of the chain, those of the pending block included. -/
  receipts : List TransactionReceipt := []
  fees : List FeeCharge := []
  checks : List AuthorizationRecord := []
  sends : List (GeneratedTransaction × Bool) := []

/-- A deferred transaction that a contract sends; no account has an empty name. -/
structure DeferredSend where
  receiver : Name
  receiver_ne : receiver ≠ ⟨0⟩
  privileged : Bool := false
  act : Action
  senderId : BitVec 128
  payer : Name
  trx : Transaction
  replaceExisting : Bool := false

/-- What the actions of a transaction do to the state. -/
inductive ActionEffect
  | sendDeferred (d : DeferredSend)
  | cancelDeferred (sender : Name) (senderId : BitVec 128)
  | updateAuthorization (accounts : List Name) (authorization : AuthorizationManager)
  | updateFees (t : FeeTables)
  | fail (e : ChainException)

/-- The node, and the transaction it executes. -/
structure TransactionContext where
  node : NodeSettings
  codec : TransactionCodec
  enforceWhiteblacklist : Bool := true
  trxId : Sha256
  published : ℤ
  generated : Option GeneratedTransaction := none

/-! ## Exceptions -/

def failureIsSubjective (e : ChainException) : Bool :=
  e.type ∈ [.subjectiveBlockProductionException, .blockNetUsageExceeded, .greylistNetUsageExceeded,
    .blockCpuUsageExceeded, .greylistCpuUsageExceeded, .deadlineException,
    .leewayDeadlineException, .actorWhitelistException, .actorBlacklistException,
    .contractWhitelistException, .contractBlacklistException, .actionBlacklistException,
    .keyBlacklistException, .sigVariableSizeLimitException, .inlineActionTooBigNonprivileged]

/-- Subjective on this node: a producer also forgives a transaction that takes too long. -/
def scheduledFailureIsSubjective (n : NodeSettings) (e : ChainException) : Bool :=
  n.isProducingBlock && e.type = .txCpuUsageExceeded || failureIsSubjective e

/-- The exceptions that `push_scheduled_transaction` does not handle. -/
def passesThrough (e : ChainException) : Bool :=
  e.type ∈ [.disallowedTransactionExtensionsBadBlockException, .badAlloc, .interprocessBadAlloc,
    .undefinedBehaviour]

/-! ## Executing a transaction -/

/-- The accounts that `schedule_fee_action` exempts. -/
def feeExemptNames : List Name :=
  [ systemAccountName, .ofChars ['d', 'c', 'd', '.', 'b', 'p', 'a', 'y'],
    .ofChars ['d', 'c', 'd', '.', 'm', 's', 'i', 'g'],
    .ofChars ['d', 'c', 'd', '.', 'n', 'a', 'm', 'e', 's'],
    .ofChars ['d', 'c', 'd', '.', 'r', 'a', 'm'],
    .ofChars ['d', 'c', 'd', '.', 'r', 'a', 'm', 'f', 'e', 'e'],
    .ofChars ['d', 'c', 'd', '.', 's', 'a', 'v', 'i', 'n', 'g'],
    .ofChars ['d', 'c', 'd', '.', 's', 't', 'a', 'k', 'e'],
    .ofChars ['d', 'c', 'd', '.', 't', 'o', 'k', 'e', 'n'],
    .ofChars ['d', 'c', 'd', '.', 'v', 'p', 'a', 'y'], .ofChars ['d', 'c', 'd', '.', 'r', 'e', 'x'],
    .ofChars ['d', 'c', 'd', '.', 's', 'y', 's', 't', 'e', 'm'],
    .ofChars ['d', 'c', 'd', '.', 'f', 'e', 'e', 'b', 'a', 'n', 'k'] ]

def transactionIdToSenderId (id : Sha256) : BitVec 128 := id.h3.toBitVec ++ id.h2.toBitVec

namespace TransactionState

variable (s : TransactionState)

/-- The payer and the amount of the `onfee` action that `schedule_fee_action` schedules, if it
schedules one. -/
def scheduleFeeAction (trx : Transaction) : Except ChainException (Option (Name × Int64)) :=
  match trx.actions with
  | [] => throw ⟨.undefinedBehaviour, "there is no first action"⟩
  | act :: _ =>
    match act.authorization with
    | [] => throw ⟨.transactionException, "authorization empty"⟩
    | auth :: _ => do
      dcdAssert (auth.actor ≠ ⟨0⟩) .transactionException "fee_payer nil"
      if auth.actor ∈ feeExemptNames then pure none
      else
        match s.feeTables.getRequiredFee s.contractCurRate
          (trx.actions.map fun act => (act.account, act.name)) with
        | none => throw ⟨.external, "get_core_from_usd"⟩
        | some fee => pure (if 0 < fee then some (auth.actor, fee) else none)

/-- The execution of the `onfee` action, if there is one. -/
def chargeFee (c : TransactionContext) (trx : Transaction) : Option (Name × Int64) → TransactionState
  | none => s
  | some (payer, amount) =>
    { s with fees := s.fees ++ [⟨c.trxId, payer, amount, trx.actions, c.generated⟩] }

/-- The context in which a contract sends a deferred transaction. -/
def applyContext (c : TransactionContext) (d : DeferredSend) : ApplyContext where
  codec := c.codec
  receiver := d.receiver
  privileged := d.privileged
  act := d.act
  trxId := c.trxId
  published := c.published
  pendingBlockTime := s.pendingBlockTime
  headBlockId := s.headBlockId
  db := s.db

/-- The generated transaction that is stored is the last one. -/
def sendDeferred (c : TransactionContext) (d : DeferredSend) : Except ChainException TransactionState := do
  let a := s.applyContext c d
  let a' ← a.scheduleDeferredTransaction c.node c.enforceWhiteblacklist d.senderId d.payer d.trx
    d.replaceExisting
  let checks :=
    if c.node.skipAuthCheck = false ∧ d.privileged = false then
      [⟨s.db.authorizationManager, a.deferredAuthorizationInput d.trx⟩]
    else []
  pure { s with
    db := a'.db
    checks := s.checks ++ checks
    sends := s.sends ++ (a'.db.generated.getLast?.map fun g => (g, d.privileged)).toList }

/-- `cancel_deferred_transaction`. -/
def cancelDeferred (sender : Name) (senderId : BitVec 128) : TransactionState :=
  match s.db.findBySenderId sender senderId with
  | some g => { s with db := s.db.removeGenerated g }
  | none => s

def runEffect (c : TransactionContext) (s : TransactionState) :
    ActionEffect → Except ChainException TransactionState
  | .sendDeferred d => s.sendDeferred c d
  | .cancelDeferred sender senderId => pure (s.cancelDeferred sender senderId)
  | .updateAuthorization accounts authorization =>
    pure { s with db := { s.db with accounts, authorization } }
  | .updateFees t => pure { s with feeTables := t }
  | .fail e => throw e

/-- `schedule_transaction`: a delayed transaction is stored; it has no sender. -/
def scheduleTransaction (trxId : Sha256) (trx : Transaction) : Except ChainException TransactionState := do
  let delayUntil := s.pendingBlockTime + seconds trx.delaySec
  let db ← s.db.createGenerated
    { trxId
      sender := ⟨0⟩
      senderId := transactionIdToSenderId trxId
      payer := trx.firstAuthorizer
      published := s.pendingBlockTime
      delayUntil
      expiration := delayUntil + seconds s.db.deferredTrxExpirationWindow
      trx }
  pure { s with db }

/-- `exec`.  A delayed transaction executes no actions besides the fee and its context-free ones;
`effects` are those of the actions that are executed. -/
def exec (c : TransactionContext) (trx : Transaction) (delayed : Bool)
    (effects : List ActionEffect) : Except ChainException TransactionState := do
  let fee ← s.scheduleFeeAction trx
  let s ← effects.foldlM (runEffect c) (s.chargeFee c trx fee)
  if delayed then s.scheduleTransaction c.trxId trx else pure s

/-! ## Input transactions -/

/-- An input transaction, the keys of its signatures, and what its execution does. -/
structure PushInput where
  trx : Transaction
  recoveredKeys : List PublicKey := []
  effects : List ActionEffect := []

def validateExpiration (trx : Transaction) : Except ChainException Unit := do
  dcdAssert (s.pendingBlockTime ≤ trx.expirationTime) .expiredTxException
    "transaction has expired, expiration is ${trx.expiration} and pending block time is ${pending_block_time}"
  dcdAssert (trx.expirationTime ≤ s.pendingBlockTime + seconds s.maxTransactionLifetime)
    .txExpTooFarException
    "Transaction expiration is too far in the future relative to the reference time of ${reference_time}, expiration is ${trx.expiration} and the maximum transaction lifetime is ${max_til_exp} seconds"

def validateTapos (trx : Transaction) : Except ChainException Unit :=
  dcdAssert (trx.verifyReferenceBlock (s.blockSummaries trx.refBlockNum) = true)
    .invalidRefBlockException
    "Transaction's reference block did not match. Is this transaction from a different fork?"

/-- The checks of `init_for_input_trx_common`. -/
def validateInput (n : NodeSettings) (trx : Transaction) : Except ChainException Unit :=
  if n.skipTrxChecks then pure ()
  else do
    s.validateExpiration trx
    s.validateTapos trx
    s.db.validateReferencedAccounts n trx n.isProducingBlock

def recordTransaction (id : Sha256) (expire : UInt32) : Except ChainException TransactionState := do
  dcdAssert (∀ t ∈ s.transactions, t.1 ≠ id) .txDuplicate "duplicate transaction ${id}"
  pure { s with transactions := s.transactions ++ [(id, expire)] }

/-- `disallow_transaction_extensions`, where there are some. -/
def disallowTransactionExtensions (n : NodeSettings) (trx : Transaction) (what : String) :
    Except ChainException Unit :=
  dcdAssert (trx.transactionExtensions = [])
    (if n.isProducingBlock then .subjectiveBlockProductionException
      else .disallowedTransactionExtensionsBadBlockException) what

/-- The arguments of `check_authorization` in `push_transaction`. -/
def PushInput.authorizationInput (i : PushInput) : AuthorizationInput where
  actions := i.trx.actions
  providedKeys := i.recoveredKeys
  providedDelay := seconds i.trx.delaySec

def authorizeInput (n : NodeSettings) (i : PushInput) : Except ChainException TransactionState :=
  if n.skipAuthCheck then pure s
  else do
    s.db.authorizationManager.checkAuthorization i.authorizationInput
    pure { s with checks := s.checks ++ [⟨s.db.authorizationManager, i.authorizationInput⟩] }

/-- The part of `finalize` that may throw: the usage of the permissions is updated. -/
def updatePermissionUsage (trx : Transaction) : Except ChainException Unit :=
  (trx.actions.flatMap (·.authorization)).forM fun auth => do
    let _ ← s.db.authorizationManager.getPermission auth
    pure ()

/-- `push_transaction` of an input transaction, outside of a replay. -/
def pushTransaction (n : NodeSettings) (codec : TransactionCodec) (i : PushInput) :
    Except ChainException TransactionState := do
  disallowTransactionExtensions n i.trx
    "no transaction extensions supported yet for input transactions"
  s.validateInput n i.trx
  let s ← s.recordTransaction (codec.id i.trx) i.trx.expiration
  let s ← s.authorizeInput n i
  let s ← s.exec { node := n, codec, trxId := codec.id i.trx, published := s.pendingBlockTime }
    i.trx (i.trx.delaySec ≠ 0) i.effects
  s.updatePermissionUsage i.trx
  pure { s with receipts := s.receipts ++
    [⟨codec.id i.trx, true, if i.trx.delaySec = 0 then .executed else .delayed⟩] }

/-! ## Generated transactions -/

/-- What the execution of a generated transaction does, and that of `onerror` after it failed. -/
structure ScheduledInput where
  trxId : Sha256
  effects : List ActionEffect := []
  onerrorEffects : List ActionEffect := []

def pushReceipt (trxId : Sha256) (status : TransactionStatus) : TransactionState :=
  { s with receipts := s.receipts ++ [⟨trxId, false, status⟩] }

/-- The context of a generated transaction, in which no check is skipped. -/
def deferredContext (n : NodeSettings) (codec : TransactionCodec) (g : GeneratedTransaction) :
    TransactionContext where
  node := { n with inTrxRequiringChecks := true }
  codec
  enforceWhiteblacklist := g.sender = ⟨0⟩ || !n.senderAvoidsWhitelistBlacklistEnforcement g.sender
  trxId := codec.id g.trx
  published := g.published
  generated := some g

/-- The check of the actors of a generated transaction where the block is produced. -/
def checkDeferredActors (c : TransactionContext) (trx : Transaction) : Except ChainException Unit :=
  if c.enforceWhiteblacklist = true ∧ c.node.isProducingBlock = true then
    c.node.checkActorList ((trx.actions.flatMap (·.authorization)).map (·.actor))
  else pure ()

/-- `init_for_deferred_trx`, with the check of the actors after it. -/
def initForDeferred (c : TransactionContext) (trx : Transaction) : Except ChainException Unit := do
  dcdAssert (trx.expiration = 0 ∨ trx.transactionExtensions = [])
    (if c.node.isProducingBlock then .subjectiveBlockProductionException
      else .disallowedTransactionExtensionsBadBlockException)
    "no transaction extensions supported yet for deferred transactions"
  checkDeferredActors c trx

def executeDeferred (c : TransactionContext) (trx : Transaction) (effects : List ActionEffect) :
    Except ChainException TransactionState := do
  initForDeferred c trx
  s.exec c trx false effects

/-- What follows the failure of a generated transaction; `s` is the state without its object. -/
def retireFailed (n : NodeSettings) (c : TransactionContext) (g : GeneratedTransaction)
    (onerrorEffects : List ActionEffect) (e : ChainException) : Except ChainException TransactionState :=
  if passesThrough e ∨ scheduledFailureIsSubjective n e then throw e
  else if g.sender = ⟨0⟩ then pure (s.pushReceipt g.trxId .hardFail)
  else
    match onerrorEffects.foldlM (runEffect c) s with
    | .ok s' => pure (s'.pushReceipt g.trxId .softFail)
    | .error e =>
      if passesThrough e ∨ scheduledFailureIsSubjective n e then throw e
      else pure (s.pushReceipt g.trxId .hardFail)

/-- `push_scheduled_transaction`.  Where it returns a subjective failure, which leaves the state
as it was, the failure is thrown here. -/
def pushScheduledTransaction (n : NodeSettings) (codec : TransactionCodec) (i : ScheduledInput) :
    Except ChainException TransactionState :=
  match s.db.generated.find? fun g => g.trxId = i.trxId with
  | none => throw ⟨.unknownTransactionException, "unknown transaction"⟩
  | some g => do
    dcdAssert (g.delayUntil ≤ s.pendingBlockTime) .transactionException
      "this transaction isn't ready"
    let s := { s with db := s.db.removeGenerated g }
    if g.expiration < s.pendingBlockTime then pure (s.pushReceipt g.trxId .expired)
    else
      match s.executeDeferred (deferredContext n codec g) g.trx i.effects with
      | .ok s' => pure (s'.pushReceipt g.trxId .executed)
      | .error e => s.retireFailed n (deferredContext n codec g) g i.onerrorEffects e

/-! ## Blocks -/

/-- A new block: its time, its head and the rate in the fee manager, and what `onblock` does. -/
structure BlockInput where
  time : ℤ
  headBlockId : Sha256
  contractCurRate : Double
  blockSummaries : UInt16 → Sha256
  onblockEffects : List ActionEffect := []

def clearExpiredInputTransactions : TransactionState :=
  { s with transactions := s.transactions.filter fun t => ¬seconds t.2 < s.pendingBlockTime }

/-- What `start_block` does to the state.  An exception of `onblock` is dropped, and the action
charges no fee, as its payer is exempt. -/
def startBlock (n : NodeSettings) (codec : TransactionCodec) (i : BlockInput) : TransactionState :=
  let s := { s with
    pendingBlockTime := i.time
    headBlockId := i.headBlockId
    contractCurRate := i.contractCurRate
    blockSummaries := i.blockSummaries }
  let c : TransactionContext :=
    { node := { n with inTrxRequiringChecks := true }, codec, trxId := {}, published := i.time }
  let s :=
    match i.onblockEffects.foldlM (runEffect c) s with
    | .ok s' => s'
    | .error _ => s
  s.clearExpiredInputTransactions

end TransactionState

/-! ## Runs -/

inductive TransactionInput
  | startBlock (i : TransactionState.BlockInput)
  | pushTransaction (i : TransactionState.PushInput)
  | pushScheduledTransaction (i : TransactionState.ScheduledInput)

/-- An operation, with the settings of the node for the block it belongs to. -/
structure TransactionStep where
  node : NodeSettings
  input : TransactionInput

namespace TransactionState

/-- An operation on the chain.  A block has to be later than the one before it. -/
def step (codec : TransactionCodec) (s : TransactionState) (l : TransactionStep) :
    Except ChainException TransactionState :=
  match l.input with
  | .startBlock i => do
    dcdAssert (s.pendingBlockTime < i.time) .blockValidateException
      "next block must be in the future"
    pure (s.startBlock l.node codec i)
  | .pushTransaction i => s.pushTransaction l.node codec i
  | .pushScheduledTransaction i => s.pushScheduledTransaction l.node codec i

end TransactionState

end DcdProtocol.Chain
