import DcdProtocol.Chain.Transaction

/-!
# What an action may send

While an action is executed, it can send inline actions, which are executed in the same
transaction, and deferred transactions, which are stored in the database and executed in a later
block.  Both have to be authorized by the contract that sends them, unless it is privileged.

A contract that sends only to itself was not checked at first.  As long as
`RESTRICT_ACTION_TO_SELF` is not active, a failed check is therefore dropped where a block is
validated, and becomes a subjective exception where it is produced (`bypassForSelf`).
-/

namespace DcdProtocol.Chain

def dcdCodeName : Name := .ofChars ['d', 'c', 'd', '.', 'c', 'o', 'd', 'e']

/-- An entry of `action_traces`.  The ordinals are those of the action that created the entry, and
of its closest ancestor that is not a notification. -/
structure ScheduledAction where
  act : Action
  receiver : Name
  contextFree : Bool
  creatorActionOrdinal : ℕ := 0
  closestUnnotifiedAncestorActionOrdinal : ℕ := 0
  deriving DecidableEq, Repr

/-- The action that is executed, the transaction and the block it is in, and what it has sent so
far. -/
structure ApplyContext where
  codec : TransactionCodec
  receiver : Name
  privileged : Bool := false
  act : Action
  actionOrdinal : ℕ := 1
  firstReceiverActionOrdinal : ℕ := 1
  trxId : Sha256
  published : ℤ
  pendingBlockTime : ℤ
  headBlockId : Sha256
  db : TransactionDatabase
  actionTraces : List ScheduledAction := []
  inlineActions : List ℕ := []
  cfaInlineActions : List ℕ := []

namespace ApplyContext

variable (n : NodeSettings) (enforceWhiteblacklist : Bool) (c : ApplyContext)

/-- `schedule_action`, with the ordinal of the new entry. -/
def scheduleAction (a : Action) (receiver : Name) (contextFree : Bool) : ℕ × ApplyContext :=
  (c.actionTraces.length + 1,
    { c with
      actionTraces := c.actionTraces ++
        [⟨a, receiver, contextFree, c.actionOrdinal, c.firstReceiverActionOrdinal⟩] })

def hasAuthorization (account : Name) : Bool := c.act.authorization.any (·.actor = account)

def requireAuthorization (account : Name) : Except ChainException Unit :=
  dcdAssert (c.hasAuthorization account = true) .missingAuthException
    "missing authority of ${account}"

/-- What becomes of an exception of `check_authorization`. -/
def bypassForSelf (toSelf : Bool) (what : String) (check : Except ChainException Unit) :
    Except ChainException Unit :=
  match check with
  | .ok _ => pure ()
  | .error e =>
    if e.type = .undefinedBehaviour ∨ c.db.features.restrictActionToSelf = true ∨ toSelf = false
    then throw e
    else if n.isProducingBlock then throw ⟨.subjectiveBlockProductionException, what⟩
    else pure ()

/-! ## Inline actions -/

def assertInlineActionSize (a : Action) : Except ChainException Unit :=
  if c.privileged = false ∧ n.isProducingBlock = true then
    dcdAssert (a.data.length <
        (min c.db.maxInlineActionSize n.maxNonprivilegedInlineActionSize).toNat)
      .inlineActionTooBigNonprivileged "inline action too big for nonprivileged account ${account}"
  else pure ()

def assertInlineAuthorization (auth : PermissionLevel) : Except ChainException Unit := do
  dcdAssert (auth.actor ∈ c.db.accounts) .actionValidateException
    "inline action's authorizing actor ${account} does not exist"
  let permission ← c.db.authorizationManager.findPermission auth
  dcdAssert (permission.isSome = true) .actionValidateException
    "inline action's authorizations include a non-existent permission: ${permission}"

/-- The authorizations of the parent that an action a contract sends to itself inherits, where the
block is produced. -/
def inheritedAuthorizations (a : Action) : List PermissionLevel :=
  if c.db.features.restrictActionToSelf = false ∧ a.account = c.receiver ∧
      c.receiver = c.act.account ∧ n.isProducingBlock = true then
    a.authorization.filter (· ∈ c.act.authorization)
  else []

/-- The arguments of `check_authorization` in `execute_inline`. -/
def inlineAuthorizationInput (a : Action) : AuthorizationInput where
  actions := [a]
  providedKeys := []
  providedPermissions := [⟨c.receiver, dcdCodeName⟩]
  providedDelay := c.pendingBlockTime - c.published
  satisfiedAuthorizations := c.inheritedAuthorizations n a

def checkInlineActors (a : Action) : Except ChainException Unit :=
  if enforceWhiteblacklist = true ∧ n.isProducingBlock = true then
    n.checkActorList (a.authorization.map (·.actor))
  else pure ()

def authorizeInline (a : Action) : Except ChainException Unit :=
  if n.skipAuthCheck = false ∧ c.privileged = false then
    c.bypassForSelf n (a.account = c.receiver)
      "Authorization failure with inline action sent to self"
      (c.db.authorizationManager.checkAuthorization (c.inlineAuthorizationInput n a))
  else pure ()

def executeInline (a : Action) : Except ChainException ApplyContext := do
  dcdAssert (a.account ∈ c.db.accounts) .actionValidateException
    "inline action's code account ${account} does not exist"
  a.authorization.forM c.assertInlineAuthorization
  checkInlineActors n enforceWhiteblacklist a
  c.assertInlineActionSize n a
  c.authorizeInline n a
  let (ordinal, c) := c.scheduleAction a a.account false
  pure { c with inlineActions := c.inlineActions ++ [ordinal] }

def executeContextFreeInline (a : Action) : Except ChainException ApplyContext := do
  dcdAssert (a.account ∈ c.db.accounts) .actionValidateException
    "inline action's code account ${account} does not exist"
  dcdAssert (a.authorization.length = 0) .actionValidateException
    "context-free actions cannot have authorizations"
  c.assertInlineActionSize n a
  let (ordinal, c) := c.scheduleAction a a.account true
  pure { c with cfaInlineActions := c.cfaInlineActions ++ [ordinal] }

/-! ## Deferred transactions -/

/-- The extension of a deferred transaction, which it gets if it has none, and the fields of its
header that are reset. -/
def prepareDeferred (senderId : BitVec 128) (trx : Transaction) :
    Except ChainException Transaction := do
  if c.db.features.noDuplicateDeferredId then
    let exts ← trx.validateAndExtractExtensions c.codec
    let trx ← match exts with
      | [] => pure { trx with transactionExtensions :=
          [(0, c.codec.packContext ⟨c.trxId, senderId, c.receiver⟩)] }
      | context :: rest => do
        dcdAssert (rest = []) .invalidTransactionExtension
          "only the deferred_transaction_generation_context extension is currently supported for deferred transactions"
        dcdAssert (context.sender = c.receiver) .illFormedDeferredTransactionGenerationContext
          "deferred transaction generaction context contains mismatching sender"
        dcdAssert (context.senderId = senderId) .illFormedDeferredTransactionGenerationContext
          "deferred transaction generaction context contains mismatching sender_id"
        dcdAssert (context.senderTrxId = c.trxId) .illFormedDeferredTransactionGenerationContext
          "deferred transaction generaction context contains mismatching sender_trx_id"
        pure trx
    pure { trx with expiration := 0, refBlockNum := 0, refBlockPrefix := 0 }
  else
    pure ({ trx with expiration := secondsOfTimePoint (c.pendingBlockTime + 999999) }
      |>.setReferenceBlock c.headBlockId)

/-- The arguments of `check_authorization` in `schedule_deferred_transaction`. -/
def deferredAuthorizationInput (trx : Transaction) : AuthorizationInput where
  actions := trx.actions
  providedKeys := []
  providedPermissions := [⟨c.receiver, dcdCodeName⟩]
  providedDelay := seconds trx.delaySec

def assertDeferredPayer (payer : Name) : Except ChainException Unit := do
  if payer ≠ c.receiver then
    if c.db.features.ramRestrictions then
      dcdAssert (c.receiver = c.act.account) .actionValidateException
        "cannot bill RAM usage of deferred transactions to another account within notify context"
      dcdAssert (c.hasAuthorization payer = true) .actionValidateException
        "cannot bill RAM usage of deferred transaction to another account that has not authorized the action: ${payer}"
    else c.requireAuthorization payer

def authorizeDeferred (payer : Name) (trx : Transaction) : Except ChainException Unit :=
  if n.skipAuthCheck = false ∧ c.privileged = false then do
    c.assertDeferredPayer payer
    c.bypassForSelf n (∀ act ∈ trx.actions, act.account = c.receiver)
      "Authorization failure with sent deferred transaction consisting only of actions to self"
      (c.db.authorizationManager.checkAuthorization (c.deferredAuthorizationInput trx))
  else pure ()

/-- The object that is stored for a deferred transaction. -/
def deferredObject (senderId : BitVec 128) (payer : Name) (trxId : Sha256) (trx : Transaction) :
    GeneratedTransaction where
  trxId
  sender := c.receiver
  senderId
  payer
  published := c.pendingBlockTime
  delayUntil := c.pendingBlockTime + seconds trx.delaySec
  expiration := c.pendingBlockTime + seconds trx.delaySec +
    seconds c.db.deferredTrxExpirationWindow
  trx

def storeDeferred (senderId : BitVec 128) (payer : Name) (trx : Transaction)
    (replaceExisting : Bool) : Except ChainException TransactionDatabase := do
  match c.db.findBySenderId c.receiver senderId with
  | some old =>
    dcdAssert (replaceExisting = true) .deferredTxDuplicate
      "deferred transaction with the same sender_id and payer already exists"
    dcdAssert (c.db.features.replaceDeferred = true ∨ n.isProducingBlock = false ∨
        n.disableAllSubjectiveMitigations = true) .subjectiveBlockProductionException
      "Replacing a deferred transaction is temporarily disabled."
    let trxId := if c.db.features.replaceDeferred then c.codec.id trx else old.trxId
    (c.db.removeGenerated old).createGenerated (c.deferredObject senderId payer trxId trx)
  | none => c.db.createGenerated (c.deferredObject senderId payer (c.codec.id trx) trx)

def scheduleDeferredTransaction (senderId : BitVec 128) (payer : Name) (trx : Transaction)
    (replaceExisting : Bool) : Except ChainException ApplyContext := do
  dcdAssert (trx.contextFreeActions.length = 0) .cfaInsideGeneratedTx
    "context free actions are not currently allowed in generated transactions"
  c.db.validateReferencedAccounts n trx (enforceWhiteblacklist && n.isProducingBlock &&
    !n.senderAvoidsWhitelistBlacklistEnforcement c.receiver)
  let trx ← c.prepareDeferred senderId trx
  c.authorizeDeferred n payer trx
  let db ← c.storeDeferred n senderId payer trx replaceExisting
  dcdAssert (c.db.features.ramRestrictions = true ∨ n.isRamBillingInNotifyAllowed = true ∨
      c.receiver = c.act.account ∨ c.receiver = payer ∨ c.privileged = true)
    .subjectiveBlockProductionException "Cannot charge RAM to other accounts during notify."
  pure { c with db }

end ApplyContext

end DcdProtocol.Chain
