import DcdProtocol.Chain.Authorization

/-!
# Transactions, and what a node knows when it executes them

A transaction is executed on a database that all nodes share, by a node that has settings of its
own.  The settings decide whether a block is being produced or validated (`isProducingBlock`), and
which checks the node makes besides: lists of actors, a limit on the size of inline actions, and
the mitigations that may be disabled.  `NodeSettings` collects them; everything else a transaction
depends on is in `TransactionDatabase` or in the block it is executed in.

Serialization and hashing are parameters (`TransactionCodec`).
-/

namespace DcdProtocol.Chain

/-! ## Transactions -/

/-- `transaction`.  The limits of net and cpu usage are not read by any function. -/
structure Transaction where
  /-- In seconds. -/
  expiration : UInt32 := 0
  refBlockNum : UInt16 := 0
  refBlockPrefix : UInt32 := 0
  delaySec : UInt32 := 0
  contextFreeActions : List Action := []
  actions : List Action := []
  transactionExtensions : List (UInt16 × List UInt8) := []
  deriving DecidableEq, Repr

structure DeferredTransactionGenerationContext where
  senderTrxId : Sha256
  senderId : BitVec 128
  sender : Name
  deriving DecidableEq, Repr

/-- `fc::raw::pack` and hashing; `unpackContext` is `none` where unpacking throws. -/
structure TransactionCodec where
  id : Transaction → Sha256
  packContext : DeferredTransactionGenerationContext → List UInt8
  unpackContext : List UInt8 → Option DeferredTransactionGenerationContext

/-- `time_point_sec( time_point )`. -/
def secondsOfTimePoint (t : ℤ) : UInt32 := .ofInt (t.tdiv 1000000)

namespace Transaction

variable (trx : Transaction)

/-- `time_point( trx.expiration )`. -/
def expirationTime : ℤ := seconds trx.expiration

def setReferenceBlock (referenceBlock : Sha256) : Transaction :=
  { trx with
    refBlockNum := (numFromId referenceBlock).toUInt16
    refBlockPrefix := referenceBlock.h1.toUInt32 }

def verifyReferenceBlock (referenceBlock : Sha256) : Bool :=
  trx.refBlockNum = (numFromId referenceBlock).toUInt16 ∧
    trx.refBlockPrefix = referenceBlock.h1.toUInt32

/-- The actor of the first authorization of any action, or the empty name. -/
def firstAuthorizer : Name :=
  match trx.actions.flatMap (·.authorization) with
  | [] => ⟨0⟩
  | auth :: _ => auth.actor

/-- The loop of `validate_and_extract_extensions`; `lowerBound` is `none` in the first round.  The
only extension there is has the id 0 and may not be repeated. -/
def extractExtensions (codec : TransactionCodec) : Option UInt16 → List (UInt16 × List UInt8) →
    Except ChainException (List DeferredTransactionGenerationContext)
  | _, [] => pure []
  | lowerBound, (id, data) :: exts => do
    dcdAssert (lowerBound.getD 0 ≤ id) .invalidTransactionExtension
      "Transaction extensions are not in the correct order (ascending id types required)"
    dcdAssert (id = 0) .invalidTransactionExtension
      "Transaction extension with id type ${id} is not supported"
    match codec.unpackContext data with
    | none => throw ⟨.external, "unpack"⟩
    | some context =>
      dcdAssert (lowerBound = none ∨ lowerBound.getD 0 < id) .invalidTransactionExtension
        "Transaction extension with id type ${id} is not allowed to repeat"
      let contexts ← extractExtensions codec (some id) exts
      pure (context :: contexts)

def validateAndExtractExtensions (codec : TransactionCodec) :
    Except ChainException (List DeferredTransactionGenerationContext) :=
  extractExtensions codec none trx.transactionExtensions

end Transaction

/-! ## The node -/

inductive BlockStatus
  | irreversible
  | validated
  | complete
  | incomplete
  deriving DecidableEq, Repr

structure NodeSettings where
  blockStatus : BlockStatus
  inTrxRequiringChecks : Bool := false
  forceAllChecks : Bool := false
  /-- `block_validation_mode == LIGHT`, or the block is of a trusted producer. -/
  lightValidation : Bool := false
  actorWhitelist : List Name := []
  actorBlacklist : List Name := []
  senderBypassWhiteblacklist : List Name := []
  maxNonprivilegedInlineActionSize : UInt32 := 4096
  disableAllSubjectiveMitigations : Bool := false
  allowRamBillingInNotify : Bool := false

namespace NodeSettings

variable (n : NodeSettings)

def isProducingBlock : Bool := n.blockStatus = .incomplete

def lightValidationAllowed : Bool :=
  !n.inTrxRequiringChecks &&
    ((n.blockStatus = .irreversible ∨ n.blockStatus = .validated) && !n.forceAllChecks ||
      n.blockStatus = .complete && n.lightValidation)

def skipAuthCheck : Bool := n.lightValidationAllowed

def skipTrxChecks : Bool := n.lightValidationAllowed

def isRamBillingInNotifyAllowed : Bool :=
  n.disableAllSubjectiveMitigations || !n.isProducingBlock || n.allowRamBillingInNotify

def senderAvoidsWhitelistBlacklistEnforcement (sender : Name) : Bool :=
  sender ∈ n.senderBypassWhiteblacklist

/-- `check_actor_list`.  The lists are sets, which the source compares in their order. -/
def checkActorList (actors : List Name) : Except ChainException Unit :=
  if n.actorWhitelist ≠ [] then
    dcdAssert (∀ actor ∈ actors, actor ∈ n.actorWhitelist) .actorWhitelistException
      "authorizing actor(s) in transaction are not on the actor whitelist: ${actors}"
  else
    dcdAssert (∀ actor ∈ actors, actor ∉ n.actorBlacklist) .actorBlacklistException
      "authorizing actor(s) in transaction are on the actor blacklist: ${actors}"

end NodeSettings

structure ProtocolFeatures where
  restrictActionToSelf : Bool := false
  noDuplicateDeferredId : Bool := false
  ramRestrictions : Bool := false
  replaceDeferred : Bool := false

/-! ## The database -/

/-- `generated_transaction_object`, with its transaction unpacked. -/
structure GeneratedTransaction where
  trxId : Sha256
  sender : Name
  senderId : BitVec 128
  payer : Name
  delayUntil : ℤ
  expiration : ℤ
  published : ℤ
  trx : Transaction
  deriving DecidableEq, Repr

/-- What the authorization manager reads of a generated transaction. -/
def GeneratedTransaction.toObject (g : GeneratedTransaction) : GeneratedTransactionObject where
  trxId := g.trxId
  sender := g.sender
  delayUntil := g.delayUntil
  published := g.published
  authorizations := g.trx.actions.map (·.authorization)

/-- The generated transactions in `authorization` are those of `generated`. -/
structure TransactionDatabase where
  accounts : List Name
  authorization : AuthorizationManager
  generated : List GeneratedTransaction := []
  features : ProtocolFeatures := {}
  maxInlineActionSize : UInt32 := 4096
  deferredTrxExpirationWindow : UInt32 := 600

namespace TransactionDatabase

variable (db : TransactionDatabase)

def authorizationManager : AuthorizationManager :=
  { db.authorization with generatedTransactions := db.generated.map (·.toObject) }

/-- `create` of a generated transaction, whose id and sender id are unique. -/
def createGenerated (g : GeneratedTransaction) : Except ChainException TransactionDatabase := do
  dcdAssert (∀ h ∈ db.generated, h.trxId ≠ g.trxId ∧
      ¬(h.sender = g.sender ∧ h.senderId = g.senderId)) .external
    "could not insert object, most likely a uniqueness constraint was violated"
  pure { db with generated := db.generated ++ [g] }

def findBySenderId (sender : Name) (senderId : BitVec 128) : Option GeneratedTransaction :=
  db.generated.find? fun g => g.sender = sender ∧ g.senderId = senderId

/-- `remove`, of the object with the sender id of `g`. -/
def removeGenerated (g : GeneratedTransaction) : TransactionDatabase :=
  { db with generated := db.generated.filter fun h =>
      ¬(h.sender = g.sender ∧ h.senderId = g.senderId) }

/-- The checks of `validate_referenced_accounts` on one authorization. -/
def validateAuthorization (auth : PermissionLevel) : Except ChainException Unit := do
  dcdAssert (auth.actor ∈ db.accounts) .transactionException
    "action's authorizing actor '${account}' does not exist"
  let permission ← db.authorizationManager.findPermission auth
  dcdAssert (permission.isSome = true) .transactionException
    "action's authorizations include a non-existent permission: ${permission}"

def validateAction (act : Action) : Except ChainException Unit := do
  dcdAssert (act.account ∈ db.accounts) .transactionException
    "action's code account '${account}' does not exist"
  act.authorization.forM db.validateAuthorization

def validateContextFreeAction (act : Action) : Except ChainException Unit := do
  dcdAssert (act.account ∈ db.accounts) .transactionException
    "action's code account '${account}' does not exist"
  dcdAssert (act.authorization.length = 0) .transactionException
    "context-free actions cannot have authorizations"

def validateContextFreeActions (n : NodeSettings) (trx : Transaction) :
    Except ChainException Unit :=
  if n.skipTrxChecks then pure () else trx.contextFreeActions.forM db.validateContextFreeAction

def validateReferencedAccounts (n : NodeSettings) (trx : Transaction)
    (enforceActorWhitelistBlacklist : Bool) : Except ChainException Unit := do
  db.validateContextFreeActions n trx
  trx.actions.forM db.validateAction
  dcdAssert (∃ act ∈ trx.actions, act.authorization ≠ []) .txNoAuths
    "transaction must have at least one authorization"
  if enforceActorWhitelistBlacklist then
    n.checkActorList ((trx.actions.flatMap (·.authorization)).map (·.actor))

end TransactionDatabase

end DcdProtocol.Chain
