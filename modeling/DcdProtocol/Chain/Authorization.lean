import DcdProtocol.Chain.AuthorityChecker

/-!
# Checking the authorizations of a transaction

`check_authorization` first checks that every authorization an action declares is relevant to it:
the declared permission has to be the minimum permission of the action or one of its ancestors.
Five native actions have rules of their own.  On the way it collects the permissions to satisfy,
each with the least delay under which an action declares it.

The part that would then ask the authority checker whether the provided keys, permissions and
delay satisfy them is commented out in the source.  It is modelled as `verifyPermissions`, apart
from `checkAuthorization`, to state under which condition the function is sound nevertheless.
-/

namespace DcdProtocol.Chain

open Library

/-! ## Names -/

def activeName : Name := .ofChars ['a', 'c', 't', 'i', 'v', 'e']
def dcdAnyName : Name := .ofChars ['d', 'c', 'd', '.', 'a', 'n', 'y']
def updateauthName : Name := .ofChars ['u', 'p', 'd', 'a', 't', 'e', 'a', 'u', 't', 'h']
def deleteauthName : Name := .ofChars ['d', 'e', 'l', 'e', 't', 'e', 'a', 'u', 't', 'h']
def linkauthName : Name := .ofChars ['l', 'i', 'n', 'k', 'a', 'u', 't', 'h']
def unlinkauthName : Name := .ofChars ['u', 'n', 'l', 'i', 'n', 'k', 'a', 'u', 't', 'h']
def canceldelayName : Name :=
  .ofChars ['c', 'a', 'n', 'c', 'e', 'l', 'd', 'e', 'l', 'a', 'y']

/-- The native actions that have no minimum permission. -/
def unlinkableNames : List Name :=
  [updateauthName, deleteauthName, linkauthName, unlinkauthName, canceldelayName]

/-! ## Actions -/

structure Action where
  account : Name
  name : Name
  authorization : List PermissionLevel
  data : List UInt8 := []
  deriving DecidableEq, Repr

structure Updateauth where
  account : Name
  permission : Name
  parent : Name

structure Deleteauth where
  account : Name
  permission : Name

structure Linkauth where
  account : Name
  code : Name
  type : Name

structure Unlinkauth where
  account : Name
  code : Name
  type : Name

structure Canceldelay where
  cancelingAuth : PermissionLevel
  trxId : Sha256

/-- `fc::raw::unpack` of the data of the native actions; `none` where it throws. -/
structure ActionCodec where
  updateauth : List UInt8 → Option Updateauth
  deleteauth : List UInt8 → Option Deleteauth
  linkauth : List UInt8 → Option Linkauth
  unlinkauth : List UInt8 → Option Unlinkauth
  canceldelay : List UInt8 → Option Canceldelay

def Action.dataAs {T : Type} (act : Action) (unpack : List UInt8 → Option T) :
    Except ChainException T :=
  match unpack act.data with
  | some value => pure value
  | none => throw ⟨.external, "unpack"⟩

/-! ## The database -/

structure PermissionObject where
  id : ℕ
  parent : ℕ
  owner : Name
  name : Name
  auth : Authority

structure PermissionLinkObject where
  account : Name
  code : Name
  messageType : Name
  requiredPermission : Name

/-- A row of `generated_transaction_multi_index`; `authorizations` are those of the actions of
its packed transaction. -/
structure GeneratedTransactionObject where
  trxId : Sha256
  sender : Name
  delayUntil : ℤ
  published : ℤ
  authorizations : List (List PermissionLevel)

/-- What `authorization_manager` reads of the database and the configuration. -/
structure AuthorizationManager where
  permissions : List PermissionObject
  links : List PermissionLinkObject := []
  generatedTransactions : List GeneratedTransactionObject := []
  maxTransactionDelay : UInt32
  maxAuthorityDepth : UInt16
  fixLinkauthRestriction : Bool
  codec : ActionCodec

namespace AuthorizationManager

variable (m : AuthorizationManager)

/-- The loop of `permission_object::satisfies`: whether `id` is an ancestor of `cur`.  The source
does not return from a cycle of parents, which `fuel` detects, and dereferences the end of the
index at a missing one. -/
def walkParents (id : ℕ) : ℕ → ℕ → Except ChainException Bool
  | 0, _ => throw ⟨.undefinedBehaviour, "the parents of a permission form a cycle"⟩
  | fuel + 1, cur =>
    match m.permissions.find? fun p => p.id = cur with
    | none => throw ⟨.undefinedBehaviour, "the parent of a permission is missing"⟩
    | some parent =>
      if id = parent.parent then pure true
      else if parent.parent = 0 then pure false
      else walkParents id fuel parent.parent

def satisfies (p other : PermissionObject) : Except ChainException Bool :=
  if p.owner ≠ other.owner then pure false
  else if p.id = other.id ∨ p.id = other.parent then pure true
  else m.walkParents p.id m.permissions.length other.parent

def findPermission (level : PermissionLevel) :
    Except ChainException (Option PermissionObject) := do
  dcdAssert (level.actor ≠ ⟨0⟩ ∧ level.permission ≠ ⟨0⟩) .permissionQueryException
    "Failed to retrieve permission: ${level}"
  pure (m.permissions.find? fun p => p.owner = level.actor ∧ p.name = level.permission)

def getPermission (level : PermissionLevel) : Except ChainException PermissionObject := do
  match ← m.findPermission level with
  | some permission => pure permission
  | none => throw ⟨.permissionQueryException, "Failed to retrieve permission: ${level}"⟩

def lookupLinkedPermission (authorizer scope actName : Name) : Option Name :=
  let find (type : Name) := m.links.find? fun link =>
    link.account = authorizer ∧ link.code = scope ∧ link.messageType = type
  (find actName <|> find ⟨0⟩).map PermissionLinkObject.requiredPermission

/-- `none` if the action is linked to `dcd.any`. -/
def lookupMinimumPermission (authorizer scope actName : Name) :
    Except ChainException (Option Name) := do
  dcdAssert (scope = systemAccountName → actName ∉ unlinkableNames)
    .unlinkableMinPermissionAction
    "cannot call lookup_minimum_permission on native actions that are not allowed to be linked to minimum permissions"
  match m.lookupLinkedPermission authorizer scope actName with
  | none => pure (some activeName)
  | some linked => pure (if linked = dcdAnyName then none else some linked)

/-! ## The native actions with rules of their own -/

/-- The only element of `auths`, or an exception. -/
def onlyAuthorization (auths : List PermissionLevel) (what : String) :
    Except ChainException PermissionLevel :=
  match auths with
  | [auth] => pure auth
  | _ => throw ⟨.irrelevantAuthException, what⟩

/-- The assertion that a declared authorization satisfies a minimum permission. -/
def assertSatisfies (auth : PermissionLevel) (min : PermissionObject) (what : String) :
    Except ChainException Unit := do
  let permission ← m.getPermission auth
  let relevant ← m.satisfies permission min
  dcdAssert (relevant = true) .irrelevantAuthException what

def checkUpdateauthAuthorization (update : Updateauth) (auths : List PermissionLevel) :
    Except ChainException Unit := do
  let auth ← onlyAuthorization auths
    "updateauth action should only have one declared authorization"
  dcdAssert (auth.actor = update.account) .irrelevantAuthException
    "the owner of the affected permission needs to be the actor of the declared authorization"
  let min ← match ← m.findPermission ⟨update.account, update.permission⟩ with
    | some min => pure min
    | none => m.getPermission ⟨update.account, update.parent⟩
  m.assertSatisfies auth min
    "updateauth action declares irrelevant authority '${auth}'; minimum authority is ${min}"

def checkDeleteauthAuthorization (del : Deleteauth) (auths : List PermissionLevel) :
    Except ChainException Unit := do
  let auth ← onlyAuthorization auths
    "deleteauth action should only have one declared authorization"
  dcdAssert (auth.actor = del.account) .irrelevantAuthException
    "the owner of the permission to delete needs to be the actor of the declared authorization"
  let min ← m.getPermission ⟨del.account, del.permission⟩
  m.assertSatisfies auth min
    "updateauth action declares irrelevant authority '${auth}'; minimum authority is ${min}"

/-- The assertions of `linkauth` on the type of the linked action. -/
def assertLinkable (type : Name) : Except ChainException Unit := do
  dcdAssert (type ≠ updateauthName) .actionValidateException
    "Cannot link dcd::updateauth to a minimum permission"
  dcdAssert (type ≠ deleteauthName) .actionValidateException
    "Cannot link dcd::deleteauth to a minimum permission"
  dcdAssert (type ≠ linkauthName) .actionValidateException
    "Cannot link dcd::linkauth to a minimum permission"
  dcdAssert (type ≠ unlinkauthName) .actionValidateException
    "Cannot link dcd::unlinkauth to a minimum permission"
  dcdAssert (type ≠ canceldelayName) .actionValidateException
    "Cannot link dcd::canceldelay to a minimum permission"

def checkLinkauthAuthorization (link : Linkauth) (auths : List PermissionLevel) :
    Except ChainException Unit := do
  let auth ← onlyAuthorization auths "link action should only have one declared authorization"
  dcdAssert (auth.actor = link.account) .irrelevantAuthException
    "the owner of the linked permission needs to be the actor of the declared authorization"
  if link.code = systemAccountName ∨ m.fixLinkauthRestriction = false then
    assertLinkable link.type
  match ← m.lookupMinimumPermission link.account link.code link.type with
  | none => pure ()
  | some linked =>
    let min ← m.getPermission ⟨link.account, linked⟩
    m.assertSatisfies auth min
      "link action declares irrelevant authority '${auth}'; minimum authority is ${min}"

def checkUnlinkauthAuthorization (unlink : Unlinkauth) (auths : List PermissionLevel) :
    Except ChainException Unit := do
  let auth ← onlyAuthorization auths "unlink action should only have one declared authorization"
  dcdAssert (auth.actor = unlink.account) .irrelevantAuthException
    "the owner of the linked permission needs to be the actor of the declared authorization"
  match m.lookupLinkedPermission unlink.account unlink.code unlink.type with
  | none => throw ⟨.transactionException,
      "cannot unlink non-existent permission link of account '${account}' for actions matching '${code}::${action}'"⟩
  | some unlinked =>
    if unlinked = dcdAnyName then pure ()
    else
      let min ← m.getPermission ⟨unlink.account, unlinked⟩
      m.assertSatisfies auth min
        "unlink action declares irrelevant authority '${auth}'; minimum authority is ${min}"

/-- The delay of the deferred transaction to cancel. -/
def checkCanceldelayAuthorization (cancel : Canceldelay) (auths : List PermissionLevel) :
    Except ChainException ℤ := do
  let auth ← onlyAuthorization auths
    "canceldelay action should only have one declared authorization"
  let min ← m.getPermission cancel.cancelingAuth
  m.assertSatisfies auth min
    "canceldelay action declares irrelevant authority '${auth}'; specified authority to satisfy is ${min}"
  match m.generatedTransactions.find? fun trx => trx.sender = ⟨0⟩ ∧ trx.trxId = cancel.trxId with
  | none => throw ⟨.txNotFound,
      "cannot cancel trx_id=${tid}, there is no deferred transaction with that transaction id"⟩
  | some trx =>
    dcdAssert (∃ auths ∈ trx.authorizations, cancel.cancelingAuth ∈ auths) .actionValidateException
      "canceling_auth in canceldelay action was not found as authorization in the original delayed transaction"
    pure (trx.delayUntil - trx.published)

end AuthorizationManager

/-! ## The check -/

/-- The arguments of `check_authorization`. -/
structure AuthorizationInput where
  actions : List Action
  providedKeys : List PublicKey
  providedPermissions : List PermissionLevel := []
  providedDelay : ℤ := 0
  allowUnusedKeys : Bool := false
  satisfiedAuthorizations : List PermissionLevel := []

namespace AuthorizationManager

variable (m : AuthorizationManager) (i : AuthorizationInput)

def effectiveProvidedDelay : ℤ :=
  if seconds m.maxTransactionDelay ≤ i.providedDelay then maximumMicroseconds
  else i.providedDelay

/-- Whether an action is one of the special cases, and the delay its authorizations need. -/
def checkSpecialCase (act : Action) : Except ChainException (Bool × ℤ) := do
  let delay := m.effectiveProvidedDelay i
  if act.account ≠ systemAccountName then pure (false, delay)
  else if act.name = updateauthName then
    let update ← act.dataAs m.codec.updateauth
    m.checkUpdateauthAuthorization update act.authorization
    pure (true, delay)
  else if act.name = deleteauthName then
    let del ← act.dataAs m.codec.deleteauth
    m.checkDeleteauthAuthorization del act.authorization
    pure (true, delay)
  else if act.name = linkauthName then
    let link ← act.dataAs m.codec.linkauth
    m.checkLinkauthAuthorization link act.authorization
    pure (true, delay)
  else if act.name = unlinkauthName then
    let unlink ← act.dataAs m.codec.unlinkauth
    m.checkUnlinkauthAuthorization unlink act.authorization
    pure (true, delay)
  else if act.name = canceldelayName then
    let cancel ← act.dataAs m.codec.canceldelay
    let cancelDelay ← m.checkCanceldelayAuthorization cancel act.authorization
    pure (true, max delay cancelDelay)
  else pure (false, delay)

/-- The relevance of an authorization declared by an action that is not a special case. -/
def checkDeclared (act : Action) (declared : PermissionLevel) : Except ChainException Unit := do
  match ← m.lookupMinimumPermission declared.actor act.account act.name with
  | none => pure ()
  | some minName =>
    let min ← m.getPermission ⟨declared.actor, minName⟩
    m.assertSatisfies declared min
      "action declares irrelevant authority '${auth}'; minimum authority is ${min}"

abbrev PermissionsToSatisfy := FlatMap PermissionLevel ℤ

/-- An entry for `declared`, with the lower delay if there is one already. -/
def addPermission (declared : PermissionLevel) (delay : ℤ) (pts : PermissionsToSatisfy) :
    PermissionsToSatisfy :=
  match pts.find? declared with
  | none => pts.insert declared delay
  | some previous => if delay < previous then pts.insert declared delay else pts

/-- The body of the loop over the authorizations of an action. -/
def addDeclared (act : Action) (special : Bool) (delay : ℤ) (pts : PermissionsToSatisfy)
    (declared : PermissionLevel) : Except ChainException PermissionsToSatisfy := do
  if special = false then m.checkDeclared act declared
  pure (if declared ∈ i.satisfiedAuthorizations then pts else addPermission declared delay pts)

def addAction (pts : PermissionsToSatisfy) (act : Action) :
    Except ChainException PermissionsToSatisfy := do
  let (special, delay) ← m.checkSpecialCase i act
  act.authorization.foldlM (m.addDeclared i act special delay) pts

def permissionsToSatisfy : Except ChainException PermissionsToSatisfy :=
  i.actions.foldlM (m.addAction i) .empty

/-- The checker that `check_authorization` makes, and does not use. -/
def checker : AuthorityChecker where
  permissionToAuthority level :=
    match m.getPermission level with
    | .ok permission => some permission.auth
    | .error _ => none
  recursionDepthLimit := m.maxAuthorityDepth
  providedKeys := i.providedKeys
  providedPermissions := i.providedPermissions

/-- `check_authorization` as it is. -/
def checkAuthorization : Except ChainException Unit := do
  let _ ← m.permissionsToSatisfy i
  pure ()

/-! ## The part that is commented out -/

/-- The loop over the permissions to satisfy: the keys used after it. -/
def verifyLoop : List (PermissionLevel × ℤ) → Finset PublicKey →
    Except ChainException (Finset PublicKey)
  | [], used => pure used
  | p :: ps, used => do
    let (r, used) := (m.checker i).satisfied p.2 p.1 used
    dcdAssert (r = true) .unsatisfiedAuthorization
      "transaction declares authority '${auth}', but does not have signatures for it under a provided delay of ${provided_delay} ms, provided permissions ${provided_permissions}, provided keys ${provided_keys}, and a delay max limit of ${delay_max_limit_ms} ms"
    verifyLoop ps used

def verifyPermissions (pts : PermissionsToSatisfy) : Except ChainException Unit := do
  let used ← m.verifyLoop i pts.entries ∅
  dcdAssert (i.allowUnusedKeys = true ∨ ∀ key ∈ i.providedKeys, key ∈ used) .txIrrelevantSig
    "transaction bears irrelevant signatures from these keys: ${keys}"

end AuthorizationManager

end DcdProtocol.Chain
