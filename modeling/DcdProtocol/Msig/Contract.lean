import DcdProtocol.Chain.AuthorityChecker
import DcdProtocol.Contract.Asset
import DcdProtocol.Library.Run

/-!
# The multisig contract

`dcd.msig` keeps, for every proposer and proposal name, the bytes of a transaction and two lists of
permission levels: those still requested, and those that have approved.  The lists live in the table
`approvals2`, where an approval has a time, or, for proposals that an earlier version of the contract
has left, in the table `approvals`, where it has none.  An account takes back all its approvals at
once with `invalidate`, which records a time.

The tables are scoped by the proposer; here the scope is part of the key.  An action that fails has
no effect, so a run has only the actions that succeed.  What an action asks the chain for is part of
its context: the authorizations it carries, the time of its block, the verdict of
`check_transaction_authorization`, and whether a deferred transaction is accepted.  Who pays for the
memory of a row is left out, as it only decides whether an action fails.
-/

namespace DcdProtocol.Msig

open Library hiding check check_ok_iff
open Contract
open Chain (Name PermissionLevel Sha256 BlockTimestamp)

/-! ## Tables -/

abbrev ProposalKey := Name ×ₗ Name

structure Approval where
  level : PermissionLevel
  /-- In microseconds. -/
  time : ℕ
  deriving DecidableEq

/-- The two lists of `approvals_info` and of `old_approvals_info`. -/
structure ApprovalLists (α : Type) where
  requestedApprovals : List α
  providedApprovals : List α
  deriving DecidableEq

/-- The identity of a deferred transaction, who pays for it, and its bytes. -/
structure DeferredTransaction where
  sender : ProposalKey
  payer : Name
  packedTransaction : List UInt8
  deriving DecidableEq

structure Multisig where
  proposals : FlatMap ProposalKey (List UInt8) := .empty
  /-- The table `approvals2`. -/
  approvals : FlatMap ProposalKey (ApprovalLists Approval) := .empty
  /-- The table `approvals`. -/
  oldApprovals : FlatMap ProposalKey (ApprovalLists PermissionLevel) := .empty
  invalidations : FlatMap Name ℕ := .empty
  /-- The deferred transactions that were sent, oldest first. -/
  deferred : List DeferredTransaction := []
  /-- The time of the last action. -/
  now : ℕ := 0
  deriving DecidableEq

/-! ## What an action asks the chain for -/

structure Host where
  /-- The field `expiration` of the `transaction_header` at the start of the bytes, if they begin
  with one. -/
  expiration : List UInt8 → Option UInt32
  sha256 : List UInt8 → Sha256

structure MsigContext where
  auths : List PermissionLevel
  timestamp : BlockTimestamp
  /-- Whether the chain finds the transaction authorized by the permission levels. -/
  checkTransactionAuthorization : List UInt8 → List PermissionLevel → Bool
  /-- Whether the chain accepts a deferred transaction. -/
  acceptsDeferred : Bool

namespace MsigContext

variable (ctx : MsigContext)

/-- `current_time_point`. -/
def now : ℕ := ctx.timestamp.toTimePoint

/-- `time_point_sec(current_time_point())`. -/
def nowSec : UInt32 := UInt32.ofNat (ctx.now / 1000000)

/-- `require_auth` of an account. -/
def requireAuth (account : Name) : Except Failure Unit :=
  Library.check (∃ level ∈ ctx.auths, level.actor = account) (.missingAuthority account)

/-- `require_auth` of a permission level. -/
def requireLevel (level : PermissionLevel) : Except Failure Unit :=
  Library.check (level ∈ ctx.auths) (.missingAuthority level.actor)

end MsigContext

/-! ## The two lists -/

namespace ApprovalLists

variable {α : Type} (levelOf : α → PermissionLevel) (lists : ApprovalLists α)

/-- The first requested entry of the level of `entry` is taken out; `entry` is now provided. -/
def approve (entry : α) : Except Failure (ApprovalLists α) := do
  check (∃ a ∈ lists.requestedApprovals, levelOf a = levelOf entry)
    "approval is not on the list of requested approvals"
  pure
    { requestedApprovals := lists.requestedApprovals.eraseP fun a => levelOf a = levelOf entry
      providedApprovals := lists.providedApprovals ++ [entry] }

/-- The first provided entry of the level of `entry` is taken out; `entry` is requested again. -/
def unapprove (entry : α) : Except Failure (ApprovalLists α) := do
  check (∃ a ∈ lists.providedApprovals, levelOf a = levelOf entry) "no approval previously granted"
  pure
    { requestedApprovals := lists.requestedApprovals ++ [entry]
      providedApprovals := lists.providedApprovals.eraseP fun a => levelOf a = levelOf entry }

end ApprovalLists

/-! ## Actions -/

namespace Multisig

variable (s : Multisig) (host : Host) (ctx : MsigContext)

def propose (proposer proposalName : Name) (requested : List PermissionLevel) (trx : List UInt8) :
    Except Failure Multisig := do
  let key := toLex (proposer, proposalName)
  let expiration ← require (host.expiration trx) "read"
  ctx.requireAuth proposer
  check (ctx.nowSec ≤ expiration) "transaction expired"
  check (s.proposals.find? key = none) "proposal with the same name exists"
  check (ctx.checkTransactionAuthorization trx requested = true) "transaction authorization failed"
  check (s.approvals.find? key = none) "key already exists"
  pure { s with
    proposals := s.proposals.insert key trx
    approvals := s.approvals.insert key ⟨requested.map fun level => ⟨level, 0⟩, []⟩ }

/-- The part of `approve` for a caller that names the bytes it approves. -/
def assertHash (key : ProposalKey) : Option Sha256 → Except Failure Unit
  | none => pure ()
  | some hash => do
    let packed ← require (s.proposals.find? key) "proposal not found"
    check (host.sha256 packed = hash) "hash mismatch"

def approve (proposer proposalName : Name) (level : PermissionLevel)
    (proposalHash : Option Sha256) : Except Failure Multisig := do
  let key := toLex (proposer, proposalName)
  ctx.requireLevel level
  s.assertHash host key proposalHash
  match s.approvals.find? key with
  | some apps => do
    let apps ← apps.approve Approval.level ⟨level, ctx.now⟩
    pure { s with approvals := s.approvals.insert key apps }
  | none => do
    let apps ← require (s.oldApprovals.find? key) "proposal not found"
    let apps ← apps.approve id level
    pure { s with oldApprovals := s.oldApprovals.insert key apps }

def unapprove (proposer proposalName : Name) (level : PermissionLevel) :
    Except Failure Multisig := do
  let key := toLex (proposer, proposalName)
  ctx.requireLevel level
  match s.approvals.find? key with
  | some apps => do
    let apps ← apps.unapprove Approval.level ⟨level, ctx.now⟩
    pure { s with approvals := s.approvals.insert key apps }
  | none => do
    let apps ← require (s.oldApprovals.find? key) "proposal not found"
    let apps ← apps.unapprove id level
    pure { s with oldApprovals := s.oldApprovals.insert key apps }

/-- The check of `cancel` for anyone but the proposer. -/
def checkCanceler (proposer canceler : Name) (packed : List UInt8) : Except Failure Unit :=
  if canceler ≠ proposer then do
    let expiration ← require (host.expiration packed) "read"
    check (expiration < ctx.nowSec) "cannot cancel until expiration"
  else pure ()

/-- The lists of a proposal are taken out of the table that has them. -/
def eraseApprovals (key : ProposalKey) : Except Failure Multisig :=
  match s.approvals.find? key with
  | some _ => pure { s with approvals := s.approvals.erase key }
  | none => do
    let _ ← require (s.oldApprovals.find? key) "proposal not found"
    pure { s with oldApprovals := s.oldApprovals.erase key }

def cancel (proposer proposalName canceler : Name) : Except Failure Multisig := do
  let key := toLex (proposer, proposalName)
  ctx.requireAuth canceler
  let packed ← require (s.proposals.find? key) "proposal not found"
  checkCanceler host ctx proposer canceler packed
  let s := { s with proposals := s.proposals.erase key }
  s.eraseApprovals key

/-- Whether an approval given at `time` counts: the account has not taken it back. -/
def stands (approval : Approval) : Bool :=
  match s.invalidations.find? approval.level.actor with
  | none => true
  | some lastInvalidationTime => decide (lastInvalidationTime < approval.time)

/-- The approvals that `exec` passes on. -/
def standingApprovals (key : ProposalKey) : Except Failure (List PermissionLevel) :=
  match s.approvals.find? key with
  | some apps => pure ((apps.providedApprovals.filter s.stands).map Approval.level)
  | none => do
    let apps ← require (s.oldApprovals.find? key) "proposal not found"
    pure (apps.providedApprovals.filter fun level => (s.invalidations.find? level.actor).isNone)

def exec (proposer proposalName executer : Name) : Except Failure Multisig := do
  let key := toLex (proposer, proposalName)
  ctx.requireAuth executer
  let packed ← require (s.proposals.find? key) "proposal not found"
  let expiration ← require (host.expiration packed) "read"
  check (ctx.nowSec ≤ expiration) "transaction expired"
  let approvals ← s.standingApprovals key
  let s ← s.eraseApprovals key
  check (ctx.checkTransactionAuthorization packed approvals = true) "transaction authorization failed"
  check (ctx.acceptsDeferred = true) "deferred transaction rejected"
  pure { s with
    deferred := s.deferred ++ [⟨key, executer, packed⟩]
    proposals := s.proposals.erase key }

def invalidate (account : Name) : Except Failure Multisig := do
  ctx.requireAuth account
  pure { s with invalidations := s.invalidations.insert account ctx.now }

end Multisig

/-! ## Runs -/

inductive MsigAction
  | propose (proposer proposalName : Name) (requested : List PermissionLevel) (trx : List UInt8)
  | approve (proposer proposalName : Name) (level : PermissionLevel) (proposalHash : Option Sha256)
  | unapprove (proposer proposalName : Name) (level : PermissionLevel)
  | cancel (proposer proposalName canceler : Name)
  | exec (proposer proposalName executer : Name)
  | invalidate (account : Name)
  deriving DecidableEq

/-- An action with what it finds on the chain. -/
structure MsigInput where
  context : MsigContext
  action : MsigAction

namespace Multisig

variable (host : Host)

def perform (s : Multisig) (ctx : MsigContext) : MsigAction → Except Failure Multisig
  | .propose proposer proposalName requested trx => s.propose host ctx proposer proposalName requested trx
  | .approve proposer proposalName level proposalHash =>
    s.approve host ctx proposer proposalName level proposalHash
  | .unapprove proposer proposalName level => s.unapprove ctx proposer proposalName level
  | .cancel proposer proposalName canceler => s.cancel host ctx proposer proposalName canceler
  | .exec proposer proposalName executer => s.exec host ctx proposer proposalName executer
  | .invalidate account => s.invalidate ctx account

/-- An action of the contract; time does not go back. -/
def step (s : Multisig) (i : MsigInput) : Except Failure Multisig := do
  check (s.now ≤ i.context.now) "the time of a block is not before that of its parent"
  let s ← s.perform host i.context i.action
  pure { s with now := i.context.now }

end Multisig

/-- What the earlier version of the contract leaves: every proposal has its lists in the table
`approvals`, and `approvals2` and `invals` are not there yet. -/
structure LegacyTables where
  proposals : FlatMap ProposalKey (List UInt8)
  approvals : FlatMap ProposalKey (ApprovalLists PermissionLevel)
  same_keys : ∀ key, (proposals.find? key).isSome = (approvals.find? key).isSome

namespace LegacyTables

def empty : LegacyTables := ⟨.empty, .empty, fun _ => rfl⟩

/-- The contract over these tables, before its first action. -/
def initial (legacy : LegacyTables) : Multisig :=
  { proposals := legacy.proposals, oldApprovals := legacy.approvals }

end LegacyTables

abbrev MsigTransition := Transition Multisig MsigInput

/-- A run of the contract over the tables that were there. -/
abbrev MsigRun (host : Host) (legacy : LegacyTables) :=
  Run (fun s i s' => Multisig.step host s i = .ok s') legacy.initial

end DcdProtocol.Msig
