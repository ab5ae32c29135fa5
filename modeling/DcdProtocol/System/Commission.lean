import DcdProtocol.Library.FlatMap
import DcdProtocol.Library.Word
import DcdProtocol.Library.Run
import DcdProtocol.Chain.Types

/-!
# The commission part of the system contract

Registered producers propose fees for actions and vote on the proposals.  `onblock` runs the jobs
that turn approved proposals into pending changes, and pending changes into `setfee` actions, each
with a period of its own.

A multi-index table is a map from primary keys to rows, which iterates in the order of the keys.
A row is stored as it is serialized: a field that the row type does not serialize has its default
value when the row is read back.  An action whose checks fail has no effect; an `onblock` that
throws does not either.  The job that sets the oracle rate works on tables of its own and is left
out.
-/

namespace DcdProtocol.System

open Library Chain

/-! ## Constants -/

def proposedFeeUpdatePeriodSeconds : ℕ := 5 * 60

def appliedFeesUpdatePeriodSeconds : ℕ := 1 * 60

def feeApprovedApplicationDelay : ℕ := 10 * 60

def feeVoteExpirationLimit : ℕ := 2 * 24 * 60 * 60

/-! ## Time -/

/-- `sec_since_epoch` of a time in microseconds. -/
def secSinceEpoch (t : ℕ) : UInt32 := .ofNat (t / 1000000)

/-- The difference of two times in 32-bit seconds, as the jobs compute it. -/
def secondsSince (ct last : ℕ) : ℕ := (secSinceEpoch ct - secSinceEpoch last).toNat

/-! ## Tables -/

structure ActionFeeProp where
  account : Name
  action : Name
  fee : Asset
  deriving DecidableEq

structure ActionsFeeProposals where
  owner : Name
  proposedAt : ℕ
  expiresAt : ℕ
  feePropList : List ActionFeeProp
  votedApprove : ℕ := 0
  votedDisapprove : ℕ := 1
  isActive : Bool := false
  voted : Finset Name := ∅

structure FeeChanges where
  accountAction : Name
  account : Name
  action : Name
  fee : Asset
  proposedAt : ℕ
  toBeAppliedAt : ℕ := 0

/-- What `DCDLIB_SERIALIZE( fee_changes, ... )` lists. -/
structure PackedFeeChanges where
  accountAction : Name
  account : Name
  action : Name
  fee : Asset
  proposedAt : ℕ
  deriving DecidableEq

def FeeChanges.pack (c : FeeChanges) : PackedFeeChanges :=
  ⟨c.accountAction, c.account, c.action, c.fee, c.proposedAt⟩

def PackedFeeChanges.unpack (c : PackedFeeChanges) : FeeChanges :=
  ⟨c.accountAction, c.account, c.action, c.fee, c.proposedAt, 0⟩

/-- The fields of `dcd_global_state3` that the commission jobs use. -/
structure GlobalState3 where
  commisionLastUpdate : ℕ
  feeChangesLastUpdate : ℕ
  producersCount : ℕ := 0

structure SystemContract where
  /-- The rows of the producers table, with their `is_active`. -/
  producers : FlatMap Name Bool := .empty
  feeProposals : FlatMap Name ActionsFeeProposals := .empty
  feeChanges : FlatMap Name PackedFeeChanges := .empty
  gstate3 : GlobalState3
  /-- The time of the last action. -/
  now : ℕ

namespace SystemContract

/-- The contract after its first action; `dcd_global_state3` starts with the time then. -/
def initial (t₀ : BlockTimestamp) : SystemContract where
  gstate3 :=
    { commisionLastUpdate := t₀.toTimePoint
      feeChangesLastUpdate := t₀.toTimePoint }
  now := t₀.toTimePoint

variable (s : SystemContract)

/-! ## Actions of producers -/

def check (c : Prop) [Decidable c] (what : String) : Except ChainException Unit :=
  dcdAssert c .dcdAssertMessageException what

/-- `regproducer`, with an authority and a URL that pass its checks. -/
def regproducer (producer : Name) : SystemContract :=
  { s with producers := s.producers.insert producer true }

def unregprod (producer : Name) : Except ChainException SystemContract := do
  check (s.producers.contains producer = true) "producer not found"
  pure { s with producers := s.producers.insert producer false }

def propactfee (ct : ℕ) (producer : Name) (propFees : List ActionFeeProp) :
    Except ChainException SystemContract := do
  check (s.producers.contains producer = true) "Account not found in producers"
  check (propFees.length ≤ 30) "More than 30 actions in the suggestion"
  let proposal : ActionsFeeProposals :=
    { owner := producer
      proposedAt := ct
      expiresAt := ((secSinceEpoch ct).toNat + feeVoteExpirationLimit) * 1000000
      feePropList := propFees
      votedApprove := 1
      votedDisapprove := 0
      isActive := true
      voted := {producer} }
  pure { s with feeProposals := s.feeProposals.insert producer proposal }

def votefeeprop (producer prodSuggestion : Name) (accept : UInt32) :
    Except ChainException SystemContract := do
  check (s.producers.contains producer = true) "Account not found in producers"
  match s.feeProposals.find? prodSuggestion with
  | none => throw ⟨.dcdAssertMessageException, "No suggestions from producer"⟩
  | some info =>
    check (producer ∉ info.voted) "Producer already voted"
    let info := if accept > 0 then { info with votedApprove := info.votedApprove + 1 }
      else { info with votedDisapprove := info.votedDisapprove + 1 }
    pure { s with
      feeProposals := s.feeProposals.insert prodSuggestion
        { info with voted := insert producer info.voted } }

/-! ## The jobs of `onblock` -/

/-- `floor(double(n) * 0.75) + 1`: the product is exact for 32-bit counts. -/
def votesToPass (n : ℕ) : ℕ := n * 3 / 4 + 1

/-- `floor(double(n) * 0.2)`: the rounded product has the integral part of `n / 5`. -/
def votesToFail (n : ℕ) : ℕ := n / 5

/-- The number of rows of the producers table. -/
def prodCount : ℕ := s.producers.entries.length

def approved (prop : ActionsFeeProposals) : Bool :=
  decide (s.prodCount ≠ 0) && decide (prop.votedApprove ≥ votesToPass s.prodCount)

/-- The proposal is in `props_to_delete`. -/
def deleted (ct : ℕ) (prop : ActionsFeeProposals) : Bool :=
  s.approved prop
  || (decide (s.prodCount ≠ 0) && decide (prop.votedDisapprove ≥ votesToFail s.prodCount))
  || decide (ct ≥ prop.expiresAt)

/-- The entries of the approved proposals, in the order in which they are walked. -/
def approvedEntries : List (ActionsFeeProposals × ActionFeeProp) :=
  (s.feeProposals.values.filter s.approved).flatMap fun prop =>
    prop.feePropList.map fun p => (prop, p)

/-- The primary key of a change: the sum of two 64-bit names. -/
def accAct (account action : Name) : Name := ⟨account.value + action.value⟩

/-- An approved entry becomes a pending change, or updates the one with its key.  The payer of a
new row is the account with the name of the key. -/
def recordChange (ct : ℕ) (changes : FlatMap Name PackedFeeChanges)
    (entry : ActionsFeeProposals × ActionFeeProp) :
    Except ChainException (FlatMap Name PackedFeeChanges) :=
  let (prop, p) := entry
  let key := accAct p.account p.action
  let toBeApplied := ((secSinceEpoch ct).toNat + feeApprovedApplicationDelay) * 1000000
  match changes.find? key with
  | some row =>
    let info := row.unpack
    -- only the fee is guarded by the comparison of the times
    let fee := if prop.proposedAt > info.proposedAt then p.fee else info.fee
    pure (changes.insert key
      { info with fee, proposedAt := prop.proposedAt, toBeAppliedAt := toBeApplied }.pack)
  | none => do
    dcdAssert (key ≠ ⟨0⟩) .invalidTablePayer "must specify a valid account to pay for new record"
    let info : FeeChanges :=
      { accountAction := key
        account := p.account
        action := p.action
        fee := p.fee
        proposedAt := prop.proposedAt
        toBeAppliedAt := toBeApplied }
    pure (changes.insert key info.pack)

def checkActionProposalTable (ct : ℕ) : Except ChainException SystemContract := do
  let changes ← s.approvedEntries.foldlM (recordChange ct) s.feeChanges
  let propsToDelete := (s.feeProposals.values.filter (s.deleted ct)).map ActionsFeeProposals.owner
  pure { s with
    feeChanges := changes
    feeProposals := propsToDelete.foldl FlatMap.erase s.feeProposals
    gstate3 := { s.gstate3 with producersCount := s.prodCount } }

/-- The period of `check_action_proposal_table` is over. -/
def checkDue (ct : ℕ) : Bool :=
  decide (secondsSince ct s.gstate3.commisionLastUpdate ≥ proposedFeeUpdatePeriodSeconds)

def updateFeeVoteState (ct : ℕ) : Except ChainException SystemContract :=
  if s.checkDue ct then do
    let s ← s.checkActionProposalTable ct
    pure { s with gstate3 := { s.gstate3 with commisionLastUpdate := ct } }
  else pure s

/-- The period of `apply_pending_fee_changes` is over. -/
def applyDue (ct : ℕ) : Bool :=
  decide (secondsSince ct s.gstate3.feeChangesLastUpdate ≥ appliedFeesUpdatePeriodSeconds)

/-- The changes for which `apply_pending_fee_changes` sends a `setfee`. -/
def appliedChanges (ct : ℕ) : List FeeChanges :=
  if s.applyDue ct then
    (s.feeChanges.values.map PackedFeeChanges.unpack).filter fun fa => decide (ct ≥ fa.toBeAppliedAt)
  else []

def applyPendingFeeChanges (ct : ℕ) : SystemContract :=
  if s.applyDue ct then
    { s with
      feeChanges := ((s.appliedChanges ct).map FeeChanges.accountAction).foldl FlatMap.erase
        s.feeChanges
      gstate3 := { s.gstate3 with feeChangesLastUpdate := ct } }
  else s

def onBlockUpdates (ct : ℕ) : Except ChainException SystemContract :=
  (s.applyPendingFeeChanges ct).updateFeeVoteState ct

end SystemContract

/-! ## Runs -/

inductive ContractAction
  | regproducer (producer : Name)
  | unregprod (producer : Name)
  | propactfee (producer : Name) (propFees : List ActionFeeProp)
  | votefeeprop (producer prodSuggestion : Name) (accept : UInt32)
  | onblock
  /-- Any other action of the contract: it leaves these tables as they are. -/
  | other

structure ContractInput where
  /-- The block that the action is in. -/
  timestamp : BlockTimestamp
  action : ContractAction

/-- `current_time_point` during the action: the time of its block. -/
def ContractInput.time (i : ContractInput) : ℕ := i.timestamp.toTimePoint

namespace SystemContract

def perform (s : SystemContract) (ct : ℕ) : ContractAction → Except ChainException SystemContract
  | .regproducer producer => pure (s.regproducer producer)
  | .unregprod producer => s.unregprod producer
  | .propactfee producer propFees => s.propactfee ct producer propFees
  | .votefeeprop producer prodSuggestion accept => s.votefeeprop producer prodSuggestion accept
  | .onblock => s.onBlockUpdates ct
  | .other => pure s

/-- An action of the contract; time does not go back. -/
def step (s : SystemContract) (i : ContractInput) : Except ChainException SystemContract := do
  dcdAssert (s.now ≤ i.time) .external "the time of a block is not before that of its parent"
  let s ← s.perform i.time i.action
  pure { s with now := i.time }

end SystemContract

abbrev ContractTransition := Transition SystemContract ContractInput

/-- A run of the contract from its first action at `t₀`. -/
abbrev ContractRun (t₀ : BlockTimestamp) := Run (fun s i s' => SystemContract.step s i = .ok s') (.initial t₀)

end DcdProtocol.System
