import DcdProtocol.Chain.GlobalProperty

/-!
# Proposed, pending and active

A new producer schedule or fee rate passes through three slots.  An action proposes it
(`set_proposed_producers`, `set_proposed_rate`), which stores it in the global properties with
the number of the block.  When that block is irreversible and the pending slot is empty,
`start_block` moves it to the block's header, which makes it pending.  When the announcing block
is irreversible, `next` makes it active.

`ChainState.buildBlock` is a whole block as the controller builds it: `start_block`, the
proposals made by its transactions, the header of `make_block_header`, and its acceptance by
`finish_next`.  Only what these functions read of the database is kept: the global properties.
A call that throws belongs to a transaction that is undone, so it has no effect.
-/

namespace DcdProtocol.Chain

open Library

/-- The head header state and the global properties of a node between two blocks. -/
structure ChainState where
  head : BlockHeaderState
  globalProperties : GlobalPropertyObject

/-- What `building_block` holds for proposals. -/
structure BuildingBlock where
  pendingBlockHeaderState : PendingBlockHeaderState
  newProtocolFeatureActivations : List Sha256
  newPendingProducerSchedule : Option ProducerAuthoritySchedule
  newPendingRateInfo : Option ProducerRateInfo

/-! ## Promotion to pending -/

/-- The part of `start_block` that promotes a proposed schedule. -/
def promoteProposedSchedule (p : PendingBlockHeaderState) (gpo : GlobalPropertyObject) :
    Except ChainException (Option ProducerAuthoritySchedule × GlobalPropertyObject) :=
  match gpo.proposedScheduleBlockNum with
  | none => pure (none, gpo)
  | some num =>
    if num ≤ p.dposIrreversibleBlocknum ∧ p.prevPendingSchedule.schedule.producers = [] then do
      dcdAssert (gpo.proposedSchedule.version = p.activeScheduleVersion + 1)
        .producerScheduleException "wrong producer schedule version specified"
      pure (some gpo.proposedSchedule,
        { gpo with proposedScheduleBlockNum := none, proposedSchedule := ⟨0, []⟩ })
    else pure (none, gpo)

/-- The part of `start_block` that promotes a proposed rate. -/
def promoteProposedRate (p : PendingBlockHeaderState) (gpo : GlobalPropertyObject) :
    Except ChainException (Option ProducerRateInfo × GlobalPropertyObject) :=
  match gpo.proposedRateBlockNum with
  | none => pure (none, gpo)
  | some num =>
    if num ≤ p.dposIrreversibleBlocknum ∧ p.prevPendingRate.rateInfo.rate.isZero then do
      dcdAssert (gpo.proposedRate.version = p.activeRateVersion + 1)
        .producerScheduleException "wrong producer rate version specified"
      pure (some ⟨gpo.proposedRate.version, gpo.proposedRate.rate⟩,
        { gpo with proposedRateBlockNum := none, proposedRate := ⟨0, .zero⟩ })
    else pure (none, gpo)

/-! ## Proposals -/

namespace BuildingBlock

variable (bb : BuildingBlock)

/-- `controller::pending_producers` while a block is being built. -/
def pendingProducers : ProducerAuthoritySchedule :=
  bb.newPendingProducerSchedule.getD bb.pendingBlockHeaderState.prevPendingSchedule.schedule

/-- `controller::pending_rate` while a block is being built. -/
def pendingRate : ProducerRateInfo :=
  bb.newPendingRateInfo.getD bb.pendingBlockHeaderState.prevPendingRate.rateInfo

/-- The schedule a new proposal is compared with, and replaces. -/
def latestProducers : ProducerAuthoritySchedule :=
  if bb.pendingProducers.producers = [] then bb.pendingBlockHeaderState.activeSchedule
  else bb.pendingProducers

def latestRate : ProducerRateInfo :=
  if bb.pendingRate.rate.isZero then bb.pendingBlockHeaderState.activeRate else bb.pendingRate

/-- `set_proposed_producers`; without effect where the source returns `-1`. -/
def setProposedProducers (ctx : HeaderContext) (producers : List ProducerAuthority)
    (gpo : GlobalPropertyObject) : GlobalPropertyObject :=
  let curBlockNum := bb.pendingBlockHeaderState.blockNum
  let activated :=
    bb.pendingBlockHeaderState.prevActivatedProtocolFeatures ++ bb.newProtocolFeatureActivations
  if producers = [] ∧ isBuiltinActivated activated ctx.disallowEmptyScheduleDigest then gpo
  else if gpo.proposedScheduleBlockNum.any fun num =>
      num ≠ curBlockNum ∨ producers = gpo.proposedSchedule.producers then gpo
  else if producers = bb.latestProducers.producers then gpo
  else { gpo with
    proposedScheduleBlockNum := some curBlockNum
    proposedSchedule := ⟨bb.latestProducers.version + 1, producers⟩ }

/-- `set_proposed_rate`; without effect where the source returns `-1`. -/
def setProposedRate (newRate : Double) (gpo : GlobalPropertyObject) : GlobalPropertyObject :=
  let curBlockNum := bb.pendingBlockHeaderState.blockNum
  if gpo.proposedRateBlockNum.any fun num =>
      num ≠ curBlockNum ∨ gpo.proposedRate.rate.beq newRate then gpo
  else if newRate.beq bb.latestRate.rate then gpo
  else { gpo with
    proposedRateBlockNum := some curBlockNum
    proposedRate := ⟨bb.latestRate.version + 1, newRate⟩ }

end BuildingBlock

inductive ProposalCall
  | setProposedProducers (producers : List ProducerAuthority)
  /-- The native `setrate` action, authorized by the system account. -/
  | setRate (newRate : Double)
  /-- The intrinsic `set_proposed_rate`, which asserts `rate > 0`. -/
  | intrinsicSetProposedRate (newRate : Double)

def ProposalCall.apply (ctx : HeaderContext) (bb : BuildingBlock) (gpo : GlobalPropertyObject) :
    ProposalCall → GlobalPropertyObject
  | .setProposedProducers producers => bb.setProposedProducers ctx producers gpo
  | .setRate newRate => bb.setProposedRate newRate gpo
  | .intrinsicSetProposedRate newRate =>
    if newRate.isPos then bb.setProposedRate newRate gpo else gpo

/-! ## A block -/

/-- The inputs of a block: its time and confirmation count, the features it activates, the
proposals its transactions make, its merkle roots, and how it is completed. -/
structure BlockInput where
  time : BlockTimestamp
  confirmed : UInt16
  newProtocolFeatureActivations : List Sha256 := []
  calls : List ProposalCall := []
  transactionMroot : Sha256 := {}
  actionMroot : Sha256 := {}
  completion : Completion

namespace ChainState

variable (ctx : HeaderContext) (s : ChainState) (b : BlockInput)

/-- `start_block`: the block being built, and the global properties after the promotions. -/
def startBlock : Except ChainException (BuildingBlock × GlobalPropertyObject) := do
  let p ← s.head.next ctx.crypto b.time b.confirmed
  let (newSchedule, gpo) ← promoteProposedSchedule p s.globalProperties
  let (newRate, gpo) ← promoteProposedRate p gpo
  pure (⟨p, b.newProtocolFeatureActivations, newSchedule, newRate⟩, gpo)

/-- `finalize_block` and the completion of the block: the next head. -/
def completeBlock (bb : BuildingBlock) : Except ChainException BlockHeaderState := do
  let p := bb.pendingBlockHeaderState
  let h ← p.makeBlockHeader ctx b.transactionMroot b.actionMroot bb.newPendingProducerSchedule
    bb.newPendingRateInfo bb.newProtocolFeatureActivations
  p.complete ctx h b.completion

def buildBlock : Except ChainException ChainState := do
  let (bb, gpo) ← s.startBlock ctx b
  let gpo := b.calls.foldl (fun gpo call => call.apply ctx bb gpo) gpo
  let head ← completeBlock ctx b bb
  pure ⟨head, gpo⟩

end ChainState

def genesisChainState (ctx : HeaderContext) (genesis : GenesisState)
    (configuration : ChainConfig) : ChainState where
  head := genesisHeaderState ctx.crypto genesis
  globalProperties :=
    { configuration
      chainId := genesis.chainId
      wasmConfiguration := defaultInitialWasmConfiguration }

/-- A node that writes a snapshot and is started from it.  The row of the head leaves out the
cached header extensions. -/
def ChainState.restore (s : ChainState) : ChainState where
  head := { s.head with headerExts := [] }
  globalProperties := .loadSnapshotRow s.globalProperties.toSnapshotRow

end DcdProtocol.Chain
