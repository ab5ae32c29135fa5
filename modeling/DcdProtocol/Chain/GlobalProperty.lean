import DcdProtocol.Chain.FinishNext

/-!
# Global properties and their snapshots

The `global_property_object` of the state database, the row a snapshot stores for it, and the
conversions between them: writing (`toSnapshotRow`), reading back into a fresh object
(`loadSnapshotRow`), and the upgrades from the rows of snapshot versions 2 to 4.  With them
comes the head header state that a snapshot carries, including its upgrade from version 2.

The stored row has no field for a proposed rate, and the upgrades set the block number of the
rate proposal from that of the schedule proposal.  Both are modelled as they are.
-/

namespace DcdProtocol.Chain

open Library

/-! ## Configuration -/

structure ChainConfigV0 where
  maxBlockNetUsage : UInt64
  targetBlockNetUsagePct : UInt32
  maxTransactionNetUsage : UInt32
  basePerTransactionNetUsage : UInt32
  netUsageLeeway : UInt32
  contextFreeDiscountNetUsageNum : UInt32
  contextFreeDiscountNetUsageDen : UInt32
  maxBlockCpuUsage : UInt32
  targetBlockCpuUsagePct : UInt32
  maxTransactionCpuUsage : UInt32
  minTransactionCpuUsage : UInt32
  maxTransactionLifetime : UInt32
  deferredTrxExpirationWindow : UInt32
  maxTransactionDelay : UInt32
  maxInlineActionSize : UInt32
  maxInlineActionDepth : UInt16
  maxAuthorityDepth : UInt16
  deriving DecidableEq, Repr, Inhabited

/-- `chain_config`, that is `chain_config_v1`. -/
structure ChainConfig extends ChainConfigV0 where
  maxActionReturnValueSize : UInt32 := 256
  deriving DecidableEq, Repr, Inhabited

structure KvDatabaseConfig where
  maxKeySize : UInt32 := 0
  maxValueSize : UInt32 := 0
  maxIterators : UInt32 := 0
  deriving DecidableEq, Repr, Inhabited

structure WasmConfig where
  maxMutableGlobalBytes : UInt32
  maxTableElements : UInt32
  maxSectionElements : UInt32
  maxLinearMemoryInit : UInt32
  maxFuncLocalBytes : UInt32
  maxNestedStructures : UInt32
  maxSymbolBytes : UInt32
  maxModuleBytes : UInt32
  maxCodeBytes : UInt32
  maxPages : UInt32
  maxCallDepth : UInt32
  deriving DecidableEq, Repr, Inhabited

def defaultInitialWasmConfiguration : WasmConfig where
  maxMutableGlobalBytes := 1024
  maxTableElements := 1024
  maxSectionElements := 8192
  maxLinearMemoryInit := 65536
  maxFuncLocalBytes := 8192
  maxNestedStructures := 1024
  maxSymbolBytes := 8192
  maxModuleBytes := 20971520
  maxCodeBytes := 20971520
  maxPages := 528
  maxCallDepth := 251

/-! ## The object and its row -/

structure GlobalPropertyObject where
  proposedScheduleBlockNum : Option UInt32 := none
  proposedSchedule : ProducerAuthoritySchedule := {}
  proposedRateBlockNum : Option UInt32 := none
  proposedRate : SharedRateInfo := {}
  configuration : ChainConfig := default
  chainId : Sha256 := {}
  kvConfiguration : KvDatabaseConfig := {}
  wasmConfiguration : WasmConfig := default
  deriving DecidableEq, Repr

/-- `snapshot_global_property_object`, the row of a version 5 snapshot. -/
structure SnapshotGlobalPropertyObject where
  proposedScheduleBlockNum : Option UInt32
  proposedSchedule : ProducerAuthoritySchedule
  configuration : ChainConfig
  chainId : Sha256
  kvConfiguration : KvDatabaseConfig
  wasmConfiguration : WasmConfig
  deriving DecidableEq, Repr

namespace GlobalPropertyObject

def toSnapshotRow (value : GlobalPropertyObject) : SnapshotGlobalPropertyObject where
  proposedScheduleBlockNum := value.proposedScheduleBlockNum
  proposedSchedule := value.proposedSchedule
  configuration := value.configuration
  chainId := value.chainId
  kvConfiguration := value.kvConfiguration
  wasmConfiguration := value.wasmConfiguration

def fromSnapshotRow (row : SnapshotGlobalPropertyObject) (value : GlobalPropertyObject) :
    GlobalPropertyObject :=
  { value with
    proposedScheduleBlockNum := row.proposedScheduleBlockNum
    proposedSchedule := row.proposedSchedule
    configuration := row.configuration
    chainId := row.chainId
    kvConfiguration := row.kvConfiguration
    wasmConfiguration := row.wasmConfiguration }

/-- `read_from_snapshot` creates the object and reads the row into it. -/
def loadSnapshotRow (row : SnapshotGlobalPropertyObject) : GlobalPropertyObject :=
  fromSnapshotRow row {}

end GlobalPropertyObject

/-! ## Legacy snapshots -/

structure SnapshotGlobalPropertyObjectV2 where
  proposedScheduleBlockNum : Option UInt32
  proposedSchedule : LegacyProducerSchedule
  configuration : ChainConfigV0

structure SnapshotGlobalPropertyObjectV3 where
  proposedScheduleBlockNum : Option UInt32
  proposedSchedule : ProducerAuthoritySchedule
  configuration : ChainConfigV0
  chainId : Sha256

structure SnapshotGlobalPropertyObjectV4 extends SnapshotGlobalPropertyObjectV3 where
  kvConfiguration : KvDatabaseConfig
  wasmConfiguration : WasmConfig

namespace GlobalPropertyObject

/-- `initalize_from` of a version 2 row, into the fresh object. -/
def initializeFromV2 (legacy : SnapshotGlobalPropertyObjectV2) (chainId : Sha256)
    (kvConfig : KvDatabaseConfig) (wasmConfig : WasmConfig) : GlobalPropertyObject where
  proposedScheduleBlockNum := legacy.proposedScheduleBlockNum
  proposedSchedule := .ofLegacy legacy.proposedSchedule
  proposedRateBlockNum := legacy.proposedScheduleBlockNum
  configuration := { toChainConfigV0 := legacy.configuration }
  chainId
  kvConfiguration := kvConfig
  wasmConfiguration := wasmConfig

def initializeFromV3 (legacy : SnapshotGlobalPropertyObjectV3) (kvConfig : KvDatabaseConfig)
    (wasmConfig : WasmConfig) : GlobalPropertyObject where
  proposedScheduleBlockNum := legacy.proposedScheduleBlockNum
  proposedSchedule := legacy.proposedSchedule
  proposedRateBlockNum := legacy.proposedScheduleBlockNum
  configuration := { toChainConfigV0 := legacy.configuration }
  chainId := legacy.chainId
  kvConfiguration := kvConfig
  wasmConfiguration := wasmConfig

def initializeFromV4 (legacy : SnapshotGlobalPropertyObjectV4) : GlobalPropertyObject where
  proposedScheduleBlockNum := legacy.proposedScheduleBlockNum
  proposedSchedule := legacy.proposedSchedule
  proposedRateBlockNum := legacy.proposedScheduleBlockNum
  configuration := { toChainConfigV0 := legacy.configuration }
  chainId := legacy.chainId
  kvConfiguration := legacy.kvConfiguration
  wasmConfiguration := legacy.wasmConfiguration

end GlobalPropertyObject

structure SnapshotBlockHeaderStateV2 where
  blockNum : UInt32
  dposProposedIrreversibleBlocknum : UInt32
  dposIrreversibleBlocknum : UInt32
  activeSchedule : LegacyProducerSchedule
  blockrootMerkle : IncrementalMerkle
  producerToLastProduced : FlatMap Name UInt32
  producerToLastImpliedIrb : FlatMap Name UInt32
  blockSigningKey : PublicKey
  confirmCount : List UInt8
  id : Sha256
  header : SignedBlockHeader
  pendingScheduleLibNum : UInt32
  pendingScheduleHash : Sha256
  pendingSchedule : LegacyProducerSchedule
  activatedProtocolFeatures : List Sha256

/-- The upgrade constructor of `block_header_state`, which leaves both rates at their default. -/
def BlockHeaderState.ofSnapshotV2 (snapshot : SnapshotBlockHeaderStateV2) : BlockHeaderState where
  blockNum := snapshot.blockNum
  dposProposedIrreversibleBlocknum := snapshot.dposProposedIrreversibleBlocknum
  dposIrreversibleBlocknum := snapshot.dposIrreversibleBlocknum
  activeSchedule := .ofLegacy snapshot.activeSchedule
  blockrootMerkle := snapshot.blockrootMerkle
  producerToLastProduced := snapshot.producerToLastProduced
  producerToLastImpliedIrb := snapshot.producerToLastImpliedIrb
  validBlockSigningAuthority := ⟨1, [⟨snapshot.blockSigningKey, 1⟩]⟩
  confirmCount := snapshot.confirmCount
  id := snapshot.id
  header := snapshot.header
  pendingSchedule :=
    ⟨snapshot.pendingScheduleLibNum, snapshot.pendingScheduleHash,
      .ofLegacy snapshot.pendingSchedule⟩
  activatedProtocolFeatures := snapshot.activatedProtocolFeatures

end DcdProtocol.Chain
