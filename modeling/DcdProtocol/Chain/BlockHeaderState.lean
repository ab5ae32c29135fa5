import DcdProtocol.Chain.BlockHeader
import DcdProtocol.Library.FlatMap
import DcdProtocol.Library.OrderStatistic
import DcdProtocol.Library.Word

/-!
# The block header state machine

`block_header_state` is what a node keeps about a block to validate the headers built on it.
A header is accepted in two stages.  `next` computes, from the parent state, the time and the
confirmation count of the new block, a `PendingBlockHeaderState`: who has to sign, how the DPoS
counters move, and whether a pending schedule or rate becomes active.  `finishNext` compares a
header with it and stores what the header announces for later.

The loop that counts confirmations walks `confirm_count` from its back, so it is written on the
reversed window.  Its result also records which block numbers were decremented; the code has
no such variable, and no function reads it.
-/

namespace DcdProtocol.Chain

open Library

/-! ## The blockroot merkle tree -/

structure IncrementalMerkle where
  nodeCount : UInt64 := 0
  activeNodes : List Sha256 := []
  deriving DecidableEq, Repr

namespace IncrementalMerkle

def nextPowerOf2 (value : UInt64) : UInt64 :=
  let v := value - 1
  let v := v ||| (v >>> 1)
  let v := v ||| (v >>> 2)
  let v := v ||| (v >>> 4)
  let v := v ||| (v >>> 8)
  let v := v ||| (v >>> 16)
  let v := v ||| (v >>> 32)
  v + 1

/-- `clz_power_2`: for a power of two, its exponent. -/
def clzPower2 (value : UInt64) : ℕ :=
  let drop (mask : UInt64) (n lz : ℕ) : ℕ := if value &&& mask ≠ 0 then lz - n else lz
  drop 0x5555555555555555 1 <| drop 0x3333333333333333 2 <| drop 0x0F0F0F0F0F0F0F0F 4 <|
    drop 0x00FF00FF00FF00FF 8 <| drop 0x0000FFFF0000FFFF 16 <| drop 0x00000000FFFFFFFF 32 <|
      if value ≠ 0 then 63 else 64

def calculateMaxDepth (nodeCount : UInt64) : ℕ :=
  if nodeCount = 0 then 0 else clzPower2 (nextPowerOf2 nodeCount) + 1

/-- `hash(make_canonical_pair(l, r))`. -/
def hashCanonicalPair (crypto : Crypto) (l r : Sha256) : Sha256 :=
  crypto.hashPair { l with h0 := l.h0 &&& 0xFFFFFFFFFFFFFF7F } { r with h0 := r.h0 ||| 0x80 }

/-- The collapse loop of `append`: `depth` levels remain, `active` is what `active_iter` has
not read, `updated` is `updated_active_nodes`. -/
def collapse (crypto : Crypto) :
    (depth : ℕ) → (index : UInt64) → (top : Sha256) → (isPartial : Bool) →
      (active updated : List Sha256) → List Sha256
  | 0, _, top, _, _, updated => updated ++ [top]
  | depth + 1, index, top, isPartial, active, updated =>
    if index &&& 1 = 0 then
      collapse crypto depth (index >>> 1) (hashCanonicalPair crypto top top) true active
        (if isPartial then updated else updated ++ [top])
    else
      let left := active.headD {}
      collapse crypto depth (index >>> 1) (hashCanonicalPair crypto left top) isPartial active.tail
        (if isPartial then updated ++ [left] else updated)

def append (m : IncrementalMerkle) (crypto : Crypto) (digest : Sha256) : IncrementalMerkle where
  nodeCount := m.nodeCount + 1
  activeNodes :=
    collapse crypto (calculateMaxDepth (m.nodeCount + 1) - 1) m.nodeCount digest false
      m.activeNodes []

def getRoot (m : IncrementalMerkle) : Sha256 :=
  if m.nodeCount > 0 then m.activeNodes.getLastD {} else {}

end IncrementalMerkle

/-! ## State -/

def producerRepetitions : ℕ := 12

def maximumTrackedDposConfirmations : ℕ := 1024

structure ScheduleInfo where
  scheduleLibNum : UInt32 := 0
  scheduleHash : Sha256 := {}
  schedule : ProducerAuthoritySchedule := {}
  deriving DecidableEq, Repr

structure RateInfo where
  rateLibNum : UInt32 := 0
  rateHash : Sha256 := {}
  rateInfo : ProducerRateInfo := {}
  deriving DecidableEq, Repr

structure BlockHeaderStateCommon where
  blockNum : UInt32 := 0
  dposProposedIrreversibleBlocknum : UInt32 := 0
  dposIrreversibleBlocknum : UInt32 := 0
  activeSchedule : ProducerAuthoritySchedule := {}
  activeRate : ProducerRateInfo := {}
  blockrootMerkle : IncrementalMerkle := {}
  producerToLastProduced : FlatMap Name UInt32 := .empty
  producerToLastImpliedIrb : FlatMap Name UInt32 := .empty
  validBlockSigningAuthority : BlockSigningAuthority := {}
  confirmCount : List UInt8 := []
  deriving DecidableEq

structure PendingBlockHeaderState extends BlockHeaderStateCommon where
  prevActivatedProtocolFeatures : List Sha256
  prevPendingSchedule : ScheduleInfo
  prevPendingRate : RateInfo
  wasPendingPromoted : Bool := false
  wasPendingRatePromoted : Bool := false
  previous : Sha256
  producer : Name
  timestamp : BlockTimestamp
  activeScheduleVersion : UInt32 := 0
  activeRateVersion : UInt32 := 0
  confirmed : UInt16 := 1

/-- The activated protocol features are a set of digests; its order is not read. -/
structure BlockHeaderState extends BlockHeaderStateCommon where
  id : Sha256 := {}
  header : SignedBlockHeader := {}
  pendingSchedule : ScheduleInfo := {}
  pendingRate : RateInfo := {}
  activatedProtocolFeatures : List Sha256 := []
  additionalSignatures : List Signature := []
  headerExts : List BlockHeaderExtension := []
  deriving DecidableEq

/-- What the header code is given besides states and headers: the cryptographic primitives, the
digests of the builtin features it asks for (`pfs.get_builtin_digest`), and whether the
validator of newly activated protocol features accepts them. -/
structure HeaderContext where
  crypto : Crypto
  wtmsigDigest : Option Sha256
  disallowEmptyScheduleDigest : Option Sha256
  validator : BlockTimestamp → List Sha256 → List Sha256 → Bool

def isBuiltinActivated (pfa : List Sha256) : Option Sha256 → Bool
  | none => false
  | some digest => digest ∈ pfa

/-- `is_builtin_activated` for `wtmsig_block_signatures`. -/
def HeaderContext.wtmsigActivated (ctx : HeaderContext) (pfa : List Sha256) : Bool :=
  isBuiltinActivated pfa ctx.wtmsigDigest

namespace BlockHeaderState

variable (s : BlockHeaderState)

def hasPendingProducers : Bool := !s.pendingSchedule.schedule.producers.isEmpty

def hasPendingRate : Bool := s.pendingRate.rateInfo.rate.isPos

/-- The producer whose turn it is at `t`; with an empty schedule the source divides by zero. -/
def getScheduledProducer (t : BlockTimestamp) : Option ProducerAuthority :=
  s.activeSchedule.producers[
    t.slot.toNat % (s.activeSchedule.producers.length * producerRepetitions) /
      producerRepetitions]?

/-- The block numbers that `calc_dpos_last_irreversible` sorts. -/
def impliedIrreversible (producerOfNextBlock : Name) : List UInt32 :=
  s.producerToLastImpliedIrb.entries.map fun i =>
    if i.1 = producerOfNextBlock then s.dposProposedIrreversibleBlocknum else i.2

def calcDposLastIrreversible (producerOfNextBlock : Name) : UInt32 :=
  let blocknums := s.impliedIrreversible producerOfNextBlock
  (nthElement blocknums ((blocknums.length - 1) / 3)).getD 0

/-! ## The first stage -/

def nextTimestamp (time : BlockTimestamp) : Except ChainException BlockTimestamp :=
  if time ≠ {} then do
    dcdAssert (time.slot > s.header.timestamp.slot) .blockValidateException
      "next block must be in the future"
    pure time
  else pure ⟨s.header.timestamp.slot + 1⟩

def checkDoubleConfirm (producer : Name) (numPrevBlocksToConfirm : UInt16) :
    Except ChainException Unit :=
  match s.producerToLastProduced.find? producer with
  | none => pure ()
  | some lastProduced =>
    dcdAssert (lastProduced < (s.blockNum + 1) - numPrevBlocksToConfirm.toUInt32)
      .producerDoubleConfirm "producer ${prod} double-confirming known range"

/-- The number of producers that have to confirm a block of the active schedule. -/
def requiredConfs : UInt32 := UInt32.ofNat (s.activeSchedule.producers.length * 2 / 3) + 1

/-- `confirm_count` with the entry of the new block, before any confirmation. -/
def grownConfirmCount : List UInt8 :=
  (if s.confirmCount.length < maximumTrackedDposConfirmations then s.confirmCount
    else s.confirmCount.tail) ++ [s.requiredConfs.toUInt8]

end BlockHeaderState

/-- What the confirmation loop leaves: the window (newest entry first), the block number it
advanced to, if any, and the numbers of the blocks whose entry it decremented. -/
structure Confirmation where
  window : List UInt8
  advancedTo : Option UInt32
  decremented : List UInt32

/-- The confirmation loop; `blockNum` is the number of the window's first entry. -/
def confirmLoop : (window : List UInt8) → (blockNum : UInt32) → (blocksToConfirm : ℕ) →
    Confirmation
  | [], _, _ => ⟨[], none, []⟩
  | window, _, 0 => ⟨window, none, []⟩
  | count :: older, blockNum, blocksToConfirm + 1 =>
    if count - 1 = 0 then ⟨[], some blockNum, [blockNum]⟩
    else
      let rest := confirmLoop older (blockNum - 1) blocksToConfirm
      ⟨(count - 1) :: rest.window, rest.advancedTo, blockNum :: rest.decremented⟩

/-- The loops of `next` that fill a per-producer map for a newly active schedule: the producer
of the block gets `own`, another producer keeps its value or gets `fallback`. -/
def rebuildForSchedule (producers : List Name) (producer : Name) (own fallback : UInt32)
    (existing : FlatMap Name UInt32) : FlatMap Name UInt32 :=
  producers.foldl (fun m name =>
    m.insert name (if name = producer then own else (existing.find? name).getD fallback)) .empty

namespace BlockHeaderState

variable (s : BlockHeaderState)

def confirm (numPrevBlocksToConfirm : UInt16) : Confirmation :=
  confirmLoop s.grownConfirmCount.reverse (s.blockNum + 1) (numPrevBlocksToConfirm.toNat + 1)

/-- Whether the block of `producer` makes the pending schedule active. -/
def promotesSchedule (producer : Name) : Bool :=
  s.hasPendingProducers &&
    decide (s.pendingSchedule.scheduleLibNum ≤ s.calcDposLastIrreversible producer)

def promotesRate (producer : Name) : Bool :=
  s.hasPendingRate && decide (s.pendingRate.rateLibNum ≤ s.calcDposLastIrreversible producer)

def nextLastProduced (producer : Name) : FlatMap Name UInt32 :=
  if s.promotesSchedule producer then
    (rebuildForSchedule s.pendingSchedule.schedule.names producer (s.blockNum + 1)
      (s.calcDposLastIrreversible producer) s.producerToLastProduced).insert producer (s.blockNum + 1)
  else s.producerToLastProduced.insert producer (s.blockNum + 1)

def nextImpliedIrb (producer : Name) : FlatMap Name UInt32 :=
  if s.promotesSchedule producer then
    rebuildForSchedule s.pendingSchedule.schedule.names producer
      s.dposProposedIrreversibleBlocknum (s.calcDposLastIrreversible producer)
      s.producerToLastImpliedIrb
  else s.producerToLastImpliedIrb.insert producer s.dposProposedIrreversibleBlocknum

/-- The result of `next` once its assertions have passed. -/
def nextPending (crypto : Crypto) (time : BlockTimestamp) (proauth : ProducerAuthority)
    (numPrevBlocksToConfirm : UInt16) : PendingBlockHeaderState where
  blockNum := s.blockNum + 1
  previous := s.id
  timestamp := time
  confirmed := numPrevBlocksToConfirm
  activeScheduleVersion := s.activeSchedule.version
  activeRateVersion := s.activeRate.version
  prevActivatedProtocolFeatures := s.activatedProtocolFeatures
  validBlockSigningAuthority := proauth.authority
  producer := proauth.producerName
  blockrootMerkle := s.blockrootMerkle.append crypto s.id
  confirmCount := (s.confirm numPrevBlocksToConfirm).window.reverse
  dposProposedIrreversibleBlocknum :=
    (s.confirm numPrevBlocksToConfirm).advancedTo.getD s.dposProposedIrreversibleBlocknum
  dposIrreversibleBlocknum := s.calcDposLastIrreversible proauth.producerName
  prevPendingSchedule := s.pendingSchedule
  prevPendingRate := s.pendingRate
  activeSchedule :=
    if s.promotesSchedule proauth.producerName then s.pendingSchedule.schedule
    else s.activeSchedule
  producerToLastProduced := s.nextLastProduced proauth.producerName
  producerToLastImpliedIrb := s.nextImpliedIrb proauth.producerName
  wasPendingPromoted := s.promotesSchedule proauth.producerName
  activeRate :=
    if s.promotesRate proauth.producerName then s.pendingRate.rateInfo else s.activeRate
  wasPendingRatePromoted := s.promotesRate proauth.producerName

def next (crypto : Crypto) (time : BlockTimestamp) (numPrevBlocksToConfirm : UInt16) :
    Except ChainException PendingBlockHeaderState := do
  let time ← s.nextTimestamp time
  match s.getScheduledProducer time with
  | none => throw ⟨.undefinedBehaviour, "the active schedule is empty"⟩
  | some proauth =>
    s.checkDoubleConfirm proauth.producerName numPrevBlocksToConfirm
    pure (s.nextPending crypto time proauth numPrevBlocksToConfirm)

end BlockHeaderState

end DcdProtocol.Chain
