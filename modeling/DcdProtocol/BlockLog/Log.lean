import DcdProtocol.BlockLog.Format
import DcdProtocol.Library.FlatMap
import DcdProtocol.Library.Run

/-!
# The block log

Blocks are appended to the active pair of files, `blocks.log` and `blocks.index`.  After every block
whose number is a multiple of the stride the log is split: the pair is renamed after the first and
the last block it holds, the catalog of split files gets a new entry, old entries are dropped beyond
the number of files to retain, and a new active file with only a preamble is begun.  Blocks are read
from the active file or, through the catalog, from a split file that is kept mapped for the next read.

Opening a log reads back everything from the files.  What is done about files that do not match their
index when damaged files are to be fixed is a parameter of the configuration.  An old file is removed
from the directory of retained files; whether it goes to the archive is left out.  All writes are
flushed, so that stopping the process leaves the files as the last write left them; a file cannot
become longer than `2 ^ 63 - 1` bytes.
-/

namespace DcdProtocol.BlockLog

open Library
open Chain (Sha256)

/-! ## Files -/

/-- The two numbers in the name of a split file. -/
abbrev FileName := ℤ ×ₗ ℤ

/-- What `%d` prints for a `uint32_t`. -/
def printed (n : ℕ) : ℤ := (n : ℤ).bmod (2 ^ 32)

def splitName (startBlockNum endBlockNum : ℕ) : FileName :=
  toLex (printed startBlockNum, printed endBlockNum)

/-- Whether the name matches `blocks-\d+-\d+\.log`. -/
def matchesPattern (name : FileName) : Bool := decide (0 ≤ (ofLex name).1 ∧ 0 ≤ (ofLex name).2)

structure Disk where
  /-- `blocks.log` and `blocks.index`; a file that does not exist is empty. -/
  active : IndexedFile := ⟨[], []⟩
  /-- The split files in `retained_dir`. -/
  retained : FlatMap FileName IndexedFile := .empty
  deriving DecidableEq

structure Config where
  stride : ℕ
  /-- A stride of zero divides by zero. -/
  stride_pos : 0 < stride
  maxRetainedFiles : ℕ := 10
  fixIrreversibleBlocks : Bool := false
  /-- `recover_from_incomplete_block_head` and `repair_log`. -/
  repair : IndexedFile → Except LogException IndexedFile := fun files => .ok files

/-! ## The catalog of split files -/

structure CatalogEntry where
  lastBlockNum : ℕ
  filenameBase : FileName
  deriving DecidableEq

structure MappedLog (γ χ : Type) where
  data : LogData γ χ
  index : Bytes

/-- `log_index.nth_block_position(block_num - log_data.first_block_num())`. -/
def MappedLog.positionOf {γ χ : Type} (m : MappedLog γ χ) (blockNum : ℕ) : ℕ :=
  ofLe ((m.index.drop (8 * (blockNum - m.data.firstBlockNum))).take 8)

structure Catalog (γ χ : Type) where
  /-- By the first block number. -/
  collection : FlatMap ℕ CatalogEntry := .empty
  /-- `active_index`, `log_data` and `log_index`. -/
  active : Option (ℕ × MappedLog γ χ) := none
  /-- `block_log_verifier::chain_id`. -/
  verifier : χ

namespace Catalog

variable {β γ χ : Type} [DecidableEq χ] (codec : Codec β γ χ)

def verify (verifier : χ) (log : LogData γ χ) : Except LogException χ :=
  if verifier = codec.emptyChainId then pure (log.chainId codec)
  else do
    check (verifier = log.chainId codec) (.blockLog "block log file has a different chain id")
    pure verifier

def indexMatchesData (index : Bytes) (log : LogData γ χ) : Except LogException Bool := do
  let numBlocks ← log.numBlocks codec
  if index.length / 8 ≠ numBlocks then pure false
  else do
    check (8 ≤ index.length) (.failure "unable to SEEK_END")
    pure (decide (ofLe (index.drop (index.length - 8)) = log.lastBlockPosition))

/-- The index file, constructed anew if it does not match. -/
def matchingIndex (index : Bytes) (log : LogData γ χ) : Except LogException Bytes := do
  let isMatch ← indexMatchesData codec index log
  if isMatch then pure index
  else do
    let constructed ← log.constructIndex codec
    pure (constructed.getD index)

/-- One file of the loop of `open`. -/
def openFile (s : Catalog γ χ × FlatMap FileName IndexedFile) (e : FileName × IndexedFile) :
    Except LogException (Catalog γ χ × FlatMap FileName IndexedFile) :=
  if matchesPattern e.1 then do
    let log ← LogData.ofBytes codec e.2.data
    let verifier ← verify codec s.1.verifier log
    let index ← matchingIndex codec e.2.index log
    let last ← log.lastBlockNum codec
    let retained := s.2.insert e.1 ⟨e.2.data, index⟩
    match s.1.collection.find? log.firstBlockNum with
    | some existing =>
      if last ≤ existing.lastBlockNum then pure ({ s.1 with verifier }, retained)
      else pure ({ s.1 with
        verifier, collection := s.1.collection.insert log.firstBlockNum ⟨last, e.1⟩ }, retained)
    | none => pure ({ s.1 with
        verifier, collection := s.1.collection.insert log.firstBlockNum ⟨last, e.1⟩ }, retained)
  else pure s

/-- `open`: the catalog of the split files, and the files with the indexes that were missing. -/
def openCatalog (retained : FlatMap FileName IndexedFile) :
    Except LogException (Catalog γ χ × FlatMap FileName IndexedFile) :=
  retained.entries.foldlM (openFile codec) ({ verifier := codec.emptyChainId }, retained)

def mapFiles (retained : FlatMap FileName IndexedFile) (e : CatalogEntry) :
    Except LogException (MappedLog γ χ) := do
  let files ← orThrow (.failure "unable to open file") (retained.find? e.filenameBase)
  let data ← LogData.ofBytes codec files.data
  check (files.index.length % 8 = 0) (.blockLog "The size of file is not a multiple of sizeof(uint64_t)")
  pure ⟨data, files.index⟩

variable (c : Catalog γ χ)

/-- The part of `get_block_position` for the file that is mapped. -/
def mappedFor (blockNum : ℕ) : Option (MappedLog γ χ) :=
  match c.active with
  | none => none
  | some (i, mapped) =>
    match c.collection.entries[i]? with
    | none => none
    | some e => if e.1 ≤ blockNum ∧ blockNum ≤ e.2.lastBlockNum then some mapped else none

/-- The entries that start at or before a block: up to `upper_bound`. -/
def startingBefore (blockNum : ℕ) : List (ℕ × CatalogEntry) :=
  c.collection.entries.takeWhile fun e => e.1 ≤ blockNum

/-- `get_block_position`: the position and the file, and the catalog with the file mapped. -/
def getBlockPosition (retained : FlatMap FileName IndexedFile) (blockNum : ℕ) :
    Option (ℕ × MappedLog γ χ) × Catalog γ χ :=
  match c.mappedFor blockNum with
  | some mapped => (some (mapped.positionOf blockNum, mapped), c)
  | none =>
    match (c.startingBefore blockNum).getLast? with
    | none => (none, c)
    | some e =>
      if blockNum ≤ e.2.lastBlockNum then
        match mapFiles codec retained e.2 with
        | .error _ => (none, { c with active := none })
        | .ok mapped => (some (mapped.positionOf blockNum, mapped),
            { c with active := some ((c.startingBefore blockNum).length - 1, mapped) })
      else (none, c)

/-- `ro_stream_for_block`: the bytes from the block on, and the version of the file. -/
def roStreamForBlock (retained : FlatMap FileName IndexedFile) (blockNum : ℕ) :
    (Bytes × ℕ) × Catalog γ χ :=
  match c.getBlockPosition codec retained blockNum with
  | (some (position, mapped), c) => ((mapped.data.bytes.drop position, mapped.data.version), c)
  | (none, c) => (([], 0), c)

/-- The number of entries that `add` erases. -/
def itemsToErase (maxRetainedFiles : ℕ) : ℕ :=
  if c.collection.entries.length ≥ maxRetainedFiles then
    if maxRetainedFiles > 0 then c.collection.entries.length - maxRetainedFiles + 1
    else c.collection.entries.length
  else 0

/-- `add`: the active files are renamed, and old files are removed. -/
def add (maxRetainedFiles startBlockNum endBlockNum : ℕ) (disk : Disk) : Catalog γ χ × Disk :=
  let name := splitName startBlockNum endBlockNum
  let retained :=
    if disk.retained.contains name then disk.retained else disk.retained.insert name disk.active
  let items := c.itemsToErase maxRetainedFiles
  let erased := (c.collection.entries.take items).map fun e => e.2.filenameBase
  let collection := c.collection.drop items
  ({ c with
      collection :=
        if maxRetainedFiles > 0 then collection.emplace startBlockNum ⟨endBlockNum, name⟩
        else collection
      active := match c.active with
        | some (i, mapped) => if i < items then none else some (i - items, mapped)
        | none => none },
    { active := ⟨[], []⟩, retained := erased.foldl FlatMap.erase retained })

end Catalog

/-! ## The log -/

/-- `block_log_impl`, with the files on the disk. -/
structure Log (β γ χ : Type) where
  disk : Disk
  head : Option β
  catalog : Catalog γ χ
  genesisWrittenToBlockLog : Bool
  preamble : Preamble γ χ
  futureVersion : ℕ

namespace Log

variable {β γ χ : Type} [DecidableEq χ] [Inhabited γ] (cfg : Config) (codec : Codec β γ χ)

/-! ### Opening -/

/-- The last eight bytes of the file lead to the head block. -/
def readHead (version : ℕ) (files : IndexedFile) : Except LogException (Option β) := do
  check (8 ≤ files.data.length) (.failure "unable to SEEK_END")
  if files.lastPosition = npos then pure none
  else do
    let b ← codec.readBlock version (files.data.drop files.lastPosition)
    pure (some b)

/-- The active files with an index constructed from the log. -/
def reconstruct (files : IndexedFile) (log : LogData γ χ) : Except LogException IndexedFile := do
  let constructed ← log.constructIndex codec
  pure { files with index := constructed.getD files.index }

/-- The active files, after the index has been compared with the log. -/
def checkedFiles (files : IndexedFile) (log : LogData γ χ) : Except LogException IndexedFile :=
  if files.index ≠ [] then
    if files.index.length % 8 = 0 then
      if log.lastBlockPosition ≠ ofLe (files.index.drop (files.index.length - 8)) then
        if cfg.fixIrreversibleBlocks then cfg.repair files else reconstruct codec files log
      else pure files
    else if cfg.fixIrreversibleBlocks then cfg.repair files else reconstruct codec files log
  else reconstruct codec files log

/-- The constructor of `block_log_impl`. -/
def openLog (disk : Disk) : Except LogException (Log β γ χ) := do
  let (catalog, retained) ← Catalog.openCatalog codec disk.retained
  if disk.active.data ≠ [] then do
    let log ← LogData.ofBytes codec disk.active.data
    check (catalog.verifier = codec.emptyChainId ∨ catalog.verifier = log.chainId codec)
      (.blockLog "block log file has a different chain id")
    let files ← checkedFiles cfg codec disk.active log
    let head ← readHead codec log.version files
    pure ⟨⟨files, retained⟩, head, catalog, true, log.preamble, log.version⟩
  else pure ⟨⟨⟨[], []⟩, retained⟩, none, catalog, false, ⟨0, 0, .genesisState default⟩, 0⟩

variable (log : Log β γ χ)

/-! ### Writing -/

def beginFiles (preamble : Preamble γ χ) : Except LogException IndexedFile := do
  let bytes ← preamble.writeTo codec
  check (bytes.length < 2 ^ 63) (.failure "File too large")
  pure ⟨bytes, []⟩

omit [DecidableEq χ] [Inhabited γ] in
variable {codec} in
theorem beginFiles_eq_ok_iff {preamble : Preamble γ χ} {files : IndexedFile} :
    beginFiles codec preamble = .ok files ↔
      ∃ bytes, preamble.writeTo codec = .ok bytes ∧ bytes.length < 2 ^ 63 ∧ ⟨bytes, []⟩ = files := by
  rw [beginFiles]
  simp only [bind_ok_iff, check_ok_iff, pure_ok_iff, exists_const]

/-- `block_log_impl::reset`; `version` is `default_version`. -/
def resetTo (version firstBlockNum : ℕ) (chainContext : ChainContext γ χ) :
    Except LogException (Log β γ χ) := do
  let preamble : Preamble γ χ := ⟨version, firstBlockNum, chainContext⟩
  let files ← beginFiles codec preamble
  pure { log with
    disk := { log.disk with active := files }
    futureVersion := version
    preamble := preamble
    genesisWrittenToBlockLog := true }

def writeLogEntry (buffer : Bytes) : Except LogException (Log β γ χ) := do
  let files := log.disk.active.append buffer
  check (files.data.length < 2 ^ 63) (.failure "File too large")
  pure { log with disk := { log.disk with active := files } }

/-- `split_log`, with `head` the block just written. -/
def splitLog (head : β) : Except LogException (Log β γ χ) := do
  let (catalog, disk) := log.catalog.add cfg.maxRetainedFiles log.preamble.firstBlockNum
    (codec.blockNum head) log.disk
  let preamble : Preamble γ χ :=
    ⟨maxSupportedVersion, (codec.blockNum head + 1) % 2 ^ 32, .chainId (log.preamble.chainId codec)⟩
  let files ← beginFiles codec preamble
  pure { log with catalog, preamble, disk := { disk with active := files } }

/-- Whether the block is the next one of the active file. -/
def atRightPosition (b : β) : Prop :=
  log.disk.active.index.length =
    8 * ((codec.blockNum b + 2 ^ 32 - log.preamble.firstBlockNum) % 2 ^ 32)

instance (b : β) : Decidable (log.atRightPosition codec b) := inferInstanceAs (Decidable (_ = _))

/-- What both forms of `append` do with the serialized block. -/
def writeBlock (b : β) (buffer : Bytes) : Except LogException (Log β γ χ) := do
  let log ← log.writeLogEntry buffer
  let log := { log with head := some b }
  if codec.blockNum b % cfg.stride = 0 then log.splitLog cfg codec b else pure log

def append (b : β) : Except LogException (Log β γ χ) := do
  check (log.genesisWrittenToBlockLog = true)
    (.appendFail "Cannot append to block log until the genesis is first written")
  check (log.atRightPosition codec b) (.appendFail "Append to index file occuring at wrong position.")
  let buffer ← codec.createBlockBuffer log.preamble.version b
  log.writeBlock cfg codec b buffer

/-- `block_log::reset` with a genesis state. -/
def resetGenesis (version : ℕ) (state : γ) (firstBlock : β) : Except LogException (Log β γ χ) := do
  let log ← log.resetTo codec version 1 (.genesisState state)
  log.append cfg codec firstBlock

/-- `block_log::reset` with a chain id. -/
def resetChainId (version : ℕ) (chainId : χ) (firstBlockNum : ℕ) :
    Except LogException (Log β γ χ) := do
  check (firstBlockNum > 1) (.blockLog
    "Block log needs to be created with a genesis state if starting from block number 1.")
  check (log.catalog.verifier = codec.emptyChainId ∨ chainId = log.catalog.verifier)
    (.blockLog "Trying to reset to the chain to a different chain id")
  let log ← log.resetTo codec version firstBlockNum (.chainId chainId)
  pure { log with head := none }

/-! ### Reading -/

def getBlockPos (blockNum : ℕ) : ℕ :=
  match log.head with
  | none => npos
  | some b =>
    if blockNum ≤ codec.blockNum b ∧ blockNum ≥ log.preamble.firstBlockNum then
      log.disk.active.nthPosition (blockNum - log.preamble.firstBlockNum)
    else npos

/-- The bytes from a block on with the version of their file, and the log with the file mapped. -/
def streamFor (blockNum : ℕ) : (Bytes × ℕ) × Log β γ χ :=
  if log.getBlockPos codec blockNum ≠ npos then
    ((log.disk.active.data.drop (log.getBlockPos codec blockNum), log.preamble.version), log)
  else
    let (stream, catalog) := log.catalog.roStreamForBlock codec log.disk.retained blockNum
    (stream, { log with catalog })

/-- The block that `read_block_by_num` returns, if any. -/
def readBlockByNum (blockNum : ℕ) : Except LogException (Option β) :=
  let stream := (log.streamFor codec blockNum).1
  -- a stream of the active file is read also if it is empty, and then throws
  if log.getBlockPos codec blockNum = npos ∧ stream.1 = [] then pure none
  else do
    let b ← codec.readBlockAs stream.2 stream.1 blockNum
    pure (some b)

/-- The id that `read_block_id_by_num` returns; zero if there is no block. -/
def readBlockIdByNum (blockNum : ℕ) : Except LogException Sha256 :=
  let stream := (log.streamFor codec blockNum).1
  if log.getBlockPos codec blockNum = npos ∧ stream.1 = [] then pure ⟨0, 0, 0, 0⟩
  else codec.readBlockId stream.2 stream.1 blockNum

def firstBlockNum : ℕ :=
  match log.catalog.collection.entries with
  | [] => log.preamble.firstBlockNum
  | e :: _ => e.1

end Log

/-! ## Runs -/

inductive LogStart (β γ χ : Type)
  | genesis (state : γ) (firstBlock : β)
  | chainId (id : χ) (firstBlockNum : ℕ)

inductive LogInput (β : Type)
  | append (b : β)
  /-- A read of a block or its id, of which the log keeps the mapped file. -/
  | read (blockNum : ℕ)
  /-- The process is stopped and the log opened again. -/
  | reopen

def LogInput.block? {β : Type} : LogInput β → Option β
  | .append b => some b
  | .read _ => none
  | .reopen => none

namespace Log

variable {β γ χ : Type} [DecidableEq χ] [Inhabited γ] (cfg : Config) (codec : Codec β γ χ)

def startLog (version : ℕ) (start : LogStart β γ χ) : Except LogException (Log β γ χ) := do
  let log ← openLog cfg codec {}
  match start with
  | .genesis state firstBlock => log.resetGenesis cfg codec version state firstBlock
  | .chainId id firstBlockNum => log.resetChainId codec version id firstBlockNum

def step (log : Log β γ χ) : LogInput β → Except LogException (Log β γ χ)
  | .append b => log.append cfg codec b
  | .read blockNum => pure (log.streamFor codec blockNum).2
  | .reopen => openLog cfg codec log.disk

end Log

abbrev LogRun {β γ χ : Type} [DecidableEq χ] [Inhabited γ] (cfg : Config) (codec : Codec β γ χ)
    (log₀ : Log β γ χ) :=
  Run (fun (log : Log β γ χ) i log' => log.step cfg codec i = .ok log') log₀

/-- The log is split after every second block. -/
def sampleConfig : Config := { stride := 2, stride_pos := by decide }

end DcdProtocol.BlockLog
