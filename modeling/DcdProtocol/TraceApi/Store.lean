import DcdProtocol.Chain.PackedTransaction
import DcdProtocol.Library.FlatMap
import DcdProtocol.Library.Stateful
import DcdProtocol.Library.Word

/-!
# The trace store

The trace API plugin keeps the traces of blocks in slices of consecutive block numbers.  A slice has
a trace file, with the traces one after the other, and an index file, with an entry for each trace
that says where it is.  A trace is appended when its block is accepted, so a number may occur several
times; when a block becomes irreversible its number is appended to the index as well.  A reader goes
through the index of the slice and takes the last trace of the block before the first number that
shows the block to be irreversible.

Maintenance follows the last irreversible block.  It removes old slices, and compresses the trace
files of slices that are not quite as old.  The index of a compressed slice stays as it is: its
offsets refer to the uncompressed data.

Files are known by the number of their slice.  All writes are flushed, and a file cannot become
longer than `2 ^ 63 - 1` bytes.
-/

namespace DcdProtocol.TraceApi

open Library
open Chain (Sha256 digestSerial)

/-! ## Entries -/

inductive MetadataLogEntry
  /-- `block_entry_v0`. -/
  | block (id : Sha256) (number : UInt32) (offset : UInt64)
  /-- `lib_entry_v0`. -/
  | lib (lib : UInt32)
  deriving DecidableEq

namespace MetadataLogEntry

def index : MetadataLogEntry → ℕ
  | .block .. => 0
  | .lib _ => 1

def block? : MetadataLogEntry → Option (Sha256 × UInt32 × UInt64)
  | .block id number offset => some (id, number, offset)
  | .lib _ => none

def lib? : MetadataLogEntry → Option UInt32
  | .block .. => none
  | .lib number => some number

def serial : Serial MetadataLogEntry :=
  .variant .varint index fun
    | 0 => some (.via (.pair digestSerial (.pair .word32 .word)) block?
        (fun x => some (.block x.1 x.2.1 x.2.2)) fun {a} {b} h => by cases a <;> cases h; rfl)
    | 1 => some (.via .word32 lib? (fun x => some (.lib x))
        fun {a} {b} h => by cases a <;> cases h; rfl)
    | _ => none

end MetadataLogEntry

/-- The traces of blocks, and how they are serialized and compressed. -/
structure StoreFormat (δ : Type) where
  /-- Which of `block_trace_v0`, `block_trace_v1` and `block_trace_v2` the trace is. -/
  version : δ → ℕ
  trace : ℕ → Option (Serial δ)
  number : δ → UInt32
  id : δ → Sha256
  compress : Bytes → Bytes
  decompress : Bytes → Option Bytes
  decompress_compress : ∀ bs, decompress (compress bs) = some bs

namespace StoreFormat

variable {δ : Type} (fmt : StoreFormat δ)

def dataLogEntry : Serial δ := .variant .varint fmt.version fmt.trace

end StoreFormat

/-! ## The slice directory -/

inductive TraceApiException
  /-- `std::runtime_error`. -/
  | runtimeError (what : String)
  | oldSliceVersion (what : String)
  | malformedSliceFile (what : String)
  /-- `std::ios_base::failure`. -/
  | failure (what : String)
  /-- Thrown by `pack` or `unpack`. -/
  | serialization
  | compressedFileError
  deriving DecidableEq, Repr

structure StoreConfig where
  width : ℕ
  width_pos : 0 < width
  minimumIrreversibleHistoryBlocks : Option ℕ
  minimumUncompressedIrreversibleHistoryBlocks : Option ℕ

/-- `slice_directory`, with the files of each slice. -/
structure SliceDirectory where
  traces : FlatMap ℕ Bytes := .empty
  indexes : FlatMap ℕ Bytes := .empty
  compressedTraces : FlatMap ℕ Bytes := .empty
  lastCleanedUpSlice : Option ℕ := none
  lastCompressedSlice : Option ℕ := none
  bestKnownLib : ℕ := 0

abbrev StoreM := Stateful SliceDirectory TraceApiException

def currentVersion : ℕ := 1

def maxFilenameSize : ℕ := 12 + 10 + 1 + 10 + 5 + 1

/-- The number of characters that `%010d` prints for the number with these 32 bits: a negative number
of ten digits needs one more. -/
def printedSize (n : ℕ) : ℕ :=
  if 2 ^ 31 ≤ n % 2 ^ 32 ∧ n % 2 ^ 32 ≤ 2 ^ 32 - 10 ^ 9 then 11 else 10

/-- What `make_filename` checks. -/
def makeFilename (width labelSize extSize sliceNumber : ℕ) : Except TraceApiException Unit :=
  check (labelSize + printedSize (sliceNumber * width) + 1 +
      printedSize (sliceNumber * width + width) + extSize < maxFilenameSize)
    (.runtimeError "Could not write the complete filename.")

/-- `trace_index_….log`. -/
def indexFilename (width sliceNumber : ℕ) : Except TraceApiException Unit :=
  makeFilename width 12 4 sliceNumber

/-- `trace_….log`. -/
def traceFilename (width sliceNumber : ℕ) : Except TraceApiException Unit :=
  makeFilename width 6 4 sliceNumber

/-- `trace_….clog`. -/
def compressedTraceFilename (width sliceNumber : ℕ) : Except TraceApiException Unit :=
  makeFilename width 6 5 sliceNumber

namespace SliceDirectory

variable (cfg : StoreConfig) (dir : SliceDirectory)

def sliceNumber (blockHeight : UInt32) : ℕ := blockHeight.toNat / cfg.width

/-- `validate_existing_index_slice_file`: the entries of the file. -/
def validateExistingIndexSliceFile (bytes : Bytes) : Except TraceApiException Bytes := do
  check (4 ≤ bytes.length) (.failure "unable to read 4 bytes")
  check (ofLe (bytes.take 4) = currentVersion) (.oldSliceVersion "Old slice file with version: ")
  pure (bytes.drop 4)

/-- `find_index_slice`: the entries of the file. -/
def findIndexSlice (sliceNumber : ℕ) : Except TraceApiException (Option Bytes) := do
  indexFilename cfg.width sliceNumber
  match dir.indexes.find? sliceNumber with
  | none => pure none
  | some bytes => do
    let entries ← validateExistingIndexSliceFile bytes
    pure (some entries)

def findTraceSlice (sliceNumber : ℕ) : Except TraceApiException (Option Bytes) := do
  traceFilename cfg.width sliceNumber
  pure (dir.traces.find? sliceNumber)

def findCompressedTraceSlice (sliceNumber : ℕ) : Except TraceApiException (Option Bytes) := do
  compressedTraceFilename cfg.width sliceNumber
  pure (dir.compressedTraces.find? sliceNumber)

def createNewIndexSliceFile (sliceNumber : ℕ) : StoreM Unit :=
  modify fun dir => { dir with
    indexes := dir.indexes.insert sliceNumber (le 4 currentVersion) }

def findOrCreateIndexSlice (sliceNumber : ℕ) : StoreM Unit := do
  let dir ← get
  match ← Stateful.ofExcept (dir.findIndexSlice cfg sliceNumber) with
  | none => createNewIndexSliceFile sliceNumber
  | some _ => pure ()

def findOrCreateTraceSlice (sliceNumber : ℕ) : StoreM Unit := do
  let dir ← get
  match ← Stateful.ofExcept (dir.findTraceSlice cfg sliceNumber) with
  | none => set { dir with traces := dir.traces.insert sliceNumber [] }
  | some _ => pure ()

def findOrCreateSlicePair (sliceNumber : ℕ) : StoreM Unit := do
  findOrCreateTraceSlice cfg sliceNumber
  findOrCreateIndexSlice cfg sliceNumber

/-- The part of `append_store` that is the same for all files: the offset of the entry and the new
content. -/
def appendedBytes (bytes : Bytes) (entry : Option Bytes) : Except TraceApiException (ℕ × Bytes) :=
  match entry with
  | none => throw .serialization
  | some entry => do
    check (bytes.length + entry.length < 2 ^ 63) (.failure "unable to write")
    pure (bytes.length, bytes ++ entry)

/-- `append_store` on the trace file of a slice. -/
def appendTrace (sliceNumber : ℕ) (entry : Option Bytes) : StoreM ℕ := do
  let dir ← get
  let (offset, bytes) ← Stateful.ofExcept
    (appendedBytes ((dir.traces.find? sliceNumber).getD []) entry)
  set { dir with traces := dir.traces.insert sliceNumber bytes }
  pure offset

/-- `append_store` on the index file of a slice. -/
def appendIndex (sliceNumber : ℕ) (entry : MetadataLogEntry) : StoreM Unit := do
  let dir ← get
  let (_, bytes) ← Stateful.ofExcept
    (appendedBytes ((dir.indexes.find? sliceNumber).getD []) (MetadataLogEntry.serial.pack entry))
  set { dir with indexes := dir.indexes.insert sliceNumber bytes }

/-! ## Maintenance -/

/-- The slices that `process_irreversible_slice_range` processes. -/
def slicesToProcess (lib minIrreversible : ℕ) (lowerBoundSlice : Option ℕ) : List ℕ :=
  let libSliceNumber := lib / cfg.width
  if libSliceNumber < 1 ∨ ∃ lower ∈ lowerBoundSlice, libSliceNumber - 1 ≤ lower then []
  else if (lib : ℤ) - minIrreversible - cfg.width ≥ 0 then
    let upperBoundSlice := (lib - minIrreversible - cfg.width) / cfg.width
    let first := lowerBoundSlice.elim 0 (· + 1)
    List.range' first (upperBoundSlice + 1 - first)
  else []

/-- The part of `run_maintenance_tasks` that removes a slice. -/
def cleanUpSlice (sliceToClean : ℕ) : StoreM Unit := do
  Stateful.ofExcept (indexFilename cfg.width sliceToClean)
  modify fun dir => { dir with indexes := dir.indexes.erase sliceToClean }
  Stateful.ofExcept (traceFilename cfg.width sliceToClean)
  modify fun dir => { dir with traces := dir.traces.erase sliceToClean }
  Stateful.ofExcept (compressedTraceFilename cfg.width sliceToClean)
  modify fun dir => { dir with compressedTraces := dir.compressedTraces.erase sliceToClean }

/-- The part of `run_maintenance_tasks` that compresses the trace file of a slice. -/
def compressSlice {δ : Type} (fmt : StoreFormat δ) (sliceToCompress : ℕ) : StoreM Unit := do
  let dir ← get
  match ← Stateful.ofExcept (dir.findTraceSlice cfg sliceToCompress) with
  | none => pure ()
  | some trace => do
    Stateful.ofExcept (check (trace ≠ [])
      (.failure "Attempting to create compressed_file from file that is empty: "))
    set { dir with
      compressedTraces := dir.compressedTraces.insert sliceToCompress (fmt.compress trace)
      traces := dir.traces.erase sliceToCompress }

/-- The part of `run_maintenance_tasks` that removes old slices. -/
def cleanUpSlices (lib : ℕ) : StoreM Unit :=
  match cfg.minimumIrreversibleHistoryBlocks with
  | none => pure ()
  | some minimum => do
    let dir ← get
    (slicesToProcess cfg lib minimum dir.lastCleanedUpSlice).forM fun slice => do
      cleanUpSlice cfg slice
      modify fun dir => { dir with lastCleanedUpSlice := some slice }

/-- The part of `run_maintenance_tasks` that compresses slices, if there is a range of irreversible
blocks which would not also be deleted. -/
def compressSlices {δ : Type} (fmt : StoreFormat δ) (lib : ℕ) : StoreM Unit :=
  match cfg.minimumUncompressedIrreversibleHistoryBlocks with
  | none => pure ()
  | some minimum =>
    if ∀ history ∈ cfg.minimumIrreversibleHistoryBlocks, minimum < history then do
      let dir ← get
      (slicesToProcess cfg lib minimum dir.lastCompressedSlice).forM fun slice => do
        compressSlice cfg fmt slice
        modify fun dir => { dir with lastCompressedSlice := some slice }
    else pure ()

def runMaintenanceTasks {δ : Type} (fmt : StoreFormat δ) (lib : ℕ) : StoreM Unit := do
  cleanUpSlices cfg lib
  compressSlices cfg fmt lib

/-! ## The store provider -/

variable {δ : Type} (fmt : StoreFormat δ)

def append (bt : δ) : StoreM Unit := do
  let slice := sliceNumber cfg (fmt.number bt)
  findOrCreateSlicePair cfg slice
  let offset ← appendTrace slice (fmt.dataLogEntry.pack bt)
  appendIndex slice (.block (fmt.id bt) (fmt.number bt) (.ofNat offset))

def appendLib (lib : UInt32) : StoreM Unit := do
  let slice := sliceNumber cfg lib
  findOrCreateIndexSlice cfg slice
  appendIndex slice (.lib lib)
  modify fun dir => { dir with bestKnownLib := lib.toNat }

/-- What `get_block` knows after an entry of the index: the offset of the trace, and whether the
block is irreversible.  The scan ends when it is. -/
def scanEntry (blockHeight : UInt32) (found : Option UInt64 × Bool) (e : MetadataLogEntry) :
    Option UInt64 × Bool :=
  match found, e with
  | (offset, true), _ => (offset, true)
  | (offset, false), .block _ number offset' =>
    (if number = blockHeight then some offset' else offset, false)
  | (offset, false), .lib lib => (offset, decide (lib ≥ blockHeight))

/-- The loop of `scan_metadata_log_from`; every entry has at least one byte, so there are not more
entries than bytes. -/
def scanEntries (blockHeight : UInt32) : ℕ → Bytes → Option UInt64 × Bool →
    Except TraceApiException (Option UInt64 × Bool)
  | 0, _, found => pure found
  | fuel + 1, bytes, found =>
    if bytes = [] ∨ found.2 = true then pure found
    else
      match MetadataLogEntry.serial.unpack bytes with
      | none => throw .serialization
      | some (e, rest) => scanEntries blockHeight fuel rest (scanEntry blockHeight found e)

/-- `scan_metadata_log_from`, with the function that `get_block` passes. -/
def scanMetadataLogFrom (blockHeight : UInt32) :
    Except TraceApiException (Option UInt64 × Bool) := do
  match ← dir.findIndexSlice cfg (sliceNumber cfg blockHeight) with
  | none => pure (none, false)
  | some entries => scanEntries blockHeight entries.length entries (none, false)

/-- `extract_store` of a trace. -/
def extractTrace (bytes : Bytes) : Except TraceApiException δ :=
  match fmt.dataLogEntry.unpack bytes with
  | none => throw .serialization
  | some (bt, _) => pure bt

def readDataLog (blockHeight : UInt32) (offset : UInt64) : Except TraceApiException δ := do
  match ← dir.findTraceSlice cfg (sliceNumber cfg blockHeight) with
  | none => do
    match ← dir.findCompressedTraceSlice cfg (sliceNumber cfg blockHeight) with
    | some compressed =>
      match fmt.decompress compressed with
      | none => throw .compressedFileError
      | some trace => extractTrace fmt (trace.drop offset.toNat)
    | none => throw (.malformedSliceFile
        "but this trace file is new, so there are no traces present.")
  | some trace => do
    check (offset.toNat < trace.length)
      (.malformedSliceFile "but this trace file only goes to offset: ")
    extractTrace fmt (trace.drop offset.toNat)

/-- `get_block`: the trace, and whether the block is irreversible. -/
def getBlock (blockHeight : UInt32) : Except TraceApiException (Option (δ × Bool)) := do
  match ← dir.scanMetadataLogFrom cfg blockHeight with
  | (none, _) => pure none
  | (some offset, irreversible) => do
    let bt ← dir.readDataLog cfg fmt blockHeight offset
    pure (some (bt, irreversible))

end SliceDirectory

end DcdProtocol.TraceApi
