import DcdProtocol.BlockLog.Log
import DcdProtocol.Library.Stateful

/-!
# The state history log

An entry of the state history log is a header with the id of a block, and a payload.  Entries are
appended to the active pair of files.  After every block whose number is a multiple of the stride the
log is split, as the block log is: the pair is renamed and gets an entry in the catalog, which keeps
only so many files.  Unlike the block log, the state history follows forks.  An entry for a block
below the end of the log first removes all entries from that block on; if the block is in a split
file, that file is renamed back into place and the catalog is truncated.

Reads from a split file go through a mapping of it, which the catalog keeps for the next read
together with the position of its entry.  A mapping is of the file and not of its name: it shows what
is written to the file after it was renamed, and the old content of a file that was removed.  So
`Disk` has the contents of all files that were ever created, and the names refer to them.

The log starts empty.  All writes are flushed, and a file cannot become longer than `2 ^ 63 - 1`
bytes.
-/

namespace DcdProtocol.StateHistory

open Library
open Chain (Sha256 numFromId)
open BlockLog (FileName splitName CatalogEntry)

/-! ## Exceptions -/

inductive HistoryException
  | stateHistory (what : String)
  /-- `std::ios_base::failure`. -/
  | failure (what : String)
  /-- Thrown by the function that writes the payload. -/
  | payload
  /-- Thrown by the decompressor. -/
  | zlib
  /-- Memory outside of a mapping or of a container is read. -/
  | undefinedBehaviour
  deriving DecidableEq, Repr

/-! ## Entries -/

/-- `"ship"_n`. -/
def shipName : UInt64 := (Chain.Name.ofChars ['s', 'h', 'i', 'p']).value

def shipMagic (version : UInt32) : UInt64 := shipName ||| version.toUInt64

def isShip (magic : UInt64) : Bool := magic &&& 0xffffffff00000000 = shipName

def getShipVersion (magic : UInt64) : UInt32 := magic.toUInt32

def isShipSupportedVersion (magic : UInt64) : Bool := getShipVersion magic ≤ 1

def shipCurrentVersion : UInt32 := 1

/-- `state_history_log_header`. -/
structure LogHeader where
  magic : UInt64 := shipMagic shipCurrentVersion
  blockId : Sha256
  payloadSize : ℕ := 0
  deriving DecidableEq

/-- `state_history_log_header_serial_size`. -/
def headerSize : ℕ := 48

def packWord (w : UInt64) : Bytes := le 8 w.toNat

def unpackWord (bs : Bytes) : UInt64 := .ofNat (ofLe (bs.take 8))

def packId (id : Sha256) : Bytes := packWord id.h0 ++ packWord id.h1 ++ packWord id.h2 ++ packWord id.h3

def unpackId (bs : Bytes) : Sha256 :=
  ⟨unpackWord bs, unpackWord (bs.drop 8), unpackWord (bs.drop 16), unpackWord (bs.drop 24)⟩

/-- The bytes of an entry.  The header is written before the payload, and its size is filled in
after. -/
def packEntry (blockId : Sha256) (payload : Bytes) : Bytes :=
  packWord (shipMagic shipCurrentVersion) ++ packId blockId ++ le 8 payload.length ++ payload

/-- The header at a position; `e` is what happens when the file ends before. -/
def headerAt (e : HistoryException) (data : Bytes) (position : ℕ) :
    Except HistoryException LogHeader := do
  let bs := data.drop position
  check (headerSize ≤ bs.length) e
  pure ⟨unpackWord bs, unpackId (bs.drop 8), ofLe ((bs.drop 40).take 8)⟩

/-- `payload_size_at`, and the payload. -/
def payloadAt (data : Bytes) (position : ℕ) : Except HistoryException Bytes := do
  let header ← headerAt (.stateHistory "corrupt ${name}: invalid entry size at at position ${pos}")
    data position
  check (isShip header.magic = true ∧ isShipSupportedVersion header.magic = true)
    (.stateHistory "corrupt ${name}: invalid header for entry at position ${pos}")
  check (position + headerSize + header.payloadSize ≤ data.length)
    (.stateHistory "corrupt ${name}: invalid payload size for entry at position ${pos}")
  pure ((data.drop (position + headerSize)).take header.payloadSize)

/-! ## Files -/

structure Disk where
  /-- The contents of the files, by a number that stands for the file and not for its name. -/
  contents : ℕ → IndexedFile := fun _ => ⟨[], []⟩
  /-- The files with smaller numbers have been created. -/
  created : ℕ := 1
  /-- `<name>.log` and `<name>.index`. -/
  active : ℕ := 0
  /-- The split files in `retained_dir`. -/
  retained : FlatMap FileName ℕ := .empty

namespace Disk

variable (d : Disk)

def activeFiles : IndexedFile := d.contents d.active

def write (files : IndexedFile) : Disk :=
  { d with contents := Function.update d.contents d.active files }

def create : Disk :=
  { d with
    contents := Function.update d.contents d.created ⟨[], []⟩
    created := d.created + 1
    active := d.created }

/-- `rename_bundle` of the active files. -/
def renameActive (name : FileName) : Disk :=
  if d.retained.contains name then d else { d with retained := d.retained.insert name d.active }

def removeFiles (names : List FileName) : Disk :=
  { d with retained := names.foldl FlatMap.erase d.retained }

end Disk

structure Config where
  stride : ℕ
  /-- A stride of zero divides by zero. -/
  stride_pos : 0 < stride
  maxRetainedFiles : ℕ := 10

/-! ## The catalog of split files -/

/-- A split file that is mapped, with the sizes it had when it was. -/
structure MappedLog where
  file : ℕ
  dataSize : ℕ
  indexSize : ℕ
  deriving DecidableEq

def Disk.mapped (d : Disk) (m : MappedLog) : IndexedFile :=
  ⟨(d.contents m.file).data.take m.dataSize, (d.contents m.file).index.take m.indexSize⟩

structure Catalog where
  /-- By the first block number. -/
  collection : FlatMap ℕ CatalogEntry := .empty
  /-- `active_index`, `log_data` and `log_index`. -/
  active : Option (ℕ × MappedLog) := none

namespace Catalog

variable (c : Catalog)

def firstBlockNum : ℕ :=
  match c.collection.entries with
  | [] => 0
  | e :: _ => e.1

/-- `log_index.nth_block_position(block_num - log_data.first_block_num())`. -/
def positionOf (files : IndexedFile) (blockNum : ℕ) : Except HistoryException ℕ := do
  let first ← headerAt .undefinedBehaviour files.data 0
  let n := (blockNum + 2 ^ 32 - (numFromId first.blockId).toNat) % 2 ^ 32
  check (8 * n + 8 ≤ files.index.length) .undefinedBehaviour
  pure (files.nthPosition n)

/-- The entry of the mapped file; it is looked up by its position. -/
def activeItem : Except HistoryException (Option ((ℕ × CatalogEntry) × MappedLog)) :=
  match c.active with
  | none => pure none
  | some (i, m) =>
    match c.collection.entries[i]? with
    | none => throw .undefinedBehaviour
    | some e => pure (some (e, m))

/-- The entries that start at or before a block: up to `upper_bound`. -/
def startingBefore (blockNum : ℕ) : List (ℕ × CatalogEntry) :=
  c.collection.entries.takeWhile fun e => e.1 ≤ blockNum

/-- Opening the files of an entry.  An empty file cannot be mapped. -/
def mapFiles (d : Disk) (e : CatalogEntry) : Option MappedLog :=
  match d.retained.find? e.filenameBase with
  | none => none
  | some file =>
    if (d.contents file).data ≠ [] ∧ (d.contents file).index ≠ [] ∧
        (d.contents file).index.length % 8 = 0 then
      some ⟨file, (d.contents file).data.length, (d.contents file).index.length⟩
    else none

/-- The part of `get_block_position` that looks for the file. -/
def findFile (d : Disk) (blockNum : ℕ) :
    Except HistoryException (Option (ℕ × MappedLog)) × Catalog :=
  match (c.startingBefore blockNum).getLast? with
  | none => (.ok none, c)
  | some e =>
    if blockNum ≤ e.2.lastBlockNum then
      match mapFiles d e.2 with
      | none => (.ok none, { c with active := none })
      | some m => ((positionOf (d.mapped m) blockNum).map fun position => some (position, m),
          { c with active := some ((c.startingBefore blockNum).length - 1, m) })
    else (.ok none, c)

/-- `get_block_position`: the position and the file, and the catalog with the file mapped. -/
def getBlockPosition (d : Disk) (blockNum : ℕ) :
    Except HistoryException (Option (ℕ × MappedLog)) × Catalog :=
  match c.activeItem with
  | .error e => (.error e, c)
  | .ok (some (e, m)) =>
    if e.1 ≤ blockNum ∧ blockNum ≤ e.2.lastBlockNum then
      ((positionOf (d.mapped m) blockNum).map fun position => some (position, m), c)
    else c.findFile d blockNum
  | .ok none => c.findFile d blockNum

/-- The number of entries that `add` erases. -/
def itemsToErase (maxRetainedFiles : ℕ) : ℕ :=
  if c.collection.entries.length ≥ maxRetainedFiles then
    if maxRetainedFiles > 0 then c.collection.entries.length - maxRetainedFiles + 1
    else c.collection.entries.length
  else 0

/-- `add`: the active files are renamed, and old files are removed. -/
def add (maxRetainedFiles startBlockNum endBlockNum : ℕ) (d : Disk) : Catalog × Disk :=
  let name := splitName startBlockNum endBlockNum
  let items := c.itemsToErase maxRetainedFiles
  let erased := (c.collection.entries.take items).map fun e => e.2.filenameBase
  let collection := c.collection.drop items
  ({  collection :=
        if maxRetainedFiles > 0 then collection.emplace startBlockNum ⟨endBlockNum, name⟩
        else collection
      active := match c.active with
        | some (i, m) => if i < items then none else some (i - items, m)
        | none => none },
    (d.renameActive name).removeFiles erased)

/-- The first `n` entries. -/
def keep (n : ℕ) : Catalog :=
  { c with collection := ⟨c.collection.entries.take n,
      c.collection.sorted.sublist (List.take_sublist n _)⟩ }

/-- `truncate`: the files from `blockNum` on are removed, but the one with `blockNum`, if there is
one, becomes the active one.  The first block number of that file is returned, or else zero.  The
mapped file is left as it is. -/
def truncate (blockNum : ℕ) (d : Disk) : ℕ × Catalog × Disk :=
  let before := c.startingBefore blockNum
  let removed := (c.collection.entries.drop before.length).map fun e => e.2.filenameBase
  match before.getLast? with
  | none => (0, c.keep 0, d.removeFiles removed)
  | some e =>
    if e.2.lastBlockNum < blockNum then (0, c.keep before.length, d.removeFiles removed)
    else
      (e.1, c.keep (before.length - 1),
        { d with active := (d.retained.find? e.2.filenameBase).getD d.active }.removeFiles
          (e.2.filenameBase :: removed))

end Catalog

/-! ## The log -/

/-- `state_history_log`, with the files on the disk. -/
structure Log where
  disk : Disk := {}
  catalog : Catalog := {}
  /-- `_begin_block` and `_end_block`: the blocks of the active files. -/
  activeBegin : ℕ := 0
  activeEnd : ℕ := 0
  lastBlockId : Sha256 := {}

abbrev LogM := Stateful Log HistoryException

namespace Log

variable (s : Log)

def beginBlock : ℕ := if s.catalog.firstBlockNum ≠ 0 then s.catalog.firstBlockNum else s.activeBegin

def endBlock : ℕ := s.activeEnd

def getPos (blockNum : ℕ) : Except HistoryException ℕ := do
  let n := blockNum - s.activeBegin
  check (8 * n + 8 ≤ s.disk.activeFiles.index.length) (.failure "unable to read")
  pure (s.disk.activeFiles.nthPosition n)

/-- `get_entry_header`: the header and the position of the payload. -/
def getEntryHeader (blockNum : ℕ) : Except HistoryException (LogHeader × ℕ) := do
  check (s.activeBegin ≤ blockNum ∧ blockNum < s.activeEnd)
    (.stateHistory "read non-existing block in ${name}.log")
  let position ← s.getPos blockNum
  let header ← headerAt (.failure "unable to read") s.disk.activeFiles.data position
  check (isShip header.magic = true ∧ isShipSupportedVersion header.magic = true)
    (.stateHistory "corrupt ${name}.log (0)")
  pure (header, position + headerSize)

/-! ### Writing -/

/-- An entry to be written.  There is no payload if the function that writes it throws. -/
structure Entry where
  blockId : Sha256
  prevId : Sha256
  payload : Option Bytes
  deriving DecidableEq

def Entry.blockNum (w : Entry) : ℕ := (numFromId w.blockId).toNat

/-- The active files are cut off at the block; they start at or before it. -/
def truncateActive (blockNum : ℕ) : Except HistoryException Log :=
  if blockNum ≤ s.activeBegin then
    pure { s with disk := s.disk.write ⟨[], []⟩, activeBegin := blockNum, activeEnd := blockNum }
  else do
    let position ← s.getPos blockNum
    let files := s.disk.activeFiles
    pure { s with
      disk := s.disk.write ⟨files.data.take position,
        files.index.take (8 * (blockNum - s.activeBegin))⟩
      activeEnd := blockNum }

/-- The active files are replaced by those from the catalog. -/
def truncateCatalog (blockNum : ℕ) : Log :=
  match s.catalog.truncate blockNum s.disk with
  | (newBegin, catalog, disk) =>
    { s with catalog, disk, activeBegin := if newBegin > 0 then newBegin else s.activeBegin }

def truncate (blockNum : ℕ) : LogM Unit := do
  modify fun s => s.truncateCatalog blockNum
  let s ← get
  let s ← Stateful.ofExcept (s.truncateActive blockNum)
  set s

/-- The checks of `write_entry_header`. -/
def checkEntry (w : Entry) : Except HistoryException Unit := do
  check (s.activeBegin = s.activeEnd ∨ w.blockNum ≤ s.activeEnd)
    (.stateHistory "missed a block in ${name}.log")
  if s.activeBegin ≠ s.activeEnd ∧ w.blockNum > s.activeBegin then
    if w.blockNum = s.activeEnd then
      check (w.prevId = s.lastBlockId) (.stateHistory "missed a fork change in ${name}.log")
    else do
      let prev ← s.getEntryHeader (w.blockNum - 1)
      check (w.prevId = prev.1.blockId) (.stateHistory "missed a fork change in ${name}.log")

/-- `write_entry_header`, but for the header itself. -/
def writeEntryHeader (w : Entry) : LogM Unit := do
  let s ← get
  Stateful.ofExcept (s.checkEntry w)
  if w.blockNum < s.activeEnd then truncate w.blockNum

def splitLog (cfg : Config) : Log :=
  match s.catalog.add cfg.maxRetainedFiles s.activeBegin ((s.activeEnd + 2 ^ 32 - 1) % 2 ^ 32)
      s.disk with
  | (catalog, disk) => { s with catalog, disk := disk.create, activeBegin := s.activeEnd }

/-- The log with an entry at the end of the active files. -/
def appendEntry (w : Entry) (payload : Bytes) : Log :=
  { s with
    disk := s.disk.write (s.disk.activeFiles.append (packEntry w.blockId payload))
    activeBegin := if s.activeBegin = s.activeEnd then w.blockNum else s.activeBegin
    activeEnd := (w.blockNum + 1) % 2 ^ 32
    lastBlockId := w.blockId }

/-- The payload and `write_entry_position`. -/
def writeEntryPosition (cfg : Config) (w : Entry) (payload : Bytes) : Except HistoryException Log := do
  check ((s.disk.activeFiles.append (packEntry w.blockId payload)).data.length < 2 ^ 63)
    (.failure "unable to write")
  let s := s.appendEntry w payload
  pure (if w.blockNum % cfg.stride = 0 then s.splitLog cfg else s)

/-- `write_entry`.  If it fails, the file is cut off where the entry started. -/
def writeEntry (cfg : Config) (w : Entry) : LogM Unit := do
  writeEntryHeader w
  let payload ← Stateful.ofExcept (match w.payload with
    | none => .error .payload
    | some payload => .ok payload)
  let s ← get
  let s ← Stateful.ofExcept (s.writeEntryPosition cfg w payload)
  set s

/-! ### Reading -/

def getBlockPosition (blockNum : ℕ) : LogM (Option (ℕ × MappedLog)) := do
  let s ← get
  match s.catalog.getBlockPosition s.disk blockNum with
  | (r, catalog) => do
    set { s with catalog }
    Stateful.ofExcept r

/-- `catalog.id_for_block`. -/
def idForBlock (blockNum : ℕ) : LogM (Option Sha256) := do
  let found ← getBlockPosition blockNum
  let s ← get
  match found with
  | none => pure none
  | some (position, m) => do
    let header ← Stateful.ofExcept (headerAt .undefinedBehaviour (s.disk.mapped m).data position)
    pure (some header.blockId)

/-- `catalog.ro_stream_for_block`: the bytes of the payload. -/
def roStreamForBlock (blockNum : ℕ) : LogM Bytes := do
  let found ← getBlockPosition blockNum
  let s ← get
  match found with
  | none => pure []
  | some (position, m) => Stateful.ofExcept (payloadAt (s.disk.mapped m).data position)

def getBlockId (blockNum : ℕ) : LogM (Option Sha256) := do
  let result ← idForBlock blockNum
  let s ← get
  if result = none ∧ s.activeBegin ≤ blockNum ∧ blockNum < s.activeEnd then do
    let header ← Stateful.ofExcept (s.getEntryHeader blockNum)
    pure (some header.1.blockId)
  else pure result

end Log

/-! ## The log of the chain state -/

structure Zlib where
  compress : Bytes → Bytes
  decompress : Bytes → Option Bytes
  compress_ne_nil : ∀ bs, compress bs ≠ []
  decompress_compress : ∀ bs, decompress (compress bs) = some bs

namespace Zlib

variable (z : Zlib)

/-- `zlib_pack` of a vector that is serialized as `raw`; for an empty vector `raw` is empty here.
The length has 32 bits. -/
def pack (raw : Bytes) : Bytes :=
  if raw = [] then le 4 0 else le 4 (z.compress raw).length ++ z.compress raw

/-- `zlib_decompress` of the bytes of a stream. -/
def unpack (ds : Bytes) : Except HistoryException Bytes := do
  check (4 ≤ ds.length) (.failure "unable to read")
  let len := ofLe (ds.take 4)
  if len > 0 then
    match z.decompress ((ds.drop 4).take len) with
    | none => throw .zlib
    | some raw => pure raw
  else pure []

end Zlib

namespace Log

/-- `state_history_chain_state_log::store`, with the serialized deltas; there are none if
`zlib_pack` throws. -/
def store (cfg : Config) (z : Zlib) (blockId prevId : Sha256) (deltas : Option Bytes) : LogM Unit :=
  writeEntry cfg ⟨blockId, prevId, deltas.map z.pack⟩

def getLogEntry (z : Zlib) (blockNum : ℕ) : LogM Bytes := do
  let ds ← roStreamForBlock blockNum
  let s ← get
  if ds ≠ [] then Stateful.ofExcept (z.unpack ds)
  else if blockNum < s.beginBlock ∨ blockNum ≥ s.endBlock then pure []
  else do
    let header ← Stateful.ofExcept (s.getEntryHeader blockNum)
    Stateful.ofExcept (z.unpack (s.disk.activeFiles.data.drop header.2))

end Log

end DcdProtocol.StateHistory
