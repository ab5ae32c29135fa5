import DcdProtocol.Chain.Types
import DcdProtocol.Library.IndexedFile

/-!
# The format of block log files

A block log file starts with a preamble: the version of the format, the number of the first block,
and the genesis state or the chain id.  Then come the blocks, each followed by its position in the
file.  In every version but the first the preamble ends with `npos`, a position that no block has.
The index file has the positions of the blocks.

How blocks, genesis states and chain ids are serialized is a parameter, `Codec`.  Blocks have two
formats, one for files of version 4 and one for older files.
-/

namespace DcdProtocol.BlockLog

open Library
open Chain (Sha256)

/-! ## Exceptions -/

inductive LogException
  | blockLog (what : String)
  | unsupportedVersion
  | appendFail (what : String)
  /-- `std::bad_variant_access`. -/
  | badVariantAccess
  /-- `std::ios_base::failure`. -/
  | failure (what : String)
  deriving DecidableEq, Repr

/-- The value of an optional, or an exception. -/
def orThrow {α : Type} (e : LogException) : Option α → Except LogException α
  | some a => .ok a
  | none => .error e

@[simp] theorem orThrow_eq_ok_iff {α : Type} {e : LogException} {x : Option α} {a : α} :
    orThrow e x = .ok a ↔ x = some a := by
  cases x with
  | none => simp [orThrow]
  | some b => simp [orThrow]

/-! ## Versions -/

def initialVersion : ℕ := 1
def genesisStateOrChainIdVersion : ℕ := 3
def prunedTransactionVersion : ℕ := 4

def minSupportedVersion : ℕ := initialVersion
def maxSupportedVersion : ℕ := prunedTransactionVersion

def npos : ℕ := 2 ^ 64 - 1

def isSupportedVersion (version : ℕ) : Bool :=
  decide (minSupportedVersion ≤ version ∧ version ≤ maxSupportedVersion)

def containsGenesisState (version firstBlockNum : ℕ) : Bool :=
  decide (version < genesisStateOrChainIdVersion ∨ firstBlockNum = 1)

def containsChainId (version firstBlockNum : ℕ) : Bool :=
  decide (genesisStateOrChainIdVersion ≤ version ∧ firstBlockNum > 1)

/-! ## Serialization -/

/-- One format of a block: how an entry is written, and the three ways it is read. -/
structure EntryCodec (β : Type) where
  /-- Fails for a block that the format cannot hold. -/
  pack : β → Option Bytes
  unpack : Bytes → Option β
  /-- The number and the id in the header of the entry. -/
  unpackHeader : Bytes → Option (ℕ × Sha256)
  /-- The number of the block, from the bytes at a fixed offset. -/
  blockNumAt : Bytes → ℕ

/-- Blocks `β`, genesis states `γ` and chain ids `χ`, and how they are serialized. -/
structure Codec (β γ χ : Type) where
  blockNum : β → ℕ
  blockNum_lt : ∀ b, blockNum b < 2 ^ 32
  calculateId : β → Sha256
  /-- From `pruned_transaction_version` on. -/
  pruned : EntryCodec β
  /-- `signed_block_v0`. -/
  legacy : EntryCodec β
  packGenesis : γ → Bytes
  unpackGenesis : Bytes → Option (γ × Bytes)
  computeChainId : γ → χ
  packChainId : χ → Bytes
  unpackChainId : Bytes → Option (χ × Bytes)
  /-- `chain_id_type{}`. -/
  emptyChainId : χ

variable {β γ χ : Type} (codec : Codec β γ χ)

namespace Codec

def entry (version : ℕ) : EntryCodec β :=
  if version ≥ prunedTransactionVersion then codec.pruned else codec.legacy

def createBlockBuffer (version : ℕ) (b : β) : Except LogException Bytes :=
  orThrow (.appendFail "Unable to convert block to legacy format") ((codec.entry version).pack b)

/-- `read_block` without an expected number. -/
def readBlock (version : ℕ) (ds : Bytes) : Except LogException β :=
  orThrow (.failure "unable to unpack block") ((codec.entry version).unpack ds)

/-- `read_block` with an expected number. -/
def readBlockAs (version : ℕ) (ds : Bytes) (expectBlockNum : ℕ) : Except LogException β := do
  let b ← codec.readBlock version ds
  check (expectBlockNum = 0 ∨ codec.blockNum b = expectBlockNum)
    (.blockLog "Wrong block was read from block log.")
  pure b

def readBlockId (version : ℕ) (ds : Bytes) (expectBlockNum : ℕ) : Except LogException Sha256 := do
  let header ← orThrow (.failure "unable to unpack header") ((codec.entry version).unpackHeader ds)
  check (header.1 = expectBlockNum) (.blockLog "Wrong block header was read from block log.")
  pure header.2

/-- What is packed can be unpacked, whatever follows it. -/
structure Inverse : Prop where
  entry : ∀ version b buffer, (codec.entry version).pack b = some buffer → ∀ rest,
    (codec.entry version).unpack (buffer ++ rest) = some b ∧
    (codec.entry version).unpackHeader (buffer ++ rest) =
      some (codec.blockNum b, codec.calculateId b) ∧
    (codec.entry version).blockNumAt (buffer ++ rest) = codec.blockNum b
  genesis : ∀ g rest, codec.unpackGenesis (codec.packGenesis g ++ rest) = some (g, rest)
  chainId : ∀ id rest, codec.unpackChainId (codec.packChainId id ++ rest) = some (id, rest)

end Codec

/-! ## Preambles -/

inductive ChainContext (γ χ : Type)
  | genesisState (state : γ)
  | chainId (id : χ)
  deriving DecidableEq

structure Preamble (γ χ : Type) where
  version : ℕ
  firstBlockNum : ℕ
  chainContext : ChainContext γ χ
  deriving DecidableEq

def readBytes (n : ℕ) (ds : Bytes) : Except LogException (Bytes × Bytes) := do
  check (n ≤ ds.length) (.failure "datastream attempted to read past the end")
  pure (ds.take n, ds.drop n)

namespace Preamble

def chainId (p : Preamble γ χ) : χ :=
  match p.chainContext with
  | .chainId id => id
  | .genesisState state => codec.computeChainId state

def packContext : ChainContext γ χ → Bytes
  | .chainId id => codec.packChainId id
  | .genesisState state => codec.packGenesis state

def writeTo (p : Preamble γ χ) : Except LogException Bytes :=
  if p.version ≠ initialVersion then
    pure (le 4 p.version ++ (le 4 p.firstBlockNum ++ (packContext codec p.chainContext ++ le 8 npos)))
  else
    match p.chainContext with
    | .genesisState state => pure (le 4 p.version ++ codec.packGenesis state)
    | .chainId _ => .error .badVariantAccess

def readFirstBlockNum (version : ℕ) (ds : Bytes) : Except LogException (ℕ × Bytes) :=
  if version ≠ initialVersion then do
    let (bytes, ds) ← readBytes 4 ds
    pure (ofLe bytes, ds)
  else pure (1, ds)

def readContext (version firstBlockNum : ℕ) (ds : Bytes) :
    Except LogException (ChainContext γ χ × Bytes) :=
  if containsGenesisState version firstBlockNum then do
    let (state, ds) ← orThrow (.failure "unable to unpack genesis state") (codec.unpackGenesis ds)
    pure (.genesisState state, ds)
  else if containsChainId version firstBlockNum then do
    let (id, ds) ← orThrow (.failure "unable to unpack chain id") (codec.unpackChainId ds)
    pure (.chainId id, ds)
  else .error (.blockLog "Block log is not supported.")

def readTotem (version : ℕ) (ds : Bytes) : Except LogException Bytes :=
  if version ≠ initialVersion then do
    let (bytes, ds) ← readBytes 8 ds
    check (ofLe bytes = npos)
      (.blockLog "Expected separator between block log header and blocks was not found")
    pure ds
  else pure ds

/-- The preamble at the start of the bytes, and the rest. -/
def readFrom (ds : Bytes) : Except LogException (Preamble γ χ × Bytes) := do
  let (bytes, ds) ← readBytes 4 ds
  let version := ofLe bytes
  check (version > 0) (.blockLog "Block log was not setup properly")
  check (isSupportedVersion version = true) .unsupportedVersion
  let (firstBlockNum, ds) ← readFirstBlockNum version ds
  let (chainContext, ds) ← readContext codec version firstBlockNum ds
  let ds ← readTotem version ds
  pure (⟨version, firstBlockNum, chainContext⟩, ds)

end Preamble

/-! ## Log files -/

/-- `block_log_data`: an open block log file. -/
structure LogData (γ χ : Type) where
  preamble : Preamble γ χ
  firstBlockPos : ℕ
  bytes : Bytes

namespace LogData

variable (log : LogData γ χ)

/-- `block_log_data::open`. -/
def ofBytes (bytes : Bytes) : Except LogException (LogData γ χ) := do
  let (preamble, rest) ← Preamble.readFrom codec bytes
  pure ⟨preamble, bytes.length - rest.length, bytes⟩

def version : ℕ := log.preamble.version

def firstBlockNum : ℕ := log.preamble.firstBlockNum

def chainId : χ := log.preamble.chainId codec

def lastBlockPosition : ℕ := ofLe (log.bytes.drop (log.bytes.length - 8))

def blockNumAt (position : ℕ) : Except LogException ℕ := do
  check (position ≤ log.bytes.length) (.blockLog "Invalid block position")
  pure ((codec.entry log.version).blockNumAt (log.bytes.drop position))

def lastBlockNum : Except LogException ℕ := log.blockNumAt codec log.lastBlockPosition

def numBlocks : Except LogException ℕ :=
  if log.firstBlockPos = log.bytes.length then pure 0
  else do
    let last ← log.lastBlockNum codec
    pure (last - log.firstBlockNum + 1)

/-! ### The index from the log -/

/-- `reverse_block_position_iterator::get_value`, before the position `current`. -/
def positionBefore (current : ℕ) : ℕ :=
  if current ≤ log.firstBlockPos - 8 then npos else ofLe ((log.bytes.drop current).take 8)

/-- The loop of `construct_index` for at most `n` blocks: the positions found, last block first. -/
def positionsFrom : ℕ → ℕ → Except LogException (List ℕ)
  | 0, _ => pure []
  | n + 1, current =>
    let position := log.positionBefore current
    if position = npos then pure []
    else do
      check (log.firstBlockPos - 8 < current ∧ current < log.bytes.length)
        (.blockLog "Block log file formatting is incorrect")
      let positions ← positionsFrom n (position - 8)
      pure (position :: positions)

/-- `construct_index`: the contents of the index file, or nothing if there is no block and the file
is not written. -/
def constructIndex : Except LogException (Option Bytes) := do
  let numBlocks ← log.numBlocks codec
  if numBlocks = 0 then pure none
  else do
    let positions ← log.positionsFrom numBlocks (log.bytes.length - 8)
    check (positions.length = numBlocks) (.blockLog "Block log file formatting is incorrect")
    pure (some (positions.reverse.flatMap (le 8)))

end LogData

/-! ## A small format -/

/-- Blocks that are just a number, written after a tag. -/
def sampleEntry (tag : Bytes) : EntryCodec UInt32 where
  pack n := some (tag ++ le 4 n.toNat)
  unpack ds := some (UInt32.ofNat (ofLe ((ds.drop tag.length).take 4)))
  unpackHeader ds := some (ofLe ((ds.drop tag.length).take 4),
    ⟨UInt64.ofNat (ofLe ((ds.drop tag.length).take 4)), 0, 0, 0⟩)
  blockNumAt ds := ofLe ((ds.drop tag.length).take 4)

/-- A format in which a block of version 4 has one byte more than an older one. -/
def sampleCodec : Codec UInt32 Unit Byte where
  blockNum := UInt32.toNat
  blockNum_lt := UInt32.toNat_lt
  calculateId n := ⟨UInt64.ofNat n.toNat, 0, 0, 0⟩
  pruned := sampleEntry [4]
  legacy := sampleEntry []
  packGenesis _ := [7]
  unpackGenesis ds := some ((), ds.drop 1)
  computeChainId _ := 1
  packChainId id := [id]
  unpackChainId ds := ds.head?.map fun id => (id, ds.drop 1)
  emptyChainId := 0

theorem take_sampleEntry (tag : Bytes) (n : UInt32) (rest : Bytes) :
    ofLe ((((tag ++ le 4 n.toNat) ++ rest).drop tag.length).take 4) = n.toNat := by
  rw [List.append_assoc, List.drop_left, List.take_append_of_le_length (by rw [length_le]),
    List.take_of_length_le (by rw [length_le]), ofLe_le n.toNat_lt]

theorem sampleCodec_inverse : sampleCodec.Inverse where
  entry := by
    intro version b buffer hpack rest
    have hsample : ∃ tag, sampleCodec.entry version = sampleEntry tag := by
      unfold Codec.entry
      split_ifs
      · exact ⟨[4], rfl⟩
      · exact ⟨[], rfl⟩
    obtain ⟨tag, htag⟩ := hsample
    rw [htag] at hpack ⊢
    obtain rfl := Option.some.inj hpack
    simp only [sampleEntry, take_sampleEntry, UInt32.ofNat_toNat]
    exact ⟨trivial, rfl, rfl⟩
  genesis := fun _ _ => rfl
  chainId := fun _ _ => rfl

end DcdProtocol.BlockLog
