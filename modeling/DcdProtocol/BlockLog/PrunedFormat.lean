import DcdProtocol.BlockLog.Log
import DcdProtocol.Chain.PackedTransaction
import DcdProtocol.Library.ByteStream

/-!
# Entries of version 4

An entry of version 4 has its size, a byte for the compression, and the block.  The size allows for
what the block may become when transactions are pruned, as the digest may be longer than the data it
replaces; the rest is padding.  Blocks with a transaction whose digest is not implemented are not
written.

`prune_transactions` reads a block, replaces the prunable data of the listed transactions by its
digest and writes the block over the old one, into a stream that goes on to the end of the file.  A
transaction that is pruned is removed from the list.
-/

namespace DcdProtocol.BlockLog

open Library
open Chain (Sha256 PackedCodec PackedTransaction PrunableData PackException orTooLarge digestSerial
  packDigest bytesSerial maxNumArrayElements)

/-! ## Blocks -/

/-- How blocks are serialized: headers `η`, extensions `ξ`, transactions `τ` and signatures `σ`. -/
structure BlockFormat (σ τ η ξ : Type) where
  transactions : PackedCodec σ τ
  /-- `signed_block_header`. -/
  header : Serial η
  blockNum : η → ℕ
  blockNum_lt : ∀ h, blockNum h < 2 ^ 32
  calculateId : η → Sha256
  /-- The number of the block, from the bytes at a fixed offset of the header. -/
  blockNumAt : Bytes → ℕ
  blockNumAt_pack : ∀ {h bs}, header.pack h = some bs → ∀ rest, blockNumAt (bs ++ rest) = blockNum h
  extensions : Serial ξ

/-- `transaction_receipt`. -/
structure Receipt {σ τ : Type} (codec : PackedCodec σ τ) where
  status : Fin 256
  cpuUsageUs : UInt32
  netUsageWords : ℕ
  trx : Sha256 ⊕ PackedTransaction codec

variable {σ τ : Type}

namespace Receipt

variable {codec : PackedCodec σ τ}

/-- `transaction_receipt_header`. -/
def headerSerial : Serial (Fin 256 × UInt32 × ℕ) := .pair .byte (.pair .word32 .varint)

def trxSerial (codec : PackedCodec σ τ) : Serial (Sha256 ⊕ PackedTransaction codec) :=
  .variant .varint (fun x => if x.isLeft then 0 else 1) fun
    | 0 => some (.via digestSerial Sum.getLeft? (fun d => some (.inl d)) (by simp +contextual))
    | 1 => some (.via (PackedTransaction.serial codec) Sum.getRight? (fun p => some (.inr p))
        (by simp +contextual))
    | _ => none

def serial (codec : PackedCodec σ τ) : Serial (Receipt codec) :=
  .via (.pair headerSerial (trxSerial codec))
    (fun r => some ((r.status, r.cpuUsageUs, r.netUsageWords), r.trx))
    (fun x => some ⟨x.1.1, x.1.2.1, x.1.2.2, x.2⟩)
    (by rintro r x h; cases h; rfl)

def trxDigest (r : Receipt codec) : Except PackException Sha256 :=
  match r.trx with
  | .inl id => pure id
  | .inr p => p.packedDigest

def digest (r : Receipt codec) : Except PackException Sha256 := do
  let header ← orTooLarge (headerSerial.pack (r.status, r.cpuUsageUs, r.netUsageWords))
  let trx ← r.trxDigest
  pure (codec.sha256 (header ++ packDigest trx))

def id (r : Receipt codec) : Sha256 :=
  match r.trx with
  | .inl id => id
  | .inr p => p.id

/-- The packed transaction, if the receipt has it. -/
def packed? (r : Receipt codec) : Option (PackedTransaction codec) := r.trx.getRight?

end Receipt

structure SignedBlock {σ τ η ξ : Type} (fmt : BlockFormat σ τ η ξ) where
  header : η
  /-- `prune_state_type`: `incomplete`, `complete` or `complete_legacy`. -/
  pruneState : Fin 256
  transactions : List (Receipt fmt.transactions)
  blockExtensions : ξ

/-! ## Sizes -/

def packSize (bs : Option Bytes) : Except PackException ℕ := (orTooLarge bs).map List.length

def paddedPackSize {σ τ : Type} (codec : PackedCodec σ τ) : PrunableData σ → Except PackException ℕ
  | .fullLegacy signatures packed _ => do
    let size ← packSize ((codec.signatures.pair bytesSerial).pack (signatures, packed))
    pure (max size 32)
  | .none _ => pure 32
  | .partialData _ _ => throw (.txPrune "unimplemented")
  | .full _ _ => throw (.txPrune "unimplemented")

namespace PackedTransaction

variable {codec : PackedCodec σ τ}

def maximumPrunedPackSize (p : Chain.PackedTransaction codec) : Except PackException ℕ := do
  let packedTrx ← packSize (bytesSerial.pack p.packedTrx)
  let data ← paddedPackSize codec p.prunableData
  pure (1 + packedTrx + (1 + data))

end PackedTransaction

namespace Receipt

variable {codec : PackedCodec σ τ}

def maximumTrxSize : Sha256 ⊕ Chain.PackedTransaction codec → Except PackException ℕ
  | .inl id => packSize (digestSerial.pack id)
  | .inr p => PackedTransaction.maximumPrunedPackSize p

def maximumPrunedPackSize (r : Receipt codec) : Except PackException ℕ := do
  let header ← packSize (headerSerial.pack (r.status, r.cpuUsageUs, r.netUsageWords))
  let trx ← maximumTrxSize r.trx
  pure (header + 1 + trx)

end Receipt

variable {η ξ : Type} {fmt : BlockFormat σ τ η ξ}

namespace SignedBlock

def serial (fmt : BlockFormat σ τ η ξ) : Serial (SignedBlock fmt) :=
  .via (.pair fmt.header (.pair .byte
      (.pair (.vector maxNumArrayElements (Receipt.serial fmt.transactions)) fmt.extensions)))
    (fun b => some (b.header, b.pruneState, b.transactions, b.blockExtensions))
    (fun x => some ⟨x.1, x.2.1, x.2.2.1, x.2.2.2⟩)
    (by rintro b x h; cases h; rfl)

def maximumPrunedPackSize (b : SignedBlock fmt) : Except PackException ℕ := do
  let receipts ← b.transactions.mapM Receipt.maximumPrunedPackSize
  let header ← packSize (fmt.header.pack b.header)
  let extensions ← packSize (fmt.extensions.pack b.blockExtensions)
  pure (header + 1 + ((packVarint 5 b.transactions.length).length + receipts.sum) + extensions)

/-- `block.pack`: the size is computed first. -/
def pack (b : SignedBlock fmt) : Except PackException (ℕ × Bytes) := do
  let paddedSize ← b.maximumPrunedPackSize
  let bytes ← orTooLarge ((serial fmt).pack b)
  pure (paddedSize, bytes)

end SignedBlock

/-! ## Entries -/

namespace BlockFormat

variable (fmt)

/-- `offset_to_block_start`. -/
def blockOffset : ℕ := 5

/-- `pack`: the block in a buffer of the maximum size. -/
def packEntry (b : SignedBlock fmt) : Except PackException Bytes := do
  let (paddedSize, bytes) ← b.pack
  pure (le 4 (paddedSize + blockOffset + 8) ++
    (0 :: (bytes ++ List.replicate (paddedSize - bytes.length) 0)))

/-- `unpack`: the rest of the entry must have room for the position that follows it. -/
def unpackEntry (ds : Bytes) : Option (SignedBlock fmt) := do
  guard (blockOffset ≤ ds.length)
  let size := ofLe (ds.take 4)
  -- only `cf_compression_type::none` is supported
  guard ((ds.drop 4).head? = some 0)
  let (b, rest) ← (SignedBlock.serial fmt).unpack (ds.drop blockOffset)
  guard (ds.length - rest.length + 8 ≤ size)
  pure b

def entryCodec : EntryCodec (SignedBlock fmt) where
  pack b := (fmt.packEntry b).toOption
  unpack := fmt.unpackEntry
  unpackHeader ds := do
    let (header, _) ← fmt.header.unpack (ds.drop blockOffset)
    pure (fmt.blockNum header, fmt.calculateId header)
  blockNumAt ds := fmt.blockNumAt (ds.drop blockOffset)

/-- The codec of a log with these blocks; `base` has the formats of old blocks, of genesis states and
of chain ids. -/
def codec {γ χ : Type} (base : Codec (SignedBlock fmt) γ χ) : Codec (SignedBlock fmt) γ χ :=
  { base with
    blockNum := fun b => fmt.blockNum b.header
    blockNum_lt := fun b => fmt.blockNum_lt b.header
    calculateId := fun b => fmt.calculateId b.header
    pruned := fmt.entryCodec }

end BlockFormat

/-! ## Pruning -/

inductive PruneException
  | log (e : LogException)
  | pack (e : PackException)
  /-- The block is written past the end of the file. -/
  | outOfRange
  deriving DecidableEq

/-- The loop of `prune_trxs`: the receipts, what is left of the list, and the number of transactions
that were pruned. -/
def pruneReceipts {σ τ : Type} {codec : PackedCodec σ τ} :
    List (Receipt codec) → List Sha256 → Except PackException (List (Receipt codec) × List Sha256 × ℕ)
  | [], ids => pure ([], ids, 0)
  | r :: receipts, ids =>
    match r.packed? with
    | none => do
      let (receipts, ids, n) ← pruneReceipts receipts ids
      pure (r :: receipts, ids, n)
    | some p =>
      if p.id ∈ ids then do
        let p' ← p.pruneAll
        let (receipts, ids, n) ← pruneReceipts receipts (ids.erase p.id)
        pure ({ r with trx := .inr p' } :: receipts, ids, n + 1)
      else do
        let (receipts, ids, n) ← pruneReceipts receipts ids
        pure (r :: receipts, ids, n)

namespace SignedBlock

def withReceipts (b : SignedBlock fmt) (receipts : List (Receipt fmt.transactions)) (n : ℕ) :
    SignedBlock fmt :=
  { b with
    transactions := receipts
    pruneState := if n > 0 then 0 else b.pruneState }

end SignedBlock

/-- `prune_trxs` on a stream that starts with the entry: the number of transactions pruned, the ids
that are left and the new bytes. -/
def pruneTrxs {σ τ η ξ : Type} (fmt : BlockFormat σ τ η ξ) (strm : Bytes) (blockNum : ℕ)
    (ids : List Sha256) (version : ℕ) : Except PruneException ((ℕ × List Sha256) × Bytes) := do
  check (prunedTransactionVersion ≤ version) (.log (.blockLog
    "The block log version ${version} does not support transaction pruning."))
  let b ← (orThrow (.failure "unable to unpack block") (fmt.unpackEntry strm)).mapError .log
  check (fmt.blockNum b.header = blockNum) (.log (.blockLog "Wrong block was read from block log."))
  let (receipts, ids, n) ← (pruneReceipts b.transactions ids).mapError .pack
  let (_, bytes) ← (b.withReceipts receipts n).pack.mapError .pack
  check (BlockFormat.blockOffset + bytes.length ≤ strm.length) .outOfRange
  pure ((n, ids), overwrite strm BlockFormat.blockOffset bytes)

namespace Catalog

variable {β γ χ : Type} (codec : Codec β γ χ) (c : Catalog γ χ)

/-- `rw_stream_for_block`: the file, the position and the mapped file.  The file is mapped for
writing, so the next read maps it again. -/
def rwStreamForBlock (retained : FlatMap FileName IndexedFile) (blockNum : ℕ) :
    Option (FileName × ℕ × MappedLog γ χ) × Catalog γ χ :=
  match (c.startingBefore blockNum).getLast? with
  | none => (none, c)
  | some e =>
    if blockNum ≤ e.2.lastBlockNum then
      match mapFiles codec retained e.2 with
      | .error _ => (none, { c with active := none })
      | .ok mapped => (some (e.2.filenameBase, mapped.positionOf blockNum, mapped),
          { c with active := none })
    else (none, c)

end Catalog

namespace Log

variable {γ χ : Type} (base : Codec (SignedBlock fmt) γ χ) (log : Log (SignedBlock fmt) γ χ)

/-- The part of `prune_transactions` for the active file. -/
def pruneActive (blockNum : ℕ) (ids : List Sha256) :
    Except PruneException ((ℕ × List Sha256) × Log (SignedBlock fmt) γ χ) := do
  let position := log.getBlockPos (fmt.codec base) blockNum
  check (position ≠ npos) (.log (.blockLog
    "Specified block_num ${block_num} does not exist in block log."))
  let data := log.disk.active.data
  let (result, bytes) ← pruneTrxs fmt (data.drop position) blockNum ids log.preamble.version
  pure (result, { log with
    disk := { log.disk with
      active := { log.disk.active with data := data.take position ++ bytes } } })

/-- The part of `prune_transactions` for a split file. -/
def pruneSplit (name : FileName) (position : ℕ) (mapped : MappedLog γ χ) (blockNum : ℕ)
    (ids : List Sha256) :
    Except PruneException ((ℕ × List Sha256) × Log (SignedBlock fmt) γ χ) := do
  let data := mapped.data.bytes
  let (result, bytes) ← pruneTrxs fmt (data.drop position) blockNum ids mapped.data.version
  pure (result, { log with
    disk := { log.disk with
      retained := log.disk.retained.insert name ⟨data.take position ++ bytes, mapped.index⟩ } })

/-- `prune_transactions`: the number of transactions pruned and the ids that are left. -/
def pruneTransactions (blockNum : ℕ) (ids : List Sha256) :
    Except PruneException ((ℕ × List Sha256) × Log (SignedBlock fmt) γ χ) :=
  match log.catalog.rwStreamForBlock (fmt.codec base) log.disk.retained blockNum with
  | (some (name, position, mapped), catalog) =>
    if mapped.data.bytes.drop position ≠ [] then
      { log with catalog }.pruneSplit name position mapped blockNum ids
    else { log with catalog }.pruneActive base blockNum ids
  | (none, catalog) => { log with catalog }.pruneActive base blockNum ids

end Log

end DcdProtocol.BlockLog
