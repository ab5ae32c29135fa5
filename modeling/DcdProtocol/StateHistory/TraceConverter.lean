import DcdProtocol.Chain.PackedTransaction
import DcdProtocol.Chain.TransactionContext
import DcdProtocol.Library.ByteStream
import DcdProtocol.StateHistory.Log

/-!
# Entries of the trace log

The payload of an entry of the trace log has two sections.  The first has the traces of a block,
compressed, without the prunable data of their transactions.  The second has a byte for the
compression of context free data, and then the prunable data of the transactions one after the other.
It is long enough for the digests of all of them: what is missing is made up for at its end.

A transaction can be pruned in place.  `prune_traces` reads the second section into a buffer and goes
through it, while it writes to the file: as long as nothing was pruned it passes over what it read,
after that it writes.  The prunable data of a pruned transaction is replaced by its digest, and what
follows moves up or down.

A trace of a deferred transaction that failed may contain the trace of the failed transaction, which
then carries the packed transaction.  The fields of a trace that are neither read nor changed here
are a type `κ`, those of a transaction a type `π`.
-/

namespace DcdProtocol.StateHistory

open Library
open Chain (Sha256 PackedCodec PackedTransaction PrunableData PackException TransactionStatus
  digestSerial packDigest segments partialSegments maxNumArrayElements)

/-! ## Traces -/

/-- `transaction_trace_v0` without the trace in it.  The prunable data of the transaction is of
type `δ`; it is `Unit` for traces that were read without it. -/
structure TraceBody (κ π δ : Type) where
  id : Sha256
  content : κ
  /-- `partial`. -/
  partialTrx : Option (π × δ)
  deriving DecidableEq

inductive TransactionTrace (κ π δ : Type)
  | plain (body : TraceBody κ π δ)
  | retried (body : TraceBody κ π δ) (failedDtrxTrace : TransactionTrace κ π δ)
  deriving DecidableEq

/-- The trace of a transaction in the chain, and the trace of the failed transaction in it. -/
inductive ChainTrace (ρ : Type)
  | plain (trace : ρ)
  | retried (trace : ρ) (failedDtrxTrace : ChainTrace ρ)

/-- The types of the chain and how they are written: traces `ρ`, transactions `τ`, signatures `σ`. -/
structure TraceFormat (σ τ ρ κ π : Type) where
  transactions : PackedCodec σ τ
  zlib : Zlib
  id : ρ → Sha256
  /-- The status in the receipt. -/
  status : ρ → Option TransactionStatus
  /-- The other fields as they are shown in debug mode or not; the second argument is the status if
  there is no receipt, the third one says whether there is the trace of a failed transaction. -/
  content : Bool → TransactionStatus → Bool → ρ → κ
  contentSerial : Serial κ
  partialFields : τ → π
  partialSerial : Serial π

/-- `augmented_transaction_trace`. -/
structure AugmentedTrace {σ τ : Type} (codec : PackedCodec σ τ) (ρ : Type) where
  trace : ChainTrace ρ
  packedTrx : Option (PackedTransaction codec)

/-- `for_each_packed_transaction`. -/
def ChainTrace.packedTransactions {ρ P : Type} (packedTrx : Option P) : ChainTrace ρ → List P
  | .plain _ => packedTrx.toList
  | .retried _ failed => failed.packedTransactions packedTrx

/-! ## Prunable data on disk -/

inductive CompressionType
  | none
  | zlib
  deriving DecidableEq

def CompressionType.toByte : CompressionType → Fin 256
  | .none => 0
  | .zlib => 1

/-- `ondisk_prunable_data_t`. -/
inductive OndiskPrunableData (σ : Type)
  | fullLegacy (signatures : List σ) (contextFreeSegments : List Bytes) (digest : Sha256)
  | none (digest : Sha256)
  | partialData (signatures : List σ) (contextFreeSegments : List (Sha256 ⊕ Bytes))
  | full (signatures : List σ) (contextFreeSegments : List Bytes)
  deriving DecidableEq

/-- `to_prunable_data_type`. -/
def OndiskPrunableData.toPrunableData {σ : Type} : OndiskPrunableData σ → PrunableData σ
  | .fullLegacy signatures segments _ => .full signatures segments
  | .none digest => .none digest
  | .partialData signatures segments => .partialData signatures segments
  | .full signatures segments => .full signatures segments

def OndiskPrunableData.prunableDigest {σ : Type} : OndiskPrunableData σ → Except PackException Sha256
  | .fullLegacy _ _ digest => pure digest
  | .none digest => pure digest
  | .partialData _ _ => throw (.txPrune "unimplemented")
  | .full _ _ => throw (.txPrune "unimplemented")

inductive TraceException
  | pack (e : PackException)
  /-- The stream ends, or its bytes are not those of a value. -/
  | unpack
  deriving DecidableEq, Repr

/-- What is read from a stream, or an exception. -/
def orUnpack {α : Type} : Option α → Except TraceException α
  | some a => .ok a
  | none => .error .unpack

namespace Zlib

variable (z : Zlib) {α : Type}

/-- `zlib_pack` of something that is not an empty vector. -/
def packRaw (raw : Bytes) : Bytes := le 4 (z.compress raw).length ++ z.compress raw

/-- `zlib_pack` of a vector. -/
def packVector (s : Serial (List α)) (as : List α) : Option Bytes :=
  if as = [] then some (le 4 0) else (s.pack as).map z.packRaw

/-- `zlib_unpack` of a vector, which is empty before. -/
def unpackVector (parse : Bytes → Option (List α × Bytes)) (bs : Bytes) :
    Option (List α × Bytes) := do
  guard (4 ≤ bs.length)
  let len := ofLe (bs.take 4)
  if len > 0 then do
    let raw ← z.decompress ((bs.drop 4).take len)
    let (as, _) ← parse raw
    pure (as, bs.drop (4 + len))
  else pure ([], bs.drop 4)

end Zlib

namespace TraceFormat

variable {σ τ ρ κ π : Type} (fmt : TraceFormat σ τ ρ κ π)

def packSegments {α : Type} (s : Serial (List α)) (compression : CompressionType) (as : List α) :
    Option Bytes :=
  match compression with
  | .none => s.pack as
  | .zlib => fmt.zlib.packVector s as

def unpackSegments {α : Type} (s : Serial (List α)) (compression : Fin 256) (bs : Bytes) :
    Option (List α × Bytes) :=
  if compression = 0 then s.unpack bs
  else if compression = 1 then fmt.zlib.unpackVector s.unpack bs
  else none

/-- What `pack` writes: a `full_legacy` has its digest in place of the packed data. -/
def toOndisk : PrunableData σ → Except PackException (OndiskPrunableData σ)
  | .fullLegacy signatures packed segments => do
    let digest ← fmt.transactions.legacyDigest signatures packed
    pure (.fullLegacy signatures segments digest)
  | .none digest => pure (.none digest)
  | .partialData signatures segments => pure (.partialData signatures segments)
  | .full signatures segments => pure (.full signatures segments)

/-- Signatures and segments, as all forms but `none` have them. -/
def packData {α : Type} (s : Serial (List α)) (compression : CompressionType) (signatures : List σ)
    (as : List α) : Option Bytes := do
  let first ← fmt.transactions.signatures.pack signatures
  let second ← fmt.packSegments s compression as
  pure (first ++ second)

def unpackData {α : Type} (s : Serial (List α)) (compression : Fin 256) (bs : Bytes) :
    Option ((List σ × List α) × Bytes) := do
  let (signatures, bs) ← fmt.transactions.signatures.unpack bs
  let (as, bs) ← fmt.unpackSegments s compression bs
  pure ((signatures, as), bs)

/-- `pack` of prunable data. -/
def packOndisk (compression : CompressionType) : OndiskPrunableData σ → Option Bytes
  | .fullLegacy signatures as digest =>
    (fmt.packData segments compression signatures as).map fun bs => 0 :: (bs ++ packDigest digest)
  | .none digest => some (1 :: packDigest digest)
  | .partialData signatures as =>
    (fmt.packData partialSegments compression signatures as).map fun bs => 2 :: bs
  | .full signatures as => (fmt.packData segments compression signatures as).map fun bs => 3 :: bs

/-- `unpack` of prunable data. -/
def unpackOndisk (compression : Fin 256) : Bytes → Option (OndiskPrunableData σ × Bytes)
  | [] => none
  | tag :: bs =>
    if tag = 0 then do
      let (data, bs) ← fmt.unpackData segments compression bs
      let (digest, bs) ← digestSerial.unpack bs
      pure (.fullLegacy data.1 data.2 digest, bs)
    else if tag = 1 then do
      let (digest, bs) ← digestSerial.unpack bs
      pure (.none digest, bs)
    else if tag = 2 then do
      let (data, bs) ← fmt.unpackData partialSegments compression bs
      pure (.partialData data.1 data.2, bs)
    else if tag = 3 then do
      let (data, bs) ← fmt.unpackData segments compression bs
      pure (.full data.1 data.2, bs)
    else none

/-! ## The first section -/

/-- The serialization of a trace up to the trace of a failed transaction. -/
def head : Serial (Sha256 × κ) :=
  .variant .varint (fun _ => 0) fun i =>
    if i = 0 then some (.pair digestSerial fmt.contentSerial) else none

/-- The optional `partial_transaction_v1`; its prunable data is an optional that is empty. -/
def partialTrx : Serial (Option (π × Unit)) :=
  .optional (.variant .varint (fun _ => 1) fun i =>
    if i = 1 then
      some (.via (.pair fmt.partialSerial .byte) (fun x => some (x.1, 0))
        (fun x => if x.2 = 0 then some (x.1, ()) else none) (by rintro _ _ h; cases h; rfl))
    else none)

def packTrace : TransactionTrace κ π Unit → Option Bytes
  | .plain body => do
    let head ← fmt.head.pack (body.id, body.content)
    let tail ← fmt.partialTrx.pack body.partialTrx
    pure (head ++ (0 :: tail))
  | .retried body failed => do
    let head ← fmt.head.pack (body.id, body.content)
    let nested ← packTrace failed
    let tail ← fmt.partialTrx.pack body.partialTrx
    pure (head ++ (1 :: (nested ++ tail)))

/-- Reads a trace with fewer than `k` traces in it. -/
def unpackTrace : ℕ → Bytes → Option (TransactionTrace κ π Unit × Bytes)
  | 0, _ => none
  | k + 1, bs => do
    let ((id, content), bs) ← fmt.head.unpack bs
    match bs with
    | [] => none
    | flag :: bs =>
      if flag = 0 then do
        let (partialTrx, bs) ← fmt.partialTrx.unpack bs
        pure (.plain ⟨id, content, partialTrx⟩, bs)
      else if flag = 1 then do
        let (failed, bs) ← unpackTrace k bs
        let (partialTrx, bs) ← fmt.partialTrx.unpack bs
        pure (.retried ⟨id, content, partialTrx⟩ failed, bs)
      else none

def historyTrace (debugMode : Bool) (packedTrx : Option (PackedTransaction fmt.transactions)) :
    TransactionStatus → ChainTrace ρ → TransactionTrace κ π Unit
  | failedStatus, .plain t =>
    .plain ⟨fmt.id t, fmt.content debugMode failedStatus false t,
      packedTrx.map fun p => (fmt.partialFields p.unpackedTrx, ())⟩
  | failedStatus, .retried t failed =>
    .retried ⟨fmt.id t, fmt.content debugMode failedStatus true t, none⟩
      (historyTrace debugMode packedTrx
        (if fmt.status t = some .softFail then .softFail else .hardFail) failed)

def historyTraces (debugMode : Bool) (traces : List (AugmentedTrace fmt.transactions ρ)) :
    List (TransactionTrace κ π Unit) :=
  traces.map fun t => fmt.historyTrace debugMode t.packedTrx .hardFail t.trace

/-- The serialization of the traces.  Their number is not checked. -/
def packTraces (traces : List (TransactionTrace κ π Unit)) : Option Bytes := do
  let bodies ← traces.mapM fmt.packTrace
  pure (packVarint 5 (traces.length % 2 ^ 32) ++ bodies.flatten)

def unpackTraceList : ℕ → Bytes → Option (List (TransactionTrace κ π Unit) × Bytes)
  | 0, bs => some ([], bs)
  | n + 1, bs => do
    let (trace, bs) ← fmt.unpackTrace bs.length bs
    let (traces, bs) ← unpackTraceList n bs
    pure (trace :: traces, bs)

def unpackTraces (bs : Bytes) : Option (List (TransactionTrace κ π Unit) × Bytes) := do
  let (n, bs) ← Serial.varint.unpack bs
  guard (n ≤ maxNumArrayElements)
  fmt.unpackTraceList n bs

/-! ## Entries -/

/-- The length that is reserved for prunable data: at least that of a digest. -/
def paddedSize (record : Bytes) : ℕ := max 33 record.length

/-- The prunable data of a transaction as it is written. -/
def packPrunable (compression : CompressionType) (data : PrunableData σ) :
    Except PackException Bytes := do
  let ondisk ← fmt.toOndisk data
  Chain.orTooLarge (fmt.packOndisk compression ondisk)

/-- `pack` of the traces of a block: the payload of the entry. -/
def pack (debugMode : Bool) (compression : CompressionType)
    (traces : List (AugmentedTrace fmt.transactions ρ)) : Except PackException Bytes := do
  let raw ← Chain.orTooLarge (fmt.packTraces (fmt.historyTraces debugMode traces))
  let records ← (traces.flatMap fun t => t.trace.packedTransactions t.packedTrx).mapM fun p =>
    fmt.packPrunable compression p.prunableData
  let sizeWithPadding := (records.map paddedSize).sum
  pure (fmt.zlib.packRaw raw ++ (compression.toByte :: (records.flatten ++
    List.replicate (sizeWithPadding - records.flatten.length) 0)))

end TraceFormat

/-! ## Visiting the prunable data -/

section Visit

variable {κ π δ : Type} {m : Type → Type} [Monad m]

/-- The visitor gets the id of the trace and returns the prunable data. -/
def TraceBody.visit (visitor : Sha256 → m δ) (body : TraceBody κ π Unit) : m (TraceBody κ π δ) :=
  match body.partialTrx with
  | none => pure ⟨body.id, body.content, none⟩
  | some (fields, _) => do
    let data ← visitor body.id
    pure ⟨body.id, body.content, some (fields, data)⟩

/-- `visit_deserialized_trace`. -/
def TransactionTrace.visit (visitor : Sha256 → m δ) :
    TransactionTrace κ π Unit → m (TransactionTrace κ π δ)
  | .plain body => do
    let body ← body.visit visitor
    pure (.plain body)
  | .retried body failed => do
    let failed ← failed.visit visitor
    let body ← body.visit visitor
    pure (.retried body failed)

end Visit

/-- `trace_pruner`, but for its buffer and the compression. -/
structure Pruner where
  /-- `write_strm`. -/
  stream : Stream
  ids : List Sha256
  /-- `read_strm.tellp()`. -/
  readPos : ℕ
  lastReadPos : ℕ := 0
  changePosition : ℕ := 0

abbrev PrunerM := Stateful Pruner TraceException

namespace Pruner

variable {σ : Type}

def replace (id : Sha256) (data : OndiskPrunableData σ) : PrunerM Unit := do
  modify fun p => { p with
    changePosition := if p.changePosition = 0 then p.stream.tellp else p.changePosition }
  let digest ← Stateful.ofExcept (data.prunableDigest.mapError .pack)
  modify fun p => { p with
    stream := p.stream.write (1 :: packDigest digest)
    ids := p.ids.erase id }

def keep (buffer : Bytes) (p : Pruner) : Pruner :=
  if p.changePosition = 0 then { p with stream := p.stream.skip (p.readPos - p.lastReadPos) }
  else { p with
    stream := p.stream.write ((buffer.drop p.lastReadPos).take (p.readPos - p.lastReadPos)) }

/-- `operator()`. -/
def visit (buffer : Bytes) (id : Sha256) (data : OndiskPrunableData σ) : PrunerM Unit := do
  let p ← get
  if id ∈ p.ids then replace id data else set (p.keep buffer)
  modify fun p => { p with lastReadPos := p.readPos }

end Pruner

namespace TraceFormat

variable {σ τ ρ κ π : Type} (fmt : TraceFormat σ τ ρ κ π)

/-- The next prunable data of the second section. -/
def readPrunable (compression : Fin 256) (_ : Sha256) : StateT Bytes Option (PrunableData σ) :=
  fun bs => do
    let (data, bs) ← fmt.unpackOndisk compression bs
    pure (data.toPrunableData, bs)

/-- `unpack` of the payload of an entry. -/
def unpack (bs : Bytes) : Option (List (TransactionTrace κ π (PrunableData σ))) := do
  let (traces, bs) ← fmt.zlib.unpackVector fmt.unpackTraces bs
  let (compression, bs) ← Serial.byte.unpack bs
  let (traces, _) ← (traces.mapM (TransactionTrace.visit (fmt.readPrunable compression))).run bs
  pure traces

/-- The prunable data is read from the buffer, and the pruner is called. -/
def prunePrunable (buffer : Bytes) (compression : Fin 256) (id : Sha256) : PrunerM Unit := do
  let p ← get
  let (data, rest) ← Stateful.ofExcept
    (orUnpack (fmt.unpackOndisk compression (buffer.drop p.readPos)))
  modify fun p => { p with readPos := buffer.length - rest.length }
  Pruner.visit buffer id data

/-- The part of `prune_traces` that writes. -/
def pruneSection (traces : List (TransactionTrace κ π Unit)) (buffer : Bytes)
    (compression : Fin 256) (stream : Stream) (ids : List Sha256) :
    Stateful Stream TraceException (List Sha256) :=
  match (traces.mapM (TransactionTrace.visit (fmt.prunePrunable buffer compression))).exec
      { stream, ids, readPos := 1 } with
  | (r, p) => do
    set p.stream
    Stateful.ofExcept (r.map fun _ => p.ids)

/-- `prune_traces`.  What is left of `ids` is returned. -/
def pruneTraces (entryLen : ℕ) (ids : List Sha256) :
    Stateful Stream TraceException (List Sha256) := do
  let stream ← get
  let (traces, rest) ← Stateful.ofExcept
    (orUnpack (fmt.zlib.unpackVector fmt.unpackTraces stream.remaining))
  let prunableSectionPos := stream.bytes.length - rest.length
  let size := stream.tellp + entryLen % 2 ^ 32 - prunableSectionPos
  Stateful.ofExcept (check (size ≤ rest.length) .unpack)
  let buffer := rest.take size
  let (compression, _) ← Stateful.ofExcept (orUnpack (Serial.byte.unpack buffer))
  fmt.pruneSection traces buffer compression (stream.seekp prunableSectionPos) ids

end TraceFormat

end DcdProtocol.StateHistory
