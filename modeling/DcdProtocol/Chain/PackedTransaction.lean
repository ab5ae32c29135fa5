import DcdProtocol.Chain.Types
import DcdProtocol.Library.Serial

/-!
# Packed transactions

A packed transaction has a part that is always kept, the packed transaction itself, and prunable
data: its signatures and context free data.  The prunable data has four forms.  What it is pruned to
is its digest, which is all that the digest of the transaction depends on.  For two of the forms the
digest is not implemented.

How signatures and transactions are serialized, and the hash function, are parameters.  A
`PackedTransaction` has the transaction and the context free data that its packed bytes stand for;
this is a field of the structure, as the constructors of the class establish it.
-/

namespace DcdProtocol.Chain

open Library Option

def maxNumArrayElements : ℕ := 1024 * 1024

def maxSizeOfByteArrays : ℕ := 20 * 1024 * 1024

/-- `bytes`. -/
def bytesSerial : Serial Bytes := .byteArray maxSizeOfByteArrays

def digestSerial : Serial Sha256 :=
  Serial.via (.pair .word (.pair .word (.pair .word .word)))
    (fun d => some (d.h0, d.h1, d.h2, d.h3)) (fun w => some ⟨w.1, w.2.1, w.2.2.1, w.2.2.2⟩)
    (by rintro a b h; cases h; rfl)

def packDigest (d : Sha256) : Bytes :=
  le 8 d.h0.toNat ++ (le 8 d.h1.toNat ++ (le 8 d.h2.toNat ++ le 8 d.h3.toNat))

@[simp] theorem digestSerial_pack (d : Sha256) : digestSerial.pack d = some (packDigest d) := rfl

@[simp] theorem length_packDigest (d : Sha256) : (packDigest d).length = 32 := by
  simp only [packDigest, List.length_append, length_le]

/-- The vector `context_free_segments` of complete data. -/
def segments : Serial (List Bytes) := .vector maxNumArrayElements bytesSerial

/-- `segment_type`. -/
def segment : Serial (Sha256 ⊕ Bytes) :=
  .variant .varint (fun x => if x.isLeft then 0 else 1) fun
    | 0 => some (.via digestSerial Sum.getLeft? (fun d => some (.inl d)) (by simp +contextual))
    | 1 => some (.via bytesSerial Sum.getRight? (fun bs => some (.inr bs)) (by simp +contextual))
    | _ => none

/-- The vector `context_free_segments` of incomplete data. -/
def partialSegments : Serial (List (Sha256 ⊕ Bytes)) := .vector maxNumArrayElements segment

inductive PackException
  /-- `tx_prune_exception`. -/
  | txPrune (what : String)
  /-- An array is too large. -/
  | tooLarge
  deriving DecidableEq, Repr

/-- What the serializer writes, or an exception. -/
def orTooLarge : Option Bytes → Except PackException Bytes
  | some bs => .ok bs
  | none => .error .tooLarge

@[simp] theorem orTooLarge_eq_ok_iff {x : Option Bytes} {bs : Bytes} :
    orTooLarge x = .ok bs ↔ x = some bs := by
  cases x with
  | none => simp [orTooLarge]
  | some b => simp [orTooLarge]

/-- Signatures `σ` and transactions `τ`. -/
structure PackedCodec (σ τ : Type) where
  signature : Serial σ
  sha256 : Bytes → Sha256
  /-- Fails for an unknown compression, or if the bytes are not those of a transaction. -/
  unpackTransaction : Fin 256 → Bytes → Option τ
  unpackContextFreeData : Fin 256 → Bytes → Option (List Bytes)
  id : τ → Sha256

/-! ## Prunable data -/

/-- `prunable_data_type`. -/
inductive PrunableData (σ : Type)
  | fullLegacy (signatures : List σ) (packedContextFreeData : Bytes)
      (contextFreeSegments : List Bytes)
  | none (digest : Sha256)
  | partialData (signatures : List σ) (contextFreeSegments : List (Sha256 ⊕ Bytes))
  | full (signatures : List σ) (contextFreeSegments : List Bytes)
  deriving DecidableEq

variable {σ τ : Type}

namespace PackedCodec

variable (codec : PackedCodec σ τ)

def signatures : Serial (List σ) := .vector maxNumArrayElements codec.signature

/-- `full_legacy::prunable_digest`. -/
def legacyDigest (signatures : List σ) (packedContextFreeData : Bytes) :
    Except PackException Sha256 := do
  let first ← orTooLarge (codec.signatures.pack signatures)
  let second ← orTooLarge (bytesSerial.pack packedContextFreeData)
  pure (codec.sha256 (first ++ second))

/-- `prunable_data_type::digest`. -/
def prunableDigest : PrunableData σ → Except PackException Sha256
  | .fullLegacy signatures packed _ => codec.legacyDigest signatures packed
  | .none digest => pure digest
  | .partialData _ _ => throw (.txPrune "unimplemented")
  | .full _ _ => throw (.txPrune "unimplemented")

end PackedCodec

/-! ## Packed transactions -/

structure PackedTransaction {σ τ : Type} (codec : PackedCodec σ τ) where
  /-- `fc::enum_type<uint8_t, compression_type>`. -/
  compression : Fin 256
  prunableData : PrunableData σ
  packedTrx : Bytes
  unpackedTrx : τ
  unpack_eq : codec.unpackTransaction compression packedTrx = some unpackedTrx
  segments_eq : ∀ {signatures packed segments},
    prunableData = .fullLegacy signatures packed segments →
      codec.unpackContextFreeData compression packed = some segments

/-- Prunable data as it is serialized: the segments of a `full_legacy` are not. -/
inductive RawPrunableData (σ : Type)
  | fullLegacy (signatures : List σ) (packedContextFreeData : Bytes)
  | none (digest : Sha256)
  | partialData (signatures : List σ) (contextFreeSegments : List (Sha256 ⊕ Bytes))
  | full (signatures : List σ) (contextFreeSegments : List Bytes)

namespace RawPrunableData

def index : RawPrunableData σ → ℕ
  | .fullLegacy _ _ => 0
  | .none _ => 1
  | .partialData _ _ => 2
  | .full _ _ => 3

def legacy? : RawPrunableData σ → Option (List σ × Bytes)
  | .fullLegacy signatures packed => some (signatures, packed)
  | _ => Option.none

def digest? : RawPrunableData σ → Option Sha256
  | .none digest => some digest
  | _ => Option.none

def incomplete? : RawPrunableData σ → Option (List σ × List (Sha256 ⊕ Bytes))
  | .partialData signatures segments => some (signatures, segments)
  | _ => Option.none

def complete? : RawPrunableData σ → Option (List σ × List Bytes)
  | .full signatures segments => some (signatures, segments)
  | _ => Option.none

end RawPrunableData

namespace PrunableData

def toRaw : PrunableData σ → RawPrunableData σ
  | .fullLegacy signatures packed _ => .fullLegacy signatures packed
  | .none digest => .none digest
  | .partialData signatures segments => .partialData signatures segments
  | .full signatures segments => .full signatures segments

/-- What `reflector_init` makes of serialized data. -/
def ofRaw (codec : PackedCodec σ τ) (compression : Fin 256) :
    RawPrunableData σ → Option (PrunableData σ)
  | .fullLegacy signatures packed =>
    (codec.unpackContextFreeData compression packed).map (.fullLegacy signatures packed)
  | .none digest => some (.none digest)
  | .partialData signatures segments => some (.partialData signatures segments)
  | .full signatures segments => some (.full signatures segments)

end PrunableData

namespace PackedCodec

variable (codec : PackedCodec σ τ)

def rawPrunableData : Serial (RawPrunableData σ) :=
  .variant .varint RawPrunableData.index fun
    | 0 => some (.via (.pair codec.signatures bytesSerial) RawPrunableData.legacy?
        (fun x => some (.fullLegacy x.1 x.2)) fun {a} {b} h => by cases a <;> cases h; rfl)
    | 1 => some (.via digestSerial RawPrunableData.digest? (fun d => some (.none d))
        fun {a} {b} h => by cases a <;> cases h; rfl)
    | 2 => some (.via (.pair codec.signatures partialSegments) RawPrunableData.incomplete?
        (fun x => some (.partialData x.1 x.2)) fun {a} {b} h => by cases a <;> cases h; rfl)
    | 3 => some (.via (.pair codec.signatures segments) RawPrunableData.complete?
        (fun x => some (.full x.1 x.2)) fun {a} {b} h => by cases a <;> cases h; rfl)
    | _ => Option.none

end PackedCodec

namespace PrunableData

variable {codec : PackedCodec σ τ} {compression : Fin 256} {data : PrunableData σ}

theorem segments_of_ofRaw {raw : RawPrunableData σ}
    (h : ofRaw codec compression raw = some data) {signatures : List σ} {packed : Bytes}
    {segments : List Bytes} (hdata : data = .fullLegacy signatures packed segments) :
    codec.unpackContextFreeData compression packed = some segments := by
  cases raw with
  | fullLegacy signatures' packed' =>
    obtain ⟨segments', hsegments, hdata'⟩ := map_eq_some_iff.mp h
    rw [hdata, fullLegacy.injEq] at hdata'
    obtain ⟨_, rfl, rfl⟩ := hdata'
    exact hsegments
  | none digest =>
    cases h
    cases hdata
  | partialData signatures' segments' =>
    cases h
    cases hdata
  | full signatures' segments' =>
    cases h
    cases hdata

theorem ofRaw_toRaw
    (h : ∀ {signatures packed segments}, data = .fullLegacy signatures packed segments →
      codec.unpackContextFreeData compression packed = some segments) :
    ofRaw codec compression data.toRaw = some data := by
  cases data with
  | fullLegacy signatures packed segments =>
    rw [toRaw, ofRaw, h rfl]
    rfl
  | none digest => rfl
  | partialData signatures segments => rfl
  | full signatures segments => rfl

end PrunableData

namespace PackedTransaction

variable {codec : PackedCodec σ τ} (p : PackedTransaction codec)

def id : Sha256 := codec.id p.unpackedTrx

/-- The transaction with the given parts, if its bytes can be unpacked. -/
def make? (compression : Fin 256) (raw : RawPrunableData σ) (packedTrx : Bytes) :
    Option (PackedTransaction codec) :=
  match htrx : codec.unpackTransaction compression packedTrx,
      hdata : PrunableData.ofRaw codec compression raw with
  | some unpackedTrx, some prunableData =>
    some ⟨compression, prunableData, packedTrx, unpackedTrx, htrx,
      PrunableData.segments_of_ofRaw hdata⟩
  | _, _ => none

theorem make?_self : make? p.compression p.prunableData.toRaw p.packedTrx = some p := by
  have hdata := PrunableData.ofRaw_toRaw p.segments_eq
  unfold make?
  split
  case h_1 trx data htrx hdata' =>
    rw [p.unpack_eq, some.injEq] at htrx
    rw [hdata, some.injEq] at hdata'
    subst htrx hdata'
    rfl
  case h_2 hnone =>
    exact absurd hdata (hnone _ _ p.unpack_eq)

/-- The serialization, with `reflector_init`. -/
def serial (codec : PackedCodec σ τ) : Serial (PackedTransaction codec) :=
  .via (.pair .byte (.pair codec.rawPrunableData bytesSerial))
    (fun p => some (p.compression, p.prunableData.toRaw, p.packedTrx))
    (fun x => make? x.1 x.2.1 x.2.2)
    (by
      intro p x h
      cases h
      exact p.make?_self)

def packedDigest : Except PackException Sha256 := do
  let packedTrx ← orTooLarge (bytesSerial.pack p.packedTrx)
  let digest ← codec.prunableDigest p.prunableData
  pure (codec.sha256 (p.compression :: (packedTrx ++ packDigest digest)))

def pruneAll : Except PackException (PackedTransaction codec) := do
  let digest ← codec.prunableDigest p.prunableData
  pure { p with
    prunableData := .none digest
    segments_eq := fun h => by cases h }

end PackedTransaction

/-! ## A small format -/

def samplePackedCodec : PackedCodec (Fin 256) (Fin 256) where
  signature := .byte
  sha256 bs := { h0 := 77, h1 := .ofNat bs.length }
  unpackTransaction _ bs := bs.head?
  unpackContextFreeData _ _ := some []
  id trx := { h0 := .ofNat trx.val }

/-- A transaction with one signature and no context free data. -/
def samplePacked (trx : Fin 256) : PackedTransaction samplePackedCodec where
  compression := 0
  prunableData := .fullLegacy [trx] [] []
  packedTrx := [trx]
  unpackedTrx := trx
  unpack_eq := rfl
  segments_eq h := by cases h; rfl

end DcdProtocol.Chain
