import DcdProtocol.Chain.Types
import DcdProtocol.Library.Double

/-!
# Schedules, rates and block headers

The data that a block header carries (`producer_schedule.hpp`, `block_header.hpp`) and the
functions of a header alone: its id, the number it implies, and the extraction of its
extensions.  A header extension is kept in decoded form; an extension of an unknown id, or one
whose payload does not unpack, is `other`.

`Crypto` collects what the header code computes with cryptographic primitives.  Nothing is
assumed about them.
-/

namespace DcdProtocol.Chain

open Library

/-! ## Producer schedules -/

/-- `block_signing_authority`, whose only alternative is `block_signing_authority_v0`. -/
structure BlockSigningAuthority where
  threshold : UInt32 := 0
  keys : List KeyWeight := []
  deriving DecidableEq, Repr

structure ProducerAuthority where
  producerName : Name
  authority : BlockSigningAuthority
  deriving DecidableEq, Repr

structure ProducerAuthoritySchedule where
  version : UInt32 := 0
  producers : List ProducerAuthority := []
  deriving DecidableEq, Repr

/-- The account names of a schedule, in schedule order. -/
def ProducerAuthoritySchedule.names (s : ProducerAuthoritySchedule) : List Name :=
  s.producers.map ProducerAuthority.producerName

structure ProducerKey where
  producerName : Name
  blockSigningKey : PublicKey
  deriving DecidableEq, Repr

/-- `legacy::producer_schedule_type`. -/
structure LegacyProducerSchedule where
  version : UInt32 := 0
  producers : List ProducerKey := []
  deriving DecidableEq, Repr

/-- The up-conversion constructor of `producer_authority_schedule`. -/
def ProducerAuthoritySchedule.ofLegacy (old : LegacyProducerSchedule) :
    ProducerAuthoritySchedule where
  version := old.version
  producers := old.producers.map fun p => ⟨p.producerName, ⟨1, [⟨p.blockSigningKey, 1⟩]⟩⟩

structure ProducerRateInfo where
  version : UInt32 := 0
  rate : Double := .zero
  deriving DecidableEq, Repr

/-- `shared_rate_info`: the same fields with another default rate. -/
structure SharedRateInfo where
  version : UInt32 := 0
  rate : Double := .one
  deriving DecidableEq, Repr

/-! ## Headers -/

inductive BlockHeaderExtension
  | protocolFeatureActivation (protocolFeatures : List Sha256)
  | producerScheduleChange (schedule : ProducerAuthoritySchedule)
  | other (id : UInt16)
  deriving DecidableEq, Repr

def BlockHeaderExtension.extensionId : BlockHeaderExtension → UInt16
  | .protocolFeatureActivation _ => 0
  | .producerScheduleChange _ => 1
  | .other id => id

/-- The schedule of the `producer_schedule_change_extension` among the extensions. -/
def scheduleChange? (exts : List BlockHeaderExtension) : Option ProducerAuthoritySchedule :=
  exts.findSome? fun
    | .producerScheduleChange schedule => some schedule
    | _ => none

/-- The digests of the `protocol_feature_activation` among the extensions. -/
def featureActivation? (exts : List BlockHeaderExtension) : Option (List Sha256) :=
  exts.findSome? fun
    | .protocolFeatureActivation protocolFeatures => some protocolFeatures
    | _ => none

/-- Whether `decompose_t::extract` finds a type for the extension. -/
def BlockHeaderExtension.isSupported : BlockHeaderExtension → Bool
  | .other _ => false
  | _ => true

structure BlockHeader where
  timestamp : BlockTimestamp := {}
  producer : Name := default
  confirmed : UInt16 := 1
  previous : Sha256 := {}
  transactionMroot : Sha256 := {}
  actionMroot : Sha256 := {}
  scheduleVersion : UInt32 := 0
  newProducers : Option LegacyProducerSchedule := none
  rateVersion : UInt32 := 0
  newRate : Option SharedRateInfo := none
  headerExtensions : List BlockHeaderExtension := []
  deriving DecidableEq, Repr

structure SignedBlockHeader extends BlockHeader where
  producerSignature : Signature := default
  deriving DecidableEq, Repr

/-- `digest_type::hash` at the types the header code hashes, and the recovery of the key that
made a signature, which throws when there is none. -/
structure Crypto where
  hashHeader : BlockHeader → Sha256
  hashLegacySchedule : LegacyProducerSchedule → Sha256
  hashSchedule : ProducerAuthoritySchedule → Sha256
  hashRate : ProducerRateInfo → Sha256
  hashNewRate : Option SharedRateInfo → Sha256
  hashPair : Sha256 → Sha256 → Sha256
  recoverKey : Signature → Sha256 → Option PublicKey

namespace BlockHeader

def blockNum (h : BlockHeader) : UInt32 := numFromId h.previous + 1

/-- The digest with its low 32 bits replaced by the block number. -/
def calculateId (h : BlockHeader) (crypto : Crypto) : Sha256 :=
  let digest := crypto.hashHeader h
  { digest with
    h0 := (digest.h0 &&& 0xffffffff00000000) + (endianReverseU32 h.blockNum).toUInt64 }

/-- The loop of `validate_and_extract_header_extensions`; `first` is `i == 0`. -/
def extractExtensions :
    List BlockHeaderExtension → UInt16 → Bool → Except ChainException (List BlockHeaderExtension)
  | [], _, _ => pure []
  | e :: es, idTypeLowerBound, first => do
    let id := e.extensionId
    dcdAssert (id ≥ idTypeLowerBound) .invalidBlockHeaderExtension
      "Block header extensions are not in the correct order (ascending id types required)"
    dcdAssert e.isSupported .invalidBlockHeaderExtension
      "Block header extension with id type ${id} is not supported"
    dcdAssert (first ∨ id > idTypeLowerBound) .invalidBlockHeaderExtension
      "Block header extension with id type ${id} is not allowed to repeat"
    let rest ← extractExtensions es id false
    pure (e :: rest)

def validateAndExtractHeaderExtensions (h : BlockHeader) :
    Except ChainException (List BlockHeaderExtension) :=
  extractExtensions h.headerExtensions 0 true

theorem extractExtensions_ok {es exts : List BlockHeaderExtension} {bound : UInt16} {first : Bool}
    (hok : extractExtensions es bound first = .ok exts) : exts = es := by
  induction es generalizing exts bound first with
  | nil => exact (pure_ok_iff.mp hok).symm
  | cons e es ih =>
    simp only [extractExtensions, bind_ok_iff, pure_ok_iff] at hok
    obtain ⟨_, -, _, -, _, -, rest, hrest, rfl⟩ := hok
    rw [ih hrest]

end BlockHeader

/-- `emplace_extension`: insertion behind the extensions of the same or a smaller id. -/
def emplaceExtension (e : BlockHeaderExtension) :
    List BlockHeaderExtension → List BlockHeaderExtension
  | [] => [e]
  | d :: ds => if e.extensionId < d.extensionId then e :: d :: ds else d :: emplaceExtension e ds

end DcdProtocol.Chain
