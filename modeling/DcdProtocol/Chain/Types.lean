import DcdProtocol.Library.Fallible

/-!
# Basic types of the chain library

Names, digests, block timestamps, keys and exceptions, as `libraries/chain` has them.
Fixed-width fields keep their width.  A `Sha256` is its four 64-bit words, because block ids
carry the block number in the low half of the first word and the merkle code marks one bit
of it; the hash functions themselves are parameters of the modules that hash.
-/

namespace DcdProtocol.Chain

/-! ## Names -/

/-- `name`: an account, permission or action name in its 64-bit encoding. -/
structure Name where
  value : UInt64
  deriving DecidableEq, Repr

namespace Name

theorem value_toNat_injective : Function.Injective fun n : Name => n.value.toNat := by
  rintro ⟨a⟩ ⟨b⟩ hab
  exact congrArg mk (UInt64.toNat_inj.mp hab)

instance : LinearOrder Name :=
  LinearOrder.lift' (fun n : Name => n.value.toNat) value_toNat_injective

def empty (n : Name) : Bool := n.value == 0

instance : Inhabited Name := ⟨⟨0⟩⟩

/-- `char_to_symbol`, on the characters a name may contain. -/
def charToSymbol (c : Char) : UInt64 :=
  if 'a' ≤ c ∧ c ≤ 'z' then UInt64.ofNat (c.toNat - 'a'.toNat + 6)
  else if '1' ≤ c ∧ c ≤ '5' then UInt64.ofNat (c.toNat - '1'.toNat + 1)
  else 0

/-- `string_to_uint64_t` on at most twelve characters; `shift` is the number of bits left of
the current character's slot. -/
def encode : List Char → ℕ → UInt64
  | [], _ => 0
  | c :: cs, shift =>
    (charToSymbol c <<< UInt64.ofNat (64 - 5 * (shift + 1))) ||| encode cs (shift + 1)

def ofChars (cs : List Char) : Name := ⟨encode cs 0⟩

end Name

def systemAccountName : Name := .ofChars ['d', 'c', 'd']

/-! ## Digests and block ids -/

structure Sha256 where
  h0 : UInt64 := 0
  h1 : UInt64 := 0
  h2 : UInt64 := 0
  h3 : UInt64 := 0
  deriving DecidableEq, Repr, Inhabited

def endianReverseU32 (x : UInt32) : UInt32 :=
  let byte (n : UInt32) : UInt32 := (x >>> n) &&& 0xff
  byte 24 ||| (byte 16 <<< 8) ||| (byte 8 <<< 16) ||| (byte 0 <<< 24)

def numFromId (id : Sha256) : UInt32 := endianReverseU32 id.h0.toUInt32

/-! ## Time -/

/-- `block_timestamp_type`: a count of 500 ms slots since 2000-01-01. -/
structure BlockTimestamp where
  slot : UInt32 := 0
  deriving DecidableEq, Repr, Inhabited

def blockIntervalMs : ℕ := 500

def blockTimestampEpoch : ℕ := 946684800000

/-- `block_timestamp::to_time_point`, in microseconds. -/
def BlockTimestamp.toTimePoint (t : BlockTimestamp) : ℕ :=
  (t.slot.toNat * blockIntervalMs + blockTimestampEpoch) * 1000

/-! ## Assets -/

structure Asset where
  amount : Int64
  symbol : UInt64
  deriving DecidableEq, Repr

namespace Asset

/-- `symbol::name`: the bytes above the precision, up to the last one that is not zero. -/
def symbolName : ℕ → UInt64 → List UInt8
  | 0, _ => []
  | n + 1, v => if v = 0 then [] else v.toUInt8 :: symbolName n (v >>> 8)

/-- `symbol::valid`. -/
def validSymbol (symbol : UInt64) : Bool :=
  decide ((symbol &&& 0xff).toNat ≤ 18) &&
    (symbolName 7 (symbol >>> 8)).all fun c => decide (65 ≤ c.toNat ∧ c.toNat ≤ 90)

def isAmountWithinRange (a : Asset) : Bool :=
  decide (-(2 ^ 62 - 1) ≤ a.amount.toInt ∧ a.amount.toInt ≤ 2 ^ 62 - 1)

end Asset

/-! ## Keys and signatures -/

/-- `public_key_type`: the curve and the serialized key. -/
structure PublicKey where
  which : ℕ
  data : List UInt8
  deriving DecidableEq, Repr, Inhabited

/-- `signature_type`. -/
structure Signature where
  which : ℕ
  data : List UInt8
  deriving DecidableEq, Repr, Inhabited

structure KeyWeight where
  key : PublicKey
  weight : UInt16
  deriving DecidableEq, Repr

/-! ## Exceptions -/

/-- The exception classes thrown by the modelled code. -/
inductive ExceptionType
  | blockValidateException
  | unlinkableBlockException
  | producerDoubleConfirm
  | wrongProducer
  | producerScheduleException
  | invalidBlockHeaderExtension
  | wrongSigningKey
  | noBlockSignatures
  | permissionQueryException
  | irrelevantAuthException
  | unlinkableMinPermissionAction
  | actionValidateException
  | transactionException
  | txNotFound
  | unsatisfiedAuthorization
  | txIrrelevantSig
  | forkDatabaseException
  | forkDbBlockNotFound
  | missingPendingBlockState
  | producerException
  | producerPrivKeyNotFound
  | blockValidationError
  | blockFromTheFuture
  | overflowException
  | dcdAssertMessageException
  | invalidTablePayer
  | symbolTypeException
  | assetTypeException
  | invalidBlockExtension
  | illFormedAdditionalBlockSignaturesExtension
  | databaseException
  | chainException
  | tableOperationNotPermitted
  | kvBadIter
  | kvLimitExceeded
  | kvRocksdbBadValueSizeException
  | missingAuthException
  | txNoAuths
  | txDuplicate
  | expiredTxException
  | txExpTooFarException
  | invalidRefBlockException
  | unknownTransactionException
  | cfaInsideGeneratedTx
  | invalidTransactionExtension
  | illFormedDeferredTransactionGenerationContext
  | deferredTxDuplicate
  | subjectiveBlockProductionException
  | disallowedTransactionExtensionsBadBlockException
  | inlineActionTooBigNonprivileged
  | actorWhitelistException
  | actorBlacklistException
  | contractWhitelistException
  | contractBlacklistException
  | actionBlacklistException
  | keyBlacklistException
  | sigVariableSizeLimitException
  | blockNetUsageExceeded
  | greylistNetUsageExceeded
  | blockCpuUsageExceeded
  | greylistCpuUsageExceeded
  | deadlineException
  | leewayDeadlineException
  | txCpuUsageExceeded
  | dbRocksdbInvalidOperationException
  | badCompositeKeyException
  | invalidTableIterator
  | tableNotInCache
  | tableAccessViolation
  | contractTableQueryException
  | pluginException
  | invalidContractVmType
  | invalidContractVmVersion
  | setExactCode
  /-- `std::logic_error`. -/
  | stdLogicError
  /-- `std::out_of_range`. -/
  | stdOutOfRange
  /-- `std::bad_alloc`. -/
  | badAlloc
  /-- `boost::interprocess::bad_alloc`: the memory of the database is exhausted. -/
  | interprocessBadAlloc
  /-- `fc::std_exception_wrapper`. -/
  | stdExceptionWrapper
  /-- The source's behaviour is undefined here. -/
  | undefinedBehaviour
  /-- Thrown by code that is a parameter of the model. -/
  | external
  deriving DecidableEq, Repr

/-- A thrown exception: its class and message. -/
structure ChainException where
  type : ExceptionType
  what : String
  deriving DecidableEq, Repr

def dcdAssert (c : Prop) [Decidable c] (type : ExceptionType) (what : String) :
    Except ChainException Unit :=
  Library.check c ⟨type, what⟩

@[simp] theorem dcdAssert_ok_iff {c : Prop} [Decidable c] {type : ExceptionType}
    {what : String} {u : Unit} : dcdAssert c type what = .ok u ↔ c :=
  Library.check_ok_iff

end DcdProtocol.Chain
