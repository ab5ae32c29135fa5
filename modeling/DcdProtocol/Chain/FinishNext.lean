import DcdProtocol.Chain.BlockHeaderState
import DcdProtocol.Library.Run

/-!
# Accepting a header

The second stage of the header state machine: `makeBlockHeader` builds a header for a pending
state, `finishNextCore` (the source's `_finish_next`) validates one against it, and the two
`finish_next` functions add the check of foreign signatures or the signing of an own block.

One accepted block is `BlockHeaderState.step`: any `next` followed by either `finish_next`.
Validation of a received header (`next( h, … )` of the source) is the case in which the time
and the confirmation count are the header's own.  `step_cases` says once what an accepted step
has done; the invariants of header chains are proved from it.
-/

namespace DcdProtocol.Chain

open Library PendingBlockHeaderState

namespace PendingBlockHeaderState

variable (p : PendingBlockHeaderState)

/-! ## Building a header -/

/-- The loop over `new_producers` that drops to single-key authorities. -/
def downgradeProducers : List ProducerAuthority → Except ChainException (List ProducerKey)
  | [] => pure []
  | pro :: pros =>
    match pro.authority.keys with
    | [key] => do
      dcdAssert (key.weight.toUInt32 = pro.authority.threshold) .producerScheduleException
        "multisig block signing present before enabled!"
      let rest ← downgradeProducers pros
      pure (⟨pro.producerName, key.key⟩ :: rest)
    | _ => throw ⟨.producerScheduleException, "multisig block signing present before enabled!"⟩

def makeBlockHeader (ctx : HeaderContext) (transactionMroot actionMroot : Sha256)
    (newProducers : Option ProducerAuthoritySchedule) (newRate : Option ProducerRateInfo)
    (newProtocolFeatureActivations : List Sha256) : Except ChainException SignedBlockHeader := do
  let extensions := if newProtocolFeatureActivations.isEmpty then []
    else emplaceExtension (.protocolFeatureActivation newProtocolFeatureActivations) []
  let h : SignedBlockHeader :=
    { timestamp := p.timestamp
      producer := p.producer
      confirmed := p.confirmed
      previous := p.previous
      transactionMroot, actionMroot
      scheduleVersion := p.activeScheduleVersion
      rateVersion := p.activeRateVersion
      headerExtensions := extensions
      newRate := newRate.map fun r => ⟨r.version, r.rate⟩ }
  match newProducers with
  | none => pure h
  | some schedule =>
    if ctx.wtmsigActivated p.prevActivatedProtocolFeatures then
      pure { h with
        headerExtensions := emplaceExtension (.producerScheduleChange schedule) extensions }
    else
      let producers ← downgradeProducers schedule.producers
      pure { h with newProducers := some ⟨schedule.version, producers⟩ }

/-! ## Validating a header -/

/-- The assertions that a header fits the pending state. -/
def checkTemplate (h : SignedBlockHeader) : Except ChainException Unit := do
  dcdAssert (h.timestamp = p.timestamp) .blockValidateException "timestamp mismatch"
  dcdAssert (h.previous = p.previous) .unlinkableBlockException "previous mismatch"
  dcdAssert (h.confirmed = p.confirmed) .blockValidateException "confirmed mismatch"
  dcdAssert (h.producer = p.producer) .wrongProducer "wrong producer specified"
  dcdAssert (h.scheduleVersion = p.activeScheduleVersion) .producerScheduleException
    "schedule_version in signed block is corrupted"
  dcdAssert (h.rateVersion = p.activeRateVersion) .producerScheduleException
    "rate_version in signed block is corrupted"

/-- The assertions on an announced schedule of the given version, common to its two carriers. -/
def checkNewSchedule (version : UInt32) : Except ChainException Unit := do
  dcdAssert (p.wasPendingPromoted = false) .producerScheduleException
    "cannot set pending producer schedule in the same block in which pending was promoted to active"
  dcdAssert (version = p.activeSchedule.version + 1) .producerScheduleException
    "wrong producer schedule version specified"
  dcdAssert (p.prevPendingSchedule.schedule.producers = []) .producerScheduleException
    "cannot set new pending producers until last pending is confirmed"

/-- The schedule a header announces in `new_producers`, with its hash. -/
def legacyNewSchedule (ctx : HeaderContext) (h : SignedBlockHeader) :
    Except ChainException (Option (ProducerAuthoritySchedule × Sha256)) :=
  match h.newProducers with
  | none => pure none
  | some newProducers => do
    dcdAssert (ctx.wtmsigActivated p.prevActivatedProtocolFeatures = false)
      .producerScheduleException
      "Block header contains legacy producer schedule outdated by activation of WTMsig Block Signatures"
    p.checkNewSchedule newProducers.version
    pure (some (.ofLegacy newProducers, ctx.crypto.hashLegacySchedule newProducers))

def checkedNewRate (ctx : HeaderContext) (h : SignedBlockHeader) :
    Except ChainException (Option (ProducerRateInfo × Sha256)) :=
  match h.newRate with
  | none => pure none
  | some newRate => do
    dcdAssert (p.wasPendingRatePromoted = false) .producerScheduleException
      "cannot set pending producer rate in the same block in which pending was promoted to active"
    dcdAssert (newRate.version = p.activeRate.version + 1) .producerScheduleException
      "wrong producer rate version specified"
    dcdAssert p.prevPendingRate.rateInfo.rate.isZero .producerScheduleException
      "cannot set new pending rate until last pending is confirmed"
    pure (some (⟨newRate.version, newRate.rate⟩, ctx.crypto.hashNewRate h.newRate))

/-- The schedule a header announces in an extension, with its hash. -/
def extensionNewSchedule (ctx : HeaderContext) (exts : List BlockHeaderExtension) :
    Except ChainException (Option (ProducerAuthoritySchedule × Sha256)) :=
  match scheduleChange? exts with
  | none => pure none
  | some schedule => do
    dcdAssert (ctx.wtmsigActivated p.prevActivatedProtocolFeatures) .producerScheduleException
      "Block header producer_schedule_change_extension before activation of WTMsig Block Signatures"
    p.checkNewSchedule schedule.version
    pure (some (schedule, ctx.crypto.hashSchedule schedule))

def newActivatedFeatures (ctx : HeaderContext) (exts : List BlockHeaderExtension) :
    Except ChainException (List Sha256) :=
  match featureActivation? exts with
  | none => pure p.prevActivatedProtocolFeatures
  | some features => do
    dcdAssert (ctx.validator p.timestamp p.prevActivatedProtocolFeatures features) .external
      "protocol feature activation rejected"
    dcdAssert (features.Nodup ∧ ∀ f ∈ features, f ∉ p.prevActivatedProtocolFeatures)
      .invalidBlockHeaderExtension "duplication of protocol feature digests"
    pure (p.prevActivatedProtocolFeatures ++ features)

/-- `pending_schedule` after the block, given the schedule its header announces. -/
def nextPendingSchedule : Option (ProducerAuthoritySchedule × Sha256) → ScheduleInfo
  | some (schedule, hash) => ⟨p.blockNum, hash, schedule⟩
  | none =>
    if p.wasPendingPromoted then
      { p.prevPendingSchedule with schedule := { version := p.prevPendingSchedule.schedule.version } }
    else p.prevPendingSchedule

/-- `pending_rate` after the block, given the rate its header announces. -/
def nextPendingRate : Option (ProducerRateInfo × Sha256) → RateInfo
  | some (rate, hash) => ⟨p.blockNum, hash, rate⟩
  | none =>
    if p.wasPendingRatePromoted then
      { p.prevPendingRate with rateInfo := { version := p.prevPendingRate.rateInfo.version } }
    else p.prevPendingRate

/-- `_finish_next`. -/
def finishNextCore (ctx : HeaderContext) (h : SignedBlockHeader) :
    Except ChainException BlockHeaderState := do
  p.checkTemplate h
  let exts ← h.validateAndExtractHeaderExtensions
  let legacySchedule ← p.legacyNewSchedule ctx h
  let newRate ← p.checkedNewRate ctx h
  let extensionSchedule ← p.extensionNewSchedule ctx exts
  let features ← p.newActivatedFeatures ctx exts
  pure
    { toBlockHeaderStateCommon := p.toBlockHeaderStateCommon
      id := h.calculateId ctx.crypto
      header := h
      headerExts := exts
      pendingSchedule := p.nextPendingSchedule (extensionSchedule <|> legacySchedule)
      pendingRate := p.nextPendingRate newRate
      activatedProtocolFeatures := features }

end PendingBlockHeaderState

/-! ## Signatures -/

/-- `keys_satisfy_and_relevant`: whether the presented keys reach the threshold, and how many of
the authority's keys are among them. -/
def BlockSigningAuthority.keysSatisfyAndRelevant (a : BlockSigningAuthority)
    (presentedKeys : List PublicKey) : Bool × ℕ :=
  let (totalWeight, numRelevantKeys) := a.keys.foldl (fun (total, relevant) kw =>
    if kw.key ∈ presentedKeys then
      (if total < a.threshold then total + min (UInt32.ofNat (2 ^ 32 - 1) - total) kw.weight.toUInt32
        else total, relevant + 1)
    else (total, relevant)) ((0 : UInt32), 0)
  (decide (totalWeight ≥ a.threshold), numRelevantKeys)

namespace BlockHeaderState

variable (s : BlockHeaderState)

def sigDigest (crypto : Crypto) : Sha256 :=
  crypto.hashPair
    (crypto.hashPair (crypto.hashHeader s.header.toBlockHeader) s.blockrootMerkle.getRoot)
    s.pendingSchedule.scheduleHash

def recoverKey (crypto : Crypto) (sig : Signature) (digest : Sha256) :
    Except ChainException PublicKey :=
  match crypto.recoverKey sig digest with
  | none => throw ⟨.external, "unable to reconstruct public key from signature"⟩
  | some key => pure key

/-- The loop of `verify_signee` that recovers the keys of the additional signatures. -/
def collectKeys (crypto : Crypto) (digest : Sha256) :
    List Signature → List PublicKey → Except ChainException (List PublicKey)
  | [], keys => pure keys
  | sig :: sigs, keys => do
    let key ← recoverKey crypto sig digest
    dcdAssert (key ∉ keys) .wrongSigningKey "block signed by same key twice"
    collectKeys crypto digest sigs (key :: keys)

def verifySignee (crypto : Crypto) : Except ChainException Unit := do
  dcdAssert (1 + s.additionalSignatures.length ≤ s.validBlockSigningAuthority.keys.length)
    .wrongSigningKey
    "number of block signatures (${num_block_signatures}) exceeds number of keys in block signing authority (${num_keys})"
  let digest := s.sigDigest crypto
  let first ← recoverKey crypto s.header.producerSignature digest
  let keys ← collectKeys crypto digest s.additionalSignatures [first]
  let (isSatisfied, relevantSigCount) := s.validBlockSigningAuthority.keysSatisfyAndRelevant keys
  dcdAssert (relevantSigCount = keys.length) .wrongSigningKey "block signed by unexpected key"
  dcdAssert isSatisfied .wrongSigningKey
    "block signatures do not satisfy the block signing authority"

def sign (crypto : Crypto) (signer : Sha256 → List Signature) :
    Except ChainException BlockHeaderState := do
  let sigs := signer (s.sigDigest crypto)
  match sigs.getLast? with
  | none => throw ⟨.noBlockSignatures, "Signer returned no signatures"⟩
  | some sig =>
    let signed := { s with
      header := { s.header with producerSignature := sig }
      additionalSignatures := sigs.dropLast }
    signed.verifySignee crypto
    pure signed

end BlockHeaderState

namespace PendingBlockHeaderState

variable (p : PendingBlockHeaderState)

/-- `finish_next` of a foreign block. -/
def finishNext (ctx : HeaderContext) (h : SignedBlockHeader) (additionalSignatures : List Signature)
    (skipValidateSignee : Bool) : Except ChainException BlockHeaderState := do
  dcdAssert (additionalSignatures = [] ∨ ctx.wtmsigActivated p.prevActivatedProtocolFeatures)
    .producerScheduleException
    "Block contains multiple signatures before WTMsig block signatures are enabled"
  let result ← p.finishNextCore ctx h
  let result := { result with additionalSignatures }
  if skipValidateSignee then pure result
  else do
    result.verifySignee ctx.crypto
    pure result

/-- `finish_next` of an own block, which it signs. -/
def finishNextSigned (ctx : HeaderContext) (h : SignedBlockHeader)
    (signer : Sha256 → List Signature) : Except ChainException BlockHeaderState := do
  let result ← p.finishNextCore ctx h
  let result ← result.sign ctx.crypto signer
  dcdAssert (result.additionalSignatures = [] ∨
      ctx.wtmsigActivated p.prevActivatedProtocolFeatures) .producerScheduleException
    "Block was signed with multiple signatures before WTMsig block signatures are enabled"
  pure result

end PendingBlockHeaderState

/-! ## Steps of a header chain -/

/-- Which `finish_next` completes a block. -/
inductive Completion
  | validate (additionalSignatures : List Signature) (skipValidateSignee : Bool)
  | sign (signer : Sha256 → List Signature)

def PendingBlockHeaderState.complete (p : PendingBlockHeaderState) (ctx : HeaderContext)
    (h : SignedBlockHeader) : Completion → Except ChainException BlockHeaderState
  | .validate additionalSignatures skipValidateSignee =>
    p.finishNext ctx h additionalSignatures skipValidateSignee
  | .sign signer => p.finishNextSigned ctx h signer

structure HeaderInput where
  time : BlockTimestamp
  confirmed : UInt16
  header : SignedBlockHeader
  completion : Completion

namespace BlockHeaderState

def step (ctx : HeaderContext) (s : BlockHeaderState) (i : HeaderInput) :
    Except ChainException BlockHeaderState := do
  let p ← s.next ctx.crypto i.time i.confirmed
  p.complete ctx i.header i.completion

/-- `block_header_state::next( h, … )`. -/
def nextHeader (ctx : HeaderContext) (s : BlockHeaderState) (h : SignedBlockHeader)
    (additionalSignatures : List Signature) (skipValidateSignee : Bool) :
    Except ChainException BlockHeaderState :=
  s.step ctx ⟨h.timestamp, h.confirmed, h, .validate additionalSignatures skipValidateSignee⟩

end BlockHeaderState

/-- What `initialize_blockchain_state` reads of a genesis file. -/
structure GenesisState where
  initialTimestamp : BlockTimestamp
  initialKey : PublicKey
  chainId : Sha256

def genesisHeaderState (crypto : Crypto) (genesis : GenesisState) : BlockHeaderState :=
  let header : SignedBlockHeader :=
    { timestamp := genesis.initialTimestamp, actionMroot := genesis.chainId }
  let schedule : ProducerAuthoritySchedule :=
    ⟨0, [⟨systemAccountName, ⟨1, [⟨genesis.initialKey, 1⟩]⟩⟩]⟩
  { blockNum := header.blockNum
    activeSchedule := schedule
    activeRate := ⟨0, .one⟩
    id := header.calculateId crypto
    header
    pendingSchedule :=
      ⟨0, crypto.hashLegacySchedule ⟨0, [⟨systemAccountName, genesis.initialKey⟩]⟩, schedule⟩
    pendingRate := ⟨0, crypto.hashRate ⟨0, .one⟩, ⟨0, .one⟩⟩ }

/-! ## Sample headers

A context whose hash functions are constant, in which headers can be written down. -/

def sampleContext : HeaderContext where
  crypto :=
    { hashHeader := fun _ => {}
      hashLegacySchedule := fun _ => {}
      hashSchedule := fun _ => {}
      hashRate := fun _ => {}
      hashNewRate := fun _ => {}
      hashPair := fun _ _ => {}
      recoverKey := fun _ _ => some default }
  wtmsigDigest := none
  disallowEmptyScheduleDigest := none
  validator := fun _ _ _ => true

def sampleGenesis : GenesisState := ⟨⟨1⟩, default, {}⟩

/-- A schedule in which every producer signs with the same key. -/
def sampleSchedule (version : UInt32) (names : List Name) : LegacyProducerSchedule :=
  ⟨version, names.map fun name => ⟨name, default⟩⟩

/-- The header of block `num` in the sample context. -/
def sampleHeader (num slot : UInt32) (producer : Name) (confirmed : UInt16)
    (scheduleVersion : UInt32) (newProducers : Option LegacyProducerSchedule) : HeaderInput where
  time := ⟨slot⟩
  confirmed
  header :=
    { timestamp := ⟨slot⟩
      producer, confirmed, scheduleVersion, newProducers
      previous := { h0 := (endianReverseU32 (num - 1)).toUInt64 } }
  completion := .validate [] false

/-! ## What an accepted step has done -/

/-- The facts about an accepted step.  `p` is the pending state it went through; `newSchedule`
and `newRate` are what the header announced. -/
structure Accepted (ctx : HeaderContext) (s : BlockHeaderState) (i : HeaderInput)
    (s' : BlockHeaderState) (time : BlockTimestamp) (proauth : ProducerAuthority)
    (newSchedule : Option (ProducerAuthoritySchedule × Sha256))
    (newRate : Option (ProducerRateInfo × Sha256)) : Prop where
  timestamp : s.nextTimestamp i.time = .ok time
  scheduled : s.getScheduledProducer time = some proauth
  notDouble : s.checkDoubleConfirm proauth.producerName i.confirmed = .ok ()
  template : (s.nextPending ctx.crypto time proauth i.confirmed).checkTemplate i.header = .ok ()
  common : s'.toBlockHeaderStateCommon =
    (s.nextPending ctx.crypto time proauth i.confirmed).toBlockHeaderStateCommon
  header : s'.header.toBlockHeader = i.header.toBlockHeader
  pendingSchedule : s'.pendingSchedule =
    (s.nextPending ctx.crypto time proauth i.confirmed).nextPendingSchedule newSchedule
  pendingRate : s'.pendingRate =
    (s.nextPending ctx.crypto time proauth i.confirmed).nextPendingRate newRate
  newSchedule_ok : ∀ x, newSchedule = some x →
    s.promotesSchedule proauth.producerName = false ∧
      x.1.version = s.activeSchedule.version + 1 ∧ s.pendingSchedule.schedule.producers = []
  newRate_ok : ∀ x, newRate = some x →
    s.promotesRate proauth.producerName = false ∧
      x.1.version = s.activeRate.version + 1 ∧ s.pendingRate.rateInfo.rate.isZero = true

theorem Accepted.producer_eq {ctx : HeaderContext} {s s' : BlockHeaderState} {i : HeaderInput}
    {time : BlockTimestamp} {proauth : ProducerAuthority}
    {newSchedule : Option (ProducerAuthoritySchedule × Sha256)}
    {newRate : Option (ProducerRateInfo × Sha256)}
    (hacc : Accepted ctx s i s' time proauth newSchedule newRate) :
    i.header.producer = proauth.producerName := by
  have htemplate := hacc.template
  simp only [checkTemplate, bind_ok_iff, dcdAssert_ok_iff] at htemplate
  obtain ⟨-, -, -, -, -, -, -, hproducer, -⟩ := htemplate
  exact hproducer

namespace PendingBlockHeaderState

variable {p : PendingBlockHeaderState} {ctx : HeaderContext} {h : SignedBlockHeader}
  {s' : BlockHeaderState}

theorem checkNewSchedule_ok {version : UInt32} {u : Unit}
    (hok : p.checkNewSchedule version = .ok u) :
    p.wasPendingPromoted = false ∧ version = p.activeSchedule.version + 1 ∧
      p.prevPendingSchedule.schedule.producers = [] := by
  simp only [checkNewSchedule, bind_ok_iff, dcdAssert_ok_iff] at hok
  obtain ⟨-, hpromoted, -, hversion, hempty⟩ := hok
  exact ⟨hpromoted, hversion, hempty⟩

variable {x : ProducerAuthoritySchedule × Sha256} {exts : List BlockHeaderExtension}

theorem legacyNewSchedule_ok (hok : p.legacyNewSchedule ctx h = .ok (some x)) :
    p.wasPendingPromoted = false ∧ x.1.version = p.activeSchedule.version + 1 ∧
      p.prevPendingSchedule.schedule.producers = [] := by
  unfold legacyNewSchedule at hok
  cases hnew : h.newProducers with
  | none => simp [hnew] at hok
  | some newProducers =>
    simp only [hnew, bind_ok_iff, pure_ok_iff, Option.some.injEq] at hok
    obtain ⟨_, -, _, hcheck, rfl⟩ := hok
    exact checkNewSchedule_ok hcheck

theorem extensionNewSchedule_ok (hok : p.extensionNewSchedule ctx exts = .ok (some x)) :
    p.wasPendingPromoted = false ∧ x.1.version = p.activeSchedule.version + 1 ∧
      p.prevPendingSchedule.schedule.producers = [] := by
  unfold extensionNewSchedule at hok
  split at hok
  · simp at hok
  · simp only [bind_ok_iff, pure_ok_iff, Option.some.injEq] at hok
    obtain ⟨_, -, _, hcheck, rfl⟩ := hok
    exact checkNewSchedule_ok hcheck

theorem checkedNewRate_ok {x : ProducerRateInfo × Sha256}
    (hok : p.checkedNewRate ctx h = .ok (some x)) :
    p.wasPendingRatePromoted = false ∧ x.1.version = p.activeRate.version + 1 ∧
      p.prevPendingRate.rateInfo.rate.isZero = true := by
  unfold checkedNewRate at hok
  cases hnew : h.newRate with
  | none => simp [hnew] at hok
  | some newRate =>
    simp only [hnew, bind_ok_iff, dcdAssert_ok_iff, pure_ok_iff, Option.some.injEq] at hok
    obtain ⟨-, hpromoted, -, hversion, -, hzero, rfl⟩ := hok
    exact ⟨hpromoted, hversion, hzero⟩

theorem finishNextCore_ok (hok : p.finishNextCore ctx h = .ok s') :
    p.checkTemplate h = .ok () ∧ s'.toBlockHeaderStateCommon = p.toBlockHeaderStateCommon ∧
      s'.header = h ∧
      ∃ legacySchedule extensionSchedule newRate,
        p.legacyNewSchedule ctx h = .ok legacySchedule ∧
        p.extensionNewSchedule ctx h.headerExtensions = .ok extensionSchedule ∧
        p.checkedNewRate ctx h = .ok newRate ∧
        s'.pendingSchedule = p.nextPendingSchedule (extensionSchedule <|> legacySchedule) ∧
        s'.pendingRate = p.nextPendingRate newRate := by
  simp only [finishNextCore, bind_ok_iff, pure_ok_iff] at hok
  obtain ⟨_, htemplate, exts, hexts, legacySchedule, hlegacy, newRate, hrate, extensionSchedule,
    hext, features, -, rfl⟩ := hok
  obtain rfl := BlockHeader.extractExtensions_ok hexts
  exact ⟨htemplate, rfl, rfl, legacySchedule, extensionSchedule, newRate, hlegacy, hext, hrate,
    rfl, rfl⟩

theorem newSchedule_ok
    {legacySchedule extensionSchedule : Option (ProducerAuthoritySchedule × Sha256)}
    (hlegacy : p.legacyNewSchedule ctx h = .ok legacySchedule)
    (hext : p.extensionNewSchedule ctx exts = .ok extensionSchedule)
    (hx : (extensionSchedule <|> legacySchedule) = some x) :
    p.wasPendingPromoted = false ∧ x.1.version = p.activeSchedule.version + 1 ∧
      p.prevPendingSchedule.schedule.producers = [] := by
  cases extensionSchedule with
  | none => exact legacyNewSchedule_ok (by simpa [← hx] using hlegacy)
  | some y => exact extensionNewSchedule_ok (by simpa [← hx] using hext)

end PendingBlockHeaderState

namespace BlockHeaderState

variable {ctx : HeaderContext} {s s' : BlockHeaderState} {i : HeaderInput}
  {p : PendingBlockHeaderState} {crypto : Crypto}

theorem next_ok {time : BlockTimestamp} {confirmed : UInt16}
    (hok : s.next crypto time confirmed = .ok p) :
    ∃ time' proauth, s.nextTimestamp time = .ok time' ∧
      s.getScheduledProducer time' = some proauth ∧
      s.checkDoubleConfirm proauth.producerName confirmed = .ok () ∧
      p = s.nextPending crypto time' proauth confirmed := by
  simp only [next, bind_ok_iff] at hok
  obtain ⟨time', htime, hok⟩ := hok
  cases hpro : s.getScheduledProducer time' with
  | none => simp [hpro] at hok
  | some proauth =>
    simp only [hpro, bind_ok_iff, pure_ok_iff] at hok
    obtain ⟨_, hdouble, rfl⟩ := hok
    exact ⟨time', proauth, htime, hpro, hdouble, rfl⟩

theorem sign_ok {signer : Sha256 → List Signature} (hok : s.sign crypto signer = .ok s') :
    s'.verifySignee crypto = .ok () ∧ ∃ sig sigs, s' = { s with
      header := { s.header with producerSignature := sig }, additionalSignatures := sigs } := by
  unfold sign at hok
  cases hsigs : (signer (s.sigDigest crypto)).getLast? with
  | none => simp [hsigs] at hok
  | some sig =>
    simp only [hsigs, bind_ok_iff, pure_ok_iff] at hok
    obtain ⟨_, hverify, rfl⟩ := hok
    exact ⟨hverify, sig, _, rfl⟩

theorem complete_ok {h : SignedBlockHeader} {c : Completion} (hok : p.complete ctx h c = .ok s') :
    ∃ r, p.finishNextCore ctx h = .ok r ∧ ∃ sig sigs, s' = { r with
      header := { r.header with producerSignature := sig }, additionalSignatures := sigs } := by
  cases c with
  | validate additionalSignatures skip =>
    simp only [complete, finishNext, bind_ok_iff] at hok
    obtain ⟨_, -, r, hcore, hok⟩ := hok
    refine ⟨r, hcore, r.header.producerSignature, additionalSignatures, ?_⟩
    split at hok
    · exact (pure_ok_iff.mp hok).symm
    · simp only [bind_ok_iff, pure_ok_iff] at hok
      obtain ⟨_, -, rfl⟩ := hok
      rfl
  | sign signer =>
    simp only [complete, finishNextSigned, bind_ok_iff, pure_ok_iff] at hok
    obtain ⟨r, hcore, _, hsign, _, -, rfl⟩ := hok
    exact ⟨r, hcore, (sign_ok hsign).2⟩

theorem step_cases (hok : s.step ctx i = .ok s') :
    ∃ time proauth newSchedule newRate, Accepted ctx s i s' time proauth newSchedule newRate := by
  simp only [step, bind_ok_iff] at hok
  obtain ⟨p, hnext, hok⟩ := hok
  obtain ⟨r, hcore, sig, sigs, rfl⟩ := complete_ok hok
  obtain ⟨time, proauth, htime, hpro, hdouble, rfl⟩ := next_ok hnext
  obtain ⟨htemplate, hcommon, hheader, legacySchedule, extensionSchedule, newRate, hlegacy, hext,
    hnewRate, hschedule, hrate⟩ := finishNextCore_ok hcore
  refine ⟨time, proauth, _, newRate, htime, hpro, hdouble, htemplate, hcommon, by rw [hheader],
    hschedule, hrate, ?_, ?_⟩
  · intro x hx
    obtain ⟨hpromoted, hversion, hempty⟩ := newSchedule_ok hlegacy hext hx
    have hpromoted : s.promotesSchedule proauth.producerName = false := hpromoted
    exact ⟨hpromoted, by simpa [nextPending, hpromoted] using hversion, hempty⟩
  · intro x hx
    obtain ⟨hpromoted, hversion, hempty⟩ := checkedNewRate_ok (hx ▸ hnewRate)
    have hpromoted : s.promotesRate proauth.producerName = false := hpromoted
    exact ⟨hpromoted, by simpa [nextPending, hpromoted] using hversion, hempty⟩

end BlockHeaderState

end DcdProtocol.Chain
