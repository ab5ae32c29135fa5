import DcdProtocol.Chain.FinishNext

/-!
# Producers and validators agree

The producer of a block starts from a schedule and a rate in memory, writes them into a header,
and signs; everybody else has the signed block only.  Both end with a header state for the block,
and the next block is built on it.

The two paths meet in `_finish_next`, which reads nothing but the header: also the producer's own
header state has the schedule that can be read back from it.  So it is enough that the validator
gets to the same pending state, that a signature is no part of what `_finish_next` looks at, and
that the signatures of the block survive the way through its extensions.
-/

namespace DcdProtocol.Chain

open Library PendingBlockHeaderState

/-! ## Signatures in blocks -/

inductive BlockExtension
  | additionalBlockSignatures (signatures : List Signature)
  | other (id : UInt16)
  deriving DecidableEq, Repr

namespace BlockExtension

def extensionId : BlockExtension → UInt16
  | .additionalBlockSignatures _ => 2
  | .other id => id

/-- `decompose_t::extract` with the `reflector_init` of the extension. -/
def unpack : BlockExtension → Except ChainException Unit
  | .additionalBlockSignatures signatures => do
    dcdAssert (signatures.length > 0) .illFormedAdditionalBlockSignaturesExtension
      "Additional block signatures extension must contain at least one signature"
    dcdAssert signatures.Nodup .illFormedAdditionalBlockSignaturesExtension
      "Signature ${s} was repeated in the additional block signatures extension"
  | .other _ => throw ⟨.invalidBlockExtension,
      "Block extension with id type ${id} is not supported"⟩

/-- `emplace_extension` for block extensions. -/
def emplace (e : BlockExtension) : List BlockExtension → List BlockExtension
  | [] => [e]
  | d :: ds => if e.extensionId < d.extensionId then e :: d :: ds else d :: emplace e ds

/-- The loop of `validate_and_extract_block_extensions`; `first` is `i == 0`. -/
def extract : List BlockExtension → UInt16 → Bool → Except ChainException (List BlockExtension)
  | [], _, _ => pure []
  | e :: es, idTypeLowerBound, first => do
    dcdAssert (e.extensionId ≥ idTypeLowerBound) .invalidBlockExtension
      "Block extensions are not in the correct order (ascending id types required)"
    e.unpack
    dcdAssert (first ∨ e.extensionId > idTypeLowerBound) .invalidBlockHeaderExtension
      "Block extension with id type ${id} is not allowed to repeat"
    let rest ← extract es e.extensionId false
    pure (e :: rest)

end BlockExtension

structure SignedBlock where
  header : SignedBlockHeader
  blockExtensions : List BlockExtension := []

def SignedBlock.extractAdditionalSignatures (b : SignedBlock) :
    Except ChainException (List Signature) := do
  let exts ← BlockExtension.extract b.blockExtensions 0 true
  pure ((exts.findSome? fun
    | .additionalBlockSignatures signatures => some signatures
    | .other _ => none).getD [])

def PendingBlockHeaderState.injectAdditionalSignatures (cur : PendingBlockHeaderState)
    (ctx : HeaderContext) (b : SignedBlock) (signer : Sha256 → List Signature) :
    Except ChainException (BlockHeaderState × SignedBlock) := do
  let result ← cur.finishNextSigned ctx b.header signer
  let b := { b with
    header := { b.header with producerSignature := result.header.producerSignature } }
  if result.additionalSignatures = [] then pure (result, b)
  else do
    dcdAssert (ctx.wtmsigActivated cur.prevActivatedProtocolFeatures) .blockValidateException
      "Block has multiple signatures before activation of WTMsig Block Signatures"
    pure (result, { b with
      blockExtensions := BlockExtension.emplace
        (.additionalBlockSignatures result.additionalSignatures) b.blockExtensions })

/-! ## The two paths -/

structure ProducedBlock where
  time : BlockTimestamp
  confirmed : UInt16
  transactionMroot : Sha256 := {}
  actionMroot : Sha256 := {}
  newProducers : Option ProducerAuthoritySchedule := none
  newRate : Option ProducerRateInfo := none
  newProtocolFeatureActivations : List Sha256 := []
  signer : Sha256 → List Signature

namespace BlockHeaderState

/-- The producer: `start_block`, `finalize_block` and the signing constructor of `block_state`. -/
def produce (ctx : HeaderContext) (s : BlockHeaderState) (i : ProducedBlock) :
    Except ChainException (BlockHeaderState × SignedBlock) := do
  let cur ← s.next ctx.crypto i.time i.confirmed
  let h ← cur.makeBlockHeader ctx i.transactionMroot i.actionMroot i.newProducers i.newRate
    i.newProtocolFeatureActivations
  cur.injectAdditionalSignatures ctx { header := h } i.signer

/-- The validator: the other constructor of `block_state`. -/
def validate (ctx : HeaderContext) (s : BlockHeaderState) (b : SignedBlock)
    (skipValidateSignee : Bool) : Except ChainException BlockHeaderState := do
  let additionalSignatures ← b.extractAdditionalSignatures
  s.nextHeader ctx b.header additionalSignatures skipValidateSignee

end BlockHeaderState

/-! ## The pending state -/

namespace BlockHeaderState

variable {ctx : HeaderContext} {s p : BlockHeaderState} {cur : PendingBlockHeaderState}
  {h : SignedBlockHeader} {b : SignedBlock} {i : ProducedBlock} {sigs : List Signature}
  {crypto : Crypto}

theorem nextTimestamp_idem {time time' : BlockTimestamp} (hok : s.nextTimestamp time = .ok time') :
    s.nextTimestamp time' = .ok time' := by
  unfold nextTimestamp at hok ⊢
  by_cases htime : time = {}
  · rw [if_neg (not_not.mpr htime)] at hok
    obtain rfl : ⟨s.header.timestamp.slot + 1⟩ = time' := pure_ok_iff.mp hok
    by_cases hwrap : (⟨s.header.timestamp.slot + 1⟩ : BlockTimestamp) = {}
    · grind
    rw [if_pos hwrap, bind_ok_iff]
    refine ⟨(), dcdAssert_ok_iff.mpr ?_, rfl⟩
    have hslot : s.header.timestamp.slot + 1 ≠ 0 := by grind
    rw [Ne, ← UInt32.toNat_inj, UInt32.toNat_add] at hslot
    show s.header.timestamp.slot < s.header.timestamp.slot + 1
    rw [UInt32.lt_iff_toNat_lt, UInt32.toNat_add]
    have hlt := s.header.timestamp.slot.toNat_lt
    simp only [UInt32.toNat_one, UInt32.toNat_zero] at hslot ⊢
    omega
  · rw [if_pos htime, bind_ok_iff] at hok
    obtain ⟨u, hfuture, hok⟩ := hok
    obtain rfl : time = time' := pure_ok_iff.mp hok
    rw [if_pos htime, bind_ok_iff]
    exact ⟨u, hfuture, rfl⟩

theorem next_of_header {time : BlockTimestamp} {confirmed : UInt16}
    (hnext : s.next ctx.crypto time confirmed = .ok cur) (htimestamp : h.timestamp = cur.timestamp)
    (hconfirmed : h.confirmed = cur.confirmed) :
    s.next ctx.crypto h.timestamp h.confirmed = .ok cur := by
  obtain ⟨time', proauth, htime, hscheduled, hdouble, rfl⟩ := next_ok hnext
  have htimestamp : h.timestamp = time' := htimestamp
  have hconfirmed : h.confirmed = confirmed := hconfirmed
  rw [next, htimestamp, nextTimestamp_idem htime, hconfirmed]
  refine bind_ok_iff.mpr ⟨time', rfl, ?_⟩
  rw [hscheduled]
  exact bind_ok_iff.mpr ⟨(), hdouble, rfl⟩

/-! ## Signatures -/

theorem finishNextCore_signed {sig : Signature} (hok : cur.finishNextCore ctx h = .ok p) :
    cur.finishNextCore ctx { h with producerSignature := sig } =
      .ok { p with header := { h with producerSignature := sig } } := by
  simp only [finishNextCore, bind_ok_iff, pure_ok_iff] at hok ⊢
  obtain ⟨u, htemplate, exts, hexts, legacySchedule, hlegacy, newRate, hrate, extensionSchedule,
    hext, features, hfeatures, rfl⟩ := hok
  exact ⟨u, htemplate, exts, hexts, legacySchedule, hlegacy, newRate, hrate, extensionSchedule,
    hext, features, hfeatures, rfl⟩

theorem nodup_of_collectKeys {digest : Sha256}
    {keys result : List PublicKey} (hok : collectKeys crypto digest sigs keys = .ok result) :
    sigs.Nodup ∧ ∀ sig ∈ sigs, ∀ key ∈ keys, crypto.recoverKey sig digest ≠ some key := by
  induction sigs generalizing keys with
  | nil => exact ⟨List.nodup_nil, List.forall_mem_nil _⟩
  | cons sig sigs ih =>
    simp only [collectKeys, bind_ok_iff, dcdAssert_ok_iff] at hok
    obtain ⟨key, hkey, _, hnew, hok⟩ := hok
    obtain ⟨hnodup, hfresh⟩ := ih hok
    have hsig : crypto.recoverKey sig digest = some key := by
      unfold recoverKey at hkey
      split at hkey
      · cases hkey
      next hrecover => rw [hrecover, pure_ok_iff.mp hkey]
    refine ⟨List.nodup_cons.mpr ⟨?_, hnodup⟩, List.forall_mem_cons.mpr ⟨?_, ?_⟩⟩
    · grind
    · grind
    · grind

theorem nodup_of_verifySignee {u : Unit}
    (hok : s.verifySignee crypto = .ok u) : s.additionalSignatures.Nodup := by
  simp only [verifySignee, bind_ok_iff] at hok
  obtain ⟨_, -, first, -, keys, hcollect, -⟩ := hok
  exact (nodup_of_collectKeys hcollect).1

theorem extractAdditionalSignatures_emplace (hne : sigs ≠ []) (hnodup : sigs.Nodup) :
    SignedBlock.extractAdditionalSignatures
      ⟨h, BlockExtension.emplace (.additionalBlockSignatures sigs) []⟩ = .ok sigs := by
  have hunpack : (BlockExtension.additionalBlockSignatures sigs).unpack = .ok () := by
    simp only [BlockExtension.unpack, bind_ok_iff, dcdAssert_ok_iff]
    exact ⟨(), List.length_pos_iff.mpr hne, hnodup⟩
  have hextract : BlockExtension.extract [.additionalBlockSignatures sigs] 0 true =
      .ok [.additionalBlockSignatures sigs] := by
    simp only [BlockExtension.extract, bind_ok_iff, dcdAssert_ok_iff]
    exact ⟨(), UInt16.zero_le, (), hunpack, (), .inl trivial, [], rfl, rfl⟩
  rw [SignedBlock.extractAdditionalSignatures, BlockExtension.emplace, hextract]
  rfl

/-! ## Agreement -/

theorem finishNext_of_finishNextSigned {signer : Sha256 → List Signature}
    (hok : cur.finishNextSigned ctx h signer = .ok p) (skipValidateSignee : Bool) :
    p.header = { h with producerSignature := p.header.producerSignature } ∧
      p.additionalSignatures.Nodup ∧
      cur.finishNext ctx p.header p.additionalSignatures skipValidateSignee = .ok p := by
  simp only [finishNextSigned, bind_ok_iff, dcdAssert_ok_iff, pure_ok_iff] at hok
  obtain ⟨r, hcore, _, hsign, _, hsignatures, rfl⟩ := hok
  obtain ⟨hverify, sig, sigs, rfl⟩ := sign_ok hsign
  have hheader : r.header = h := (finishNextCore_ok hcore).2.2.1
  subst hheader
  refine ⟨rfl, nodup_of_verifySignee hverify, ?_⟩
  simp only [finishNext, bind_ok_iff, dcdAssert_ok_iff]
  refine ⟨(), hsignatures, _, finishNextCore_signed hcore, ?_⟩
  cases skipValidateSignee with
  | true => rfl
  | false => simp_all

/-- What a producer has done: the block contains the header of its header state, and its
signatures can be read back from it. -/
theorem produce_eq_ok (hok : s.produce ctx i = .ok (p, b)) :
    b.header = p.header ∧ b.extractAdditionalSignatures = .ok p.additionalSignatures ∧
      ∀ skipValidateSignee,
        s.nextHeader ctx p.header p.additionalSignatures skipValidateSignee = .ok p := by
  simp only [produce, injectAdditionalSignatures, bind_ok_iff] at hok
  obtain ⟨cur, hnext, h, -, result, hsigned, hok⟩ := hok
  have hagree := finishNext_of_finishNextSigned hsigned
  obtain ⟨hheader, hnodup, -⟩ := hagree false
  have hvalidate : ∀ skipValidateSignee, s.nextHeader ctx result.header
      result.additionalSignatures skipValidateSignee = .ok result := by
    intro skipValidateSignee
    have hfinish := (hagree skipValidateSignee).2.2
    have hcheck : cur.checkTemplate result.header = .ok () := by
      simp only [finishNext, bind_ok_iff] at hfinish
      obtain ⟨_, -, r, hcore, -⟩ := hfinish
      exact (finishNextCore_ok hcore).1
    simp only [checkTemplate, bind_ok_iff, dcdAssert_ok_iff] at hcheck
    obtain ⟨-, htimestamp, -, -, -, hconfirmed, -⟩ := hcheck
    rw [nextHeader, step, next_of_header hnext htimestamp hconfirmed]
    exact hfinish
  by_cases hsignatures : result.additionalSignatures = []
  · rw [if_pos hsignatures] at hok
    obtain ⟨rfl, rfl⟩ := Prod.mk.inj (pure_ok_iff.mp hok)
    refine ⟨hheader.symm, ?_, hvalidate⟩
    rw [hsignatures]
    rfl
  · rw [if_neg hsignatures, bind_ok_iff] at hok
    obtain ⟨_, -, hok⟩ := hok
    obtain ⟨rfl, rfl⟩ := Prod.mk.inj (pure_ok_iff.mp hok)
    exact ⟨hheader.symm, extractAdditionalSignatures_emplace hsignatures hnodup, hvalidate⟩

/-- Whatever a producer has built and signed, a validator that has the same parent accepts, and
ends with the same header state: from the header and the signatures, or from the block. -/
theorem validate_produced (hok : s.produce ctx i = .ok (p, b)) :
    b.header = p.header ∧ s.nextHeader ctx b.header p.additionalSignatures false = .ok p ∧
      s.validate ctx b false = .ok p := by
  obtain ⟨hheader, hextract, hvalidate⟩ := produce_eq_ok hok
  rw [hheader]
  refine ⟨rfl, hvalidate false, ?_⟩
  rw [validate, hextract, hheader]
  exact hvalidate false

/-! ### A block before and after the activation -/

/-- Signatures are keys here, and the feature has the digest zero. -/
def signingContext : HeaderContext :=
  { sampleContext with
    crypto := { sampleContext.crypto with recoverKey := fun sig _ => some ⟨sig.which, sig.data⟩ }
    wtmsigDigest := some {} }

/-- A producer that signs with the keys below `keys`, each of the given weight. -/
def sampleProducer (keys : ℕ) (weight : UInt16) (threshold : UInt32) : ProducerAuthority :=
  ⟨systemAccountName, ⟨threshold, (List.range keys).map fun key => ⟨⟨key, []⟩, weight⟩⟩⟩

def signingState (keys : ℕ) (features : List Sha256) : BlockHeaderState where
  blockNum := 1
  id := { h0 := (endianReverseU32 1).toUInt64 }
  activeSchedule := ⟨0, [sampleProducer keys 1 (UInt32.ofNat keys)]⟩
  activatedProtocolFeatures := features

/-- A block at an open time that announces a schedule, a rate and a feature. -/
def signedBy (keys : ℕ) (schedule : ProducerAuthority) : ProducedBlock where
  time := {}
  confirmed := 0
  newProducers := some ⟨1, [schedule]⟩
  newRate := some ⟨1, .one⟩
  newProtocolFeatureActivations := [{ h1 := 1 }]
  signer := fun _ => (List.range keys).map fun key => ⟨key, []⟩

/-- Whether a block can be produced, with so many signatures besides the first. -/
def producesSigned (s : BlockHeaderState) (i : ProducedBlock) (additional : ℕ) : Bool :=
  match s.produce signingContext i with
  | .ok (p, _) => decide (p.additionalSignatures.length = additional)
  | .error _ => false

theorem exists_of_producesSigned {additional : ℕ} (hok : producesSigned s i additional = true) :
    ∃ p b, s.produce signingContext i = .ok (p, b) ∧
      p.additionalSignatures.length = additional := by
  unfold producesSigned at hok
  split at hok
  next p b hproduce => exact ⟨p, b, hproduce, of_decide_eq_true hok⟩
  next => cases hok

/-- A block with one signature before the activation, and one with two signatures after it. -/
theorem validate_produced_multisig :
    (∃ p b, (signingState 1 []).produce signingContext (signedBy 1 (sampleProducer 1 3 3)) =
        .ok (p, b) ∧ (signingState 1 []).validate signingContext b false = .ok p) ∧
      ∃ p b, (signingState 2 [{}]).produce signingContext (signedBy 2 (sampleProducer 3 1 2)) =
        .ok (p, b) ∧ p.additionalSignatures.length = 1 ∧
        (signingState 2 [{}]).validate signingContext b false = .ok p := by
  have hbefore : producesSigned (signingState 1 []) (signedBy 1 (sampleProducer 1 3 3)) 0 = true := by
    decide +kernel
  have hafter : producesSigned (signingState 2 [{}]) (signedBy 2 (sampleProducer 3 1 2)) 1 = true := by
    decide +kernel
  obtain ⟨p, b, hok, -⟩ := exists_of_producesSigned hbefore
  obtain ⟨p', b', hok', hsignatures⟩ := exists_of_producesSigned hafter
  exact ⟨⟨p, b, hok, (validate_produced hok).2.2⟩,
    ⟨p', b', hok', hsignatures, (validate_produced hok').2.2⟩⟩

end BlockHeaderState

end DcdProtocol.Chain
