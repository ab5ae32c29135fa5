import DcdProtocol.Chain.ProposalPipeline

/-!
# The assertions on proposals

Which exceptions a block can throw is followed through `start_block`, `make_block_header` and
`finish_next` with the rules of `NeverThrows`.  The exceptions of interest are those by which the
version of a proposal, or an occupied pending slot, would stop every following block.

`buildBlock_neverThrows` reduces them to the consistency of the two pipelines, and
`proposalAssertions_never_fail` proves that for every run.
-/

namespace DcdProtocol.Chain

open Library PendingBlockHeaderState ChainState GlobalPropertyObject

/-- The messages of the version assertions and of the assertions on the pending slots. -/
def proposalErrors : List String :=
  [ "wrong producer schedule version specified",
    "wrong producer rate version specified",
    "cannot set pending producer schedule in the same block in which pending was promoted to active",
    "cannot set new pending producers until last pending is confirmed",
    "cannot set pending producer rate in the same block in which pending was promoted to active",
    "cannot set new pending rate until last pending is confirmed" ]

def IsProposalError (e : ChainException) : Prop :=
  e.type = .producerScheduleException ∧ e.what ∈ proposalErrors

variable {type : ExceptionType} {p : PendingBlockHeaderState} {c : Prop} {what : String}
  {ctx : HeaderContext} {h : SignedBlockHeader} {s : ChainState}

theorem neverThrows_dcdAssert [Decidable c] (h : ¬c → ¬IsProposalError ⟨type, what⟩) :
    NeverThrows IsProposalError (dcdAssert c type what) :=
  NeverThrows.check h

theorem neverThrows_of_type [Decidable c] (htype : type ≠ .producerScheduleException) :
    NeverThrows IsProposalError (dcdAssert c type what) :=
  neverThrows_dcdAssert fun _ h => htype h.1

theorem neverThrows_of_what [Decidable c]
    (hwhat : what ∉ proposalErrors) : NeverThrows IsProposalError (dcdAssert c type what) :=
  neverThrows_dcdAssert fun _ h => hwhat h.2

theorem neverThrows_of_holds [Decidable c]
    (hc : c) : NeverThrows IsProposalError (dcdAssert c type what) :=
  neverThrows_dcdAssert fun h => absurd hc h

/-! ## Functions that throw other exceptions only -/

theorem next_neverThrows (s : BlockHeaderState) (crypto : Crypto) (time : BlockTimestamp)
    (confirmed : UInt16) : NeverThrows IsProposalError (s.next crypto time confirmed) := by
  refine .bind ?_ fun time' _ => ?_
  · unfold BlockHeaderState.nextTimestamp
    split_ifs
    · exact .bind (neverThrows_of_type (by decide)) fun _ _ => .pure _
    · exact .pure _
  · split
    · exact .throw fun h => absurd h.1 (by decide)
    refine .bind ?_ fun _ _ => .pure _
    unfold BlockHeaderState.checkDoubleConfirm
    split
    · exact .pure _
    · exact neverThrows_of_type (by decide)

theorem downgradeProducers_neverThrows (producers : List ProducerAuthority) :
    NeverThrows IsProposalError (downgradeProducers producers) := by
  induction producers with
  | nil => exact .pure _
  | cons pro pros ih =>
    unfold downgradeProducers
    split
    · refine .bind (neverThrows_of_what ?_) fun _ _ => .bind ih fun _ _ => .pure _
      simp [proposalErrors]
    · refine .throw fun h => ?_
      simp [IsProposalError, proposalErrors] at h

theorem makeBlockHeader_neverThrows (p : PendingBlockHeaderState) (ctx : HeaderContext)
    (transactionMroot actionMroot : Sha256) (newProducers : Option ProducerAuthoritySchedule)
    (newRate : Option ProducerRateInfo) (features : List Sha256) :
    NeverThrows IsProposalError
      (p.makeBlockHeader ctx transactionMroot actionMroot newProducers newRate features) := by
  unfold makeBlockHeader
  cases newProducers with
  | none => exact .pure _
  | some schedule =>
    dsimp only
    by_cases hactivated : ctx.wtmsigActivated p.prevActivatedProtocolFeatures = true
    · rw [if_pos hactivated]
      exact .pure _
    · rw [if_neg hactivated]
      exact .bind (downgradeProducers_neverThrows _) fun _ _ => .pure _

theorem extractExtensions_neverThrows (es : List BlockHeaderExtension) (bound : UInt16)
    (first : Bool) :
    NeverThrows IsProposalError (BlockHeader.extractExtensions es bound first) := by
  induction es generalizing bound first with
  | nil => exact .pure _
  | cons e es ih =>
    exact .bind (neverThrows_of_type (by decide)) fun _ _ =>
      .bind (neverThrows_of_type (by decide)) fun _ _ =>
        .bind (neverThrows_of_type (by decide)) fun _ _ => .bind (ih _ _) fun _ _ => .pure _

theorem checkTemplate_neverThrows (p : PendingBlockHeaderState) (h : SignedBlockHeader) :
    NeverThrows IsProposalError (p.checkTemplate h) := by
  refine .bind (neverThrows_of_type (by decide)) fun _ _ => ?_
  refine .bind (neverThrows_of_type (by decide)) fun _ _ => ?_
  refine .bind (neverThrows_of_type (by decide)) fun _ _ => ?_
  refine .bind (neverThrows_of_type (by decide)) fun _ _ => ?_
  refine .bind (neverThrows_of_what ?_) fun _ _ => neverThrows_of_what ?_
  · simp [proposalErrors]
  · simp [proposalErrors]

theorem recoverKey_neverThrows (crypto : Crypto) (sig : Signature) (digest : Sha256) :
    NeverThrows IsProposalError (BlockHeaderState.recoverKey crypto sig digest) := by
  unfold BlockHeaderState.recoverKey
  split
  · exact .throw fun h => absurd h.1 (by decide)
  · exact .pure _

theorem collectKeys_neverThrows (crypto : Crypto) (digest : Sha256) (sigs : List Signature)
    (keys : List PublicKey) :
    NeverThrows IsProposalError (BlockHeaderState.collectKeys crypto digest sigs keys) := by
  induction sigs generalizing keys with
  | nil => exact .pure _
  | cons sig sigs ih =>
    exact .bind (recoverKey_neverThrows _ _ _) fun _ _ =>
      .bind (neverThrows_of_type (by decide)) fun _ _ => ih _

theorem verifySignee_neverThrows (s : BlockHeaderState) (crypto : Crypto) :
    NeverThrows IsProposalError (s.verifySignee crypto) := by
  refine .bind (neverThrows_of_type (by decide)) fun _ _ => ?_
  refine .bind (recoverKey_neverThrows _ _ _) fun _ _ => ?_
  refine .bind (collectKeys_neverThrows _ _ _ _) fun _ _ => ?_
  exact .bind (neverThrows_of_type (by decide)) fun _ _ => neverThrows_of_type (by decide)

theorem sign_neverThrows (s : BlockHeaderState) (crypto : Crypto)
    (signer : Sha256 → List Signature) :
    NeverThrows IsProposalError (s.sign crypto signer) := by
  unfold BlockHeaderState.sign
  dsimp only
  split
  · exact .throw fun h => absurd h.1 (by decide)
  · exact .bind (verifySignee_neverThrows _ _) fun _ _ => .pure _

/-! ## Acceptance of a built header -/

/-- What `start_block` has made sure of about its announcements. -/
structure AnnouncesInTurn (p : PendingBlockHeaderState)
    (newProducers : Option ProducerAuthoritySchedule) (newRate : Option ProducerRateInfo) :
    Prop where
  schedule : ∀ schedule, newProducers = some schedule → p.wasPendingPromoted = false ∧
    schedule.version = p.activeSchedule.version + 1 ∧
    p.prevPendingSchedule.schedule.producers = []
  rate : ∀ rate, newRate = some rate → p.wasPendingRatePromoted = false ∧
    rate.version = p.activeRate.version + 1 ∧ p.prevPendingRate.rateInfo.rate.isZero = true

theorem checkNewSchedule_neverThrows {version : UInt32}
    (hpromoted : p.wasPendingPromoted = false) (hversion : version = p.activeSchedule.version + 1)
    (hempty : p.prevPendingSchedule.schedule.producers = []) :
    NeverThrows IsProposalError (p.checkNewSchedule version) := by
  refine .bind (neverThrows_of_holds hpromoted) fun _ _ => ?_
  exact .bind (neverThrows_of_holds hversion) fun _ _ => neverThrows_of_holds hempty

theorem finishNextCore_neverThrows
    {transactionMroot actionMroot : Sha256} {newProducers : Option ProducerAuthoritySchedule}
    {newRate : Option ProducerRateInfo} {features : List Sha256}
    (hbuilt : p.makeBlockHeader ctx transactionMroot actionMroot newProducers newRate features =
      .ok h) (hturn : AnnouncesInTurn p newProducers newRate) :
    NeverThrows IsProposalError (p.finishNextCore ctx h) := by
  obtain ⟨hrate, hschedule⟩ := makeBlockHeader_ok hbuilt
  refine .bind (checkTemplate_neverThrows _ _) fun _ _ => ?_
  refine .bind (extractExtensions_neverThrows _ _ _) fun exts hexts => ?_
  obtain rfl := BlockHeader.extractExtensions_ok hexts
  refine .bind ?_ fun _ _ => .bind ?_ fun _ _ => .bind ?_ fun _ _ => .bind ?_ fun _ _ => .pure _
  · unfold legacyNewSchedule
    rcases hschedule with ⟨-, hnone⟩ | ⟨schedule, keys, hnew, -, hsome, -⟩
    · rw [hnone]
      exact .pure _
    rw [hsome]
    obtain ⟨hpromoted, hversion, hempty⟩ := hturn.schedule schedule hnew
    refine .bind (neverThrows_of_what ?_) fun _ _ =>
      .bind (checkNewSchedule_neverThrows hpromoted hversion hempty) fun _ _ => .pure _
    simp [proposalErrors]
  · unfold checkedNewRate
    rw [hrate]
    cases hnew : newRate with
    | none => exact .pure _
    | some rate =>
      obtain ⟨hpromoted, hversion, hempty⟩ := hturn.rate rate hnew
      refine .bind (neverThrows_of_holds hpromoted) fun _ _ => ?_
      refine .bind (neverThrows_of_holds hversion) fun _ _ => ?_
      exact .bind (neverThrows_of_holds hempty) fun _ _ => .pure _
  · unfold extensionNewSchedule
    rcases hschedule with ⟨hchange, -⟩ | ⟨schedule, keys, -, hchange, -, -⟩
    · rw [hchange]
      cases hnew : newProducers with
      | none => exact .pure _
      | some schedule =>
        obtain ⟨hpromoted, hversion, hempty⟩ := hturn.schedule schedule hnew
        refine .bind (neverThrows_of_what ?_) fun _ _ =>
          .bind (checkNewSchedule_neverThrows hpromoted hversion hempty) fun _ _ => .pure _
        simp [proposalErrors]
    · rw [hchange]
      exact .pure _
  · unfold newActivatedFeatures
    split
    · exact .pure _
    · exact .bind (neverThrows_of_type (by decide)) fun _ _ =>
        .bind (neverThrows_of_type (by decide)) fun _ _ => .pure _

theorem complete_neverThrows (hcore : NeverThrows IsProposalError (p.finishNextCore ctx h))
    (c : Completion) : NeverThrows IsProposalError (p.complete ctx h c) := by
  cases c with
  | validate additionalSignatures skip =>
    refine .bind (neverThrows_of_what ?_) fun _ _ => .bind hcore fun _ _ => ?_
    · simp [proposalErrors]
    dsimp only
    split_ifs
    · exact .pure _
    · exact .bind (verifySignee_neverThrows _ _) fun _ _ => .pure _
  | sign signer =>
    refine .bind hcore fun _ _ => .bind (sign_neverThrows _ _ _) fun _ _ =>
      .bind (neverThrows_of_what ?_) fun _ _ => .pure _
    simp [proposalErrors]

/-! ## Blocks on consistent pipelines -/

section Block

variable {ctx : HeaderContext} {s : ChainState} {b : BlockInput}

theorem Started.announcesInTurn {bb : BuildingBlock} {gpo gpo' : GlobalPropertyObject}
    {time : BlockTimestamp} {proauth : ProducerAuthority}
    (hstarted : Started ctx s b bb gpo gpo' time proauth) :
    AnnouncesInTurn bb.pendingBlockHeaderState bb.newPendingProducerSchedule
      bb.newPendingRateInfo := by
  have hschedule := promoteProposedSchedule_ok hstarted.schedule
  have hrate := promoteProposedRate_ok hstarted.rate
  rw [hstarted.pending] at hschedule hrate ⊢
  constructor
  · intro schedule hnew
    rcases hschedule with ⟨hnone, -⟩ | ⟨hsome, -, hversion, hempty, -⟩
    · simp [hnone] at hnew
    have hempty' : s.head.pendingSchedule.schedule.producers = [] := hempty
    have hnot : s.head.promotesSchedule proauth.producerName = false := by
      simp [BlockHeaderState.promotesSchedule, BlockHeaderState.hasPendingProducers, hempty']
    obtain rfl := Option.some.inj (hsome.symm.trans hnew)
    exact ⟨hnot, by simpa [BlockHeaderState.nextPending, hnot] using hversion, hempty⟩
  · intro rate hnew
    rcases hrate with ⟨hnone, -⟩ | ⟨hsome, -, hversion, hempty, -⟩
    · simp [hnone] at hnew
    have hempty' : s.head.pendingRate.rateInfo.rate.isZero = true := hempty
    have hnot : s.head.promotesRate proauth.producerName = false := by
      rw [BlockHeaderState.promotesRate, BlockHeaderState.hasPendingRate, Bool.and_eq_false_iff]
      left
      by_contra hpos
      rw [Bool.not_eq_false] at hpos
      simp [Double.isZero_eq_false_of_isPos hpos] at hempty'
    obtain rfl := Option.some.inj (hsome.symm.trans hnew)
    exact ⟨hnot, by simpa [BlockHeaderState.nextPending, hnot] using hversion, hempty⟩

structure ProposalInvariant (s : ChainState) : Prop where
  schedule : Pipeline.Consistent (· + 1) (schedulePipeline s.head s.globalProperties)
  rate : Pipeline.Consistent (· + 1) (ratePipeline s.head s.globalProperties)

theorem startBlock_neverThrows (hs : ProposalInvariant s) :
    NeverThrows IsProposalError (s.startBlock ctx b) := by
  refine .bind (next_neverThrows _ _ _ _) fun p hnext => ?_
  obtain ⟨time, proauth, -, -, -, rfl⟩ := BlockHeaderState.next_ok hnext
  refine .bind ?_ fun x hschedule => .bind ?_ fun _ _ => .pure _
  · unfold promoteProposedSchedule
    cases hnum : s.globalProperties.proposedScheduleBlockNum with
    | none => exact .pure _
    | some num =>
      dsimp only
      split_ifs with hcond
      · refine .bind (neverThrows_of_holds ?_) fun _ _ => .pure _
        refine hs.schedule.announced ?_ ?_
        · exact if_pos (List.isEmpty_iff.mpr hcond.2)
        · simp [schedulePipeline, Pipeline.ofValues, proposedSchedule?, hnum]
      · exact .pure _
  · obtain ⟨newSchedule, gpo⟩ := x
    have hrate : gpo.proposedRateBlockNum = s.globalProperties.proposedRateBlockNum ∧
        gpo.proposedRate = s.globalProperties.proposedRate := by
      rcases promoteProposedSchedule_ok hschedule with ⟨-, rfl⟩ | ⟨-, -, -, -, rfl⟩ <;>
        exact ⟨rfl, rfl⟩
    unfold promoteProposedRate
    rw [hrate.1, hrate.2]
    cases hnum : s.globalProperties.proposedRateBlockNum with
    | none => exact .pure _
    | some num =>
      dsimp only
      split_ifs with hcond
      · refine .bind (neverThrows_of_holds ?_) fun _ _ => .pure _
        refine hs.rate.announced ?_ ?_
        · exact if_pos hcond.2
        · simp [ratePipeline, Pipeline.ofValues, proposedRate?, hnum]
      · exact .pure _

theorem buildBlock_neverThrows (hs : ProposalInvariant s) (b : BlockInput) :
    NeverThrows IsProposalError (s.buildBlock ctx b) := by
  refine .bind (startBlock_neverThrows hs) fun x hstart => ?_
  obtain ⟨gpo, time, proauth, hstarted⟩ := startBlock_ok hstart
  refine .bind ?_ fun _ _ => .pure _
  refine .bind (makeBlockHeader_neverThrows _ _ _ _ _ _ _) fun h hbuilt => ?_
  exact complete_neverThrows (finishNextCore_neverThrows hbuilt hstarted.announcesInTurn) _

end Block

/-! ## Runs of a node -/

/-- What moves a node from one block boundary to the next. -/
inductive ChainInput
  | block (b : BlockInput)
  /-- The node writes a snapshot and is started from it. -/
  | restore

def ChainState.step (ctx : HeaderContext) (s : ChainState) :
    ChainInput → Except ChainException ChainState
  | .block b => s.buildBlock ctx b
  | .restore => .ok s.restore

abbrev ChainTransition := Transition ChainState ChainInput

/-- `ChainRun ctx s₀ ts s`: the blocks and restarts `ts` lead from `s₀` to `s`. -/
abbrev ChainRun (ctx : HeaderContext) : ChainState → List ChainTransition → ChainState → Prop :=
  Run (fun s i s' => s.step ctx i = .ok s')

/-- The states a node starts in: those of a new chain and of the snapshots of older versions. -/
inductive StartUp (ctx : HeaderContext) : ChainState → Prop
  | genesis (genesis : GenesisState) (configuration : ChainConfig) :
      StartUp ctx (genesisChainState ctx genesis configuration)
  | snapshotV2 (head : SnapshotBlockHeaderStateV2) (row : SnapshotGlobalPropertyObjectV2)
      (chainId : Sha256) (kvConfig : KvDatabaseConfig) (wasmConfig : WasmConfig) :
      StartUp ctx ⟨.ofSnapshotV2 head, .initializeFromV2 row chainId kvConfig wasmConfig⟩
  | snapshotV3 (head : BlockHeaderState) (row : SnapshotGlobalPropertyObjectV3)
      (kvConfig : KvDatabaseConfig) (wasmConfig : WasmConfig) :
      StartUp ctx ⟨head, .initializeFromV3 row kvConfig wasmConfig⟩
  | snapshotV4 (head : BlockHeaderState) (row : SnapshotGlobalPropertyObjectV4) :
      StartUp ctx ⟨head, .initializeFromV4 row⟩

theorem consistent_of_proposed_eq_none {V : Type*} {succ : V → V} {p : Pipeline V}
    (hnone : p.proposed = none) : Pipeline.Consistent succ p := by
  intro v hv
  simp [hnone] at hv

theorem StartUp.proposalInvariant (hstart : StartUp ctx s)
    (hnone : s.globalProperties.proposedScheduleBlockNum = none) : ProposalInvariant s := by
  -- the upgrades copy the block number of the schedule proposal to the rate proposal
  have hrate : s.globalProperties.proposedRateBlockNum = none := by
    cases hstart with
    | genesis => rfl
    | snapshotV2 => exact hnone
    | snapshotV3 => exact hnone
    | snapshotV4 => exact hnone
  constructor
  · apply consistent_of_proposed_eq_none
    simp [schedulePipeline, Pipeline.ofValues, proposedSchedule?, hnone]
  · apply consistent_of_proposed_eq_none
    simp [ratePipeline, Pipeline.ofValues, proposedRate?, hrate]

theorem ProposalInvariant.restore (hs : ProposalInvariant s) : ProposalInvariant s.restore where
  schedule := hs.schedule
  rate := consistent_of_proposed_eq_none rfl

theorem ProposalInvariant.step {s' : ChainState} {i : ChainInput}
    (hs : ProposalInvariant s) (hstep : s.step ctx i = .ok s') : ProposalInvariant s' := by
  cases i with
  | block b =>
    exact ⟨(schedule_round hstep).consistent hs.schedule, (rate_round hstep).consistent hs.rate⟩
  | restore =>
    obtain rfl := Except.ok.inj hstep
    exact hs.restore

/-- In every run of a node that starts without an outstanding schedule proposal, no block fails
a version assertion or an assertion on a pending slot. -/
theorem proposalAssertions_never_fail {ctx : HeaderContext} {s₀ s : ChainState}
    {ts : List ChainTransition} (hstart : StartUp ctx s₀)
    (hnone : s₀.globalProperties.proposedScheduleBlockNum = none) (hrun : ChainRun ctx s₀ ts s)
    (b : BlockInput) : NeverThrows IsProposalError (s.buildBlock ctx b) := by
  have hinv : ProposalInvariant s := by
    refine hrun.invariant (I := fun _ s => ProposalInvariant s) (hstart.proposalInvariant hnone) ?_
    intro _ _ _ _ _ hs hstep
    exact hs.step hstep
  exact buildBlock_neverThrows hinv b

/-- A block of the sample chain that makes `calls`. -/
def sampleBlock (slot : UInt32) (calls : List ProposalCall) : BlockInput where
  time := ⟨slot⟩
  confirmed := 0
  calls
  completion := .validate [] false

def sampleProducers (names : List Name) : List ProducerAuthority :=
  (ProducerAuthoritySchedule.ofLegacy (sampleSchedule 1 names)).producers

def sampleChainState : ChainState := genesisChainState sampleContext sampleGenesis default

/-- The sample chain after a block that proposes a schedule and a rate. -/
theorem proposalAssertions_never_fail_bothProposed :
    ∃ ts s, ChainRun sampleContext sampleChainState ts s ∧
      s.globalProperties.proposedScheduleBlockNum = some 3 ∧
      s.globalProperties.proposedRateBlockNum = some 3 ∧
      ∀ b, NeverThrows IsProposalError (s.buildBlock sampleContext b) := by
  obtain ⟨ts, s, hrun, hproposed⟩ :=
    exists_run_of_exec (step sampleContext) sampleChainState [.block (sampleBlock 2 []),
        .block (sampleBlock 3 [.setProposedProducers (sampleProducers [⟨1⟩, ⟨2⟩]),
          .setRate ⟨0x4000000000000000⟩])]
      (fun _ s => s.globalProperties.proposedScheduleBlockNum == some 3 &&
        s.globalProperties.proposedRateBlockNum == some 3)
      (by decide +kernel)
  simp only [Bool.and_eq_true, beq_iff_eq] at hproposed
  exact ⟨ts, s, hrun, hproposed.1, hproposed.2,
    proposalAssertions_never_fail (.genesis _ _) rfl hrun⟩

/-- The head of the sample chain after one block. -/
def sampleHead : BlockHeaderState :=
  match sampleChainState.buildBlock sampleContext (sampleBlock 2 []) with
  | .ok s => s.head
  | .error _ => sampleChainState.head

/-- A version 4 row with a schedule that was proposed in block 2. -/
def outstandingSchedule : SnapshotGlobalPropertyObjectV4 where
  proposedScheduleBlockNum := some 2
  proposedSchedule := ⟨1, sampleProducers [⟨1⟩, ⟨2⟩]⟩
  configuration := default
  chainId := {}
  kvConfiguration := default
  wasmConfiguration := default

/-- Block 3 on a version 4 snapshot with an outstanding schedule proposal: its `start_block`
also finds a rate proposal, with version 0. -/
theorem proposalAssertion_fails_after_upgrade :
    ¬ ∀ (ctx : HeaderContext) (s₀ s : ChainState) (ts : List ChainTransition), StartUp ctx s₀ →
        ChainRun ctx s₀ ts s → ∀ b, NeverThrows IsProposalError (s.buildBlock ctx b) := by
  intro hnever
  have hsafe := hnever sampleContext ⟨sampleHead, .initializeFromV4 outstandingSchedule⟩ _ []
    (.snapshotV4 _ _) .nil (sampleBlock 3 [])
  have hthrows : (match buildBlock sampleContext
        ⟨sampleHead, .initializeFromV4 outstandingSchedule⟩ (sampleBlock 3 []) with
      | .error e => decide (e.type = .producerScheduleException) &&
          decide (e.what = "wrong producer rate version specified")
      | .ok _ => false) = true := by
    decide +kernel
  cases hres : buildBlock sampleContext
      ⟨sampleHead, .initializeFromV4 outstandingSchedule⟩ (sampleBlock 3 []) with
  | ok s => simp [hres] at hthrows
  | error e =>
    simp only [hres, Bool.and_eq_true, decide_eq_true_eq] at hthrows
    refine hsafe e hres ⟨hthrows.1, ?_⟩
    rw [hthrows.2]
    simp [proposalErrors]

end DcdProtocol.Chain
