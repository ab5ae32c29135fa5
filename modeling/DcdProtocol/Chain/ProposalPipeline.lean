import DcdProtocol.Chain.Proposals
import DcdProtocol.Library.Pipeline

/-!
# Proposal versions

A schedule and a rate travel through the slots proposed, pending and active as versions do
through a `Pipeline`: `schedulePipeline` and `ratePipeline` are the pipelines of a chain state,
and `schedule_round` and `rate_round` say that a block is one round of each.  The version
assertions of `start_block` are then what `Pipeline.Consistent.announced` says, and those of
`_finish_next` hold of a header that `make_block_header` built because `start_block` let its
announcements through.

The invariant is about where the pipelines start.  A new chain and a snapshot of this version
start with no outstanding rate proposal.  The upgrade from an older snapshot sets the block
number of a rate proposal whenever a schedule proposal is outstanding, but not its version;
then the first block that finds that number irreversible cannot be started.
-/

namespace DcdProtocol.Chain

open Library Option PendingBlockHeaderState BlockHeaderState GlobalPropertyObject

variable {p : PendingBlockHeaderState} {ctx : HeaderContext} {bb : BuildingBlock} {b : BlockInput}
  {s s' : ChainState}

namespace PendingBlockHeaderState

variable {h : SignedBlockHeader} {newProducers : Option ProducerAuthoritySchedule}

/-! ## What a built header announces -/

theorem downgradeProducers_length {producers : List ProducerAuthority}
    {keys : List ProducerKey} (hok : downgradeProducers producers = .ok keys) :
    keys.length = producers.length := by
  induction producers generalizing keys with
  | nil =>
    obtain rfl : [] = keys := pure_ok_iff.mp hok
    rfl
  | cons pro pros ih =>
    unfold downgradeProducers at hok
    split at hok
    · simp only [bind_ok_iff, pure_ok_iff] at hok
      obtain ⟨_, -, rest, hrest, rfl⟩ := hok
      simp [ih hrest]
    · simp_all

theorem makeBlockHeader_ok {transactionMroot actionMroot : Sha256}
    {newRate : Option ProducerRateInfo} {features : List Sha256}
    (hok : p.makeBlockHeader ctx transactionMroot actionMroot newProducers newRate features =
      .ok h) : h.newRate = newRate.map (fun r => ⟨r.version, r.rate⟩) ∧
      ((scheduleChange? h.headerExtensions = newProducers ∧ h.newProducers = none) ∨
        ∃ schedule keys, newProducers = some schedule ∧ scheduleChange? h.headerExtensions = none ∧
          h.newProducers = some ⟨schedule.version, keys⟩ ∧
          keys.length = schedule.producers.length) := by
  unfold makeBlockHeader at hok
  have hplain : scheduleChange? (if features.isEmpty then []
      else emplaceExtension (.protocolFeatureActivation features) []) = none := by
    split_ifs <;> rfl
  cases newProducers with
  | none =>
    obtain rfl := pure_ok_iff.mp hok
    exact ⟨rfl, .inl ⟨hplain, rfl⟩⟩
  | some schedule =>
    dsimp only at hok
    split at hok
    · obtain rfl := pure_ok_iff.mp hok
      refine ⟨rfl, .inl ⟨?_, rfl⟩⟩
      split_ifs <;> rfl
    · simp only [bind_ok_iff, pure_ok_iff] at hok
      obtain ⟨keys, hkeys, rfl⟩ := hok
      exact ⟨rfl, .inr ⟨schedule, keys, rfl, hplain, rfl, downgradeProducers_length hkeys⟩⟩

theorem announcedSchedule_eq
    {legacySchedule extensionSchedule : Option (ProducerAuthoritySchedule × Sha256)}
    (hlegacy : p.legacyNewSchedule ctx h = .ok legacySchedule)
    (hext : p.extensionNewSchedule ctx h.headerExtensions = .ok extensionSchedule)
    (hbuilt : (scheduleChange? h.headerExtensions = newProducers ∧ h.newProducers = none) ∨
      ∃ schedule keys, newProducers = some schedule ∧ scheduleChange? h.headerExtensions = none ∧
        h.newProducers = some ⟨schedule.version, keys⟩ ∧ keys.length = schedule.producers.length) :
    (newProducers = none → (extensionSchedule <|> legacySchedule) = none) ∧
      ∀ schedule, newProducers = some schedule →
        ∃ x, (extensionSchedule <|> legacySchedule) = some x ∧ x.1.version = schedule.version ∧
          x.1.producers.isEmpty = schedule.producers.isEmpty := by
  rcases hbuilt with ⟨hchange, hnone⟩ | ⟨schedule, keys, rfl, hchange, hsome, hlen⟩
  · simp only [legacyNewSchedule] at hlegacy
    simp only [extensionNewSchedule, hchange] at hext
    cases newProducers with
    | none => simp_all
    | some schedule =>
      simp only [bind_ok_iff, pure_ok_iff] at hext
      obtain ⟨_, -, _, -, rfl⟩ := hext
      refine ⟨fun h => absurd h (by simp), ?_⟩
      rintro _ ⟨rfl⟩
      exact ⟨_, rfl, rfl, rfl⟩
  · simp only [extensionNewSchedule, hchange, pure_ok_iff] at hext
    obtain rfl := hext
    simp only [legacyNewSchedule, hsome, bind_ok_iff, pure_ok_iff] at hlegacy
    obtain ⟨_, -, _, -, rfl⟩ := hlegacy
    refine ⟨fun h => absurd h (by simp), ?_⟩
    rintro _ ⟨rfl⟩
    refine ⟨_, rfl, rfl, ?_⟩
    rw [Bool.eq_iff_iff, List.isEmpty_iff_length_eq_zero, List.isEmpty_iff_length_eq_zero, ← hlen]
    simp [ProducerAuthoritySchedule.ofLegacy]

end PendingBlockHeaderState

/-! ## What a block has done -/

theorem promoteProposedSchedule_ok {gpo gpo' : GlobalPropertyObject}
    {newSchedule : Option ProducerAuthoritySchedule}
    (hok : promoteProposedSchedule p gpo = .ok (newSchedule, gpo')) :
    (newSchedule = none ∧ gpo' = gpo) ∨
      (newSchedule = some gpo.proposedSchedule ∧ gpo.proposedScheduleBlockNum.isSome ∧
        gpo.proposedSchedule.version = p.activeScheduleVersion + 1 ∧
        p.prevPendingSchedule.schedule.producers = [] ∧
        gpo' = { gpo with proposedScheduleBlockNum := none, proposedSchedule := ⟨0, []⟩ }) := by
  unfold promoteProposedSchedule at hok
  cases hnum : gpo.proposedScheduleBlockNum with
  | none => simp_all
  | some num =>
    simp only [hnum] at hok
    split_ifs at hok with hcond
    · simp only [bind_ok_iff, dcdAssert_ok_iff, pure_ok_iff, Prod.mk.injEq] at hok
      obtain ⟨-, hversion, hschedule, hgpo⟩ := hok
      exact .inr ⟨hschedule.symm, rfl, hversion, hcond.2, hgpo.symm⟩
    · simp_all

theorem promoteProposedRate_ok {gpo gpo' : GlobalPropertyObject} {newRate : Option ProducerRateInfo}
    (hok : promoteProposedRate p gpo = .ok (newRate, gpo')) : (newRate = none ∧ gpo' = gpo) ∨
      (newRate = some ⟨gpo.proposedRate.version, gpo.proposedRate.rate⟩ ∧
        gpo.proposedRateBlockNum.isSome ∧ gpo.proposedRate.version = p.activeRateVersion + 1 ∧
        p.prevPendingRate.rateInfo.rate.isZero = true ∧
        gpo' = { gpo with proposedRateBlockNum := none, proposedRate := ⟨0, .zero⟩ }) := by
  unfold promoteProposedRate at hok
  cases hnum : gpo.proposedRateBlockNum with
  | none => simp_all
  | some num =>
    simp only [hnum] at hok
    split_ifs at hok with hcond
    · simp only [bind_ok_iff, dcdAssert_ok_iff, pure_ok_iff, Prod.mk.injEq] at hok
      obtain ⟨-, hversion, hrate, hgpo⟩ := hok
      exact .inr ⟨hrate.symm, rfl, hversion, hcond.2, hgpo.symm⟩
    · simp_all

/-- A started block.  `gpo` is between the two promotions. -/
structure Started (ctx : HeaderContext) (s : ChainState) (b : BlockInput) (bb : BuildingBlock)
    (gpo gpo' : GlobalPropertyObject) (time : BlockTimestamp) (proauth : ProducerAuthority) :
    Prop where
  pending : bb.pendingBlockHeaderState = s.head.nextPending ctx.crypto time proauth b.confirmed
  schedule : promoteProposedSchedule bb.pendingBlockHeaderState s.globalProperties =
    .ok (bb.newPendingProducerSchedule, gpo)
  rate : promoteProposedRate bb.pendingBlockHeaderState gpo = .ok (bb.newPendingRateInfo, gpo')

theorem ChainState.startBlock_ok {s : ChainState} {gpo' : GlobalPropertyObject}
    (hok : s.startBlock ctx b = .ok (bb, gpo')) :
    ∃ gpo time proauth, Started ctx s b bb gpo gpo' time proauth := by
  simp only [startBlock, bind_ok_iff] at hok
  obtain ⟨p, hnext, ⟨newSchedule, gpo⟩, hschedule, ⟨newRate, gpo''⟩, hrate, rfl, rfl⟩ := hok
  obtain ⟨time, proauth, -, -, -, rfl⟩ := next_ok hnext
  exact ⟨gpo, time, proauth, rfl, hschedule, hrate⟩

theorem ChainState.completeBlock_ok
    {head : BlockHeaderState} (hok : completeBlock ctx b bb = .ok head) :
    ∃ h r, bb.pendingBlockHeaderState.makeBlockHeader ctx b.transactionMroot b.actionMroot
        bb.newPendingProducerSchedule bb.newPendingRateInfo bb.newProtocolFeatureActivations =
          .ok h ∧ bb.pendingBlockHeaderState.finishNextCore ctx h = .ok r ∧
      ∃ sig sigs, head = { r with
        header := { r.header with producerSignature := sig }, additionalSignatures := sigs } := by
  simp only [completeBlock, bind_ok_iff] at hok
  obtain ⟨h, hheader, hok⟩ := hok
  obtain ⟨r, hcore, hsigned⟩ := complete_ok hok
  exact ⟨h, r, hheader, hcore, hsigned⟩

/-! ## The two pipelines -/

namespace GlobalPropertyObject

def proposedSchedule? (gpo : GlobalPropertyObject) : Option ProducerAuthoritySchedule :=
  gpo.proposedScheduleBlockNum.map fun _ => gpo.proposedSchedule

def proposedRate? (gpo : GlobalPropertyObject) : Option ProducerRateInfo :=
  gpo.proposedRateBlockNum.map fun _ => ⟨gpo.proposedRate.version, gpo.proposedRate.rate⟩

end GlobalPropertyObject

/-- The schedule versions of a head and an outstanding proposal. -/
def schedulePipeline (head : BlockHeaderState) (gpo : GlobalPropertyObject) : Pipeline UInt32 :=
  .ofValues ProducerAuthoritySchedule.version (·.producers.isEmpty) head.activeSchedule
    head.pendingSchedule.schedule gpo.proposedSchedule?

/-- The rate versions of a head and an outstanding proposal. -/
def ratePipeline (head : BlockHeaderState) (gpo : GlobalPropertyObject) : Pipeline UInt32 :=
  .ofValues ProducerRateInfo.version (·.rate.isZero) head.activeRate head.pendingRate.rateInfo
    gpo.proposedRate?

variable {gpo gpo' : GlobalPropertyObject} {time : BlockTimestamp} {proauth : ProducerAuthority}
  {head : BlockHeaderState}

theorem schedule_valueAdvance (hstarted : Started ctx s b bb gpo gpo' time proauth)
    (hcomplete : ChainState.completeBlock ctx b bb = .ok head) :
    Pipeline.ValueAdvance ProducerAuthoritySchedule.version (·.producers.isEmpty)
      s.head.activeSchedule s.head.pendingSchedule.schedule s.globalProperties.proposedSchedule?
      (s.head.promotesSchedule proauth.producerName) bb.newPendingProducerSchedule
      head.activeSchedule head.pendingSchedule.schedule gpo'.proposedSchedule? := by
  obtain ⟨h, r, hheader, hcore, sig, sigs, rfl⟩ := ChainState.completeBlock_ok hcomplete
  obtain ⟨-, hcommon, -, legacySchedule, extensionSchedule, newRate, hlegacy, hext, -, hpending,
    -⟩ := finishNextCore_ok hcore
  obtain ⟨hnone, hsome⟩ := announcedSchedule_eq hlegacy hext (makeBlockHeader_ok hheader).2
  have hgpo : gpo'.proposedSchedule? = gpo.proposedSchedule? := by
    rcases promoteProposedRate_ok hstarted.rate with ⟨-, rfl⟩ | ⟨-, -, -, -, rfl⟩ <;> rfl
  have hschedule := promoteProposedSchedule_ok hstarted.schedule
  rw [hstarted.pending] at hschedule hcommon hpending
  refine ⟨fun hpromoted => ?_, ?_, fun x hx => ?_, fun hx => ?_⟩
  · simp only [promotesSchedule, hasPendingProducers,
      Bool.and_eq_true, Bool.not_eq_true'] at hpromoted
    exact hpromoted.1
  · dsimp only
    rw [hcommon]
    rfl
  · rcases hschedule with ⟨hnew, -⟩ | ⟨hnew, hisSome, -, hempty, rfl⟩
    · simp [hnew] at hx
    obtain ⟨y, hy, hversion, hisEmpty⟩ := hsome x hx
    obtain rfl : s.globalProperties.proposedSchedule = x := by simpa [hnew] using hx
    obtain ⟨num, hnum⟩ := isSome_iff_exists.mp hisSome
    rw [hpending, hy]
    exact ⟨List.isEmpty_iff.mpr hempty, by simp [proposedSchedule?, hnum],
      by rw [hgpo]; rfl, hversion, hisEmpty⟩
  · rcases hschedule with ⟨-, rfl⟩ | ⟨hnew, -⟩
    · dsimp only
      rw [hpending, hnone hx]
      simp only [nextPendingSchedule, nextPending]
      exact ⟨hgpo, fun hpromoted => by simp [hpromoted], fun hkept => by simp [hkept]⟩
    · simp [hnew] at hx

/-- The pending rate after a block: the announced one, or what is left of the previous one. -/
theorem pendingRate_of_completeBlock (hcomplete : ChainState.completeBlock ctx b bb = .ok head) :
    head.pendingRate = bb.pendingBlockHeaderState.nextPendingRate
      (bb.newPendingRateInfo.map fun r =>
        (r, ctx.crypto.hashNewRate (some ⟨r.version, r.rate⟩))) := by
  obtain ⟨h, r, hheader, hcore, sig, sigs, rfl⟩ := ChainState.completeBlock_ok hcomplete
  obtain ⟨-, -, -, legacySchedule, extensionSchedule, newRate, -, -, hrate, -, hpending⟩ :=
    finishNextCore_ok hcore
  have hbuilt := (makeBlockHeader_ok hheader).1
  unfold checkedNewRate at hrate
  rw [hpending]
  cases hnew : bb.newPendingRateInfo with
  | none => simp_all
  | some x =>
    simp only [hbuilt, hnew, map_some, bind_ok_iff, pure_ok_iff] at hrate
    obtain ⟨_, -, _, -, _, -, rfl⟩ := hrate
    rfl

theorem common_of_completeBlock (hcomplete : ChainState.completeBlock ctx b bb = .ok head) :
    head.toBlockHeaderStateCommon = bb.pendingBlockHeaderState.toBlockHeaderStateCommon := by
  obtain ⟨h, r, hheader, hcore, sig, sigs, rfl⟩ := ChainState.completeBlock_ok hcomplete
  exact (finishNextCore_ok hcore).2.1

theorem rate_valueAdvance (hstarted : Started ctx s b bb gpo gpo' time proauth)
    (hcomplete : ChainState.completeBlock ctx b bb = .ok head) :
    Pipeline.ValueAdvance ProducerRateInfo.version (·.rate.isZero) s.head.activeRate
      s.head.pendingRate.rateInfo s.globalProperties.proposedRate?
      (s.head.promotesRate proauth.producerName) bb.newPendingRateInfo head.activeRate
      head.pendingRate.rateInfo gpo'.proposedRate? := by
  have hpending := pendingRate_of_completeBlock hcomplete
  have hcommon := common_of_completeBlock hcomplete
  have hgpo : gpo.proposedRate? = s.globalProperties.proposedRate? := by
    rcases promoteProposedSchedule_ok hstarted.schedule with ⟨-, rfl⟩ | ⟨-, -, -, -, rfl⟩ <;> rfl
  have hpromote := promoteProposedRate_ok hstarted.rate
  rw [hstarted.pending] at hpromote hcommon hpending
  refine ⟨fun hpromoted => ?_, ?_, fun x hx => ?_, fun hx => ?_⟩
  · simp only [promotesRate, Bool.and_eq_true] at hpromoted
    exact Double.isZero_eq_false_of_isPos hpromoted.1
  · rw [hcommon]
    rfl
  · rcases hpromote with ⟨hnew, -⟩ | ⟨hnew, hisSome, -, hempty, rfl⟩
    · simp [hnew] at hx
    obtain ⟨num, hnum⟩ := isSome_iff_exists.mp hisSome
    obtain rfl := some.inj (hnew.symm.trans hx)
    rw [hpending, hx, ← hgpo]
    exact ⟨hempty, by simp [proposedRate?, hnum], rfl, rfl, rfl⟩
  · rcases hpromote with ⟨-, rfl⟩ | ⟨hnew, -⟩
    · rw [hpending, hx]
      simp only [nextPendingRate, nextPending]
      exact ⟨hgpo, fun hpromoted => by simp [hpromoted], fun hkept => by simp [hkept]⟩
    · simp [hnew] at hx

/-! ## A block is a round -/

section

variable (hstarted : Started ctx s b bb gpo gpo' time proauth) (hcomplete : ChainState.completeBlock ctx b bb = .ok head) (g : GlobalPropertyObject)
include hstarted hcomplete g

theorem latestProducers_version :
    (schedulePipeline head g).latest = bb.latestProducers.version := by
  have hadvance := schedule_valueAdvance hstarted hcomplete
  rw [schedulePipeline, hadvance.latest_eq]
  have hactive : head.activeSchedule = bb.pendingBlockHeaderState.activeSchedule := by
    rw [hadvance.active_eq, hstarted.pending]
    rfl
  rw [hactive]
  simp only [Pipeline.follows, BuildingBlock.latestProducers, BuildingBlock.pendingProducers,
    hstarted.pending, List.isEmpty_iff]
  rfl

theorem latestRate_version : (ratePipeline head g).latest = bb.latestRate.version := by
  have hadvance := rate_valueAdvance hstarted hcomplete
  rw [ratePipeline, hadvance.latest_eq]
  have hactive : head.activeRate = bb.pendingBlockHeaderState.activeRate := by
    rw [hadvance.active_eq, hstarted.pending]
    rfl
  rw [hactive]
  simp only [Pipeline.follows, BuildingBlock.latestRate, BuildingBlock.pendingRate,
    hstarted.pending]
  rfl

end

theorem proposedSchedule?_apply (call : ProposalCall) (g : GlobalPropertyObject) :
    (call.apply ctx bb g).proposedSchedule? = g.proposedSchedule? ∨
      ∃ producers, (call.apply ctx bb g).proposedSchedule? =
        some ⟨bb.latestProducers.version + 1, producers⟩ := by
  cases call with
  | setProposedProducers producers =>
    simp only [ProposalCall.apply, BuildingBlock.setProposedProducers]
    split_ifs
    · exact .inl rfl
    · exact .inl rfl
    · exact .inl rfl
    · exact .inr ⟨producers, rfl⟩
  | setRate newRate =>
    left
    simp only [ProposalCall.apply, BuildingBlock.setProposedRate]
    split_ifs <;> rfl
  | intrinsicSetProposedRate newRate =>
    left
    simp only [ProposalCall.apply, BuildingBlock.setProposedRate]
    split_ifs <;> rfl

/-- A call leaves the rate proposal or replaces it by one with the next version and the rate of
the call. -/
theorem proposedRate?_apply (call : ProposalCall) (g : GlobalPropertyObject) :
    (call.apply ctx bb g).proposedRate? = g.proposedRate? ∨
      ∃ newRate, (call = .setRate newRate ∨
          call = .intrinsicSetProposedRate newRate ∧ newRate.isPos = true) ∧
        (call.apply ctx bb g).proposedRate? = some ⟨bb.latestRate.version + 1, newRate⟩ := by
  cases call with
  | setProposedProducers producers =>
    left
    simp only [ProposalCall.apply, BuildingBlock.setProposedProducers]
    split_ifs <;> rfl
  | setRate newRate =>
    simp only [ProposalCall.apply, BuildingBlock.setProposedRate]
    split_ifs
    · exact .inl rfl
    · exact .inl rfl
    · exact .inr ⟨newRate, .inl rfl, rfl⟩
  | intrinsicSetProposedRate newRate =>
    simp only [ProposalCall.apply, BuildingBlock.setProposedRate]
    split_ifs with hpos
    · exact .inl rfl
    · exact .inl rfl
    · exact .inr ⟨newRate, .inr ⟨rfl, hpos⟩, rfl⟩
    · exact .inl rfl

namespace ChainState

theorem buildBlock_ok (hok : s.buildBlock ctx b = .ok s') :
    ∃ bb gpo gpo' time proauth, Started ctx s b bb gpo gpo' time proauth ∧
      completeBlock ctx b bb = .ok s'.head ∧
      s'.globalProperties = b.calls.foldl (fun gpo call => call.apply ctx bb gpo) gpo' := by
  simp only [buildBlock, bind_ok_iff, pure_ok_iff] at hok
  obtain ⟨⟨bb, gpo'⟩, hstart, head, hcomplete, rfl⟩ := hok
  obtain ⟨gpo, time, proauth, hstarted⟩ := startBlock_ok hstart
  exact ⟨bb, gpo, gpo', time, proauth, hstarted, hcomplete, rfl⟩

theorem schedule_round (hok : s.buildBlock ctx b = .ok s') :
    Pipeline.Round (· + 1) (schedulePipeline s.head s.globalProperties)
      (schedulePipeline s'.head s'.globalProperties) := by
  obtain ⟨bb, gpo, gpo', time, proauth, hstarted, hcomplete, hcalls⟩ := buildBlock_ok hok
  refine ⟨schedulePipeline s'.head gpo', (schedule_valueAdvance hstarted hcomplete).advance, ?_⟩
  rw [hcalls]
  refine Pipeline.proposals_foldl (P := schedulePipeline s'.head) (fun g call => ?_) b.calls gpo'
  rcases proposedSchedule?_apply call g with hsame | ⟨producers, hnew⟩
  · left
    rw [schedulePipeline, schedulePipeline, hsame]
  · right
    rw [Pipeline.Propose, latestProducers_version hstarted hcomplete]
    simp only [schedulePipeline, Pipeline.ofValues, hnew, map_some]

theorem rate_round (hok : s.buildBlock ctx b = .ok s') :
    Pipeline.Round (· + 1) (ratePipeline s.head s.globalProperties)
      (ratePipeline s'.head s'.globalProperties) := by
  obtain ⟨bb, gpo, gpo', time, proauth, hstarted, hcomplete, hcalls⟩ := buildBlock_ok hok
  refine ⟨ratePipeline s'.head gpo', (rate_valueAdvance hstarted hcomplete).advance, ?_⟩
  rw [hcalls]
  refine Pipeline.proposals_foldl (P := ratePipeline s'.head) (fun g call => ?_) b.calls gpo'
  rcases proposedRate?_apply call g with hsame | ⟨newRate, -, hnew⟩
  · left
    rw [ratePipeline, ratePipeline, hsame]
  · right
    rw [Pipeline.Propose, latestRate_version hstarted hcomplete]
    simp only [ratePipeline, Pipeline.ofValues, hnew, map_some]

end ChainState

end DcdProtocol.Chain
