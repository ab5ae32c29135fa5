import DcdProtocol.Chain.ProposalSafety

/-!
# The pending rate

The pending rate slot of a header state is empty when its rate is zero, and `next` promotes it
when its rate is positive and its block is irreversible.  A rate that is neither (a negative one
or a NaN) stays in the slot for ever: it is not promoted, and no other rate is announced while
it is there.

A rate gets into the slot from the proposal of an earlier block.  The intrinsic proposes positive
rates only; the native `setrate` proposes what it is given.  So the values of the native calls
decide whether the slot can get stuck, and `RateInvariant` follows them through the slots.
-/

namespace DcdProtocol.Chain

open Library PendingBlockHeaderState ChainState GlobalPropertyObject

/-- A rate that leaves the slot empty or will be promoted. -/
def EmptyOrPromotable (rate : Double) : Prop := rate.isZero = true ∨ rate.isPos = true

instance (rate : Double) : Decidable (EmptyOrPromotable rate) :=
  inferInstanceAs (Decidable (_ ∨ _))

/-- The condition on the calls of the native `setrate`. -/
def ProposalCall.NativeRateOk : ProposalCall → Prop
  | .setRate newRate => EmptyOrPromotable newRate
  | .intrinsicSetProposedRate _ => True
  | .setProposedProducers _ => True

instance : DecidablePred ProposalCall.NativeRateOk
  | .setRate newRate => inferInstanceAs (Decidable (EmptyOrPromotable newRate))
  | .intrinsicSetProposedRate _ => .isTrue trivial
  | .setProposedProducers _ => .isTrue trivial

def ChainInput.NativeRatesOk : ChainInput → Prop
  | .block b => ∀ call ∈ b.calls, call.NativeRateOk
  | .restore => True

instance : DecidablePred ChainInput.NativeRatesOk
  | .block b => inferInstanceAs (Decidable (∀ call ∈ b.calls, call.NativeRateOk))
  | .restore => .isTrue trivial

structure RateInvariant (s : ChainState) : Prop where
  active : s.head.activeRate.rate.isPos = true
  pending : EmptyOrPromotable s.head.pendingRate.rateInfo.rate
  proposed : ∀ rate, s.globalProperties.proposedRate? = some rate → EmptyOrPromotable rate.rate

theorem genesis_rateInvariant (ctx : HeaderContext) (genesis : GenesisState)
    (configuration : ChainConfig) : RateInvariant (genesisChainState ctx genesis configuration) where
  active := Double.isPos_one
  pending := .inr Double.isPos_one
  proposed := by
    intro rate hrate
    simp [genesisChainState, proposedRate?] at hrate

/-! ## One block -/

variable {b : BlockInput} {s s' : ChainState} {ctx : HeaderContext} {bb : BuildingBlock}

theorem proposed_of_calls {calls : List ProposalCall}
    {gpo : GlobalPropertyObject} (hcalls : ∀ call ∈ calls, call.NativeRateOk)
    (hgpo : ∀ rate, gpo.proposedRate? = some rate → EmptyOrPromotable rate.rate)
    {rate : ProducerRateInfo}
    (hrate : (calls.foldl (fun gpo call => call.apply ctx bb gpo) gpo).proposedRate? = some rate) :
    EmptyOrPromotable rate.rate := by
  induction calls generalizing gpo with
  | nil => exact hgpo rate hrate
  | cons call calls ih =>
    refine ih (fun c hc => hcalls c (List.mem_cons_of_mem _ hc)) ?_ hrate
    intro r hr
    rcases proposedRate?_apply call gpo with hsame | ⟨newRate, hcall, hnew⟩
    · exact hgpo r (hsame ▸ hr)
    obtain rfl := Option.some.inj (hnew.symm.trans hr)
    rcases hcall with rfl | ⟨rfl, hpos⟩
    · exact hcalls _ List.mem_cons_self
    · exact .inr hpos

/-- The pending slot after a block: a proposal that was announced, the empty slot after a
promotion, or the slot as it was. -/
theorem pendingRate_cases {gpo gpo' : GlobalPropertyObject} {time : BlockTimestamp}
    {proauth : ProducerAuthority} {head : BlockHeaderState}
    (hstarted : Started ctx s b bb gpo gpo' time proauth)
    (hcomplete : completeBlock ctx b bb = .ok head) :
    (s.head.pendingRate.rateInfo.rate.isZero = true ∧
        s.globalProperties.proposedRate? = some head.pendingRate.rateInfo) ∨
      (s.head.promotesRate proauth.producerName = true ∧ head.pendingRate.rateInfo.rate = .zero) ∨
      (s.head.promotesRate proauth.producerName = false ∧
        head.pendingRate = s.head.pendingRate) := by
  have hpending := pendingRate_of_completeBlock hcomplete
  have hadvance := rate_valueAdvance hstarted hcomplete
  rw [hstarted.pending] at hpending
  cases hnew : bb.newPendingRateInfo with
  | some rate =>
    obtain ⟨hempty, hproposed, -, -, -⟩ := hadvance.of_announced rate hnew
    rw [hnew] at hpending
    exact .inl ⟨hempty, by rw [hproposed, hpending]; rfl⟩
  | none =>
    rw [hnew] at hpending
    right
    cases hpromoted : s.head.promotesRate proauth.producerName with
    | true =>
      simp [hpending, nextPendingRate, BlockHeaderState.nextPending, hpromoted]
    | false =>
      simp [hpending, nextPendingRate, BlockHeaderState.nextPending, hpromoted]

theorem RateInvariant.block (hs : RateInvariant s) (hcalls : ∀ call ∈ b.calls, call.NativeRateOk)
    (hok : s.buildBlock ctx b = .ok s') : RateInvariant s' := by
  obtain ⟨bb, gpo, gpo', time, proauth, hstarted, hcomplete, hgpo⟩ := buildBlock_ok hok
  have hadvance := rate_valueAdvance hstarted hcomplete
  constructor
  · rw [hadvance.active_eq]
    split_ifs with hpromoted
    · rw [BlockHeaderState.promotesRate, Bool.and_eq_true] at hpromoted
      exact hpromoted.1
    · exact hs.active
  · rcases pendingRate_cases hstarted hcomplete with ⟨-, hproposed⟩ | ⟨-, hzero⟩ | ⟨-, hkept⟩
    · exact hs.proposed _ hproposed
    · left
      rw [hzero]
      exact Double.isZero_zero
    · rw [hkept]
      exact hs.pending
  · intro rate hrate
    rw [hgpo] at hrate
    refine proposed_of_calls hcalls ?_ hrate
    intro r hr
    cases hnew : bb.newPendingRateInfo with
    | none => exact hs.proposed r ((hadvance.of_not_announced hnew).1 ▸ hr)
    | some x => simp [(hadvance.of_announced x hnew).2.2.1] at hr

theorem RateInvariant.step {i : ChainInput}
    (hs : RateInvariant s) (hi : i.NativeRatesOk) (hstep : s.step ctx i = .ok s') :
    RateInvariant s' := by
  cases i with
  | block b => exact hs.block hi hstep
  | restore =>
    obtain rfl := Except.ok.inj hstep
    refine ⟨hs.active, hs.pending, ?_⟩
    intro rate hrate
    simp [restore, loadSnapshotRow, fromSnapshotRow, proposedRate?] at hrate

/-- A positive pending rate becomes active in the first block whose irreversible number reaches
it, and waits in its slot until then. -/
theorem pendingRate_promoted
    (hpos : s.head.pendingRate.rateInfo.rate.isPos = true) (hok : s.buildBlock ctx b = .ok s') :
    if s.head.pendingRate.rateLibNum ≤ s'.head.dposIrreversibleBlocknum then
      s'.head.activeRate = s.head.pendingRate.rateInfo
    else s'.head.pendingRate = s.head.pendingRate := by
  obtain ⟨bb, gpo, gpo', time, proauth, hstarted, hcomplete, -⟩ := buildBlock_ok hok
  have hlib : s'.head.dposIrreversibleBlocknum =
      s.head.calcDposLastIrreversible proauth.producerName := by
    rw [common_of_completeBlock hcomplete, hstarted.pending]
    rfl
  have hpromotes : s.head.promotesRate proauth.producerName =
      decide (s.head.pendingRate.rateLibNum ≤ s'.head.dposIrreversibleBlocknum) := by
    rw [BlockHeaderState.promotesRate, BlockHeaderState.hasPendingRate, hpos, hlib, Bool.true_and]
  split_ifs with hreached
  · rw [(rate_valueAdvance hstarted hcomplete).active_eq, hpromotes]
    simp [hreached]
  rcases pendingRate_cases hstarted hcomplete with ⟨hempty, -⟩ | ⟨hpromoted, -⟩ | ⟨-, hkept⟩
  · simp [Double.isZero_eq_false_of_isPos hpos] at hempty
  · grind
  · exact hkept

/-! ## Whole runs -/

/-- In every run whose native `setrate` calls have rates that are zero or positive, the pending
slot is empty or will be promoted, and the active rate is positive. -/
theorem pendingRate_never_stuck {ctx : HeaderContext} {genesis : GenesisState}
    {configuration : ChainConfig} {ts : List ChainTransition} {s : ChainState}
    (hrun : ChainRun ctx (genesisChainState ctx genesis configuration) ts s)
    (hrates : ∀ t ∈ ts, t.label.NativeRatesOk) :
    s.head.activeRate.rate.isPos = true ∧
      (s.head.pendingRate.rateInfo.rate.isZero = true ∨
        s.head.pendingRate.rateInfo.rate.isPos = true ∧
          ∀ b s', s.buildBlock ctx b = .ok s' →
            if s.head.pendingRate.rateLibNum ≤ s'.head.dposIrreversibleBlocknum then
              s'.head.activeRate = s.head.pendingRate.rateInfo
            else s'.head.pendingRate = s.head.pendingRate) := by
  have hinv : RateInvariant s := by
    refine hrun.invariant_of_forall (I := fun _ s => RateInvariant s) hrates
      (genesis_rateInvariant ctx genesis configuration) ?_
    intro _ _ _ _ _ hs hstep hi
    exact hs.step hi hstep
  refine ⟨hinv.active, ?_⟩
  rcases hinv.pending with hzero | hpos
  · exact .inl hzero
  · refine .inr ⟨hpos, ?_⟩
    intro b s' hok
    exact pendingRate_promoted hpos hok

/-- Blocks 2 and 3 of the sample chain; the first proposes a rate, the second announces it. -/
def proposedRate (newRate : Double) : List ChainInput :=
  [.block (sampleBlock 2 [.setRate newRate]), .block (sampleBlock 3 [])]

/-- The rate 2.0 is pending after block 3. -/
theorem pendingRate_never_stuck_two :
    ∃ ts s, ChainRun sampleContext sampleChainState ts s ∧
      s.head.pendingRate = ⟨3, {}, ⟨1, ⟨0x4000000000000000⟩⟩⟩ ∧
      ∀ b s', s.buildBlock sampleContext b = .ok s' →
        if s.head.pendingRate.rateLibNum ≤ s'.head.dposIrreversibleBlocknum then
          s'.head.activeRate = s.head.pendingRate.rateInfo
        else s'.head.pendingRate = s.head.pendingRate := by
  obtain ⟨ts, s, hrun, hts⟩ :=
    exists_run_of_exec (step sampleContext) sampleChainState (proposedRate ⟨0x4000000000000000⟩)
      (fun ts s => ts.all (fun t => t.label.NativeRatesOk) &&
        s.head.pendingRate == ⟨3, {}, ⟨1, ⟨0x4000000000000000⟩⟩⟩)
      (by decide +kernel)
  simp only [Bool.and_eq_true, List.all_eq_true, decide_eq_true_eq, beq_iff_eq] at hts
  obtain ⟨hrates, hpending⟩ := hts
  refine ⟨ts, s, hrun, hpending, ?_⟩
  rcases (pendingRate_never_stuck hrun hrates).2 with hzero | ⟨-, hpromoted⟩
  · rw [hpending] at hzero
    exact absurd hzero (by decide)
  · exact hpromoted

/-- The rate -1.0 is pending after block 3, and is neither empty nor promotable. -/
theorem pendingRate_stuck :
    ¬ ∀ (ctx : HeaderContext) (genesis : GenesisState) (configuration : ChainConfig)
        (ts : List ChainTransition) (s : ChainState),
        ChainRun ctx (genesisChainState ctx genesis configuration) ts s →
        EmptyOrPromotable s.head.pendingRate.rateInfo.rate := by
  intro hnever
  obtain ⟨ts, s, hrun, hstuck⟩ :=
    exists_run_of_exec (step sampleContext) sampleChainState (proposedRate ⟨0xBFF0000000000000⟩)
      (fun _ s => !s.head.pendingRate.rateInfo.rate.isZero &&
        !s.head.pendingRate.rateInfo.rate.isPos)
      (by decide +kernel)
  rcases hnever _ _ _ _ _ hrun with hzero | hpos
  · simp [hzero] at hstuck
  · simp [hpos] at hstuck

end DcdProtocol.Chain
