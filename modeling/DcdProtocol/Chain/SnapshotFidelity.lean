import DcdProtocol.Chain.PendingRate

/-!
# Global properties in a snapshot

The row of the global properties has no place for the proposed rate.  A node that is started
from the snapshot has forgotten the proposal, and does not announce it in the block in which the
others do.

Forgetting matters only while a proposal is outstanding.  `SameButRate` relates two sets of
global properties that differ at most in a rate nobody will read; it is kept by blocks, which
makes the two nodes indistinguishable (`promotions_restore`).
-/

namespace DcdProtocol.Chain

open Library ChainState GlobalPropertyObject

/-- The schedule and the rate that the start of a block promotes to pending. -/
def ChainState.promoted (ctx : HeaderContext) (s : ChainState) (b : BlockInput) :
    Except ChainException (Option ProducerAuthoritySchedule × Option ProducerRateInfo) :=
  (s.startBlock ctx b).map fun x => (x.1.newPendingProducerSchedule, x.1.newPendingRateInfo)

/-- What a node promotes in each of the following blocks. -/
def ChainState.promotions (ctx : HeaderContext) (s : ChainState) (blocks : List BlockInput) :
    List (Except ChainException (Option ProducerAuthoritySchedule × Option ProducerRateInfo)) :=
  observations (buildBlock ctx) (promoted ctx) s blocks

/-! ## What a node cannot tell apart -/

/-- `g'` is `g` with another proposed rate, which is read only if a proposal is outstanding. -/
def SameButRate (g g' : GlobalPropertyObject) : Prop :=
  ∃ rate, g' = { g with proposedRate := rate } ∧
    (g.proposedRateBlockNum = none ∨ rate = g.proposedRate)

/-- Two chain states with the same header fields.  The cached header extensions are not read. -/
def SameChain (s s' : ChainState) : Prop :=
  (∃ exts, s'.head = { s.head with headerExts := exts }) ∧
    SameButRate s.globalProperties s'.globalProperties

theorem SameButRate.refl (g : GlobalPropertyObject) : SameButRate g g :=
  ⟨g.proposedRate, rfl, .inr rfl⟩

theorem promoteProposedSchedule_setRate (p : PendingBlockHeaderState) (g : GlobalPropertyObject)
    (rate : SharedRateInfo) :
    promoteProposedSchedule p { g with proposedRate := rate } =
      (promoteProposedSchedule p g).map fun x => (x.1, { x.2 with proposedRate := rate }) := by
  obtain ⟨num, schedule, _, _, _, _, _, _⟩ := g
  unfold promoteProposedSchedule
  cases num with
  | none => rfl
  | some num =>
    dsimp only
    split_ifs
    · cases dcdAssert (schedule.version = p.activeScheduleVersion + 1)
        .producerScheduleException "wrong producer schedule version specified" <;> rfl
    · rfl

variable {s s' : ChainState} {g' : GlobalPropertyObject} {p : PendingBlockHeaderState}
  {g : GlobalPropertyObject} {ctx : HeaderContext} {bb : BuildingBlock}

theorem promoteProposedRate_of_none
    (hnone : g.proposedRateBlockNum = none) : promoteProposedRate p g = .ok (none, g) := by
  rw [promoteProposedRate, hnone]
  rfl

theorem promoteProposedSchedule_rate {x : Option ProducerAuthoritySchedule × GlobalPropertyObject}
    (hok : promoteProposedSchedule p g = .ok x) :
    x.2.proposedRateBlockNum = g.proposedRateBlockNum ∧ x.2.proposedRate = g.proposedRate := by
  obtain ⟨newSchedule, g'⟩ := x
  rcases promoteProposedSchedule_ok hok with ⟨-, rfl⟩ | ⟨-, -, -, -, rfl⟩ <;> exact ⟨rfl, rfl⟩

section

variable (ctx : HeaderContext) (head : BlockHeaderState) {g : GlobalPropertyObject}
  (b : BlockInput)

theorem startBlock_setRate (hnone : g.proposedRateBlockNum = none) (rate : SharedRateInfo) :
    startBlock ctx ⟨head, { g with proposedRate := rate }⟩ b =
      (startBlock ctx ⟨head, g⟩ b).map fun x => (x.1, { x.2 with proposedRate := rate }) := by
  simp only [startBlock, bind, Except.bind]
  cases head.next ctx.crypto b.time b.confirmed with
  | error e => rfl
  | ok p =>
    dsimp only
    rw [promoteProposedSchedule_setRate]
    cases hschedule : promoteProposedSchedule p g with
    | error e => rfl
    | ok x =>
      have hx := (promoteProposedSchedule_rate hschedule).1.trans hnone
      dsimp only [Except.map]
      rw [promoteProposedRate_of_none hx, promoteProposedRate_of_none (by exact hx)]
      rfl

variable {ctx head b}

theorem startBlock_proposedRateBlockNum {x : BuildingBlock × GlobalPropertyObject}
    (hnone : g.proposedRateBlockNum = none)
    (hok : startBlock ctx ⟨head, g⟩ b = .ok x) : x.2.proposedRateBlockNum = none := by
  obtain ⟨gpo, time, proauth, hstarted⟩ := startBlock_ok hok
  have hgpo := (promoteProposedSchedule_rate hstarted.schedule).1.trans hnone
  have hrate := hstarted.rate
  rw [promoteProposedRate_of_none hgpo] at hrate
  obtain ⟨-, rfl⟩ := Prod.mk.inj (Except.ok.inj hrate)
  exact hgpo

end

theorem SameChain.startBlock (hsame : SameChain s s') (ctx : HeaderContext) (b : BlockInput) :
    (∃ e, s.startBlock ctx b = .error e ∧ s'.startBlock ctx b = .error e) ∨
      ∃ bb g g', s.startBlock ctx b = .ok (bb, g) ∧ s'.startBlock ctx b = .ok (bb, g') ∧
        SameButRate g g' := by
  obtain ⟨head, gpo⟩ := s
  obtain ⟨head', gpo'⟩ := s'
  obtain ⟨⟨exts, rfl : head' = _⟩, rate, rfl : gpo' = _, hrate⟩ := hsame
  have hexts (g : GlobalPropertyObject) : startBlock ctx ⟨{ head with headerExts := exts }, g⟩ b =
        startBlock ctx ⟨head, g⟩ b := rfl
  rw [hexts]
  rcases hrate with hnone | rfl
  · have hset := startBlock_setRate ctx head b hnone rate
    cases hstart : startBlock ctx ⟨head, gpo⟩ b with
    | error e =>
      rw [hstart] at hset
      exact .inl ⟨e, rfl, hset⟩
    | ok x =>
      rw [hstart] at hset
      exact .inr ⟨x.1, x.2, _, rfl, hset, rate, rfl,
        .inl (startBlock_proposedRateBlockNum hnone hstart)⟩
  · cases startBlock ctx ⟨head, gpo⟩ b with
    | error e => exact .inl ⟨e, rfl, rfl⟩
    | ok x => exact .inr ⟨x.1, x.2, x.2, rfl, rfl, .refl _⟩

theorem SameButRate.setProposedRate (hsame : SameButRate g g')
    (bb : BuildingBlock) (newRate : Double) :
    SameButRate (bb.setProposedRate newRate g) (bb.setProposedRate newRate g') := by
  obtain ⟨rate, rfl, hnone | rfl⟩ := hsame
  · simp only [BuildingBlock.setProposedRate, hnone, Option.any_none, Bool.false_eq_true, if_false]
    split_ifs
    · exact ⟨rate, by rw [hnone], .inl hnone⟩
    · exact .refl _
  · exact .refl _

theorem SameButRate.apply (hsame : SameButRate g g') (call : ProposalCall) :
    SameButRate (call.apply ctx bb g) (call.apply ctx bb g') := by
  cases call with
  | setProposedProducers producers =>
    obtain ⟨rate, rfl, hrate⟩ := hsame
    simp only [ProposalCall.apply, BuildingBlock.setProposedProducers]
    split_ifs <;> exact ⟨rate, rfl, hrate⟩
  | setRate newRate => exact hsame.setProposedRate bb newRate
  | intrinsicSetProposedRate newRate =>
    simp only [ProposalCall.apply]
    split_ifs
    · exact hsame.setProposedRate bb newRate
    · exact hsame

theorem SameButRate.calls (hsame : SameButRate g g') (calls : List ProposalCall) :
    SameButRate (calls.foldl (fun gpo call => call.apply ctx bb gpo) g)
      (calls.foldl (fun gpo call => call.apply ctx bb gpo) g') := by
  induction calls generalizing g g' with
  | nil => exact hsame
  | cons call calls ih => exact ih (hsame.apply call)

theorem SameChain.settle (hsame : SameChain s s') (b : BlockInput) :
    SameChain (settle (buildBlock ctx) s b) (settle (buildBlock ctx) s' b) := by
  unfold Library.settle buildBlock
  rcases hsame.startBlock ctx b with ⟨e, hs, hs'⟩ | ⟨bb, g, g', hs, hs', hg⟩
  · rw [hs, hs']
    exact hsame
  rw [hs, hs']
  dsimp only [bind, Except.bind]
  cases completeBlock ctx b bb with
  | error e => exact hsame
  | ok head => exact ⟨⟨head.headerExts, rfl⟩, hg.calls b.calls⟩

theorem SameChain.promoted (hsame : SameChain s s')
    (b : BlockInput) : s.promoted ctx b = s'.promoted ctx b := by
  unfold ChainState.promoted
  rcases hsame.startBlock ctx b with ⟨e, hs, hs'⟩ | ⟨bb, g, g', hs, hs', -⟩
  · rw [hs, hs']
  · rw [hs, hs']
    rfl

/-! ## Restoring a node -/

theorem SameChain.of_restore (hnone : s.globalProperties.proposedRateBlockNum = none) :
    SameChain s s.restore := by
  refine ⟨⟨[], rfl⟩, {}, ?_, .inl hnone⟩
  rw [hnone]
  rfl

theorem promotions_restore
    (hnone : s.globalProperties.proposedRateBlockNum = none) (blocks : List BlockInput) :
    s.restore.promotions ctx blocks = s.promotions ctx blocks := by
  refine (observations_eq_of_simulation (R := SameChain) ?_ ?_ (.of_restore hnone) blocks).symm
  · intro s t b hst
    exact hst.promoted b
  · intro s t b hst
    exact hst.settle b

/-- A head on which every earlier block is irreversible, with an occupied schedule slot. -/
def distantHead : BlockHeaderState :=
  { sampleHead with
    dposProposedIrreversibleBlocknum := 0xFFFFFFFF
    pendingSchedule := ⟨0, {}, ⟨1, sampleProducers [⟨1⟩]⟩⟩ }

theorem distantHead_next :
    ∃ p, distantHead.next sampleContext.crypto ⟨3⟩ 0 = .ok p ∧
      p.dposIrreversibleBlocknum = 0xFFFFFFFF ∧ p.prevPendingSchedule.schedule.producers ≠ [] ∧
      p.prevPendingRate.rateInfo.rate.isZero = true := by
  have hp : (match distantHead.next sampleContext.crypto ⟨3⟩ 0 with
      | .ok p => p.dposIrreversibleBlocknum == 0xFFFFFFFF &&
          p.prevPendingSchedule.schedule.producers != [] && p.prevPendingRate.rateInfo.rate.isZero
      | .error _ => false) = true := by
    decide +kernel
  cases hnext : distantHead.next sampleContext.crypto ⟨3⟩ 0 with
  | error e => simp [hnext] at hp
  | ok p => grind

theorem promoteProposedSchedule_of_pending
    (hpending : p.prevPendingSchedule.schedule.producers ≠ []) (g : GlobalPropertyObject) :
    promoteProposedSchedule p g = .ok (none, g) := by
  unfold promoteProposedSchedule
  cases g.proposedScheduleBlockNum with
  | none => rfl
  | some num => exact if_neg fun hcond => hpending hcond.2

/-- An outstanding rate proposal makes a difference on `distantHead`: the restored node promotes
nothing in block 3, the other one promotes the rate or stops at its version. -/
theorem promoted_restore_ne {num : UInt32} (hsome : g.proposedRateBlockNum = some num) :
    (restore ⟨distantHead, g⟩).promoted sampleContext (sampleBlock 3 []) ≠
      promoted sampleContext ⟨distantHead, g⟩ (sampleBlock 3 []) := by
  obtain ⟨p, hnext, hlib, hpending, hempty⟩ := distantHead_next
  have hnext' : BlockHeaderState.next { distantHead with headerExts := [] } sampleContext.crypto
      ⟨3⟩ 0 = .ok p := hnext
  simp only [promoted, startBlock, restore, sampleBlock, hnext,
    hnext', bind, Except.bind, promoteProposedSchedule_of_pending hpending]
  rw [promoteProposedRate_of_none (by rfl)]
  have hcond : num ≤ p.dposIrreversibleBlocknum ∧ p.prevPendingRate.rateInfo.rate.isZero = true :=
    ⟨hlib ▸ UInt32.le_iff_toNat_le.mpr (Nat.le_pred_of_lt num.toNat_lt), hempty⟩
  simp only [promoteProposedRate, hsome, if_pos hcond, bind, Except.bind]
  cases dcdAssert (g.proposedRate.version = p.activeRateVersion + 1) .producerScheduleException
      "wrong producer rate version specified" with
  | error e => simp [Except.map, pure, Except.pure]
  | ok _ => simp [Except.map, pure, Except.pure]

theorem promotions_restore_iff (g : GlobalPropertyObject) :
    (∀ ctx head blocks, (restore ⟨head, g⟩).promotions ctx blocks =
        promotions ctx ⟨head, g⟩ blocks) ↔ g.proposedRateBlockNum = none := by
  constructor
  · intro hsame
    cases hnum : g.proposedRateBlockNum with
    | none => rfl
    | some num =>
      have hblock := hsame sampleContext distantHead [sampleBlock 3 []]
      exact absurd (List.head_eq_of_cons_eq hblock) (promoted_restore_ne hnum)
  · intro hnone ctx head blocks
    exact promotions_restore hnone blocks

theorem loadSnapshotRow_eq_iff (g : GlobalPropertyObject) :
    loadSnapshotRow g.toSnapshotRow = g ↔ g.proposedRateBlockNum = none ∧ g.proposedRate = {} := by
  obtain ⟨_, _, rateNum, rate, _, _, _, _⟩ := g
  simp [loadSnapshotRow, fromSnapshotRow, toSnapshotRow, eq_comm]

/-- A snapshot keeps the global properties, and with them every later promotion, exactly if no
rate is proposed and the slot of the rate has its initial value. -/
theorem snapshotRow_faithful_iff (g : GlobalPropertyObject) :
    (GlobalPropertyObject.loadSnapshotRow g.toSnapshotRow = g ∧
      ∀ ctx head blocks, (ChainState.restore ⟨head, g⟩).promotions ctx blocks =
        ChainState.promotions ctx ⟨head, g⟩ blocks) ↔
      g.proposedRateBlockNum = none ∧ g.proposedRate = {} := by
  rw [loadSnapshotRow_eq_iff, promotions_restore_iff]
  constructor
  · rintro ⟨hrow, -⟩
    exact hrow
  · intro hrow
    exact ⟨hrow, hrow.1⟩

/-- The rate 2.0 is proposed in block 2 and the snapshot taken; block 3 announces the rate on
the node that kept running only. -/
theorem snapshotRow_forgets_proposedRate :
    ¬ ∀ (ctx : HeaderContext) (genesis : GenesisState) (configuration : ChainConfig)
        (ts : List ChainTransition) (s : ChainState),
        ChainRun ctx (genesisChainState ctx genesis configuration) ts s →
        GlobalPropertyObject.loadSnapshotRow s.globalProperties.toSnapshotRow =
            s.globalProperties ∧
          ∀ blocks, s.restore.promotions ctx blocks = s.promotions ctx blocks := by
  intro hfaithful
  obtain ⟨ts, s, hrun, hforgets⟩ :=
    exists_run_of_exec (step sampleContext) sampleChainState
      [.block (sampleBlock 2 [.setRate ⟨0x4000000000000000⟩])]
      (fun _ s =>
        (s.restore.promoted sampleContext (sampleBlock 3 [])).toOption.map (·.2) == some none &&
          (s.promoted sampleContext (sampleBlock 3 [])).toOption.map (·.2) ==
            some (some ⟨1, ⟨0x4000000000000000⟩⟩))
      (by decide +kernel)
  simp only [Bool.and_eq_true, beq_iff_eq] at hforgets
  have hsame : s.restore.promoted sampleContext (sampleBlock 3 []) =
      s.promoted sampleContext (sampleBlock 3 []) :=
    List.head_eq_of_cons_eq ((hfaithful _ _ _ _ _ hrun).2 [sampleBlock 3 []])
  rw [hsame, hforgets.2] at hforgets
  simp at hforgets

end DcdProtocol.Chain
