import DcdProtocol.System.Oracles
import DcdProtocol.Chain.ProposalSafety

/-!
# The oracle rate on the chain

The contract keeps the rate it sent last, and the chain moves a rate it is sent through the slots
proposed, pending and active.  The two should agree once the slots are empty.

`RateSlots` is the part of the chain that handles rates, over any type of rates; with binary64 rates
it is what a block of the chain does (`ofChain_buildBlock`).  Here the rates are exact rationals, and
the irreversible block number of each block is an input.

The contract does not learn whether the chain took a rate.  The chain refuses one while a proposal
from an earlier block is outstanding, so the invariant (`Agree`: the rate furthest back in the slots
is the one sent last) is kept by the blocks in which no rate is sent or no proposal is left
(`Unblocked`).
-/

namespace DcdProtocol.System

open Library Chain List Option

/-! ## Rates in the slots of the chain -/

/-- `producer_rate_info`. -/
structure VersionedRate (R : Type) where
  version : UInt32
  rate : R
  deriving DecidableEq

/-- The rates of a head and of the global properties. -/
structure RateSlots (R : Type) where
  blockNum : UInt32
  active : VersionedRate R
  pending : VersionedRate R
  /-- The block that announced the pending rate. -/
  rateLibNum : UInt32
  /-- The proposed rate with the number of its block. -/
  proposed : Option (UInt32 × VersionedRate R)

structure BuildingRates (R : Type) where
  blockNum : UInt32
  active : VersionedRate R
  wasPendingPromoted : Bool
  prevPending : VersionedRate R
  prevRateLibNum : UInt32
  newPending : Option (VersionedRate R)
  proposed : Option (UInt32 × VersionedRate R)

variable {R : Type} [RateValue R] {rates : List ℚ}

namespace BuildingRates

variable (b : BuildingRates R)

/-- The rate that a new proposal is compared with. -/
def latest : VersionedRate R :=
  let pending := b.newPending.getD b.prevPending
  if RateValue.isZero pending.rate then b.active else pending

/-- `set_proposed_rate`; without effect where the source returns `-1`. -/
def setProposedRate (newRate : R) : BuildingRates R :=
  if b.proposed.any fun p => p.1 ≠ b.blockNum ∨ RateValue.beq p.2.rate newRate then b
  else if RateValue.beq newRate b.latest.rate then b
  else { b with proposed := some (b.blockNum, ⟨b.latest.version + 1, newRate⟩) }

def finish : RateSlots R where
  blockNum := b.blockNum
  active := b.active
  pending := match b.newPending with
    | some rate => rate
    | none => if b.wasPendingPromoted then ⟨b.prevPending.version, RateValue.zero⟩ else b.prevPending
  rateLibNum := if b.newPending.isSome then b.blockNum else b.prevRateLibNum
  proposed := b.proposed

end BuildingRates

namespace RateSlots

variable (s : RateSlots R)

/-- The rate that the next block makes active, or has active. -/
def latest : VersionedRate R := if RateValue.isZero s.pending.rate then s.active else s.pending

/-- `next` makes a positive pending rate active once its block is irreversible. -/
def promotes (lib : UInt32) : Bool :=
  RateValue.isPos s.pending.rate && decide (s.rateLibNum ≤ lib)

/-- `next` and the part of `start_block` that promotes a proposed rate. -/
def start (lib : UInt32) : Except ChainException (BuildingRates R) :=
  let b : BuildingRates R :=
    { blockNum := s.blockNum + 1
      active := if s.promotes lib then s.pending else s.active
      wasPendingPromoted := s.promotes lib
      prevPending := s.pending
      prevRateLibNum := s.rateLibNum
      newPending := none
      proposed := s.proposed }
  match s.proposed with
  | none => pure b
  | some (num, rate) =>
    if num ≤ lib ∧ RateValue.isZero s.pending.rate then do
      dcdAssert (rate.version = s.active.version + 1) .producerScheduleException
        "wrong producer rate version specified"
      pure { b with newPending := some rate, proposed := none }
    else pure b

/-- A block in which `setrate` is sent at most once. -/
def block (lib : UInt32) (sent : Option R) : Except ChainException (RateSlots R) := do
  let b ← s.start lib
  pure (sent.elim b b.setProposedRate).finish

/-! ## The chain -/

def ofRate (r : ProducerRateInfo) : VersionedRate Double := ⟨r.version, r.rate⟩

def ofChain (s : ChainState) : RateSlots Double where
  blockNum := s.head.blockNum
  active := ofRate s.head.activeRate
  pending := ofRate s.head.pendingRate.rateInfo
  rateLibNum := s.head.pendingRate.rateLibNum
  proposed := s.globalProperties.proposedRateBlockNum.map fun num =>
    (num, ⟨s.globalProperties.proposedRate.version, s.globalProperties.proposedRate.rate⟩)

def ofBuilding (bb : BuildingBlock) (gpo : GlobalPropertyObject) : BuildingRates Double where
  blockNum := bb.pendingBlockHeaderState.blockNum
  active := ofRate bb.pendingBlockHeaderState.activeRate
  wasPendingPromoted := bb.pendingBlockHeaderState.wasPendingRatePromoted
  prevPending := ofRate bb.pendingBlockHeaderState.prevPendingRate.rateInfo
  prevRateLibNum := bb.pendingBlockHeaderState.prevPendingRate.rateLibNum
  newPending := bb.newPendingRateInfo.map ofRate
  proposed := gpo.proposedRateBlockNum.map fun num =>
    (num, ⟨gpo.proposedRate.version, gpo.proposedRate.rate⟩)

theorem ofBuilding_latest (bb : BuildingBlock) (gpo : GlobalPropertyObject) :
    (ofBuilding bb gpo).latest = ofRate bb.latestRate := by
  have hpending : (ofBuilding bb gpo).newPending.getD (ofBuilding bb gpo).prevPending =
      ofRate bb.pendingRate := by
    rw [BuildingBlock.pendingRate]
    show (bb.newPendingRateInfo.map ofRate).getD _ = _
    cases bb.newPendingRateInfo <;> rfl
  rw [BuildingRates.latest, hpending, BuildingBlock.latestRate]
  show (if bb.pendingRate.rate.isZero = true then _ else _) = _
  split <;> rfl

theorem ofBuilding_setProposedRate (bb : BuildingBlock) (gpo : GlobalPropertyObject)
    (newRate : Double) :
    ofBuilding bb (bb.setProposedRate newRate gpo) =
      (ofBuilding bb gpo).setProposedRate newRate := by
  rw [BuildingRates.setProposedRate, ofBuilding_latest, BuildingBlock.setProposedRate]
  have hrefused : (gpo.proposedRateBlockNum.any fun num =>
        decide (num ≠ bb.pendingBlockHeaderState.blockNum ∨
          gpo.proposedRate.rate.beq newRate = true)) =
      (ofBuilding bb gpo).proposed.any fun p =>
        decide (p.1 ≠ (ofBuilding bb gpo).blockNum ∨ RateValue.beq p.2.rate newRate = true) := by
    rw [ofBuilding, Option.any_map]
    rfl
  rw [hrefused]
  split
  · rfl
  show ofBuilding bb (if newRate.beq bb.latestRate.rate = true then _ else _) =
    if newRate.beq bb.latestRate.rate = true then _ else _
  split
  · rfl
  · rfl

variable {ctx : HeaderContext} {s s' : ChainState} {b : BlockInput} {bb : BuildingBlock}

theorem start_ofChain {gpo gpo' : GlobalPropertyObject} {time : BlockTimestamp}
    {proauth : ProducerAuthority} (hstarted : Started ctx s b bb gpo gpo' time proauth) :
    (ofChain s).start (s.head.calcDposLastIrreversible proauth.producerName) =
      .ok (ofBuilding bb gpo') := by
  obtain ⟨p, features, newSchedule, newRate⟩ := bb
  obtain ⟨rfl, hschedule, hrate⟩ := hstarted
  have hactive : ofRate (s.head.nextPending ctx.crypto time proauth b.confirmed).activeRate =
      if s.head.promotesRate proauth.producerName then (ofChain s).pending
      else (ofChain s).active := apply_ite ofRate _ _ _
  have hsame : gpo.proposedRateBlockNum = s.globalProperties.proposedRateBlockNum ∧
      gpo.proposedRate = s.globalProperties.proposedRate := by
    rcases promoteProposedSchedule_ok hschedule with ⟨-, rfl⟩ | ⟨-, -, -, -, rfl⟩
    · exact ⟨rfl, rfl⟩
    · exact ⟨rfl, rfl⟩
  rw [promoteProposedRate, hsame.1, hsame.2] at hrate
  rw [start, ofBuilding, hactive]
  cases hnum : s.globalProperties.proposedRateBlockNum with
  | none =>
    rw [hnum] at hrate
    obtain ⟨rfl, rfl⟩ := Prod.mk.inj (pure_ok_iff.mp hrate)
    have hproposed : (ofChain s).proposed = none := by
      rw [ofChain, hnum]
      rfl
    rw [hproposed, hsame.1, hnum]
    rfl
  | some num =>
    rw [hnum] at hrate
    have hproposed : (ofChain s).proposed = some (num, ⟨s.globalProperties.proposedRate.version,
        s.globalProperties.proposedRate.rate⟩) := by
      rw [ofChain, hnum]
      rfl
    rw [hproposed]
    dsimp only at hrate ⊢
    split at hrate
    next hcond =>
      refine (if_pos hcond).trans ?_
      obtain ⟨_, hversion, hrate⟩ := bind_ok_iff.mp hrate
      obtain ⟨rfl, rfl⟩ := Prod.mk.inj (pure_ok_iff.mp hrate)
      exact bind_ok_iff.mpr ⟨⟨⟩, hversion, rfl⟩
    next hcond =>
      refine (if_neg hcond).trans ?_
      obtain ⟨rfl, rfl⟩ := Prod.mk.inj (pure_ok_iff.mp hrate)
      rw [hsame.1, hsame.2, hnum]
      rfl

theorem finish_ofBuilding {head : BlockHeaderState}
    (hcomplete : ChainState.completeBlock ctx b bb = .ok head) (gpo : GlobalPropertyObject) :
    (ofBuilding bb gpo).finish = ofChain ⟨head, gpo⟩ := by
  rw [ofChain, pendingRate_of_completeBlock hcomplete, common_of_completeBlock hcomplete]
  cases hnew : bb.newPendingRateInfo with
  | some rate =>
    simp only [ofBuilding, hnew]
    rfl
  | none =>
    simp only [BuildingRates.finish, ofBuilding, hnew, map_none,
      PendingBlockHeaderState.nextPendingRate]
    split <;> rfl

/-- A block of the chain whose transactions send `setrate` at most once does to the rates what
`block` does. -/
theorem ofChain_buildBlock {sent : Option Double} (hcalls : b.calls = (sent.map .setRate).toList)
    (hok : s.buildBlock ctx b = .ok s') :
    (ofChain s).block s'.head.dposIrreversibleBlocknum sent = .ok (ofChain s') := by
  obtain ⟨bb, gpo, gpo', time, proauth, hstarted, hcomplete, hgpo⟩ := ChainState.buildBlock_ok hok
  have hlib : s'.head.dposIrreversibleBlocknum =
      s.head.calcDposLastIrreversible proauth.producerName := by
    rw [common_of_completeBlock hcomplete, hstarted.pending]
    rfl
  rw [hlib]
  refine bind_ok_iff.mpr ⟨_, start_ofChain hstarted, pure_ok_iff.mpr ?_⟩
  have hfinish : (ofBuilding bb s'.globalProperties).finish = ofChain s' :=
    finish_ofBuilding hcomplete _
  rw [hgpo, hcalls] at hfinish
  cases sent with
  | none => exact hfinish
  | some r =>
    show ((ofBuilding bb gpo').setProposedRate r).finish = _
    rw [← ofBuilding_setProposedRate]
    exact hfinish

theorem ofChain_buildBlock_proposed : ∃ s,
    sampleChainState.buildBlock sampleContext (sampleBlock 2 [.setRate ⟨1⟩]) = .ok s ∧
      s.globalProperties.proposedRate = ⟨1, ⟨1⟩⟩ ∧
      (ofChain sampleChainState).block s.head.dposIrreversibleBlocknum (some ⟨1⟩) =
        .ok (ofChain s) := by
  obtain ⟨s, hok, hrate⟩ : ∃ s, sampleChainState.buildBlock sampleContext
      (sampleBlock 2 [.setRate ⟨1⟩]) = .ok s ∧ s.globalProperties.proposedRate = ⟨1, ⟨1⟩⟩ :=
    ⟨_, rfl, rfl⟩
  exact ⟨s, hok, hrate, ofChain_buildBlock rfl hok⟩

end RateSlots

/-! ## The contract and the chain -/

structure OracleChain (R : Type) where
  oracles : OracleState R
  slots : RateSlots R
  /-- The time of the last action. -/
  now : ℕ

inductive OracleChainInput (R : Type)
  | oracle (timestamp : BlockTimestamp) (action : OracleAction R)
  /-- A block with its irreversible block number; its `onblock` may be undone as a whole. -/
  | block (timestamp : BlockTimestamp) (lib : UInt32) (onblockThrows : Bool)

namespace OracleChain

def advanceTime (s : OracleChain R) (t : BlockTimestamp) : Except ChainException (OracleChain R) := do
  dcdAssert (s.now ≤ t.toTimePoint) .external
    "the time of a block is not before that of its parent"
  pure { s with now := t.toTimePoint }

/-- A block: the only `setrate` in it is the one of `onblock`. -/
def block (mean : R → R → R) (s : OracleChain R) (ct : ℕ) (lib : UInt32) (onblockThrows : Bool) :
    Except ChainException (OracleChain R) := do
  let (oracles, sent) :=
    if onblockThrows then (s.oracles, none) else s.oracles.updateOraclesRateState mean ct
  let slots ← s.slots.block lib sent
  pure { s with oracles, slots }

def step (mean : R → R → R) (s : OracleChain R) :
    OracleChainInput R → Except ChainException (OracleChain R)
  | .oracle t action => do
    let s ← s.advanceTime t
    let oracles ← s.oracles.perform t.toTimePoint action
    pure { s with oracles }
  | .block t lib onblockThrows => do
    let s ← s.advanceTime t
    s.block mean t.toTimePoint lib onblockThrows

end OracleChain

abbrev OracleTransition := Transition (OracleChain ℚ) (OracleChainInput ℚ)

abbrev OracleRun := Run fun s i s' => OracleChain.step exactMean s i = .ok s'

/-! ## The median -/

/-- The mean of the two elements in the middle, which coincide for an odd length. -/
def IsMedian (rates : List ℚ) (m : ℚ) : Prop :=
  ∃ lo hi, nthElement rates ((rates.length - 1) / 2) = some lo ∧
    nthElement rates (rates.length / 2) = some hi ∧ m = (lo + hi) / 2

structure IsOracleRate (rates : List ℚ) (m : ℚ) : Prop where
  none : rates = [] → m = 1
  median : rates ≠ [] → IsMedian rates m
  between : rates ≠ [] → (∃ lo ∈ rates, lo ≤ m) ∧ ∃ hi ∈ rates, m ≤ hi

theorem IsMedian.between {m : ℚ} (hm : IsMedian rates m) :
    (∃ lo ∈ rates, lo ≤ m) ∧ ∃ hi ∈ rates, m ≤ hi := by
  obtain ⟨lo, hi, hlo, hhi, rfl⟩ := hm
  rcases le_total lo hi with hle | hle
  · exact ⟨⟨lo, nthElement_mem hlo, by linarith⟩, hi, nthElement_mem hhi, by linarith⟩
  · exact ⟨⟨hi, nthElement_mem hhi, by linarith⟩, lo, nthElement_mem hlo, by linarith⟩

theorem IsOracleRate.unique {m m' : ℚ} (hm : IsOracleRate rates m)
    (hm' : IsOracleRate rates m') : m = m' := by
  by_cases hne : rates = []
  · rw [hm.none hne, hm'.none hne]
  obtain ⟨lo, hi, hlo, hhi, rfl⟩ := hm.median hne
  obtain ⟨lo', hi', hlo', hhi', rfl⟩ := hm'.median hne
  obtain rfl : lo = lo' := some.inj (hlo.symm.trans hlo')
  obtain rfl : hi = hi' := some.inj (hhi.symm.trans hhi')
  rfl

namespace OracleState

variable (s : OracleState ℚ)

theorem sortedRates_getElem? (n : ℕ) : s.sortedRates[n]? = nthElement s.eligibleRates n := by
  have hle : (fun a b : ℚ => RateValue.lt b a = false) = (· ≤ ·) := by
    funext a b
    show (decide (b < a) = false) = (a ≤ b)
    rw [decide_eq_false_iff_not, not_lt]
  rw [nthElement, sortedRates]
  congr!

theorem rateToSet_isOracleRate : IsOracleRate s.eligibleRates (s.rateToSet exactMean) := by
  have hlength : s.sortedRates.length = s.eligibleRates.length := length_insertionSort _ _
  have hget : ∀ n, n < s.eligibleRates.length →
      nthElement s.eligibleRates n = some (s.sortedRates.getD n 0) := by
    intro n hn
    rw [← s.sortedRates_getElem? n, getD_eq_getElem?_getD,
      getElem?_eq_getElem (hlength ▸ hn), getD_some]
  have hmedian : s.eligibleRates ≠ [] → IsMedian s.eligibleRates (s.rateToSet exactMean) := by
    intro hne
    have hpos := length_pos_iff.mpr hne
    refine ⟨_, _, hget _ (by omega), hget _ (by omega), ?_⟩
    rw [rateToSet, hlength, if_pos hpos]
    split
    next heven =>
      rw [show (s.eligibleRates.length - 1) / 2 = s.eligibleRates.length / 2 - 1 by omega]
      rfl
    next hodd =>
      rw [show (s.eligibleRates.length - 1) / 2 = s.eligibleRates.length / 2 by omega]
      exact (add_self_div_two _).symm
  refine ⟨?_, hmedian, fun hne => (hmedian hne).between⟩
  intro hnil
  rw [rateToSet, hlength, hnil]
  rfl

theorem rateToSet_pos : 0 < s.rateToSet exactMean := by
  have hrate := s.rateToSet_isOracleRate
  by_cases hne : s.eligibleRates = []
  · rw [hrate.none hne]
    exact one_pos
  · obtain ⟨⟨lo, hlo, hle⟩, -⟩ := hrate.between hne
    have hpos : 0 < lo := of_decide_eq_true (mem_filter.mp hlo).2
    exact hpos.trans_le hle

end OracleState

/-! ## Agreement -/

namespace OracleChain

variable {s s' : OracleChain ℚ} {ts : List OracleTransition} {lib : UInt32} {b : BuildingRates ℚ}
  {onblockThrows : Bool} {ct : ℕ} {rate : ℚ}

/-- The proposed rate, or else the pending or active one, is the rate the contract sent last. -/
structure Agree (slots : RateSlots ℚ) (rate : ℚ) : Prop where
  proposed : ∀ num p, slots.proposed = some (num, p) → p.rate = rate ∧ 0 < p.rate
  latest : slots.proposed = none → slots.latest.rate = rate

/-- No proposal is left after the promotions at the start of the block. -/
def NoProposalLeft (slots : RateSlots ℚ) (lib : UInt32) : Prop :=
  ∀ num p, slots.proposed = some (num, p) → num ≤ lib ∧ slots.pending.rate = 0

structure StartedAgree (b : BuildingRates ℚ) (rate : ℚ) : Prop where
  proposed : ∀ num p, b.proposed = some (num, p) → p.rate = rate ∧ 0 < p.rate
  latest : b.proposed = none → b.latest.rate = rate
  promoted : b.wasPendingPromoted = true →
    b.newPending = none ∧ b.active = b.prevPending ∧ 0 < b.prevPending.rate

theorem Agree.start {slots : RateSlots ℚ}
    (hagree : Agree slots rate) (hok : slots.start lib = .ok b) :
    StartedAgree b rate ∧ (NoProposalLeft slots lib → b.proposed = none) := by
  have hpromotes : slots.promotes lib = true → 0 < slots.pending.rate := by
    intro hpromotes
    rw [RateSlots.promotes, Bool.and_eq_true] at hpromotes
    exact of_decide_eq_true hpromotes.1
  rw [RateSlots.start] at hok
  cases hproposed : slots.proposed with
  | none =>
    rw [hproposed] at hok
    rw [← pure_ok_iff.mp hok]
    refine ⟨⟨?_, ?_, ?_⟩, fun _ => rfl⟩
    · intro num p hp
      cases hp
    · intro _
      rw [← hagree.latest hproposed]
      show VersionedRate.rate (if decide (slots.pending.rate = 0) = true then _ else _) =
        VersionedRate.rate (if decide (slots.pending.rate = 0) = true then _ else _)
      by_cases hzero : slots.pending.rate = 0
      · have hkept : ¬slots.promotes lib = true := by
          intro h
          exact (hpromotes h).ne' hzero
        rw [if_pos (decide_eq_true hzero), if_pos (decide_eq_true hzero), if_neg hkept]
      · have hpending : ¬decide (slots.pending.rate = 0) = true := by simpa using hzero
        rw [if_neg hpending, if_neg hpending]
        rfl
    · simp_all
  | some proposal =>
    obtain ⟨num, p⟩ := proposal
    rw [hproposed] at hok
    dsimp only at hok
    obtain ⟨hrate, hpos⟩ := hagree.proposed num p hproposed
    split at hok
    next hcond =>
      have hzero : slots.pending.rate = 0 := of_decide_eq_true hcond.2
      obtain ⟨_, -, hok⟩ := bind_ok_iff.mp hok
      rw [← pure_ok_iff.mp hok]
      refine ⟨⟨?_, ?_, ?_⟩, fun _ => rfl⟩
      · intro num p hp
        cases hp
      · intro _
        show (if decide (p.rate = 0) = true then _ else p).rate = rate
        rw [if_neg (by simpa using hpos.ne'), hrate]
      · intro h
        exact absurd hzero (hpromotes h).ne'
    next hcond =>
      rw [← pure_ok_iff.mp hok]
      refine ⟨⟨?_, ?_, ?_⟩, ?_⟩
      · grind
      · intro hnone
        cases hnone
      · grind
      · intro hleft
        obtain ⟨hle, hzero⟩ := hleft num p hproposed
        exact absurd ⟨hle, decide_eq_true hzero⟩ hcond

theorem StartedAgree.finish (hb : StartedAgree b rate) : Agree b.finish rate := by
  refine ⟨hb.proposed, ?_⟩
  intro hnone
  rw [← hb.latest hnone, RateSlots.latest, BuildingRates.latest, BuildingRates.finish]
  cases hnew : b.newPending with
  | some p => rfl
  | none =>
    cases hpromoted : b.wasPendingPromoted with
    | false => rfl
    | true =>
      -- the pending rate has become active and its slot is empty
      obtain ⟨-, hactive, hpos⟩ := hb.promoted hpromoted
      show b.active.rate =
        VersionedRate.rate (if decide (b.prevPending.rate = 0) = true then _ else _)
      rw [if_neg (by simpa using hpos.ne'), hactive]
      rfl

theorem StartedAgree.setProposedRate {newRate : ℚ}
    (hb : StartedAgree b rate) (hnone : b.proposed = none) (hne : newRate ≠ rate)
    (hpos : 0 < newRate) : StartedAgree (b.setProposedRate newRate) newRate := by
  have hnew : ¬RateValue.beq newRate b.latest.rate = true := by
    rw [hb.latest hnone]
    simpa [RateValue.beq] using hne
  rw [BuildingRates.setProposedRate, hnone, any_none, if_neg Bool.false_ne_true, if_neg hnew]
  refine ⟨?_, ?_, hb.promoted⟩
  · grind
  · intro hproposed
    cases hproposed

/-- The update period is over, and the rate set last is no longer the one of the oracles. -/
def SendsRate (s : OracleChain ℚ) (ct : ℕ) : Prop :=
  secondsSince ct s.oracles.oraclesLastUpdated ≥ oraclesUpdatePeriodSeconds ∧
    ¬IsOracleRate s.oracles.eligibleRates s.oracles.lastOracleRate

/-- A block that sends a rate finds no proposal of an earlier block. -/
def Unblocked (t : OracleTransition) : Prop :=
  match t.label with
  | .block time lib false => t.before.SendsRate time.toTimePoint →
      NoProposalLeft t.before.slots lib
  | _ => True

theorem updateOraclesRateState_cases (o : OracleState ℚ) (ct : ℕ) :
    ((o.updateOraclesRateState exactMean ct).2 = none ∧
        (o.updateOraclesRateState exactMean ct).1.lastOracleRate = o.lastOracleRate) ∨
      (o.updateOraclesRateState exactMean ct).2 = some (o.rateToSet exactMean) ∧
        (o.updateOraclesRateState exactMean ct).1.lastOracleRate = o.rateToSet exactMean ∧
        o.rateToSet exactMean ≠ o.lastOracleRate ∧
        secondsSince ct o.oraclesLastUpdated ≥ oraclesUpdatePeriodSeconds := by
  rw [OracleState.updateOraclesRateState]
  split
  next hdue =>
    rw [OracleState.calculateNewOracleRate]
    by_cases hsame : o.rateToSet exactMean = o.lastOracleRate
    · have hbeq : RateValue.beq (o.rateToSet exactMean) o.lastOracleRate = true :=
        decide_eq_true hsame
      rw [if_pos hbeq]
      exact .inl ⟨rfl, rfl⟩
    · have hbeq : ¬RateValue.beq (o.rateToSet exactMean) o.lastOracleRate = true := by
        intro h
        exact hsame (of_decide_eq_true h)
      rw [if_neg hbeq]
      exact .inr ⟨rfl, rfl, hsame, hdue⟩
  next => exact .inl ⟨rfl, rfl⟩

theorem block_agree (hagree : Agree s.slots s.oracles.lastOracleRate)
    (hunblocked : onblockThrows = false → s.SendsRate ct → NoProposalLeft s.slots lib)
    (hok : s.block exactMean ct lib onblockThrows = .ok s') :
    Agree s'.slots s'.oracles.lastOracleRate := by
  obtain ⟨slots, hslots, hs'⟩ := bind_ok_iff.mp hok
  obtain ⟨b, hb, hslots⟩ := bind_ok_iff.mp hslots
  obtain ⟨hstarted, hleft⟩ := hagree.start hb
  rw [← pure_ok_iff.mp hs', ← pure_ok_iff.mp hslots]
  cases onblockThrows with
  | true => exact hstarted.finish
  | false =>
    show Agree (((s.oracles.updateOraclesRateState exactMean ct).2).elim b
      b.setProposedRate).finish (s.oracles.updateOraclesRateState exactMean ct).1.lastOracleRate
    rcases updateOraclesRateState_cases s.oracles ct with ⟨hnone, hrate⟩ | ⟨hsome, hrate, hne, hdue⟩
    · rw [hnone, hrate]
      exact hstarted.finish
    rw [hsome, hrate]
    have hsends : s.SendsRate ct :=
      ⟨hdue, fun hlast => hne (s.oracles.rateToSet_isOracleRate.unique hlast)⟩
    have hproposed := hleft (hunblocked rfl hsends)
    exact (hstarted.setProposedRate hproposed hne s.oracles.rateToSet_pos).finish

theorem block_lastOracleRate (hok : s.block exactMean ct lib onblockThrows = .ok s') :
    s'.oracles.lastOracleRate = s.oracles.lastOracleRate ∨
      IsOracleRate s.oracles.eligibleRates s'.oracles.lastOracleRate := by
  obtain ⟨slots, -, hs'⟩ := bind_ok_iff.mp hok
  rw [← pure_ok_iff.mp hs']
  cases onblockThrows with
  | true => exact .inl rfl
  | false =>
    rcases updateOraclesRateState_cases s.oracles ct with ⟨-, hrate⟩ | ⟨-, hrate, -, -⟩
    · exact .inl hrate
    refine .inr ?_
    show IsOracleRate _ (s.oracles.updateOraclesRateState exactMean ct).1.lastOracleRate
    rw [hrate]
    exact s.oracles.rateToSet_isOracleRate

theorem perform_lastOracleRate {o o' : OracleState ℚ} {action : OracleAction ℚ}
    (hok : o.perform ct action = .ok o') : o'.lastOracleRate = o.lastOracleRate := by
  cases action with
  | regoracle oracle =>
    obtain ⟨_, -, hok⟩ := bind_ok_iff.mp hok
    rw [← pure_ok_iff.mp hok]
  | unregoracle oracle =>
    obtain ⟨_, -, hok⟩ := bind_ok_iff.mp hok
    rw [← pure_ok_iff.mp hok]
  | setrateorcl oracle feeRate =>
    obtain ⟨_, -, hok⟩ := bind_ok_iff.mp hok
    obtain ⟨_, -, hok⟩ := bind_ok_iff.mp hok
    rw [← pure_ok_iff.mp hok]

theorem advanceTime_eq_ok {t : BlockTimestamp} (hok : s.advanceTime t = .ok s') :
    s'.oracles = s.oracles ∧ s'.slots = s.slots := by
  obtain ⟨_, -, hok⟩ := bind_ok_iff.mp hok
  rw [← pure_ok_iff.mp hok]
  exact ⟨rfl, rfl⟩

theorem step_agree {i : OracleChainInput ℚ} (hagree : Agree s.slots s.oracles.lastOracleRate)
    (hunblocked : Unblocked ⟨s, i, s'⟩) (hok : s.step exactMean i = .ok s') :
    Agree s'.slots s'.oracles.lastOracleRate ∧
      (s'.oracles.lastOracleRate = s.oracles.lastOracleRate ∨
        IsOracleRate s.oracles.eligibleRates s'.oracles.lastOracleRate) := by
  cases i with
  | oracle t action =>
    obtain ⟨u, hu, hok⟩ := bind_ok_iff.mp hok
    obtain ⟨o, ho, hok⟩ := bind_ok_iff.mp hok
    obtain ⟨horacles, hslots⟩ := advanceTime_eq_ok hu
    have hrate := perform_lastOracleRate ho
    rw [horacles] at hrate
    rw [← pure_ok_iff.mp hok]
    refine ⟨?_, .inl hrate⟩
    rw [hslots, hrate]
    exact hagree
  | block t lib onblockThrows =>
    obtain ⟨u, hu, hok⟩ := bind_ok_iff.mp hok
    obtain ⟨horacles, hslots⟩ := advanceTime_eq_ok hu
    rw [← horacles, ← hslots] at hagree
    have hfree : onblockThrows = false → u.SendsRate t.toTimePoint →
        NoProposalLeft u.slots lib := by
      rintro rfl hsends
      rw [SendsRate, horacles] at hsends
      rw [hslots]
      exact hunblocked hsends
    refine ⟨block_agree hagree hfree hok, ?_⟩
    rw [← horacles]
    exact block_lastOracleRate hok

/-- In a run from a state in which contract and chain agree, and whose blocks are unblocked, the
active rate is the rate of the contract whenever nothing is proposed or pending; and the rate of
the contract only changes to the rate of the oracles. -/
theorem activeRate_eq_lastOracleRate {s₀ : OracleChain ℚ}
    (hinit : Agree s₀.slots s₀.oracles.lastOracleRate) (hrun : OracleRun s₀ ts s)
    (hunblocked : ∀ t ∈ ts, Unblocked t) :
    (s.slots.proposed = none → s.slots.pending.rate = 0 →
        s.slots.active.rate = s.oracles.lastOracleRate) ∧
      ∀ t ∈ ts, t.after.oracles.lastOracleRate = t.before.oracles.lastOracleRate ∨
        IsOracleRate t.before.oracles.eligibleRates t.after.oracles.lastOracleRate := by
  have hinv : Agree s.slots s.oracles.lastOracleRate ∧
      ∀ t ∈ ts, t.after.oracles.lastOracleRate = t.before.oracles.lastOracleRate ∨
        IsOracleRate t.before.oracles.eligibleRates t.after.oracles.lastOracleRate := by
    refine hrun.invariant_of_forall (I := fun ts s => Agree s.slots s.oracles.lastOracleRate ∧
      ∀ t ∈ ts, t.after.oracles.lastOracleRate = t.before.oracles.lastOracleRate ∨
        IsOracleRate t.before.oracles.eligibleRates t.after.oracles.lastOracleRate)
      hunblocked ⟨hinit, forall_mem_nil _⟩ ?_
    intro ts s i s' _ ih hstep hfree
    obtain ⟨hagree, hrate⟩ := step_agree ih.1 hfree hstep
    refine ⟨hagree, ?_⟩
    intro t ht
    rcases mem_append.mp ht with ht | ht
    · exact ih.2 t ht
    · grind
  refine ⟨?_, hinv.2⟩
  intro hnone hpending
  have hlatest := hinv.1.latest hnone
  have hzero : RateValue.isZero s.slots.pending.rate = true := decide_eq_true hpending
  rw [RateSlots.latest, if_pos hzero] at hlatest
  exact hlatest

instance (slots : RateSlots ℚ) (lib : UInt32) : Decidable (NoProposalLeft slots lib) :=
  decidable_of_iff (∀ p ∈ slots.proposed, p.1 ≤ lib ∧ slots.pending.rate = 0)
    ⟨fun h num p hp => h (num, p) hp, fun h p hp => h p.1 p.2 hp⟩

/-- Every block of the run finds no proposal of an earlier one. -/
def neverLeft (ts : List OracleTransition) : Bool :=
  ts.all fun t => match t.label with
    | .block _ lib _ => decide (NoProposalLeft t.before.slots lib)
    | .oracle _ _ => true

theorem unblocked_of_neverLeft (hleft : neverLeft ts = true) : ∀ t ∈ ts, Unblocked t := by
  intro t ht
  have hleft := all_eq_true.mp hleft t ht
  obtain ⟨before, label, after⟩ := t
  cases label with
  | oracle t action => trivial
  | block t lib onblockThrows =>
    cases onblockThrows with
    | true => trivial
    | false => exact fun _ => of_decide_eq_true hleft

/-- A new chain: the rate is 1 in the contract and in the header. -/
def genesis : OracleChain ℚ where
  oracles := .initial ⟨0⟩
  slots := ⟨1, ⟨0, 1⟩, ⟨0, 0⟩, 0, none⟩
  now := 0

def oracle : Name := .ofChars ['o', 'r', 'a', 'c', 'l', 'e']

/-- The oracle reports the rate 2, and the next block proposes it. -/
def rateTwo : List (OracleChainInput ℚ) :=
  [.oracle ⟨1⟩ (.regoracle oracle), .oracle ⟨1⟩ (.setrateorcl oracle 2), .block ⟨1200⟩ 1 false]

theorem agree_genesis : Agree genesis.slots genesis.oracles.lastOracleRate := by
  constructor
  · intro num p hp
    cases hp
  · intro _
    rfl

/-- The rate becomes active as the blocks become irreversible. -/
theorem activeRate_eq_lastOracleRate_two :
    ∃ ts s, OracleRun genesis ts s ∧ (∀ t ∈ ts, Unblocked t) ∧
      s.oracles.lastOracleRate = 2 ∧ s.slots.active.rate = s.oracles.lastOracleRate := by
  obtain ⟨ts, s, hrun, hend⟩ := exists_run_of_exec (step exactMean) genesis
    (rateTwo ++ [.block ⟨1201⟩ 2 false, .block ⟨1202⟩ 3 false])
    (fun ts s => neverLeft ts && decide (s.oracles.lastOracleRate = 2 ∧
      s.slots.proposed.isNone = true ∧ s.slots.pending.rate = 0)) (by decide +kernel)
  rw [Bool.and_eq_true, decide_eq_true_eq, isNone_iff_eq_none] at hend
  have hfree := unblocked_of_neverLeft hend.1
  exact ⟨ts, s, hrun, hfree, hend.2.1,
    (activeRate_eq_lastOracleRate agree_genesis hrun hfree).1 hend.2.2.1 hend.2.2.2⟩

/-- While the proposed 2 waits, the contract sends 3: the chain refuses it, and stays at 2. -/
theorem activeRate_ne_lastOracleRate :
    Agree genesis.slots genesis.oracles.lastOracleRate ∧
      ∃ ts s, OracleRun genesis ts s ∧ s.slots.proposed = none ∧ s.slots.pending.rate = 0 ∧
        s.slots.active.rate = 2 ∧ s.oracles.lastOracleRate = 3 := by
  refine ⟨agree_genesis, ?_⟩
  obtain ⟨ts, s, hrun, hend⟩ := exists_run_of_exec (step exactMean) genesis
    (rateTwo ++ [.oracle ⟨1201⟩ (.setrateorcl oracle 3), .block ⟨2400⟩ 1 false,
      .block ⟨2401⟩ 3 false, .block ⟨2402⟩ 4 false])
    (fun _ s => decide (s.slots.proposed.isNone = true ∧ s.slots.pending.rate = 0 ∧
      s.slots.active.rate = 2 ∧ s.oracles.lastOracleRate = 3)) (by decide +kernel)
  rw [decide_eq_true_eq, isNone_iff_eq_none] at hend
  exact ⟨ts, s, hrun, hend⟩

end OracleChain

end DcdProtocol.System
