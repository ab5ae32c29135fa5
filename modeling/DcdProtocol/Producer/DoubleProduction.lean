import DcdProtocol.Chain.PendingBlock
import DcdProtocol.Producer.ProducerPlugin

/-!
# A node does not produce twice

What keeps a node from producing two blocks for one producer at the same height or time is the
producer's watermark.  It is looked at when a pending block is started, and the block is produced
later, when a timer fires.

The argument has three parts.  Watermarks only grow, and every produced block is at or below the
watermark of its producer (`Covers`).  A pending block that was started to be produced is above
it (`Eligible`), and stays there, because watermarks move only when there is no pending block.
And a timer that may produce finds only such a block (`Armed`): the production loop may leave a
speculative pending block in place while it switches to producing mode, but only when a timer of
its own has called it, and then no other timer has the current correlation id.

One comparison is missing in the code: the signing authority of the pending block is compared with
the scheduled producer's, but not the name of its producer.  The two producers may differ if the
slot of the block time is 0, which the header state takes for no time at all.
-/

namespace DcdProtocol.Producer

open Library Chain List

/-! ## Watermarks -/

/-- Every watermark of `W` has grown in `W'`. -/
def WatermarksLe (W W' : FlatMap Name Watermark) : Prop :=
  ∀ n w, W.find? n = some w → ∃ w', W'.find? n = some w' ∧ w.blockNum ≤ w'.blockNum ∧
    w.timestamp.slot ≤ w'.timestamp.slot

/-- The block is at or below the watermark of its producer. -/
def Covers (W : FlatMap Name Watermark) (b : BlockState) : Prop :=
  ∃ w, W.find? b.header.producer = some w ∧ b.blockNum ≤ w.blockNum ∧
    b.header.timestamp.slot ≤ w.timestamp.slot

theorem WatermarksLe.refl (W : FlatMap Name Watermark) : WatermarksLe W W :=
  fun _ w hw => ⟨w, hw, le_rfl, le_rfl⟩

theorem WatermarksLe.trans {W W' W'' : FlatMap Name Watermark} (h : WatermarksLe W W')
    (h' : WatermarksLe W' W'') : WatermarksLe W W'' := by
  intro n w hw
  obtain ⟨w', hw', hnum, htime⟩ := h n w hw
  obtain ⟨w'', hw'', hnum', htime'⟩ := h' n w' hw'
  exact ⟨w'', hw'', hnum.trans hnum', htime.trans htime'⟩

theorem Covers.mono {W W' : FlatMap Name Watermark} {b : BlockState} (hb : Covers W b)
    (h : WatermarksLe W W') : Covers W' b := by
  obtain ⟨w, hw, hnum, htime⟩ := hb
  obtain ⟨w', hw', hnum', htime'⟩ := h _ w hw
  exact ⟨w', hw', hnum.trans hnum', htime.trans htime'⟩

section Watermarks

variable (cfg : ProducerConfig) (W : FlatMap Name Watermark) (b : BlockState)

theorem watermarksLe_onBlockHeader : WatermarksLe W (onBlockHeader cfg W b) := by
  intro n w hw
  unfold onBlockHeader considerNewWatermark
  by_cases hn : n = b.header.producer
  · simp_all
  refine ⟨w, ?_, le_rfl, le_rfl⟩
  split
  · rwa [FlatMap.find?_insert_of_ne _ _ hn]
  · split
    · rwa [FlatMap.find?_emplace, if_neg (by simp [hn])]
    · exact hw

theorem covers_onBlockHeader (hb : b.header.producer ∈ cfg.producers) :
    Covers (onBlockHeader cfg W b) b := by
  unfold Covers onBlockHeader considerNewWatermark
  cases hw : W.find? b.header.producer with
  | some w => exact ⟨_, FlatMap.find?_insert_self _ _ _, le_max_right _ _, le_max_right _ _⟩
  | none =>
    simp [hb, FlatMap.find?_emplace, hw]

theorem watermarksLe_foldl (bs : List BlockState) :
    WatermarksLe W (bs.foldl (onBlockHeader cfg) W) := by
  induction bs generalizing W with
  | nil => exact .refl W
  | cons c bs ih => exact (watermarksLe_onBlockHeader cfg W c).trans (ih (onBlockHeader cfg W c))

theorem covers_foldl {bs : List BlockState} (hmem : b ∈ bs)
    (hb : b.header.producer ∈ cfg.producers) : Covers (bs.foldl (onBlockHeader cfg) W) b := by
  induction bs generalizing W with
  | nil => exact absurd hmem not_mem_nil
  | cons c bs ih =>
    rcases mem_cons.mp hmem with rfl | hmem
    · exact (covers_onBlockHeader cfg W b hb).mono (watermarksLe_foldl cfg _ bs)
    · exact ih _ hmem

end Watermarks

/-! ## Eligible pending blocks -/

/-- A producer of this node may produce the pending block: what it confirms is above the
producer's watermark, and so is its time. -/
def Eligible (cfg : ProducerConfig) (W : FlatMap Name Watermark) (p : PendingBlockHeaderState) :
    Prop :=
  p.producer ∈ cfg.producers ∧ ∀ w, W.find? p.producer = some w →
    w.blockNum.toNat + p.confirmed.toNat < p.blockNum.toNat ∧ w.timestamp.slot < p.timestamp.slot

namespace Start

/-- The time of the block that the header state starts. -/
def actualTime (st : Start) : BlockTimestamp :=
  if st.time ≠ {} then st.time else ⟨st.head.header.timestamp.slot + 1⟩

/-- The block that is started has the scheduled producer, and its number does not overflow.  The
first can fail only if the slot of the time asked for is 0. -/
structure Ordinary (st : Start) : Prop where
  producer : ∀ scheduled actual, st.head.getScheduledProducer st.time = some scheduled →
    st.head.getScheduledProducer st.actualTime = some actual →
    actual.producerName = scheduled.producerName
  blockNum : st.head.blockNum.toNat + 1 < 2 ^ 32

theorem ordinary_of_time_ne {st : Start} (htime : st.time ≠ {})
    (hnum : st.head.blockNum.toNat + 1 < 2 ^ 32) : st.Ordinary := by
  refine ⟨?_, hnum⟩
  intro scheduled actual hscheduled hactual
  rw [actualTime, if_pos htime, hscheduled] at hactual
  rw [Option.some.inj hactual]

theorem actualTime_of_nextTimestamp {st : Start} {time : BlockTimestamp}
    (hok : st.head.nextTimestamp st.time = .ok time) : time = st.actualTime := by
  unfold BlockHeaderState.nextTimestamp at hok
  unfold actualTime
  split_ifs at hok ⊢ with htime
  · simp only [bind_ok_iff, pure_ok_iff] at hok
    obtain ⟨_, -, rfl⟩ := hok
    rfl
  · exact (pure_ok_iff.mp hok).symm

end Start

namespace ProducerPlugin

theorem toNat_toUInt16_le (n : UInt32) : n.toUInt16.toNat ≤ n.toNat := by
  exact Nat.mod_le _ _

variable {head : BlockHeaderState} {w : Watermark}

theorem blocksSinceWatermark_le (hw : w.blockNum ≤ head.blockNum) :
    (blocksSinceWatermark head (some w)).toNat ≤ head.blockNum.toNat - w.blockNum.toNat := by
  rw [blocksSinceWatermark]
  split_ifs
  · calc _ ≤ (min 65535 (head.blockNum - w.blockNum)).toNat := toNat_toUInt16_le _
      _ ≤ (head.blockNum - w.blockNum).toNat := UInt32.le_iff_toNat_le.mp (min_le_right _ _)
      _ = head.blockNum.toNat - w.blockNum.toNat :=
        toNat_sub_of_toNat_le (UInt32.le_iff_toNat_le.mp hw)
  · exact Nat.zero_le _

theorem blocksToConfirm_le (hw : w.blockNum ≤ head.blockNum) :
    w.blockNum.toNat + (blocksToConfirm head (some w)).toNat ≤ head.blockNum.toNat := by
  have hconfirm : (blocksToConfirm head (some w)).toNat ≤
      (blocksSinceWatermark head (some w)).toNat := by
    calc _ ≤ (min (blocksSinceWatermark head (some w)).toUInt32
          (head.blockNum - head.dposIrreversibleBlocknum)).toNat := toNat_toUInt16_le _
      _ ≤ (blocksSinceWatermark head (some w)).toUInt32.toNat :=
        UInt32.le_iff_toNat_le.mp (min_le_left _ _)
  have hsince := blocksSinceWatermark_le hw
  rw [UInt32.le_iff_toNat_le] at hw
  omega

variable {scheduled : ProducerAuthority} {s : ProducerPlugin} {E : ProducerPlugin → Prop}
  {p : PendingBlockHeaderState} {W : FlatMap Name Watermark}

theorem eligible_of_next {cfg : ProducerConfig} {crypto : Crypto} (st : Start)
    (hscheduled : st.head.getScheduledProducer st.time = some scheduled)
    (hmem : scheduled.producerName ∈ cfg.producers)
    (hexcludes : watermarkExcludes st.head.toBlockHeaderState st.time
      (W.find? scheduled.producerName) = false)
    (hnext : st.head.next crypto st.time (blocksToConfirm st.head.toBlockHeaderState
      (W.find? scheduled.producerName)) = .ok p) (hst : st.Ordinary) : Eligible cfg W p := by
  obtain ⟨time, actual, htime, hactual, -, rfl⟩ := BlockHeaderState.next_ok hnext
  obtain rfl := Start.actualTime_of_nextTimestamp htime
  have hname : actual.producerName = scheduled.producerName :=
    hst.producer scheduled actual hscheduled hactual
  refine ⟨hname ▸ hmem, ?_⟩
  intro w hw
  change W.find? actual.producerName = some w at hw
  rw [hname] at hw
  rw [hw] at hexcludes
  simp only [watermarkExcludes, Bool.or_eq_false_iff, decide_eq_false_iff_not, not_lt, not_le,
    ge_iff_le] at hexcludes
  obtain ⟨hnum, hslot⟩ := hexcludes
  have hconfirm := blocksToConfirm_le hnum
  refine ⟨?_, ?_⟩
  · show w.blockNum.toNat + (blocksToConfirm _ _).toNat < (st.head.blockNum + 1).toNat
    rw [hw, toNat_add_one_of_lt hst.blockNum]
    omega
  · -- a watermark excludes the slot 0, so the time is the one asked for
    have htime : st.time ≠ {} := by grind
    rwa [Start.actualTime, if_pos htime]

/-! ## The invariant -/

variable (cfg : ProducerConfig)

/-- Of two blocks of one producer, the second confirms no block up to the first and is later. -/
def Precedes (b c : BlockState) : Prop :=
  b.header.producer = c.header.producer →
    b.blockNum.toNat + c.header.confirmed.toNat < c.blockNum.toNat ∧
      b.header.timestamp.slot < c.header.timestamp.slot

def StartsOrdinary (s : ProducerPlugin) : Prop := ∀ st ∈ s.starts, st.Ordinary

/-- The part of the invariant that does not depend on the mode. -/
structure Base (s : ProducerPlugin) : Prop where
  handled : s.chain.acceptedHeaders = []
  timers_le : ∀ t ∈ s.timers, t.corelationId ≤ s.timerCorelationId
  timers_distinct : (s.timers.map Timer.corelationId).Nodup
  covered : s.StartsOrdinary → ∀ b ∈ s.produced, Covers s.producerWatermarks b
  ordered : s.StartsOrdinary → s.produced.Pairwise Precedes

/-- A pending block in producing mode is eligible. -/
def Ready (s : ProducerPlugin) : Prop :=
  s.StartsOrdinary → s.pendingBlockMode = .producing →
    ∀ p, s.chain.pending = some (.building p) → Eligible cfg s.producerWatermarks p

/-- A timer that may produce finds an eligible block. -/
def Armed (s : ProducerPlugin) : Prop :=
  (∃ t ∈ s.timers, t.corelationId = s.timerCorelationId ∧ t.handler = .maybeProduceBlock) →
    s.Ready cfg

def Idle (s : ProducerPlugin) : Prop :=
  s.chain.pending = none ∨ ∀ t ∈ s.timers, t.corelationId ≠ s.timerCorelationId

structure Invariant (s : ProducerPlugin) : Prop where
  base : s.Base
  armed : s.Armed cfg

/-- The invariant while there is no pending block. -/
structure Cleared (s : ProducerPlugin) : Prop where
  base : s.Base
  pending : s.chain.pending = none

variable {cfg}

theorem Ready.armed (hs : s.Ready cfg) : s.Armed cfg := fun _ => hs

theorem Cleared.ready (hs : s.Cleared) : s.Ready cfg := by
  intro _ _ p hp
  rw [hs.pending] at hp
  cases hp

theorem Cleared.invariant (hs : s.Cleared) : s.Invariant cfg := ⟨hs.base, hs.ready.armed⟩

theorem Idle.armed (hs : s.Idle) : s.Armed cfg := by
  rintro ⟨t, ht, hid, -⟩
  rcases hs with hpending | htimers
  · intro _ _ p hp
    rw [hpending] at hp
    cases hp
  · exact absurd hid (htimers t ht)

/-! ### Timers -/

theorem setTimer_spec (handler : TimerHandler) :
    Triple (fun s => s.Base ∧ (handler = .maybeProduceBlock → s.Ready cfg)) (setTimer handler)
      (fun _ => Invariant cfg) E := by
  rintro s ⟨hs, hready⟩
  refine ⟨⟨hs.handled, ?_, ?_, hs.covered, hs.ordered⟩, ?_⟩
  · intro t ht
    rcases mem_append.mp ht with ht | ht
    · exact (hs.timers_le t ht).trans (Nat.le_succ _)
    · rw [mem_singleton.mp ht]
  · rw [map_append, nodup_append]
    refine ⟨hs.timers_distinct, nodup_singleton _, ?_⟩
    intro id hid id' hid'
    obtain ⟨t, ht, rfl⟩ := mem_map.mp hid
    rw [mem_singleton.mp hid']
    exact Nat.ne_of_lt (Nat.lt_succ_of_le (hs.timers_le t ht))
  · rintro ⟨t, ht, hid, hhandler⟩
    rcases mem_append.mp ht with ht | ht
    · have hle := hs.timers_le t ht
      exact absurd hid (Nat.ne_of_lt (Nat.lt_succ_of_le hle))
    · rw [mem_singleton.mp ht] at hhandler
      exact hready hhandler

theorem scheduleDelayedProductionLoop_spec (wakeUpTime : Option ℤ) :
    Triple (Invariant cfg) (scheduleDelayedProductionLoop wakeUpTime)
      (fun _ => Invariant cfg) E := by
  refine .ite (fun _ => ?_) fun _ => .pure fun s hs => hs
  exact (setTimer_spec .scheduleProductionLoop).weaken
    (fun s hs => ⟨hs.base, fun h => by cases h⟩) (fun _ s hs => hs) fun s hs => hs

/-! ### Operations on the controller -/

theorem Base.absorb (hs : s.Base) (chain : Controller) :
    (absorb cfg chain s).Base where
  handled := rfl
  timers_le := hs.timers_le
  timers_distinct := hs.timers_distinct
  covered hst b hb := (hs.covered hst b hb).mono (watermarksLe_foldl cfg _ _)
  ordered := hs.ordered

theorem producerWatermarks_absorb {chain : Controller} (hchain : chain.acceptedHeaders = [])
    (s : ProducerPlugin) : (absorb cfg chain s).producerWatermarks = s.producerWatermarks := by
  rw [absorb, hchain]
  rfl

theorem abortBlock_spec : Triple Base (abortBlock cfg) (fun _ => Cleared) E := by
  have habort : Triple (fun _ => True) Controller.abortBlock
      (fun _ s => s.pending = none) (fun _ => False) := .modifyState fun _ _ => rfl
  exact .zoom habort (fun _ _ => trivial) (fun s t _ hs ht => ⟨hs.absorb t, ht⟩)
    fun _ _ _ h => h.elim

variable (ctx : HeaderContext) {time : BlockTimestamp} {t : ProducerPlugin}

theorem pushBlock_spec (i : BlockInput) :
    Triple Cleared (pushBlock cfg ctx i) (fun _ => Cleared) Cleared :=
  .zoom ((Controller.switchInvariant_noPending ctx).keeps_pushBlock i.block i.outcome i.again)
    (fun _ hs => hs.pending) (fun _ t _ hs ht => ⟨hs.base.absorb t, ht⟩)
    fun _ t hs ht => ⟨hs.base.absorb t, ht⟩

/-! ### The production loop -/

theorem chooseMode_eq_producing {i : LoopInput}
    (hmode : chooseMode cfg s i scheduled time = .producing) :
    scheduled.producerName ∈ cfg.producers ∧ watermarkExcludes s.chain.head.toBlockHeaderState time
        (s.producerWatermarks.find? scheduled.producerName) = false := by
  unfold chooseMode at hmode
  split_ifs at hmode with hrefused hexcludes
  refine ⟨?_, by simpa using hexcludes⟩
  simp only [productionRefused, Bool.or_eq_true, decide_eq_true_eq, not_or, not_not] at hrefused
  exact hrefused.1.1.1.1.2

/-- While the pending block of `t` is being replaced by a block at `time`. -/
structure Replacing (t : ProducerPlugin) (time : BlockTimestamp) (s : ProducerPlugin) : Prop where
  base : s.Base
  mode : s.pendingBlockMode = t.pendingBlockMode
  watermarks : s.producerWatermarks = t.producerWatermarks
  recorded : t.pendingBlockMode = .producing → ⟨t.chain.head, time⟩ ∈ s.starts

theorem abortAndRecord_spec (time : BlockTimestamp) (ht : t.Base) :
    Triple (fun s => s = t) (abortAndRecord cfg time t.pendingBlockMode)
      (fun _ s => Replacing t time s ∧ s.chain.pending = none ∧ s.chain.head = t.chain.head) E := by
  have habort : Triple (fun c => c = t.chain) Controller.abortBlock
      (fun _ c => c = { t.chain with pending := none }) (fun _ => False) :=
    .modifyState fun c hc => by rw [hc]
  refine .bind (Q := fun _ s => s.Base ∧ s.pendingBlockMode = t.pendingBlockMode ∧
    s.producerWatermarks = t.producerWatermarks ∧ s.chain.pending = none ∧
    s.chain.head = t.chain.head) ?_ fun _ => ?_
  · refine .zoom habort (fun s hs => by rw [hs]) ?_ fun _ _ _ h => h.elim
    rintro s c _ rfl rfl
    exact ⟨ht.absorb _, rfl, producerWatermarks_absorb ht.handled s, rfl, rfl⟩
  refine .modifyState ?_
  rintro s ⟨hbase, hmode, hwatermarks, hpending, hhead⟩
  split_ifs with hproducing
  · refine ⟨⟨⟨hbase.handled, hbase.timers_le, hbase.timers_distinct, ?_, ?_⟩, hmode,
      hwatermarks, fun _ => ?_⟩, hpending, hhead⟩
    · exact fun hst => hbase.covered fun st hmem => hst st (mem_append_left _ hmem)
    · exact fun hst => hbase.ordered fun st hmem => hst st (mem_append_left _ hmem)
    · grind
  · exact ⟨⟨hbase, hmode, hwatermarks, fun h => absurd h hproducing⟩, hpending, hhead⟩

theorem replacePendingBlock_spec (i : LoopInput) (ht : t.Base)
    (hscheduled : t.chain.head.getScheduledProducer time = some scheduled)
    (hproducing : t.pendingBlockMode = .producing → scheduled.producerName ∈ cfg.producers ∧
      watermarkExcludes t.chain.head.toBlockHeaderState time
        (t.producerWatermarks.find? scheduled.producerName) = false) :
    Triple (fun s => s = t) (replacePendingBlock cfg ctx i scheduled time t.pendingBlockMode)
      (fun _ s => s.Base ∧ s.Ready cfg) E := by
  refine .getState fun u hu => ?_
  subst hu
  refine .bind (abortAndRecord_spec time ht) fun _ => ?_
  refine .bind (Q := fun _ s => s.Base ∧ s.Ready cfg) (.tryCatch (F := fun s => s.Base ∧ s.Ready cfg)
    ?_ fun _ => .pure fun s hs => hs) fun _ => ?_
  · refine .zoom (Controller.startBlock_spec ctx u.chain.head time _ i.startThrows) ?_ ?_ ?_
    · rintro s ⟨hs, hpending, hhead⟩
      exact ⟨hpending, hs.base.handled, hhead⟩
    · rintro s c - ⟨hs, -, -⟩ ⟨haccepted, -, p, hp, hnext⟩
      refine ⟨hs.base.absorb c, ?_⟩
      intro hst hmode p' hp'
      have hmode : u.pendingBlockMode = .producing := hs.mode ▸ hmode
      obtain rfl : p = p' := by simpa using hp.symm.trans hp'
      obtain ⟨hmem, hexcludes⟩ := hproducing hmode
      rw [if_pos hmode] at hnext
      rw [producerWatermarks_absorb haccepted, hs.watermarks]
      exact eligible_of_next ⟨u.chain.head, time⟩ hscheduled hmem hexcludes hnext
        (hst _ (hs.recorded hmode))
    · rintro s c ⟨hs, -, -⟩ ⟨hpending, -⟩
      exact ⟨hs.base.absorb c, Cleared.ready ⟨hs.base.absorb c, hpending⟩⟩
  · refine .readState fun v => ?_
    split
    · exact .pure fun s hs => hs
    refine .bind (Q := fun _ s => s.Base ∧ s.Ready cfg) (.modifyState ?_) fun _ =>
      .pure fun s hs => hs
    rintro s ⟨hbase, hready⟩
    split_ifs
    · exact ⟨⟨hbase.handled, hbase.timers_le, hbase.timers_distinct, hbase.covered,
        hbase.ordered⟩, fun _ h => by cases h⟩
    · exact ⟨hbase, hready⟩

/-- What `start_block` establishes: a block that it has started is eligible. -/
def Started (cfg : ProducerConfig) (r : StartBlockResult) (s : ProducerPlugin) : Prop :=
  s.Invariant cfg ∧ (r = .succeeded ∨ r = .exhausted → s.Ready cfg)

theorem startBlock_spec (i : LoopInput) :
    Triple (fun s => s.Base ∧ s.Idle) (startBlock cfg ctx i) (Started cfg) (Invariant cfg) := by
  refine .getState fun t ⟨ht, hidle⟩ => ?_
  have hkept : ∀ (r : StartBlockResult) (s : ProducerPlugin), (r ≠ .succeeded ∧ r ≠ .exhausted) →
      s.Invariant cfg → Started cfg r s := fun r s hr hs =>
    ⟨hs, fun h => absurd h (not_or.mpr hr)⟩
  refine .ite (fun _ => .pure ?_) fun _ => .ite (fun _ => .pure ?_) fun _ => ?_
  · rintro s rfl
    exact hkept _ _ (by decide) ⟨ht, hidle.armed⟩
  · rintro s rfl
    exact hkept _ _ (by decide) ⟨ht, hidle.armed⟩
  dsimp only
  split
  · refine .throw ?_
    rintro s rfl
    exact ⟨ht, hidle.armed⟩
  case h_2 scheduled hscheduled =>
    generalize hblockTime : calculatePendingBlockTime i.pendingNow t.chain.head.toBlockHeaderState =
      blockTime at hscheduled ⊢
    generalize hmode : chooseMode cfg t i scheduled (timestampOf blockTime) = mode
    have hu : ({ t with pendingBlockMode := mode } : ProducerPlugin).Base :=
      ⟨ht.handled, ht.timers_le, ht.timers_distinct, ht.covered, ht.ordered⟩
    have hidle' : ({ t with pendingBlockMode := mode } : ProducerPlugin).Idle := hidle
    refine .bind (Q := fun _ s => s = { t with pendingBlockMode := mode })
      (.modifyState fun s hs => by rw [hs]) fun _ => ?_
    have hdelayed (wakeUpTime : Option ℤ) :
        Triple (fun s => s = { t with pendingBlockMode := mode })
          (do
            scheduleDelayedProductionLoop wakeUpTime
            pure StartBlockResult.waitingForProduction : ProducerM StartBlockResult)
          (Started cfg) (Invariant cfg) := by
      refine .bind (Q := fun _ => Invariant cfg)
        ((scheduleDelayedProductionLoop_spec wakeUpTime).weaken ?_ (fun _ s hs => hs) fun s hs => hs)
        fun _ => .pure fun s hs => hkept _ _ (by decide) hs
      rintro s rfl
      exact ⟨hu, hidle'.armed⟩
    refine .ite (fun _ => .pure ?_) fun _ => .ite (fun _ => hdelayed _) fun _ =>
      .ite (fun _ => hdelayed _) fun _ => ?_
    · rintro s rfl
      exact hkept _ _ (by decide) ⟨hu, hidle'.armed⟩
    refine (replacePendingBlock_spec ctx i hu hscheduled ?_).weaken (fun s hs => hs)
      (fun r s hs => ⟨⟨hs.1, hs.2.armed⟩, fun _ => hs.2⟩) fun s hs => hs
    rintro rfl
    exact chooseMode_eq_producing hmode

/-! ### Timers of the production loop -/

theorem scheduleMaybeProduceBlock_spec :
    Triple (fun s => s.Invariant cfg ∧ s.Ready cfg) scheduleMaybeProduceBlock
      (fun _ => Invariant cfg) (Invariant cfg) := by
  refine .readState fun s => ?_
  refine .bind (Q := fun _ s => s.Base ∧ s.Ready cfg)
    (.ofExcept (fun _ s hs _ => ⟨hs.1.base, hs.2⟩) fun s hs => hs.1) fun _ => ?_
  exact (setTimer_spec .maybeProduceBlock).weaken (fun s hs => ⟨hs.1, fun _ => hs.2⟩)
    (fun _ s hs => hs) fun s hs => hs

theorem scheduleNext_spec (i : LoopInput) (r : StartBlockResult) :
    Triple (Started cfg r) (scheduleNext cfg i r) (fun _ => Invariant cfg) (Invariant cfg) := by
  have hstarted : Triple (fun s => s.Invariant cfg ∧ s.Ready cfg) (scheduleStarted cfg i)
      (fun _ => Invariant cfg) (Invariant cfg) := by
    refine .readState fun s => ?_
    split
    · exact scheduleMaybeProduceBlock_spec
    refine .readState fun s => .ite (fun _ => ?_) fun _ => .pure fun s hs => hs.1
    split
    · exact .throw fun s hs => hs.1
    · exact (scheduleDelayedProductionLoop_spec _).weaken (fun s hs => hs.1) (fun _ s hs => hs)
        fun s hs => hs
  cases r with
  | failed =>
    exact (setTimer_spec .scheduleProductionLoop).weaken
      (fun s hs => ⟨hs.1.base, fun h => by cases h⟩) (fun _ s hs => hs) fun s hs => hs
  | waitingForBlock =>
    refine .readState fun s => .ite (fun _ => ?_) fun _ => .pure fun s hs => hs.1
    exact (scheduleDelayedProductionLoop_spec _).weaken (fun s hs => hs.1) (fun _ s hs => hs)
      fun s hs => hs
  | waitingForProduction => exact .pure fun s hs => hs.1
  | succeeded =>
    exact hstarted.weaken (fun s hs => ⟨hs.1, hs.2 (.inl rfl)⟩) (fun _ s hs => hs) fun s hs => hs
  | exhausted =>
    exact hstarted.weaken (fun s hs => ⟨hs.1, hs.2 (.inr rfl)⟩) (fun _ s hs => hs) fun s hs => hs

theorem scheduleProductionLoop_spec (i : LoopInput) :
    Triple (fun s => s.Base ∧ s.Idle) (scheduleProductionLoop cfg ctx i) (fun _ => Invariant cfg)
      (Invariant cfg) :=
  .bind (startBlock_spec ctx i) fun r => scheduleNext_spec i r

theorem ensureProductionLoop_spec (i : LoopInput) {P : ProducerPlugin → Prop} {x : ProducerM Unit}
    (hx : Triple P x (fun _ => Cleared) Cleared) :
    Triple P (ensureProductionLoop cfg ctx i x) (fun _ => Invariant cfg) (Invariant cfg) := by
  have hloop {E : ProducerPlugin → Prop} : Triple Cleared
      (tryCatch (scheduleProductionLoop cfg ctx i) fun _ => pure ())
      (fun _ => Invariant cfg) E := by
    refine .tryCatch (F := Invariant cfg) ?_ fun _ => .pure fun s hs => hs
    exact (scheduleProductionLoop_spec ctx i).weaken (fun s hs => ⟨hs.base, .inl hs.pending⟩)
      (fun _ s hs => hs) fun s hs => hs
  refine .bind (Q := fun _ => Cleared) (.tryCatch (F := Cleared) hx fun e => ?_) fun _ => hloop
  exact .bind hloop fun _ => .throw fun s hs => hs

/-! ### Producing -/

theorem precedes_of_eligible
    {b c : BlockState} (hp : Eligible cfg W p) (hc : p.Completes c) (hb : Covers W b) :
    Precedes b c := by
  intro hproducer
  obtain ⟨w, hw, hnum, htime⟩ := hb
  rw [hproducer, hc.producer] at hw
  obtain ⟨hnum', htime'⟩ := hp.2 w hw
  rw [hc.confirmed, hc.blockNum, hc.timestamp]
  refine ⟨?_, lt_of_le_of_lt htime htime'⟩
  rw [UInt32.le_iff_toNat_le] at hnum
  omega

/-- The block `b` that `produce_block` has completed may be added to the produced ones. -/
def Producible (cfg : ProducerConfig) (b : BlockState) (s : ProducerPlugin) : Prop :=
  s.StartsOrdinary → b.header.producer ∈ cfg.producers ∧ ∀ c ∈ s.produced, Precedes c b

theorem commit_spec (i : ProduceInput) (b : BlockState) :
    Triple (fun s => s.Base ∧ s.chain.pending = some (.completed b) ∧ s.Producible cfg b)
      (do
        onChain cfg (Controller.commitBlock ctx i.commitThrows i.outcome)
        modify fun s => { s with produced := s.produced ++ [b] })
      (fun _ => Cleared) Base := by
  refine .bind (Q := fun _ s => s.Cleared ∧ s.Producible cfg b ∧
    (s.StartsOrdinary → Covers s.producerWatermarks b)) ?_ fun _ => ?_
  · refine .zoom (Controller.commitBlock_spec b i.commitThrows i.outcome) (fun s hs => hs.2.1) ?_
      fun s c hs _ => hs.1.absorb c
    rintro s c - ⟨hbase, -, hproducible⟩ ⟨haccepted, hpending⟩
    refine ⟨⟨hbase.absorb c, hpending⟩, hproducible, ?_⟩
    exact fun hst => covers_foldl cfg _ b haccepted (hproducible hst).1
  refine .modifyState ?_
  rintro s ⟨⟨hbase, hpending⟩, hproducible, hcovers⟩
  refine ⟨⟨hbase.handled, hbase.timers_le, hbase.timers_distinct, ?_, ?_⟩, hpending⟩
  · intro hst c hc
    rcases mem_append.mp hc with hc | hc
    · exact hbase.covered hst c hc
    · rw [mem_singleton.mp hc]
      exact hcovers hst
  · intro hst
    refine pairwise_append.mpr ⟨hbase.ordered hst, pairwise_singleton _ _, ?_⟩
    intro c hc d hd
    rw [mem_singleton.mp hd]
    exact (hproducible hst).2 c hc

theorem produceBlock_spec (i : ProduceInput) :
    Triple (fun s => s.Base ∧ s.Ready cfg) (produceBlock cfg ctx i) (fun _ => Cleared) Base := by
  refine .getState fun t ⟨ht, hready⟩ => ?_
  have hkeep : ∀ s, s = t → s.Base := by
    rintro s rfl
    exact ht
  refine .bind (Q := fun _ s => s = t ∧ t.pendingBlockMode = .producing)
    (.ofExcept (fun _ s hs hmode => ⟨hs, dcdAssert_ok_iff.mp hmode⟩) hkeep) fun _ => ?_
  split
  · exact .throw fun s hs => hkeep s hs.1
  case h_2 stage hstage =>
    refine .bind (Q := fun _ s => s = t ∧ t.pendingBlockMode = .producing)
      (.ofExcept (fun _ s hs _ => hs) fun s hs => hkeep s hs.1) fun _ => ?_
    refine .bind (Q := fun _ s => s.Base ∧ ∃ b, s.chain.pending = some (.completed b) ∧
      s.Producible cfg b) ?_ fun _ => ?_
    · refine .zoom (Controller.finalizeBlock_spec ctx _ (some stage)) ?_ ?_ ?_
      · rintro s ⟨rfl, -⟩
        exact ⟨ht.handled, hstage⟩
      · rintro s c - ⟨rfl, hmode⟩ ⟨haccepted, p, b, hp, hpending, hb⟩
        refine ⟨ht.absorb c, b, hpending, ?_⟩
        intro hst
        have heligible := hready hst hmode p (hstage.trans hp)
        refine ⟨hb.producer ▸ heligible.1, ?_⟩
        exact fun d hd => precedes_of_eligible heligible hb (ht.covered hst d hd)
      · rintro s c ⟨rfl, -⟩ -
        exact ht.absorb c
    · refine .getState fun u ⟨hu, b, hpending, hproducible⟩ => ?_
      rw [hpending]
      refine .bind (Q := fun _ s => s.Base ∧ s.chain.pending = some (.completed b) ∧
        s.Producible cfg b) (.ite (fun _ => .pure ?_) fun _ => ?_) fun _ => commit_spec ctx i b
      · grind
      · refine .bind (Q := fun _ => Base) (.modifyState ?_) fun _ => .throw fun s hs => hs
        rintro s rfl
        exact ⟨hu.handled, hu.timers_le, hu.timers_distinct, hu.covered, hu.ordered⟩

theorem maybeProduceBlock_spec (i : ProduceInput) (loop : LoopInput) :
    Triple (fun s => s.Base ∧ s.Ready cfg) (maybeProduceBlock cfg ctx i loop)
      (fun _ => Invariant cfg) (Invariant cfg) :=
  ensureProductionLoop_spec ctx loop (.tryCatch (produceBlock_spec ctx i) fun _ => abortBlock_spec)

/-! ### The other operations -/

theorem onSyncBlock_spec (i : BlockInput) :
    Triple (Invariant cfg) (onSyncBlock cfg ctx i) (fun _ => Invariant cfg) (Invariant cfg) := by
  refine .readState fun s => .ite (fun _ => .pure fun s hs => hs) fun _ => ?_
  refine .bind (Q := fun _ => Base) (.ofExcept (fun _ s hs _ => hs.base) fun s hs => hs) fun _ => ?_
  refine .bind abortBlock_spec fun _ => ?_
  exact (pushBlock_spec ctx i).weaken (fun s hs => hs) (fun _ s hs => hs.invariant)
    fun s hs => hs.invariant

theorem onIncomingBlock_spec (i : BlockInput) (loop : LoopInput) :
    Triple (Invariant cfg) (onIncomingBlock cfg ctx i loop) (fun _ => Invariant cfg)
      (Invariant cfg) := by
  refine .readState fun s => .ite (fun _ => .pure fun s hs => hs) fun _ => ?_
  refine .bind (Q := fun _ => Invariant cfg) (.ofExcept (fun _ s hs _ => hs) fun s hs => hs)
    fun _ => ?_
  refine .ite (fun _ => .pure fun s hs => hs) fun _ => ?_
  refine .bind (Q := fun _ => Base) (.ofExcept (fun _ s hs _ => hs.base) fun s hs => hs) fun _ => ?_
  refine .bind abortBlock_spec fun _ => ?_
  refine ensureProductionLoop_spec ctx loop ?_
  refine .bind (pushBlock_spec ctx i) fun _ => ?_
  refine .readState fun s => ?_
  refine .bind (Q := fun _ => Cleared) (.ofExcept (fun _ s hs _ => hs) fun s hs => hs) fun _ => ?_
  refine .modifyState ?_
  rintro s ⟨hs, hpending⟩
  split_ifs
  · exact ⟨⟨hs.handled, hs.timers_le, hs.timers_distinct, hs.covered, hs.ordered⟩, hpending⟩
  · exact ⟨hs, hpending⟩

theorem abortAndLoop_spec (loop : LoopInput) :
    Triple (Invariant cfg)
      (do
        abortBlock cfg
        scheduleProductionLoop cfg ctx loop) (fun _ => Invariant cfg) (Invariant cfg) := by
  refine .bind (Q := fun _ => Cleared)
    (abortBlock_spec.weaken (fun s hs => hs.base) (fun _ s hs => hs) fun s hs => hs) fun _ => ?_
  exact (scheduleProductionLoop_spec ctx loop).weaken (fun s hs => ⟨hs.base, .inl hs.pending⟩)
    (fun _ s hs => hs) fun s hs => hs

theorem onIncomingTransactionAsync_spec (fits : Bool) (loop : LoopInput) :
    Triple (Invariant cfg) (onIncomingTransactionAsync cfg ctx fits loop) (fun _ => Invariant cfg)
      (Invariant cfg) := by
  refine .readState fun s => .ite (fun _ => .pure fun s hs => hs) fun hexhausted => ?_
  simp [processIncomingTransactionAsync, blockIsExhausted] at hexhausted

theorem reconsider_spec (loop : LoopInput) :
    Triple (Invariant cfg) (reconsider cfg ctx loop) (fun _ => Invariant cfg) (Invariant cfg) :=
  .readState fun _ => .ite (fun _ => abortAndLoop_spec ctx loop) fun _ => .pure fun _ hs => hs

theorem Invariant.setOptions (hs : s.Invariant cfg) (paused : Bool) (age : ℤ) :
    ({ s with pauseProduction := paused, maxIrreversibleBlockAge := age } :
      ProducerPlugin).Invariant cfg :=
  ⟨⟨hs.base.handled, hs.base.timers_le, hs.base.timers_distinct, hs.base.covered,
    hs.base.ordered⟩, hs.armed⟩

theorem Base.erase (hs : s.Base) (t : Timer) :
    ({ s with timers := s.timers.erase t } : ProducerPlugin).Base where
  handled := hs.handled
  timers_le u hu := hs.timers_le u (mem_of_mem_erase hu)
  timers_distinct := hs.timers_distinct.sublist (erase_sublist.map _)
  covered := hs.covered
  ordered := hs.ordered

/-- After the handler of the current timer has been taken, no timer has its correlation id. -/
theorem Base.ne_of_mem_erase (hs : s.Base) {t u : Timer} (ht : t ∈ s.timers)
    (hu : u ∈ s.timers.erase t) : u.corelationId ≠ t.corelationId := by
  obtain ⟨hne, hu⟩ := (List.Nodup.of_map _ hs.timers_distinct).mem_erase_iff.mp hu
  exact fun heq => hne (inj_on_of_nodup_map hs.timers_distinct hu ht heq)

theorem runTimer_spec (hs : s.Invariant cfg) {t : Timer} (ht : t ∈ s.timers)
    (i : ProduceInput) (loop : LoopInput) :
    Triple (fun u => u = s) (runTimer cfg ctx t i loop) (fun _ => Invariant cfg)
      (Invariant cfg) := by
  refine .bind (Q := fun _ u => u = { s with timers := s.timers.erase t })
    (.modifyState fun u hu => by rw [hu]) fun _ => ?_
  refine .getState fun u hu => ?_
  subst hu
  refine .ite (fun hid => ?_) fun _ => ?_
  · split
    case h_1 hhandler =>
      refine (scheduleProductionLoop_spec ctx loop).weaken ?_ (fun _ s hs => hs) fun s hs => hs
      rintro v rfl
      refine ⟨hs.base.erase t, .inr ?_⟩
      intro w hw
      have hne := hs.base.ne_of_mem_erase ht hw
      rwa [hid] at hne
    case h_2 hhandler =>
      refine (maybeProduceBlock_spec ctx i loop).weaken ?_ (fun _ s hs => hs) fun s hs => hs
      rintro v rfl
      have hready : s.Ready cfg := hs.armed ⟨t, ht, hid, hhandler⟩
      exact ⟨hs.base.erase t, hready⟩
  · refine .pure ?_
    rintro v rfl
    refine ⟨hs.base.erase t, ?_⟩
    rintro ⟨w, hw, hid, hhandler⟩
    exact hs.armed ⟨w, mem_of_mem_erase hw, hid, hhandler⟩

/-! ## Runs -/

theorem invariant_step (hs : s.Invariant cfg) (i : ProducerInput) :
    (s.step cfg ctx i).Invariant cfg := by
  have hop : Triple (fun u => u = s) (operation cfg ctx s i) (fun _ => Invariant cfg)
      (Invariant cfg) := by
    have hkeep : ∀ u, u = s → u.Invariant cfg := by grind
    cases i with
    | timer t i loop =>
      refine .ite (fun ht => ?_) fun _ => .pure hkeep
      exact runTimer_spec ctx hs ht i loop
    | syncBlock i => exact (onSyncBlock_spec ctx i).weaken hkeep (fun _ s hs => hs) fun s hs => hs
    | incomingBlock i loop =>
      exact (onIncomingBlock_spec ctx i loop).weaken hkeep (fun _ s hs => hs) fun s hs => hs
    | incomingTransaction fits loop =>
      exact (onIncomingTransactionAsync_spec ctx fits loop).weaken hkeep (fun _ s hs => hs)
        fun s hs => hs
    | pause =>
      rintro u rfl
      exact hs.setOptions _ _
    | resume loop =>
      refine .bind (Q := fun _ => Invariant cfg) (.modifyState ?_) fun _ => reconsider_spec ctx loop
      rintro u rfl
      exact hs.setOptions _ _
    | updateRuntimeOptions age loop =>
      cases age with
      | none => exact .pure hkeep
      | some age =>
        refine .bind (Q := fun _ => Invariant cfg) (.modifyState ?_) fun _ =>
          reconsider_spec ctx loop
        rintro u rfl
        exact hs.setOptions _ _
    | readState loop =>
      refine .readState fun t => .ite (fun _ => ?_) fun _ => .pure hkeep
      exact (abortAndLoop_spec ctx loop).weaken hkeep (fun _ s hs => hs) fun s hs => hs
  exact hop.exec_snd rfl

theorem invariant_startUp (chain : Controller) (productionEnabled pauseProduction : Bool)
    (loop : LoopInput) :
    (startUp cfg ctx chain productionEnabled pauseProduction loop).Invariant cfg := by
  refine (scheduleProductionLoop_spec ctx loop).exec_snd ⟨⟨rfl, ?_, ?_, ?_, ?_⟩, .inl rfl⟩
  · simp
  · exact nodup_nil
  · simp
  · exact fun _ => .nil

abbrev ProducerRun (cfg : ProducerConfig) (ctx : HeaderContext) (s₀ : ProducerPlugin) :=
  Run (fun s i s' => step cfg ctx s i = s') s₀

/-- The numbers of the blocks that a block confirms, and its own. -/
def confirmationInterval (b : BlockState) : Set ℕ :=
  .Icc (b.blockNum.toNat - b.header.confirmed.toNat) b.blockNum.toNat

/-- If all starts of a run are ordinary, the blocks produced for one producer have increasing
numbers and times, and no block number is confirmed twice. -/
theorem produced_never_twice {chain : Controller} {productionEnabled pauseProduction : Bool}
    {loop : LoopInput} {ts : List (Transition ProducerPlugin ProducerInput)} {s : ProducerPlugin}
    (hrun : ProducerRun cfg ctx (startUp cfg ctx chain productionEnabled pauseProduction loop) ts s)
    (hstarts : s.StartsOrdinary) :
    s.produced.Pairwise fun b c => b.header.producer = c.header.producer →
      b.blockNum < c.blockNum ∧ b.header.timestamp.slot < c.header.timestamp.slot ∧
        Disjoint (confirmationInterval b) (confirmationInterval c) := by
  have hinv : s.Invariant cfg := by
    refine hrun.invariant (I := fun _ s => s.Invariant cfg) (invariant_startUp ctx ..) ?_
    rintro ts s i s' - hs rfl
    exact invariant_step ctx hs i
  refine (hinv.base.ordered hstarts).imp ?_
  intro b c hprecedes hproducer
  obtain ⟨hnum, htime⟩ := hprecedes hproducer
  refine ⟨?_, htime, ?_⟩
  · rw [UInt32.lt_iff_toNat_lt]
    omega
  · rw [Set.disjoint_left]
    rintro n ⟨-, hb⟩ ⟨hc, -⟩
    omega

/-! ## Sample runs

A context in which the id of a block depends on its number and its time, so that it has forks. -/

def forkContext : HeaderContext :=
  { sampleContext with
    crypto := { sampleContext.crypto with
      hashHeader := fun h => { h1 := h.timestamp.slot.toUInt64 } } }

/-- A pass of the production loop 100 ms before the time of a slot. -/
def loopAt (slot : ℕ) : LoopInput :=
  let now : ℤ := (slot * blockIntervalMs + blockTimestampEpoch) * 1000 - 100000
  { now, pendingNow := now, waitingNow := now }

def sampleProduce : ProduceInput where
  contents := { completion := .sign fun _ => [default] }
  signer := fun _ => [default]

/-- A node that produces for `producers`, all with one key. -/
def sampleConfig (producers : List Name) : ProducerConfig :=
  { producers, signatureProviders := [default] }

/-- It starts with a new chain, whose genesis block is at the given slot. -/
def sampleStart (producers : List Name) (genesisSlot : UInt32) : ProducerPlugin :=
  startUp (sampleConfig producers) forkContext
    (.genesis forkContext ⟨⟨genesisSlot⟩, default, {}⟩ false) true false
    (loopAt (genesisSlot.toNat + 1))

def sampleState (producers : List Name) (genesisSlot : UInt32) (inputs : List ProducerInput) :
    ProducerPlugin :=
  inputs.foldl (step (sampleConfig producers) forkContext) (sampleStart producers genesisSlot)

/-- The blocks 2 and 3 are produced in the slots 2 and 3. -/
def twoBlocks : List ProducerInput :=
  [ .timer ⟨1, .maybeProduceBlock⟩ sampleProduce (loopAt 2),
    .timer ⟨2, .scheduleProductionLoop⟩ sampleProduce (loopAt 3),
    .timer ⟨3, .maybeProduceBlock⟩ sampleProduce (loopAt 3) ]

theorem startsOrdinary_twoBlocks :
    (sampleState [systemAccountName] 1 twoBlocks).StartsOrdinary := by
  have hstarts : ((sampleState [systemAccountName] 1 twoBlocks).starts.all fun st =>
      decide (st.time ≠ {}) && decide (st.head.blockNum.toNat + 1 < 2 ^ 32)) = true := by
    decide +kernel
  intro st hst
  have h := all_eq_true.mp hstarts st hst
  simp only [Bool.and_eq_true, decide_eq_true_eq] at h
  exact Start.ordinary_of_time_ne h.1 h.2

/-- `p` holds of the only two elements. -/
def ofTwo {α : Type} (p : α → α → Bool) : List α → Bool
  | [b, c] => p b c
  | _ => false

theorem exists_of_ofTwo {α : Type} {p : α → α → Bool} {l : List α} (h : ofTwo p l = true) :
    ∃ b c, l = [b, c] ∧ p b c = true := by
  unfold ofTwo at h
  split at h
  · exact ⟨_, _, rfl, h⟩
  · cases h

theorem produced_never_twice_twoBlocks :
    ∃ b c, (sampleState [systemAccountName] 1 twoBlocks).produced = [b, c] ∧
      b.blockNum = 2 ∧ c.blockNum = 3 ∧
      Disjoint (confirmationInterval b) (confirmationInterval c) := by
  obtain ⟨b, c, hlist, hproduced⟩ := exists_of_ofTwo (show ofTwo (fun b c => b.blockNum == 2 &&
      c.blockNum == 3 && b.header.producer == c.header.producer)
    (sampleState [systemAccountName] 1 twoBlocks).produced = true by decide +kernel)
  obtain ⟨ts, hrun⟩ := exists_run_foldl (step (sampleConfig [systemAccountName]) forkContext)
    (sampleStart [systemAccountName] 1) twoBlocks
  have hpairwise := produced_never_twice forkContext hrun startsOrdinary_twoBlocks
  change (sampleState [systemAccountName] 1 twoBlocks).produced.Pairwise _ at hpairwise
  rw [hlist] at hpairwise
  grind

def childHeader (previous : SignedBlockHeader) (slot : UInt32) (producer : Name)
    (scheduleVersion : UInt32) (newProducers : Option LegacyProducerSchedule) : SignedBlockHeader where
  timestamp := ⟨slot⟩
  producer
  confirmed := 0
  scheduleVersion
  newProducers
  previous := previous.calculateId forkContext.crypto

/-- The last slot before the 32-bit counter wraps around, 2068-01-19. -/
def lastSlot : UInt32 := 4294967295

/-- A chain that starts 59 slots before the last one and announces the producers `p` and `q` in
block 3; on top of block 4 there is a branch with the blocks 5 and 6 of `q`. -/
def receivedHeaders (p q : Name) : List SignedBlockHeader :=
  let b1 := (genesisHeaderState forkContext.crypto ⟨⟨lastSlot - 59⟩, default, {}⟩).header
  let b2 := childHeader b1 (lastSlot - 58) systemAccountName 0 none
  let b3 := childHeader b2 (lastSlot - 57) systemAccountName 0 (some (sampleSchedule 1 [p, q]))
  let b4 := childHeader b3 (lastSlot - 56) systemAccountName 0 none
  let b5 := childHeader b4 (lastSlot - 3) q 1 none
  [b2, b3, b4, b5, childHeader b5 (lastSlot - 2) q 1 none]

/-- The node produces block 5 for `q` in the last slot; then the other branch arrives from the
block vault, and the clock moves on to the slot after the last one. -/
def afterLastSlot (p q : Name) : List ProducerInput :=
  let received := (receivedHeaders p q).map fun h => ProducerInput.syncBlock { block := ⟨h, []⟩ }
  received.take 3 ++
  [ .resume (loopAt lastSlot.toNat),
    .timer ⟨1, .maybeProduceBlock⟩ sampleProduce (loopAt lastSlot.toNat) ] ++
  received.drop 3 ++
  [ .timer ⟨2, .scheduleProductionLoop⟩ sampleProduce (loopAt (lastSlot.toNat + 1)),
    .timer ⟨3, .maybeProduceBlock⟩ sampleProduce (loopAt (lastSlot.toNat + 1)) ]

/-- The node then produces block 7 for `q` in a slot before that of block 5: the slot number 0 is
taken for no time, so block 7 is started in the slot after its parent's, where it is the turn of
`q` and not of `p`. -/
theorem produced_twice_afterLastSlot :
    ∃ ts s b c, ProducerRun (sampleConfig [⟨10⟩, ⟨11⟩]) forkContext
        (sampleStart [⟨10⟩, ⟨11⟩] (lastSlot - 59)) ts s ∧
      s.produced = [b, c] ∧ b.header.producer = ⟨11⟩ ∧ c.header.producer = ⟨11⟩ ∧
      c.header.timestamp.slot < b.header.timestamp.slot := by
  obtain ⟨ts, hrun⟩ := exists_run_foldl (step (sampleConfig [⟨10⟩, ⟨11⟩]) forkContext)
    (sampleStart [⟨10⟩, ⟨11⟩] (lastSlot - 59)) (afterLastSlot ⟨10⟩ ⟨11⟩)
  obtain ⟨b, c, hlist, hproduced⟩ := exists_of_ofTwo (show ofTwo (fun b c =>
      b.header.producer == ⟨11⟩ && c.header.producer == ⟨11⟩ &&
        decide (c.header.timestamp.slot < b.header.timestamp.slot))
    (sampleState [⟨10⟩, ⟨11⟩] (lastSlot - 59) (afterLastSlot ⟨10⟩ ⟨11⟩)).produced = true by
      decide +kernel)
  simp only [Bool.and_eq_true, beq_iff_eq, decide_eq_true_eq, and_assoc] at hproduced
  exact ⟨ts, _, b, c, hrun, hlist, hproduced⟩

/-! ## The confirmations of an own block

Their number is taken from the watermark, which a block of another fork may have set after the node
was started; the header state knows the last block of the producer on its own fork. -/

/-- A node that has received the blocks 2 to 6 is started again. -/
def startedAgain : ProducerPlugin :=
  startUp (sampleConfig [⟨10⟩, ⟨11⟩]) forkContext (sampleState [⟨10⟩, ⟨11⟩] (lastSlot - 59)
    ((receivedHeaders ⟨10⟩ ⟨11⟩).map fun h => .syncBlock { block := ⟨h, []⟩ })).chain true false
      (loopAt (lastSlot.toNat - 1))

end ProducerPlugin

end DcdProtocol.Producer
