import DcdProtocol.Chain.Irreversibility

/-!
# The quorum behind a proposed irreversible block

`confirm_count` holds, for every tracked block, the confirmations still missing.  A block
decrements the entries of the range it confirms, and an entry that reaches zero makes its block
the proposed irreversible one.  That this takes two thirds of the producers rests on the
double-confirm check: no producer decrements an entry twice.

The argument is an invariant over the history of a chain.  `ProducedInvariant` says that
`producer_to_last_produced` bounds every block its producer has signed, also across promotions
that drop a producer and take it up again.  `Tracked` says of each entry that the confirmations
it no longer asks for were given by different producers.

The check computes `block_num + 1 - confirmed` in 32 bits.  A count above `block_num + 1` makes
the difference wrap around, and the check passes whatever the producer has signed before;
`ConfirmsInRange` excludes that, together with schedules whose quorum does not fit the 8-bit
counter and the wrap of the block number itself.
-/

namespace DcdProtocol.Chain

open Library List PendingBlockHeaderState UInt32

/-- The block of `t` confirms block `b`: `b` is in its range `[block_num - confirmed, block_num]`. -/
def Covers (t : HeaderTransition) (b : UInt32) : Prop :=
  b.toNat ≤ t.after.blockNum.toNat ∧
    t.after.blockNum.toNat ≤ b.toNat + t.label.confirmed.toNat

instance (t : HeaderTransition) (b : UInt32) : Decidable (Covers t b) :=
  inferInstanceAs (Decidable (_ ∧ _))

/-- The confirmations a block built on `s` needs. -/
def BlockHeaderState.quorum (s : BlockHeaderState) : ℕ :=
  s.activeSchedule.producers.length * 2 / 3 + 1

/-- At most `missing` of the confirmations of block `b`, one of `blocks`, have not been given by
different producers in `confirming`. -/
def MissingAtMost (blocks confirming : List HeaderTransition) (b : UInt32) (missing : ℕ) : Prop :=
  ∃ tb ∈ blocks, tb.after.blockNum = b ∧ ∃ producers : Finset Name,
    tb.before.quorum ≤ missing + producers.card ∧
      ∀ p ∈ producers, ∃ t ∈ confirming, t.label.header.producer = p ∧ Covers t b

/-- Every entry of a window (newest first, of block `num`) satisfies `Q`. -/
def Tracked (Q : UInt32 → UInt8 → Prop) : UInt32 → List UInt8 → Prop
  | _, [] => True
  | num, count :: older => Q num count ∧ Tracked Q (num - 1) older

variable {window : List UInt8} {b num : UInt32} {Q Q' : UInt32 → UInt8 → Prop}

theorem Tracked.imp (himp : ∀ b c, Q b c → Q' b c) (h : Tracked Q num window) :
    Tracked Q' num window := by
  induction window generalizing num with
  | nil => trivial
  | cons count older ih => exact ⟨himp _ _ h.1, ih h.2⟩

theorem Tracked.dropLast (h : Tracked Q num window) : Tracked Q num window.dropLast := by
  induction window generalizing num with
  | nil => trivial
  | cons count older ih =>
    cases older with
    | nil => trivial
    | cons count' older => exact ⟨h.1, ih h.2⟩

/-! ## The loop -/

theorem mem_decremented_confirmLoop {n : ℕ}
    (hlen : window.length ≤ num.toNat) (hb : b ∈ (confirmLoop window num n).decremented) :
    b.toNat ≤ num.toNat ∧ num.toNat < b.toNat + n := by
  fun_induction confirmLoop window num n with
  | case1 => simp at hb
  | case2 => simp at hb
  | case3 count older num n hcount => grind
  | case4 count older num n hcount rest ih =>
    simp only [length_cons] at hlen
    have hpred : (num - 1).toNat = num.toNat - 1 := by
      rw [toNat_sub_of_toNat_le (by rw [toNat_one]; omega), toNat_one]
    rcases mem_cons.mp hb with rfl | hb
    · omega
    · grind

/-- The rule for the loop: if decrementing an entry takes `Q` to `Q'`, or to `A` when it reaches
zero, then `Q'` holds of the window it leaves and `A` of the block it advances to. -/
theorem confirmLoop_tracked {A : UInt32 → Prop} {n : ℕ} (hkeep : ∀ b c, Q b c → Q' b c)
    (hdec : ∀ b ∈ (confirmLoop window num n).decremented, ∀ c, Q b c →
      (c - 1 = 0 → A b) ∧ (c - 1 ≠ 0 → Q' b (c - 1))) (htracked : Tracked Q num window) :
    Tracked Q' num (confirmLoop window num n).window ∧
      ∀ a, (confirmLoop window num n).advancedTo = some a → A a := by
  fun_induction confirmLoop window num n with
  | case1 => exact ⟨trivial, by simp⟩
  | case2 => exact ⟨htracked.imp hkeep, by simp⟩
  | case3 count older num n hcount =>
    refine ⟨trivial, fun a ha => ?_⟩
    obtain rfl : num = a := by simpa using ha
    exact (hdec num (by simp) count htracked.1).1 hcount
  | case4 count older num n hcount rest ih =>
    obtain ⟨hwindow, hadv⟩ := ih (fun b hb => hdec b (mem_cons_of_mem _ hb)) htracked.2
    exact ⟨⟨(hdec num (by simp) count htracked.1).2 hcount, hwindow⟩, hadv⟩

variable {s s' : BlockHeaderState} {ctx : HeaderContext} {i : HeaderInput}
  {ts : List HeaderTransition}

namespace BlockHeaderState

/-! ## The double-confirm check -/

/-- What keeps the arithmetic of a block in range: its producer, if it has signed before, does not
confirm more blocks than there are; the quorum fits the 8-bit counter; the block number does
not wrap around. -/
structure ConfirmsInRange (s : BlockHeaderState) (i : HeaderInput) : Prop where
  confirmed_le : (s.producerToLastProduced.find? i.header.producer).isSome →
    i.confirmed.toNat ≤ s.blockNum.toNat + 1
  quorum_lt : s.quorum < 256
  blockNum_lt : s.blockNum.toNat + 1 < 2 ^ 32

theorem lt_of_mem_decremented
    (hs : DposInvariant s) (hrange : ConfirmsInRange s i) (hstep : s.step ctx i = .ok s')
    {last b : UInt32} (hlast : s.producerToLastProduced.find? i.header.producer = some last)
    (hb : b ∈ (s.confirm i.confirmed).decremented) : last.toNat < b.toNat := by
  obtain ⟨time, proauth, newSchedule, newRate, hacc⟩ := step_cases hstep
  have hcheck := hacc.notDouble
  rw [checkDoubleConfirm, ← hacc.producer_eq, hlast] at hcheck
  simp only [dcdAssert_ok_iff, lt_iff_toNat_lt] at hcheck
  have hsucc := toNat_add_one_of_lt hrange.blockNum_lt
  have hconfirmed := hrange.confirmed_le (by simp [hlast])
  have hsub : ((s.blockNum + 1) - i.confirmed.toUInt32).toNat =
      s.blockNum.toNat + 1 - i.confirmed.toNat := by
    rw [toNat_sub_of_toNat_le (by rw [UInt16.toNat_toUInt32]; omega), UInt16.toNat_toUInt32, hsucc]
  have hgrown := s.grownConfirmCount_length_le
  have hwindow := hs.window
  have hmem := mem_decremented_confirmLoop (by rw [length_reverse]; omega) hb
  omega

/-! ## Blocks on record -/

theorem find?_nextLastProduced (producer name : Name) :
    (s.nextLastProduced producer).find? name =
      if name = producer then some (s.blockNum + 1)
      else if s.promotesSchedule producer then
        if name ∈ s.pendingSchedule.schedule.names then
          some ((s.producerToLastProduced.find? name).getD (s.calcDposLastIrreversible producer))
        else none
      else s.producerToLastProduced.find? name := by
  unfold nextLastProduced
  by_cases hname : name = producer
  · split_ifs <;> simp [hname]
  split_ifs with hpromotes hmem
  · rw [FlatMap.find?_insert_of_ne _ _ hname, find?_rebuildForSchedule, if_pos hmem, if_neg hname]
  · rw [FlatMap.find?_insert_of_ne _ _ hname, find?_rebuildForSchedule, if_neg hmem]
  · rw [FlatMap.find?_insert_of_ne _ _ hname]

/-- `producer_to_last_produced` bounds the blocks of every producer.  A producer without an
entry is not scheduled, and if a pending schedule could bring it back, its blocks will be
irreversible by then. -/
structure ProducedInvariant (ts : List HeaderTransition) (s : BlockHeaderState) : Prop where
  le_head : ∀ t ∈ ts, t.after.blockNum.toNat ≤ s.blockNum.toNat
  recorded : ∀ t ∈ ts, ∀ last,
    s.producerToLastProduced.find? t.label.header.producer = some last →
      t.after.blockNum.toNat ≤ last.toNat
  dropped : ∀ t ∈ ts, s.producerToLastProduced.find? t.label.header.producer = none →
    t.label.header.producer ∉ s.activeSchedule.names ∧
      (s.pendingSchedule.schedule.producers ≠ [] →
        t.after.blockNum.toNat < s.pendingSchedule.scheduleLibNum.toNat)

theorem ProducedInvariant.step (hs : ProducedInvariant ts s)
    (hnum : s.blockNum.toNat + 1 < 2 ^ 32) (hstep : s.step ctx i = .ok s') :
    ProducedInvariant (ts ++ [⟨s, i, s'⟩]) s' := by
  obtain ⟨time, proauth, newSchedule, newRate, hacc⟩ := step_cases hstep
  have hproducer := hacc.producer_eq
  have hblockNum := blockNum_of_step hstep
  have hblockNum' : s'.blockNum.toNat = s.blockNum.toNat + 1 := by simp_all
  have hfind : ∀ name, s'.producerToLastProduced.find? name =
      (s.nextLastProduced proauth.producerName).find? name := by
    intro name
    rw [hacc.common]
    rfl
  have hactive : s'.activeSchedule = if s.promotesSchedule proauth.producerName then
      s.pendingSchedule.schedule else s.activeSchedule := by rw [hacc.common]; rfl
  simp only [find?_nextLastProduced] at hfind
  constructor
  · intro t ht
    rcases mem_append.mp ht with ht | ht
    · have := hs.le_head t ht
      omega
    · grind
  · intro t ht last hlast
    rcases mem_append.mp ht with ht | ht
    · rw [hfind] at hlast
      have hhead := hs.le_head t ht
      split_ifs at hlast with hname hpromotes hmem
      · grind
      · obtain rfl := Option.some.inj hlast
        cases hold : s.producerToLastProduced.find? t.label.header.producer with
        | some last => exact hs.recorded t ht last hold
        | none =>
          -- The pending schedule brings the producer back: its blocks are irreversible.
          simp only [promotesSchedule, hasPendingProducers, Bool.and_eq_true, Bool.not_eq_true',
            isEmpty_eq_false_iff, decide_eq_true_eq, le_iff_toNat_le] at hpromotes
          have hbefore := (hs.dropped t ht hold).2 hpromotes.1
          rw [Option.getD_none]
          omega
      · exact hs.recorded t ht last hlast
    · grind
  · intro t ht hnone
    rcases mem_append.mp ht with ht | ht
    · rw [hfind] at hnone
      split_ifs at hnone with hname hpromotes hmem
      · refine ⟨by rwa [hactive, if_pos hpromotes], fun hpending => absurd ?_ hpending⟩
        rw [hacc.pendingSchedule]
        cases newSchedule with
        | none => simp [nextPendingSchedule, nextPending, hpromotes]
        | some x => simp [(hacc.newSchedule_ok x rfl).1] at hpromotes
      obtain ⟨hout, hpend⟩ := hs.dropped t ht hnone
      refine ⟨by rwa [hactive, if_neg hpromotes], ?_⟩
      rw [hacc.pendingSchedule]
      have hhead := hs.le_head t ht
      cases newSchedule with
      | none =>
        simpa [nextPendingSchedule, nextPending, hpromotes] using hpend
      | some x =>
        simp only [nextPendingSchedule, nextPending, toNat_add_one_of_lt hnum]
        omega
    · grind

theorem not_covers_of_mem_decremented (hdpos : DposInvariant s)
    (hs : ProducedInvariant ts s) (hrange : ConfirmsInRange s i) (hstep : s.step ctx i = .ok s')
    {b : UInt32} (hb : b ∈ (s.confirm i.confirmed).decremented) {t : HeaderTransition}
    (ht : t ∈ ts) (hproducer : t.label.header.producer = i.header.producer) : ¬Covers t b := by
  intro hcovers
  cases hlast : s.producerToLastProduced.find? i.header.producer with
  | none =>
    obtain ⟨time, proauth, newSchedule, newRate, hacc⟩ := step_cases hstep
    have hout := (hs.dropped t ht (hproducer ▸ hlast)).1
    rw [hproducer, hacc.producer_eq] at hout
    exact hout (names_of_getScheduledProducer hacc.scheduled)
  | some last =>
    have hrecorded := hs.recorded t ht last (hproducer ▸ hlast)
    have habove := lt_of_mem_decremented hdpos hrange hstep hlast hb
    have hle := hcovers.1
    omega

end BlockHeaderState

/-! ## The window -/

/-- An entry `c` of block `b`: it asks for some confirmation, and only for missing ones. -/
def Unconfirmed (blocks confirming : List HeaderTransition) (b : UInt32) (c : UInt8) : Prop :=
  c ≠ 0 ∧ MissingAtMost blocks confirming b c.toNat

theorem MissingAtMost.mono {blocks blocks' confirming confirming' : List HeaderTransition}
    (hblocks : blocks ⊆ blocks') (hconfirming : confirming ⊆ confirming')
    {missing : ℕ} (h : MissingAtMost blocks confirming b missing) :
    MissingAtMost blocks' confirming' b missing := by
  obtain ⟨tb, htb, hnum, producers, hquorum, hall⟩ := h
  refine ⟨tb, hblocks htb, hnum, producers, hquorum, fun p hp => ?_⟩
  obtain ⟨t, ht, hrest⟩ := hall p hp
  exact ⟨t, hconfirming ht, hrest⟩

theorem MissingAtMost.confirm {ts : List HeaderTransition} {t : HeaderTransition}
    {c : UInt8} (h : Unconfirmed (ts ++ [t]) ts b c) (hcovers : Covers t b)
    (hnew : ∀ u ∈ ts, u.label.header.producer = t.label.header.producer → ¬Covers u b) :
    MissingAtMost (ts ++ [t]) (ts ++ [t]) b (c - 1).toNat := by
  obtain ⟨hc, tb, htb, hnum, producers, hquorum, hall⟩ := h
  have hfresh : t.label.header.producer ∉ producers := by grind
  refine ⟨tb, htb, hnum, insert t.label.header.producer producers, ?_, ?_⟩
  · have hpos : c.toNat ≠ 0 := fun h0 => hc (UInt8.toNat_inj.mp h0)
    have hpred : (c - 1).toNat = c.toNat - 1 := by
      rw [UInt8.toNat_sub_of_le c 1 (by rw [UInt8.le_iff_toNat_le, UInt8.toNat_one]; omega),
        UInt8.toNat_one]
    rw [Finset.card_insert_of_notMem hfresh, hpred]
    omega
  · grind

namespace BlockHeaderState

theorem toNat_requiredConfs (hquorum : s.quorum < 256) :
    s.requiredConfs.toUInt8.toNat = s.quorum := by
  unfold quorum at hquorum
  rw [UInt32.toNat_toUInt8, requiredConfs, UInt32.toNat_add, UInt32.toNat_one,
    UInt32.toNat_ofNat', quorum]
  omega

theorem grownConfirmCount_tracked (hrange : ConfirmsInRange s i) (hstep : s.step ctx i = .ok s')
    (hs : Tracked (Unconfirmed ts ts) s.blockNum s.confirmCount.reverse) :
    Tracked (Unconfirmed (ts ++ [⟨s, i, s'⟩]) ts) (s.blockNum + 1) s.grownConfirmCount.reverse := by
  have hblockNum := blockNum_of_step hstep
  have hquorum := toNat_requiredConfs hrange.quorum_lt
  have hold : Tracked (Unconfirmed (ts ++ [⟨s, i, s'⟩]) ts) s.blockNum s.confirmCount.reverse :=
    hs.imp fun b c hbc => ⟨hbc.1, hbc.2.mono (subset_append_left _ _) (List.Subset.refl _)⟩
  unfold grownConfirmCount
  rw [reverse_append, reverse_singleton, singleton_append]
  refine ⟨⟨?_, ⟨s, i, s'⟩, by simp, hblockNum, ∅, ?_, by simp⟩, ?_⟩
  · intro hzero
    rw [hzero] at hquorum
    simp [quorum] at hquorum
  · rw [hquorum]
    simp
  · rw [UInt32.add_sub_cancel]
    split_ifs
    · exact hold
    · rw [← dropLast_reverse]
      exact hold.dropLast

/-- One block: the window stays accounted for, and a block it advances to has its quorum. -/
theorem tracked_step (hdpos : DposInvariant s) (hproduced : ProducedInvariant ts s)
    (hrange : ConfirmsInRange s i) (hstep : s.step ctx i = .ok s')
    (hs : Tracked (Unconfirmed ts ts) s.blockNum s.confirmCount.reverse) :
    Tracked (Unconfirmed (ts ++ [⟨s, i, s'⟩]) (ts ++ [⟨s, i, s'⟩])) s'.blockNum
        s'.confirmCount.reverse ∧ ∀ a, (s.confirm i.confirmed).advancedTo = some a →
        MissingAtMost (ts ++ [⟨s, i, s'⟩]) (ts ++ [⟨s, i, s'⟩]) a 0 := by
  have hgrown := grownConfirmCount_tracked hrange hstep hs
  have hdec : ∀ b ∈ (s.confirm i.confirmed).decremented, ∀ c,
      Unconfirmed (ts ++ [⟨s, i, s'⟩]) ts b c →
        MissingAtMost (ts ++ [⟨s, i, s'⟩]) (ts ++ [⟨s, i, s'⟩]) b (c - 1).toNat := by
    intro b hb c hbc
    refine MissingAtMost.confirm hbc ?_ fun u hu hproducer =>
      not_covers_of_mem_decremented hdpos hproduced hrange hstep hb hu hproducer
    have hlen := s.grownConfirmCount_length_le
    have hwindow := hdpos.window
    have hsucc := toNat_add_one_of_lt hrange.blockNum_lt
    have hmem := mem_decremented_confirmLoop (by rw [length_reverse]; omega) hb
    unfold Covers
    simp only [blockNum_of_step hstep]
    omega
  obtain ⟨time, proauth, newSchedule, newRate, hacc⟩ := step_cases hstep
  rw [hacc.common]
  simp only [nextPending, reverse_reverse]
  refine confirmLoop_tracked ?_ ?_ hgrown
  · exact fun b c hbc => ⟨hbc.1, hbc.2.mono (List.Subset.refl _) (subset_append_left _ _)⟩
  · intro b hb c hbc
    refine ⟨fun hzero => ?_, fun hne => ⟨hne, hdec b hb c hbc⟩⟩
    simpa [hzero] using hdec b hb c hbc

end BlockHeaderState

/-! ## Header chains -/

/-- The block of `t` decrements no entry at or below the last block recorded for its producer. -/
def ConfirmsOnce (t : HeaderTransition) : Prop :=
  ∀ last, t.before.producerToLastProduced.find? t.label.header.producer = some last →
    ∀ b ∈ (t.before.confirm t.label.confirmed).decremented, last < b

/-- Whenever the proposed irreversible block advances to `b`, two thirds of the producers of the
schedule that produced `b`, and one more, have signed a block that confirms `b`. -/
def ProposedHasQuorum (ts : List HeaderTransition) : Prop :=
  ∀ pre t post, ts = pre ++ t :: post →
    t.after.dposProposedIrreversibleBlocknum ≠ t.before.dposProposedIrreversibleBlocknum →
    ∃ tb ∈ pre ++ [t], tb.after.blockNum = t.after.dposProposedIrreversibleBlocknum ∧
      ∃ producers : Finset Name,
        tb.before.activeSchedule.producers.length * 2 / 3 + 1 ≤ producers.card ∧
          ∀ p ∈ producers, ∃ u ∈ pre ++ [t], u.label.header.producer = p ∧
            Covers u t.after.dposProposedIrreversibleBlocknum

namespace BlockHeaderState

/-- What the history of a chain says about its last state. -/
structure ConfirmationInvariant (ts : List HeaderTransition) (s : BlockHeaderState) : Prop where
  dpos : DposInvariant s
  produced : ProducedInvariant ts s
  tracked : Tracked (Unconfirmed ts ts) s.blockNum s.confirmCount.reverse

theorem confirmationInvariant_of_headerChain {ctx : HeaderContext} {genesis : GenesisState}
    {ts : List HeaderTransition} {s : BlockHeaderState} (hrun : HeaderChain ctx genesis ts s)
    (hrange : ∀ t ∈ ts, t.before.ConfirmsInRange t.label) : ConfirmationInvariant ts s := by
  refine hrun.invariant_of_forall hrange ?_ ?_
  · exact ⟨genesis_dposInvariant ctx.crypto genesis, ⟨by simp, by simp, by simp⟩, trivial⟩
  · intro ts s i s' _ hs hstep hr
    exact ⟨hs.dpos.step hr.blockNum_lt hstep, hs.produced.step hr.blockNum_lt hstep,
      (tracked_step hs.dpos hs.produced hr hstep hs.tracked).1⟩

/-- In a header chain whose blocks keep their arithmetic in range no producer confirms a block
twice, and every proposed irreversible block has a quorum behind it. -/
theorem proposedIrreversible_has_quorum {ctx : HeaderContext} {genesis : GenesisState}
    {ts : List HeaderTransition} {s : BlockHeaderState} (hrun : HeaderChain ctx genesis ts s)
    (hrange : ∀ t ∈ ts, t.before.ConfirmsInRange t.label) :
    (∀ t ∈ ts, ConfirmsOnce t) ∧ ProposedHasQuorum ts := by
  constructor
  · intro t ht last hlast b hb
    obtain ⟨pre, post, rfl, hpre, hstep⟩ := hrun.exists_of_mem ht
    have hinv := confirmationInvariant_of_headerChain hpre fun u hu =>
      hrange u (mem_append_left _ hu)
    exact lt_of_mem_decremented hinv.dpos (hrange t ht) hstep hlast hb
  rintro pre t post rfl hadvance
  obtain ⟨hpre, hstep, -⟩ := hrun.split
  have hinv := confirmationInvariant_of_headerChain hpre fun u hu =>
    hrange u (mem_append_left _ hu)
  have hquorum := (tracked_step hinv.dpos hinv.produced (hrange t (by simp)) hstep hinv.tracked).2
  obtain ⟨time, proauth, newSchedule, newRate, hacc⟩ := step_cases hstep
  have hproposed : t.after.dposProposedIrreversibleBlocknum =
      (t.before.confirm t.label.confirmed).advancedTo.getD
        t.before.dposProposedIrreversibleBlocknum := by rw [hacc.common]; rfl
  cases hadv : (t.before.confirm t.label.confirmed).advancedTo with
  | none => exact absurd (by rw [hproposed, hadv, Option.getD_none]) hadvance
  | some a =>
    rw [hproposed, hadv, Option.getD_some]
    obtain ⟨tb, htb, hnum, producers, hcard, hall⟩ := hquorum a hadv
    exact ⟨tb, htb, hnum, producers, by simpa [quorum] using hcard, hall⟩

/-- A chain of the producers `a` and `b` in which `a` signs blocks 5 and 6, the second one
confirming `confirmed` blocks. -/
def twoBlocksInARow (confirmed : UInt16) : List HeaderInput :=
  let a : Name := ⟨1⟩
  let b : Name := ⟨2⟩
  [ sampleHeader 2 2 systemAccountName 0 0 none,
    sampleHeader 3 3 systemAccountName 0 0 (some (sampleSchedule 1 [a, b])),
    sampleHeader 4 4 systemAccountName 0 0 none, sampleHeader 5 24 a 0 1 none,
    sampleHeader 6 25 a confirmed 1 none ]

theorem proposedIrreversible_has_quorum_twoBlocksInARow :
    ∃ ts s, HeaderChain sampleContext sampleGenesis ts s ∧
      (∀ t ∈ ts, t.before.ConfirmsInRange t.label) ∧
      (∀ t ∈ ts, ConfirmsOnce t) ∧ ProposedHasQuorum ts := by
  obtain ⟨ts, s, hrun, hrange⟩ :=
    exists_run_of_exec (step sampleContext)
      (genesisHeaderState sampleContext.crypto sampleGenesis) (twoBlocksInARow 0)
      (fun ts _ => ts.all fun t =>
        decide (t.label.confirmed.toNat ≤ t.before.blockNum.toNat + 1) &&
          decide (t.before.quorum < 256) && decide (t.before.blockNum.toNat + 1 < 2 ^ 32))
      (by decide +kernel)
  simp only [all_eq_true, Bool.and_eq_true, decide_eq_true_eq] at hrange
  have hrange' : ∀ t ∈ ts, t.before.ConfirmsInRange t.label := fun t ht =>
    ⟨fun _ => (hrange t ht).1.1, (hrange t ht).1.2, (hrange t ht).2⟩
  exact ⟨ts, s, hrun, hrange', proposedIrreversible_has_quorum hrun hrange'⟩

/-- The last of five blocks confirms block 5 a second time and proposes it. -/
def proposesTwice : List HeaderTransition → Bool
  | [t₂, t₃, t₄, t₅, t₆] =>
    decide (t₆.before.producerToLastProduced.find? t₆.label.header.producer = some 5) &&
    decide (5 ∈ (t₆.before.confirm t₆.label.confirmed).decremented) &&
    decide (t₆.before.dposProposedIrreversibleBlocknum = 4) &&
    decide (t₆.after.dposProposedIrreversibleBlocknum = 5) &&
    [t₂, t₃, t₄, t₅, t₆].all fun t =>
      decide (t.after.blockNum = 5 → t.before.activeSchedule.producers.length = 2) &&
      decide (Covers t 5 → t.label.header.producer = ⟨1⟩)
  | _ => false

/-- With 65535 confirmed blocks the check of block 6 wraps around: `a` confirms its own block 5
again, and makes it the proposed irreversible block without `b`. -/
theorem proposedIrreversible_without_quorum :
    (¬ ∀ (ctx : HeaderContext) (genesis : GenesisState) (ts : List HeaderTransition)
        (s : BlockHeaderState), HeaderChain ctx genesis ts s → ∀ t ∈ ts, ConfirmsOnce t) ∧
      ¬ ∀ (ctx : HeaderContext) (genesis : GenesisState) (ts : List HeaderTransition)
        (s : BlockHeaderState), HeaderChain ctx genesis ts s → ProposedHasQuorum ts := by
  obtain ⟨ts, s, hrun, hts⟩ :=
    exists_run_of_exec (step sampleContext)
      (genesisHeaderState sampleContext.crypto sampleGenesis) (twoBlocksInARow 65535)
      (fun ts _ => proposesTwice ts) (by decide +kernel)
  unfold proposesTwice at hts
  split at hts
  · rename_i t₂ t₃ t₄ t₅ t₆
    simp only [Bool.and_eq_true, decide_eq_true_eq, all_eq_true] at hts
    obtain ⟨⟨⟨⟨hlast, hdec⟩, hbefore⟩, hafter⟩, hall⟩ := hts
    constructor
    · intro hclaim
      exact absurd (hclaim _ _ _ _ hrun t₆ (by simp) 5 hlast 5 hdec) (lt_irrefl _)
    intro hclaim
    obtain ⟨tb, htb, hnum, producers, hcard, hsigned⟩ :=
      hclaim _ _ _ _ hrun [t₂, t₃, t₄, t₅] t₆ [] rfl (by rw [hbefore, hafter]; decide)
    rw [hafter] at hnum hsigned
    have hsubset : producers ⊆ {⟨1⟩} := by grind
    have hone := Finset.card_le_card hsubset
    rw [Finset.card_singleton] at hone
    rw [(hall tb htb).1 hnum] at hcard
    omega
  · simp at hts

end BlockHeaderState

end DcdProtocol.Chain
