import DcdProtocol.Chain.FinishNext

/-!
# Finality along a header chain

`dpos_irreversible_blocknum` is the order statistic a third of the way into the values of
`producer_to_last_implied_irb`.  As long as the schedule stays, every block only raises one of
these values, and the order statistic cannot fall.  A promotion rebuilds the map: a producer
kept from the old schedule keeps its value, which may be far behind when the producer has been
absent.  With enough of them the next block takes a smaller order statistic.

The invariant of every chain is `DposInvariant`: the confirmation window ends at the head and
starts above the proposed number, and no implied or irreversible number exceeds the proposed
one.  It gives `le_calcDposLastIrreversible_iff`: one block keeps finality exactly when few of
the other producers lag behind it.  In the state after a block without a promotion they always
are few (`laggards_le_of_not_promotes`), so along a whole chain only the blocks right behind a
promotion decide.
-/

namespace DcdProtocol.Chain

open Library List FlatMap

abbrev HeaderTransition := Transition BlockHeaderState HeaderInput

/-- `HeaderChain ctx genesis ts s`: the accepted blocks `ts` lead from genesis to `s`. -/
abbrev HeaderChain (ctx : HeaderContext) (genesis : GenesisState) :
    List HeaderTransition → BlockHeaderState → Prop :=
  Run (fun s i s' => s.step ctx i = .ok s') (genesisHeaderState ctx.crypto genesis)

/-! ## The confirmation window -/

variable {window : List UInt8}

theorem confirmLoop_length_of_advancedTo_eq_none {num : UInt32} {n : ℕ}
    (hnone : (confirmLoop window num n).advancedTo = none) :
    (confirmLoop window num n).window.length = window.length := by
  fun_induction confirmLoop window num n with
  | case1 => rfl
  | case2 => rfl
  | case3 => simp at hnone
  | case4 count older num n hcount rest ih => grind

/-- When the loop advances to block `a`, the window is cut down to the blocks above `a`, and
`a` was inside the window. -/
theorem confirmLoop_advancedTo {num a : UInt32} {n : ℕ}
    (hlen : window.length ≤ num.toNat) (ha : (confirmLoop window num n).advancedTo = some a) :
    a.toNat + (confirmLoop window num n).window.length = num.toNat ∧
      num.toNat < a.toNat + window.length := by
  fun_induction confirmLoop window num n with
  | case1 => simp at ha
  | case2 => simp at ha
  | case3 count older num n hcount => grind
  | case4 count older num n hcount rest ih =>
    simp only [length_cons] at hlen ⊢
    have hpred : (num - 1).toNat = num.toNat - 1 := by
      rw [toNat_sub_of_toNat_le (by rw [UInt32.toNat_one]; omega), UInt32.toNat_one]
    obtain ⟨hcut, hinside⟩ := ih (by omega) ha
    change a.toNat + rest.window.length = (num - 1).toNat at hcut
    omega

namespace BlockHeaderState

theorem grownConfirmCount_length_le (s : BlockHeaderState) :
    s.grownConfirmCount.length ≤ s.confirmCount.length + 1 := by
  unfold grownConfirmCount
  split_ifs
  · simp
  · simp

/-! ## Per-producer maps -/

theorem find?_rebuildForSchedule (producers : List Name) (producer : Name)
    (own fallback : UInt32) (existing : FlatMap Name UInt32) (name : Name) :
    (rebuildForSchedule producers producer own fallback existing).find? name =
      if name ∈ producers then
        some (if name = producer then own else (existing.find? name).getD fallback)
      else none := by
  have hgen : ∀ m : FlatMap Name UInt32, (producers.foldl (fun m name =>
        m.insert name (if name = producer then own else (existing.find? name).getD fallback))
        m).find? name =
        if name ∈ producers then
          some (if name = producer then own else (existing.find? name).getD fallback)
        else m.find? name := by
    induction producers with
    | nil => simp
    | cons pro pros ih =>
      intro m
      rw [foldl_cons, ih, find?_insert]
      by_cases hmem : name ∈ pros
      · simp [hmem]
      · grind
  exact hgen .empty

variable {s s' : BlockHeaderState} {genesis : GenesisState} {ctx : HeaderContext} {i : HeaderInput}
  {ts : List HeaderTransition}

theorem mem_keys_nextImpliedIrb {producer name : Name} :
    name ∈ (s.nextImpliedIrb producer).keys ↔
      if s.promotesSchedule producer then name ∈ s.pendingSchedule.schedule.names
      else name = producer ∨ name ∈ s.producerToLastImpliedIrb.keys := by
  unfold nextImpliedIrb
  split_ifs with hpromotes
  · rw [mem_keys_iff, find?_rebuildForSchedule]
    split_ifs with hmem <;> simp [hmem]
  · rw [mem_keys_insert]

theorem names_of_getScheduledProducer {t : BlockTimestamp}
    {proauth : ProducerAuthority} (hpro : s.getScheduledProducer t = some proauth) :
    proauth.producerName ∈ s.activeSchedule.names :=
  mem_map_of_mem (mem_of_getElem? hpro)

/-! ## The invariant -/

/-- What holds of the DPoS counters in every state of a header chain. -/
structure DposInvariant (s : BlockHeaderState) : Prop where
  /-- The tracked blocks end at the head and lie above the proposed irreversible block. -/
  window : s.dposProposedIrreversibleBlocknum.toNat + s.confirmCount.length ≤ s.blockNum.toNat
  implied_le : ∀ name num, s.producerToLastImpliedIrb.find? name = some num →
    num ≤ s.dposProposedIrreversibleBlocknum
  irreversible_le : s.dposIrreversibleBlocknum ≤ s.dposProposedIrreversibleBlocknum

theorem DposInvariant.calcDposLastIrreversible_le (hs : DposInvariant s) (producer : Name) :
    s.calcDposLastIrreversible producer ≤ s.dposProposedIrreversibleBlocknum := by
  unfold calcDposLastIrreversible
  dsimp only
  cases hnth : nthElement (s.impliedIrreversible producer)
      (((s.impliedIrreversible producer).length - 1) / 3) with
  | none => exact UInt32.zero_le
  | some num =>
    have hmem := nthElement_mem hnth
    simp only [impliedIrreversible, mem_map, Prod.exists] at hmem
    obtain ⟨name, v, hentry, hnum⟩ := hmem
    rw [Option.getD_some, ← hnum]
    split_ifs
    · exact le_rfl
    · exact hs.implied_le name v (mem_entries_iff.mp hentry)

theorem dposProposed_le_next (hs : DposInvariant s)
    (hnum : s.blockNum.toNat + 1 < 2 ^ 32) (confirmed : UInt16) :
    s.dposProposedIrreversibleBlocknum ≤
        (s.confirm confirmed).advancedTo.getD s.dposProposedIrreversibleBlocknum ∧
      ((s.confirm confirmed).advancedTo.getD s.dposProposedIrreversibleBlocknum).toNat +
        (s.confirm confirmed).window.reverse.length ≤ s.blockNum.toNat + 1 := by
  have hgrown := s.grownConfirmCount_length_le
  have hwindow := hs.window
  have hsucc := toNat_add_one_of_lt hnum
  cases hadv : (s.confirm confirmed).advancedTo with
  | none =>
    have hlen := confirmLoop_length_of_advancedTo_eq_none hadv
    change (s.confirm confirmed).window.length = _ at hlen
    rw [length_reverse] at hlen ⊢
    refine ⟨le_rfl, ?_⟩
    rw [Option.getD_none]
    omega
  | some a =>
    obtain ⟨hcut, hinside⟩ := confirmLoop_advancedTo (by rw [length_reverse]; omega) hadv
    change a.toNat + (s.confirm confirmed).window.length = _ at hcut
    rw [length_reverse] at hinside ⊢
    rw [Option.getD_some, UInt32.le_iff_toNat_le]
    omega

theorem DposInvariant.nextImpliedIrb_le (hs : DposInvariant s) {producer name : Name} {num : UInt32}
    (hnum : (s.nextImpliedIrb producer).find? name = some num) :
    num ≤ s.dposProposedIrreversibleBlocknum := by
  unfold nextImpliedIrb at hnum
  split_ifs at hnum with hpromotes
  · rw [find?_rebuildForSchedule] at hnum
    split_ifs at hnum with hmem hname
    · grind
    obtain rfl := Option.some.inj hnum
    cases hold : s.producerToLastImpliedIrb.find? name with
    | none => exact hs.calcDposLastIrreversible_le producer
    | some old => exact hs.implied_le name old hold
  · rw [find?_insert] at hnum
    split_ifs at hnum with hname
    · grind
    · exact hs.implied_le name num hnum

theorem genesis_dposInvariant (crypto : Crypto) (genesis : GenesisState) :
    DposInvariant (genesisHeaderState crypto genesis) where
  window := Nat.zero_le _
  implied_le name num hnum := by simp [genesisHeaderState] at hnum
  irreversible_le := le_rfl

theorem DposInvariant.step
    (hs : DposInvariant s) (hnum : s.blockNum.toNat + 1 < 2 ^ 32) (hstep : s.step ctx i = .ok s') :
    DposInvariant s' := by
  obtain ⟨time, proauth, newSchedule, newRate, hacc⟩ := step_cases hstep
  obtain ⟨hmono, hwindow⟩ := dposProposed_le_next hs hnum i.confirmed
  have hcommon := hacc.common
  constructor
  · rw [hcommon]
    simpa only [nextPending, toNat_add_one_of_lt hnum] using hwindow
  · intro name num hfind
    rw [hcommon] at hfind ⊢
    exact (hs.nextImpliedIrb_le hfind).trans hmono
  · rw [hcommon]
    exact (hs.calcDposLastIrreversible_le _).trans hmono

/-! ## One block -/

/-- The producers other than `producer` whose implied irreversible block is below the
irreversible block of `s`. -/
def laggards (s : BlockHeaderState) (producer : Name) : ℕ :=
  s.producerToLastImpliedIrb.entries.countP fun e =>
    e.1 ≠ producer ∧ e.2 < s.dposIrreversibleBlocknum

/-- At most the third below the order statistic lags behind. -/
def FewLaggards (s : BlockHeaderState) (producer : Name) : Prop :=
  s.laggards producer ≤ (s.producerToLastImpliedIrb.entries.length - 1) / 3

instance (s : BlockHeaderState) (producer : Name) : Decidable (s.FewLaggards producer) :=
  inferInstanceAs (Decidable (_ ≤ _))

/-- The implied numbers are kept for the producers of the active schedule. -/
structure TracksSchedule (s : BlockHeaderState) : Prop where
  nonempty : s.producerToLastImpliedIrb.entries ≠ []
  mem_keys : ∀ name, name ∈ s.producerToLastImpliedIrb.keys ↔ name ∈ s.activeSchedule.names

theorem calcDposLastIrreversible_eq (producer : Name)
    (hne : s.producerToLastImpliedIrb.entries ≠ []) :
    nthElement (s.impliedIrreversible producer)
        ((s.producerToLastImpliedIrb.entries.length - 1) / 3) =
      some (s.calcDposLastIrreversible producer) := by
  have hlen : (s.impliedIrreversible producer).length =
      s.producerToLastImpliedIrb.entries.length := length_map _
  have hpos := length_pos_iff.mpr hne
  have hindex : (s.producerToLastImpliedIrb.entries.length - 1) / 3 <
      (s.impliedIrreversible producer).length := by omega
  obtain ⟨x, hx⟩ := exists_nthElement hindex
  unfold calcDposLastIrreversible
  dsimp only
  rw [hlen, hx, Option.getD_some]

theorem le_calcDposLastIrreversible_iff (hs : DposInvariant s)
    (producer : Name) (hne : s.producerToLastImpliedIrb.entries ≠ []) :
    s.dposIrreversibleBlocknum ≤ s.calcDposLastIrreversible producer ↔ s.FewLaggards producer := by
  rw [le_nthElement_iff (calcDposLastIrreversible_eq producer hne), FewLaggards, laggards,
    impliedIrreversible, countP_map]
  have hcount : ∀ e : Name × UInt32,
      decide ((if e.1 = producer then s.dposProposedIrreversibleBlocknum else e.2) <
        s.dposIrreversibleBlocknum) =
      decide (e.1 ≠ producer ∧ e.2 < s.dposIrreversibleBlocknum) := by
    intro e
    by_cases he : e.1 = producer
    · simp [he, hs.irreversible_le]
    · simp [he]
  rw [countP_congr fun e _ => by rw [Function.comp_apply, hcount e]]

/-- After a block that promoted no schedule, few producers lag behind, whoever comes next. -/
theorem fewLaggards_of_not_promotes (htracks : TracksSchedule s)
    (hnot : s.promotesSchedule i.header.producer = false) (hstep : s.step ctx i = .ok s')
    (producer : Name) : s'.FewLaggards producer := by
  obtain ⟨time, proauth, newSchedule, newRate, hacc⟩ := step_cases hstep
  obtain hproducer : i.header.producer = proauth.producerName := hacc.producer_eq
  rw [hproducer] at hnot
  have hmem : proauth.producerName ∈ s.producerToLastImpliedIrb.keys :=
    (htracks.mem_keys _).mpr (names_of_getScheduledProducer hacc.scheduled)
  have himplied : s'.producerToLastImpliedIrb =
      s.producerToLastImpliedIrb.insert proauth.producerName
        s.dposProposedIrreversibleBlocknum := by
    rw [hacc.common]
    simp [nextPending, nextImpliedIrb, hnot]
  have hlib : s'.dposIrreversibleBlocknum = s.calcDposLastIrreversible proauth.producerName := by
    rw [hacc.common]
    rfl
  have hstat := (le_nthElement_iff (calcDposLastIrreversible_eq proauth.producerName
    htracks.nonempty) (s.calcDposLastIrreversible proauth.producerName)).mp le_rfl
  unfold FewLaggards laggards
  rw [himplied, hlib, entries_insert_of_mem hmem, length_map]
  refine le_trans ?_ hstat
  rw [impliedIrreversible, countP_map, countP_map]
  refine countP_mono_left fun e _ he => ?_
  simp only [Function.comp_apply, decide_eq_true_eq] at he ⊢
  split_ifs at he ⊢ with hname
  · exact he.2
  · exact he.2

theorem TracksSchedule.step (hs : TracksSchedule s ∨ ∀ producer, s.promotesSchedule producer = true)
    (hstep : s.step ctx i = .ok s') : TracksSchedule s' := by
  obtain ⟨time, proauth, newSchedule, newRate, hacc⟩ := step_cases hstep
  have hkeys : ∀ name, name ∈ s'.producerToLastImpliedIrb.keys ↔
      name ∈ s'.activeSchedule.names := by
    intro name
    rw [hacc.common]
    simp only [nextPending, mem_keys_nextImpliedIrb]
    split_ifs with hpromotes
    · exact .rfl
    rcases hs with hs | hs
    · rw [hs.mem_keys]
      constructor
      · rintro (rfl | hname)
        · exact names_of_getScheduledProducer hacc.scheduled
        · exact hname
      · exact .inr
    · exact absurd (hs _) hpromotes
  refine ⟨fun hempty => ?_, hkeys⟩
  -- Either way some name is tracked: the pending schedule is not empty, or the producer is.
  have hnone : ∀ name, name ∉ s'.producerToLastImpliedIrb.keys := by
    simp [FlatMap.keys, hempty]
  simp only [hacc.common, nextPending, mem_keys_nextImpliedIrb] at hnone
  split_ifs at hnone with hpromotes
  · simp only [promotesSchedule, hasPendingProducers, Bool.and_eq_true, Bool.not_eq_true',
      isEmpty_eq_false_iff] at hpromotes
    obtain ⟨pro, hpro⟩ := exists_mem_of_ne_nil _ hpromotes.1
    exact hnone pro.producerName (mem_map_of_mem hpro)
  · grind

/-! ## Header chains -/

theorem dposInvariant_of_headerChain (hrun : HeaderChain ctx genesis ts s)
    (hnum : ∀ t ∈ ts, t.before.blockNum.toNat + 1 < 2 ^ 32) : DposInvariant s :=
  hrun.invariant_of_forall (I := fun _ s => DposInvariant s) hnum
    (genesis_dposInvariant ctx.crypto genesis) fun _ _ _ _ _ hs hstep hn => hs.step hn hstep

theorem tracksSchedule_of_headerChain (hrun : HeaderChain ctx genesis ts s) :
    (ts = [] ∧ s = genesisHeaderState ctx.crypto genesis) ∨ TracksSchedule s := by
  refine hrun.invariant (I := fun ts s => (ts = [] ∧ s = _) ∨ TracksSchedule s)
    (.inl ⟨rfl, rfl⟩) ?_
  rintro ts s i s' - hs hstep
  refine .inr (TracksSchedule.step ?_ hstep)
  rcases hs with ⟨-, rfl⟩ | hs
  · right
    simp [promotesSchedule, hasPendingProducers, genesisHeaderState]
  · exact .inl hs

theorem blockNum_of_step (hstep : s.step ctx i = .ok s') : s'.blockNum = s.blockNum + 1 := by
  obtain ⟨time, proauth, newSchedule, newRate, hacc⟩ := step_cases hstep
  rw [hacc.common]
  rfl

theorem dposIrreversibleBlocknum_of_step (hstep : s.step ctx i = .ok s') :
    s'.dposIrreversibleBlocknum = s.calcDposLastIrreversible i.header.producer := by
  obtain ⟨time, proauth, newSchedule, newRate, hacc⟩ := step_cases hstep
  rw [hacc.common, hacc.producer_eq]
  rfl

theorem irreversible_le_iff_of_headerChain
    {pre : List HeaderTransition} {t₁ : HeaderTransition} (hrun : HeaderChain ctx genesis (pre ++ [t₁]) s)
    (hnum : ∀ t ∈ pre ++ [t₁], t.before.blockNum.toNat + 1 < 2 ^ 32)
    (hstep : s.step ctx i = .ok s') :
    s.dposIrreversibleBlocknum ≤ s'.dposIrreversibleBlocknum ↔ s.FewLaggards i.header.producer := by
  have htracks : TracksSchedule s := by
    rcases tracksSchedule_of_headerChain hrun with ⟨hnil, -⟩ | htracks
    · simp at hnil
    · exact htracks
  rw [dposIrreversibleBlocknum_of_step hstep]
  exact le_calcDposLastIrreversible_iff (dposInvariant_of_headerChain hrun hnum) _ htracks.nonempty

/-- Finality grows along a header chain, whose block numbers do not wrap around, exactly when few
producers lag behind it wherever a block is built on one that made a schedule active. -/
theorem dposIrreversibleBlocknum_monotone_iff {ctx : HeaderContext} {genesis : GenesisState}
    {ts : List HeaderTransition} {s : BlockHeaderState} (hrun : HeaderChain ctx genesis ts s)
    (hnum : ∀ t ∈ ts, t.before.blockNum.toNat + 1 < 2 ^ 32) :
    (∀ t ∈ ts, t.before.dposIrreversibleBlocknum ≤ t.after.dposIrreversibleBlocknum) ↔
      ∀ t₁ t₂, [t₁, t₂] <:+: ts → t₁.before.promotesSchedule t₁.label.header.producer = true →
        t₂.before.FewLaggards t₂.label.header.producer := by
  constructor
  · rintro hmono t₁ t₂ ⟨pre, post, rfl⟩ -
    rw [show pre ++ [t₁, t₂] ++ post = (pre ++ [t₁]) ++ t₂ :: post by simp] at hrun hnum hmono
    obtain ⟨hpre, hstep, -⟩ := hrun.split
    rw [← irreversible_le_iff_of_headerChain hpre (fun t ht => hnum t (mem_append_left _ ht)) hstep]
    exact hmono t₂ (by simp)
  intro hfew t ht
  obtain ⟨pre, post, rfl, hpre, hstep⟩ := hrun.exists_of_mem ht
  rcases eq_nil_or_concat pre with rfl | ⟨pre, t₁, rfl⟩
  · rw [hpre.eq_of_nil]
    exact UInt32.zero_le
  rw [concat_eq_append] at hpre hfew hnum
  rw [irreversible_le_iff_of_headerChain hpre (fun u hu => hnum u (mem_append_left _ hu)) hstep]
  obtain ⟨hprev, hstep₁, hafter⟩ := hpre.last
  cases hpromotes : t₁.before.promotesSchedule t₁.label.header.producer with
  | true => exact hfew t₁ t ⟨pre, post, by simp⟩ hpromotes
  | false =>
    rcases tracksSchedule_of_headerChain hprev with ⟨-, hgenesis⟩ | htracks₁
    · simp [hgenesis, promotesSchedule, hasPendingProducers, genesisHeaderState] at hpromotes
    · rw [← hafter]
      exact fewLaggards_of_not_promotes htracks₁ hpromotes hstep₁ _

/-- A chain whose schedule `a, b, c, d` shrinks to `a, b` in block 13, while `a` is absent. -/
def shrinkingSchedule : List HeaderInput :=
  let a : Name := ⟨1⟩
  let b : Name := ⟨2⟩
  let c : Name := ⟨3⟩
  let d : Name := ⟨4⟩
  [ sampleHeader 2 2 systemAccountName 0 0 none,
    sampleHeader 3 3 systemAccountName 0 0 (some (sampleSchedule 1 [a, b, c, d])),
    sampleHeader 4 4 systemAccountName 0 0 none, sampleHeader 5 12 b 0 1 none,
    sampleHeader 6 24 c 1 1 none, sampleHeader 7 36 d 2 1 none,
    sampleHeader 8 60 b 2 1 (some (sampleSchedule 2 [a, b])), sampleHeader 9 72 c 2 1 none,
    sampleHeader 10 84 d 2 1 none, sampleHeader 11 108 b 2 1 none, sampleHeader 12 120 c 2 1 none,
    sampleHeader 13 132 d 2 1 none, sampleHeader 14 156 b 2 2 none ]

theorem dposIrreversibleBlocknum_monotone_iff_shrinkingSchedule :
    ∃ ts s, HeaderChain sampleContext sampleGenesis ts s ∧
      (∀ t ∈ ts, t.before.blockNum.toNat + 1 < 2 ^ 32) ∧
      ((∀ t ∈ ts, t.before.dposIrreversibleBlocknum ≤ t.after.dposIrreversibleBlocknum) ↔
        ∀ t₁ t₂, [t₁, t₂] <:+: ts → t₁.before.promotesSchedule t₁.label.header.producer = true →
          t₂.before.FewLaggards t₂.label.header.producer) := by
  obtain ⟨ts, s, hrun, hnum⟩ :=
    exists_run_of_exec (step sampleContext)
      (genesisHeaderState sampleContext.crypto sampleGenesis) shrinkingSchedule
      (fun ts _ => ts.all fun t => t.before.blockNum.toNat + 1 < 2 ^ 32)
      (by decide +kernel)
  simp only [all_eq_true, decide_eq_true_eq] at hnum
  exact ⟨ts, s, hrun, hnum, dposIrreversibleBlocknum_monotone_iff hrun hnum⟩

/-- Block 14 is built on a block whose irreversible number is 8; its own is 3. -/
theorem dposIrreversibleBlocknum_falls :
    ¬ ∀ (ctx : HeaderContext) (genesis : GenesisState) (ts : List HeaderTransition)
        (s : BlockHeaderState), HeaderChain ctx genesis ts s →
        ∀ t ∈ ts, t.before.dposIrreversibleBlocknum ≤ t.after.dposIrreversibleBlocknum := by
  intro hmono
  obtain ⟨ts, s, hrun, hfalls⟩ :=
    exists_run_of_exec (step sampleContext)
      (genesisHeaderState sampleContext.crypto sampleGenesis) shrinkingSchedule
      (fun ts _ => ts.any fun t =>
        t.before.dposIrreversibleBlocknum == 8 && t.after.dposIrreversibleBlocknum == 3)
      (by decide +kernel)
  simp only [any_eq_true, Bool.and_eq_true, beq_iff_eq] at hfalls
  obtain ⟨t, ht, hbefore, hafter⟩ := hfalls
  have hle := hmono _ _ _ _ hrun t ht
  rw [hbefore, hafter] at hle
  exact absurd hle (by decide)

end BlockHeaderState

end DcdProtocol.Chain
