import DcdProtocol.Chain.ForkSwitch

/-!
# The fee rate

The fee of a transaction depends on a rate that the fee manager keeps in memory.  Only
`commit_block` sets it, to the active rate of the block it commits.  As long as every committed
block becomes head and head moves in no other way, it is the active rate of head, which is the
rate a block built on head has to use.

Head and rate part where head moves without a commit (a block is popped, or a process starts),
and where a commit has set the rate but throws.  `Rated` follows the rate through the operations
of the controller: if none of these events changes the rate of head, the fee manager has the
active rate of head whenever transactions are executed.
-/

namespace DcdProtocol.Chain

open Library List

/-! ## Fees -/

/-- What `get_required_fee` reads besides the rate: the fees in the database, the native ones,
and the conversion from USD at a rate, which may throw. -/
structure FeeTables where
  actionFees : Name → Name → Option Asset
  nativeFees : Name → Name → Option Asset
  coreFromUsd : Double → Asset → Option Int64

namespace FeeTables

variable (t : FeeTables) (rate : Double)

def defaultfee : Name := .ofChars ['d', 'e', 'f', 'a', 'u', 'l', 't', 'f', 'e', 'e']

def getNativeFee (account action : Name) : Option Int64 :=
  match t.nativeFees account action with
  | some usd => t.coreFromUsd rate usd
  | none => some 0

/-- The fee of an action, if it can be computed.  A conversion that throws is caught for the fee
of the action itself only. -/
def requiredFee (account action : Name) : Option Int64 :=
  match (t.actionFees account action).bind (t.coreFromUsd rate) with
  | some fee => some fee
  | none => do
    let native ← t.getNativeFee rate account action
    if native ≠ 0 then some native
    else
      match t.actionFees systemAccountName defaultfee with
      | some usd => t.coreFromUsd rate usd
      | none => t.getNativeFee rate systemAccountName defaultfee

/-- `get_required_fee` of a transaction, given by the accounts and names of its actions. -/
def getRequiredFee (actions : List (Name × Name)) : Option Int64 :=
  actions.foldlM (fun fee act => do
    let actFee ← t.requiredFee rate act.1 act.2
    pure (fee + actFee)) 0

end FeeTables

/-! ## The rate in the fee manager -/

/-- The event does not change the active rate of head. -/
def RateEvent.Harmless : RateEvent → Prop
  | popped block prev => block.activeRate.rate = prev.activeRate.rate
  | notAdopted rate head => rate = head.activeRate.rate
  | started head => head.activeRate.rate = .one

namespace Controller

/-- If all events were harmless, the rate is `rate`, and all transactions so far were executed
with the active rate of their head. -/
def Rated (rate : Double) (s : Controller) : Prop :=
  (∀ ev ∈ s.events, ev.Harmless) →
    s.contractCurRate = rate ∧ ∀ e ∈ s.executions, e.rate = e.head.activeRate.rate

def RatedByHead (s : Controller) : Prop := s.Rated s.head.activeRate.rate

theorem keepsRate_setPending (pending : Option BlockStage) :
    Keeps RatedByHead (modify fun s => { s with pending }) :=
  .modifyState fun _ hs => hs

/-! ### The pending block -/

theorem keepsRate_startBlock (ctx : HeaderContext) (time : BlockTimestamp) (confirmed : UInt16)
    (throws : Bool) : Keeps RatedByHead (startBlock ctx time confirmed throws) := by
  refine .readState fun s => ?_
  refine .bind keeps_assert fun _ => ?_
  refine .bind keeps_ofExcept fun p => ?_
  refine .bind (keeps_throwIf throws) fun _ => ?_
  exact keepsRate_setPending _

theorem keepsRate_executeTransactions : Keeps RatedByHead executeTransactions := by
  refine .readState fun s => ?_
  split
  · refine .modifyState fun s hs hharmless => ?_
    obtain ⟨hrate, hexec⟩ := hs hharmless
    refine ⟨hrate, ?_⟩
    intro e he
    rcases mem_append.mp he with he | he
    · exact hexec e he
    · grind
  · exact .throw fun s hs => hs

theorem keepsRate_finalizeBlock (ctx : HeaderContext) (contents : BlockContents) :
    Keeps RatedByHead (finalizeBlock ctx contents) := by
  refine .readState fun s => ?_
  split
  · exact .throw fun s hs => hs
  · refine .bind keeps_ofExcept fun h => ?_
    refine .bind (keepsRate_setPending _) fun _ => ?_
    refine .bind keeps_ofExcept fun b => ?_
    exact keepsRate_setPending _
  · exact .throw fun s hs => hs

/-! ### Commits -/

/-- The rate is `rate` or that of head: what holds when a commit of a block with that rate
throws. -/
def RatedOrHead (rate : Double) (s : Controller) : Prop := s.Rated rate ∨ s.RatedByHead

variable {s : Controller}

theorem ratedByHead_of_notAdopted {rate : Double} (hs : s.RatedOrHead rate) :
    RatedByHead { s with events := s.events ++ [.notAdopted rate s.head] } := by
  intro hharmless
  have hold : ∀ ev ∈ s.events, ev.Harmless := by grind
  rcases hs with hs | hs
  · have hrate : rate = s.head.activeRate.rate := hharmless (.notAdopted rate s.head) (by simp)
    exact hrate ▸ hs hold
  · exact hs hold

theorem recordThrow_rated {α : Type} (rate : Double) (e : ChainException)
    {Q : α → Controller → Prop} :
    Triple (RatedOrHead rate)
      (do
        modify fun s => { s with events := s.events ++ [.notAdopted rate s.head] }
        throw e : ControllerM α) Q RatedByHead :=
  .bind (.modifyState fun _ hs => ratedByHead_of_notAdopted hs) fun _ => .throw fun _ hs => hs

section Commit

variable (addToForkDb : BlockState → ControllerM Unit) (throws : Bool) (log : ControllerM Unit)
  {Q : BlockState → Controller → Prop}

/-- A commit takes over the rate of the pending block.  `Q b` is what adding the completed block
`b` to the fork database establishes. -/
theorem commitBlockWith_rated
    (hadd : ∀ b, Triple (Rated b.activeRate.rate) (addToForkDb b) (fun _ => Q b)
      (RatedOrHead b.activeRate.rate)) (hQ : ∀ b s, Q b s → s.RatedOrHead b.activeRate.rate)
    (hlog : ∀ b, Triple (Q b) log (fun _ => Q b) (RatedOrHead b.activeRate.rate))
    (hpending : ∀ b s, Q b s → Q b { s with pending := none }) (stage : Option BlockStage) :
    Triple (fun s => s.RatedByHead ∧ s.pending = stage) (commitBlockWith addToForkDb throws log)
      (fun _ s => ∃ b, stage = some (.completed b) ∧ Q b s) RatedByHead := by
  refine .bind (Q := fun _ s => s.pending = stage ∧ s.Rated s.activeRate.rate)
    (.modifyState fun s hs => ⟨hs.2, fun hharmless => ⟨rfl, (hs.1 hharmless).2⟩⟩) fun _ => ?_
  refine .getState fun t ⟨hstage, ht⟩ => ?_
  refine .bind (Q := fun _ s => ∃ b, stage = some (.completed b) ∧ Q b s)
    (.tryCatch (F := RatedOrHead t.activeRate.rate) ?_ fun e => ?_) fun _ => ?_
  · refine .getState fun u hu => ?_
    subst hu
    split
    case h_1 b hu =>
      have hb : u.activeRate.rate = b.activeRate.rate := by rw [activeRate, hu]
      rw [hb] at ht ⊢
      refine .bind (Q := fun _ => Q b) ((hadd b).weaken ?_ (fun _ _ h => h) fun _ h => h) fun _ => ?_
      · rintro s rfl
        exact ht
      refine .bind (Q := fun _ => Q b)
        (.ite (fun _ => .throw (hQ b)) fun _ => .pure fun _ hs => hs) fun _ => ?_
      exact (hlog b).weaken (fun _ h => h) (fun _ s hs => ⟨b, hstage ▸ hu, hs⟩) fun _ h => h
    · refine .throw ?_
      rintro s rfl
      exact .inl ht
  · refine .bind (Q := fun _ => RatedOrHead t.activeRate.rate) (.modifyState fun s hs => hs)
      fun _ => ?_
    exact recordThrow_rated t.activeRate.rate e
  · refine .modifyState ?_
    rintro s ⟨b, hb, hs⟩
    exact ⟨b, hb, hpending b s hs⟩

end Commit

/-! ### Applying and popping blocks -/

theorem applyBlock_rated (ctx : HeaderContext) (b : BlockState) (outcome : ApplyOutcome) :
    Triple RatedByHead (applyBlock ctx b outcome) (fun _ => Rated b.activeRate.rate)
      RatedByHead := by
  refine .tryCatch (F := RatedByHead) ?_ fun e => ?_
  · refine .bind (keepsRate_startBlock ctx _ _ _) fun _ => ?_
    refine .bind keepsRate_executeTransactions fun _ => ?_
    refine .bind (keeps_throwIf _) fun _ => ?_
    refine .bind (Q := fun _ s => s.RatedByHead ∧ s.pending = some (.completed b))
      (.modifyState fun s hs => ⟨hs, rfl⟩) fun _ => ?_
    have hcommit := commitBlockWith_rated (fun _ => pure ())
      (decide (outcome = .commitThrows)) (pure ())
      (fun b => .pure fun s hs => hs) (fun b s hs => .inl hs) (fun b => .pure fun s hs => hs)
      (fun b s hs => hs) (some (.completed b))
    refine hcommit.weaken (fun s hs => hs) ?_ fun s hs => hs
    rintro _ s ⟨b', hb', hs⟩
    cases hb'
    exact hs
  · exact .bind (keepsRate_setPending none) fun _ => .throw fun s hs => hs

/-- The rate is that of the popped block, which is the rate of its parent if the event is
harmless. -/
theorem ratedByHead_of_popped (prev : BlockState) (hs : s.RatedByHead) :
    RatedByHead { s with head := prev, events := s.events ++ [.popped s.head prev] } := by
  intro hharmless
  have hpopped : s.head.activeRate.rate = prev.activeRate.rate :=
    hharmless (.popped s.head prev) (by simp)
  exact hpopped ▸ hs fun ev hev => hharmless ev (mem_append_left _ hev)

theorem switchInvariant_ratedByHead (ctx : HeaderContext) :
    SwitchInvariant ctx RatedByHead fun b => Rated b.activeRate.rate where
  forkDb _ _ hs := hs
  emit _ _ hs := hs
  pop _ prev hs := ratedByHead_of_popped prev hs
  apply := applyBlock_rated ctx
  after_forkDb _ _ _ hs := hs
  adopt _ _ _ hs := hs
  notAdopted _ _ hs := ratedByHead_of_notAdopted (.inl hs)

/-! ### The controller's own blocks -/

theorem addCompleted_rated (b : BlockState) :
    Triple (Rated b.activeRate.rate) (addCompleted b) (fun _ => RatedByHead)
      (RatedOrHead b.activeRate.rate) := by
  refine .weaken (E := Rated b.activeRate.rate) ?_ (fun s hs => hs) (fun _ s hs => hs)
    fun s hs => .inl hs
  refine .bind (keeps_onForkDb (fun s db hs => hs) _) fun _ => ?_
  refine .bind (keeps_onForkDb (fun s db hs => hs) _) fun _ => ?_
  refine .bind (Q := fun _ => Rated b.activeRate.rate) (.modifyState fun s hs => hs) fun _ => ?_
  refine .bind (Q := fun _ => Rated b.activeRate.rate) (.modifyState fun s hs => hs) fun _ => ?_
  refine .getState fun t ht => ?_
  refine .ofExcept ?_ ?_
  · rintro _ s rfl hassert
    have hhead : s.head.toBlockHeaderState = b.toBlockHeaderState := dcdAssert_ok_iff.mp hassert
    show s.Rated s.head.toBlockHeaderState.activeRate.rate
    rw [hhead]
    exact ht
  · rintro s rfl
    exact ht

theorem keepsRate_commitBlock (ctx : HeaderContext) (throws : Bool) (o : BlockOutcome) :
    Keeps RatedByHead (commitBlock ctx throws o) := by
  intro s hs
  have hcommit := commitBlockWith_rated addCompleted throws (logIrreversible ctx o)
    (Q := fun _ => RatedByHead) addCompleted_rated (fun b s hs => .inr hs)
    (fun b => ((switchInvariant_ratedByHead ctx).keeps_logIrreversible o).weaken (fun s hs => hs) (fun _ s hs => hs)
      fun s hs => .inr hs)
    (fun b s hs => hs) s.pending
  exact hcommit.weaken (fun s hs => hs) (fun _ s ⟨_, _, hs⟩ => hs) (fun s hs => hs) s ⟨hs, rfl⟩

/-! ### Starting -/

theorem ratedByHead_started (forkDb : ForkDatabase) (hs : s.RatedByHead) :
    (s.started forkDb).RatedByHead := by
  intro hharmless
  have hrate : forkDb.head.activeRate.rate = .one :=
    hharmless (.started forkDb.head) (mem_append_right _ (mem_singleton_self _))
  refine ⟨hrate.symm, (hs ?_).2⟩
  exact fun ev hev => hharmless ev (mem_append_left _ hev)

/-! ## Runs -/

theorem keepsRate_operation (ctx : HeaderContext) (i : ControllerInput) :
    Keeps RatedByHead (operation ctx i) := by
  cases i with
  | startBlock time confirmed throws => exact keepsRate_startBlock ctx time confirmed throws
  | pushTransaction => exact keepsRate_executeTransactions
  | finalizeBlock contents => exact keepsRate_finalizeBlock ctx contents
  | commitBlock throws o => exact keepsRate_commitBlock ctx throws o
  | abortBlock => exact keepsRate_setPending none
  | pushBlock block o again => exact (switchInvariant_ratedByHead ctx).keeps_pushBlock block o again
  | restart => exact .modifyState fun s hs => ratedByHead_started _ hs
  | startFromSnapshot head => exact .modifyState fun s hs => ratedByHead_started _ hs
  | replayBlock block irreversible o again =>
    exact (switchInvariant_ratedByHead ctx).keeps_replayPushBlock block irreversible o again
  | applyPendingHead o again =>
    exact .readState fun s => (switchInvariant_ratedByHead ctx).keeps_maybeSwitchForks _ o again

/-- A run of a node that starts as a new chain. -/
abbrev ControllerRun (ctx : HeaderContext) (g : GenesisState) (readIrreversible : Bool) :=
  Run (fun s i s' => step ctx s i = s') (genesis ctx g readIrreversible)

variable {ctx : HeaderContext} {g : GenesisState} {readIrreversible : Bool}
  {ts : List (Transition Controller ControllerInput)} {s : Controller}

theorem ratedByHead_of_run (hrun : ControllerRun ctx g readIrreversible ts s) : s.RatedByHead := by
  refine hrun.invariant (I := fun _ s => s.RatedByHead) ?_ ?_
  · intro _
    exact ⟨rfl, fun e he => absurd he not_mem_nil⟩
  · rintro ts s i s' - hs rfl
    exact (keepsRate_operation ctx i).exec_snd hs

/-- If no event of a run moves head to another rate, transactions are executed with the active
rate of the head they are executed on, and two nodes charge the same fees for the same block. -/
theorem feeRate_eq_activeRate (hrun : ControllerRun ctx g readIrreversible ts s)
    (hharmless : ∀ ev ∈ s.events, ev.Harmless) :
    (∀ e ∈ s.executions, e.rate = e.head.activeRate.rate) ∧
    ∀ readIrreversible' ts' s', ControllerRun ctx g readIrreversible' ts' s' →
      (∀ ev ∈ s'.events, ev.Harmless) →
      ∀ e ∈ s.executions, ∀ e' ∈ s'.executions,
        e.head.toBlockHeaderState = e'.head.toBlockHeaderState →
        ∀ (t : FeeTables) (actions : List (Name × Name)),
          t.getRequiredFee e.rate actions = t.getRequiredFee e'.rate actions := by
  have hrates := (ratedByHead_of_run hrun hharmless).2
  refine ⟨hrates, ?_⟩
  intro readIrreversible' ts' s' hrun' hharmless' e he e' he' hhead t actions
  have hrate : e.rate = e'.rate :=
    calc e.rate = e.head.toBlockHeaderState.activeRate.rate := hrates e he
      _ = e'.head.toBlockHeaderState.activeRate.rate := by rw [hhead]
      _ = e'.rate := ((ratedByHead_of_run hrun' hharmless').2 e' he').symm
  rw [hrate]

/-- The node builds a block at the given slot, with a transaction in it. -/
def ownBlock (slot : UInt32) (newRate : Option ProducerRateInfo) : List ControllerInput :=
  [ .startBlock ⟨slot⟩ 0 false, .pushTransaction,
    .finalizeBlock { newRate, completion := .sign fun _ => [default] },
    .commitBlock false {} ]

/-- Block 3 announces the rate 2.0, and block 4 makes it active. -/
def doubledRate : List ControllerInput :=
  ownBlock 2 none ++ ownBlock 3 (some ⟨1, ⟨0x4000000000000000⟩⟩) ++ ownBlock 4 none

/-- The state after some inputs of a node with the sample chain. -/
def sampleState (inputs : List ControllerInput) : Controller :=
  inputs.foldl (step sampleContext) (genesis sampleContext sampleGenesis false)

/-- The transaction in block 5 is executed with the rate 2.0, which is that of block 4. -/
theorem feeRate_eq_activeRate_doubled :
    ∃ e ∈ (sampleState (doubledRate ++ ownBlock 5 none)).executions,
      e.head.blockNum = 4 ∧ e.rate = ⟨0x4000000000000000⟩ ∧ e.rate = e.head.activeRate.rate := by
  obtain ⟨ts, hrun⟩ := exists_run_foldl (step sampleContext)
    (genesis sampleContext sampleGenesis false) (doubledRate ++ ownBlock 5 none)
  have hevents : (sampleState (doubledRate ++ ownBlock 5 none)).events = [] := by
    decide +kernel
  have hexec : ((sampleState (doubledRate ++ ownBlock 5 none)).executions.any fun e =>
      e.head.blockNum == 4 && e.rate == ⟨0x4000000000000000⟩) = true := by decide +kernel
  obtain ⟨e, he, hhead⟩ := any_eq_true.mp hexec
  simp only [Bool.and_eq_true, beq_iff_eq] at hhead
  refine ⟨e, he, hhead.1, hhead.2, ?_⟩
  have hharmless : ∀ ev ∈ (sampleState (doubledRate ++ ownBlock 5 none)).events, ev.Harmless := by
    rw [hevents]
    exact fun ev hev => absurd hev not_mem_nil
  exact (feeRate_eq_activeRate hrun hharmless).1 e he

/-- Two nodes build block 5 on the same block 4, whose active rate is 2.0.  The one that has been
restarted executes its transaction with the rate 1.0. -/
theorem feeRate_ne_activeRate_after_restart :
    ∃ ts s ts' s', ControllerRun sampleContext sampleGenesis false ts s ∧
      ControllerRun sampleContext sampleGenesis false ts' s' ∧
      ∃ e ∈ s.executions, ∃ e' ∈ s'.executions,
        e.head.toBlockHeaderState = e'.head.toBlockHeaderState ∧
        e.head.activeRate.rate = ⟨0x4000000000000000⟩ ∧ e.rate = .one ∧
        e'.rate = ⟨0x4000000000000000⟩ := by
  obtain ⟨ts, hrun⟩ := exists_run_foldl (step sampleContext)
    (genesis sampleContext sampleGenesis false) (doubledRate ++ .restart :: ownBlock 5 none)
  obtain ⟨ts', hrun'⟩ := exists_run_foldl (step sampleContext)
    (genesis sampleContext sampleGenesis false) (doubledRate ++ ownBlock 5 none)
  have hexec : ((sampleState (doubledRate ++ .restart :: ownBlock 5 none)).executions.any fun e =>
      (sampleState (doubledRate ++ ownBlock 5 none)).executions.any fun e' =>
        e.head.toBlockHeaderState == e'.head.toBlockHeaderState &&
          e.head.activeRate.rate == ⟨0x4000000000000000⟩ && e.rate == .one &&
          e'.rate == ⟨0x4000000000000000⟩) = true := by decide +kernel
  simp only [any_eq_true, Bool.and_eq_true, beq_iff_eq, and_assoc] at hexec
  obtain ⟨e, he, e', he', hrates⟩ := hexec
  exact ⟨ts, _, ts', _, hrun, hrun', e, he, e', he', hrates⟩

end Controller

end DcdProtocol.Chain
