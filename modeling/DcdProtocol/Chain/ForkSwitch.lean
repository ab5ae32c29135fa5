import DcdProtocol.Chain.Controller

/-!
# What fork switches keep

A received block may move head a long way: blocks are popped and applied, an exception in the
middle undoes the new branch and applies the old one again, and blocks become irreversible.
Whatever is to be proved about all of this depends on a few basic operations only: the fork
database changes, a signal is emitted, a block is popped, a block is applied, and an applied block
becomes head.

`SwitchInvariant` says what an assertion has to satisfy with respect to these, where `After b` is
what holds between the application of `b` and its becoming head.  Then the assertion is kept by
`pushBlock` and everything below it.
-/

namespace DcdProtocol.Chain

open Library

namespace Controller

/-- `x` keeps `I`, whether it returns or throws. -/
abbrev Keeps {α : Type} (I : Controller → Prop) (x : ControllerM α) : Prop :=
  Triple I x (fun _ => I) I

section Basic

variable {I : Controller → Prop} {α : Type}

theorem keeps_assert {c : Prop} [Decidable c] {type : ExceptionType} {what : String} :
    Keeps I (assert c type what) :=
  .ofExcept (fun _ _ hs _ => hs) fun _ hs => hs

theorem keeps_ofExcept {x : Except ChainException α} : Keeps I (Stateful.ofExcept x) :=
  .ofExcept (fun _ _ hs _ => hs) fun _ hs => hs

theorem keeps_throwIf (c : Bool) : Keeps I (throwIf c) :=
  .ite (fun _ => .throw fun _ hs => hs) fun _ => .pure fun _ hs => hs

theorem keeps_onForkDb (hI : ∀ s db, I s → I { s with forkDb := db })
    (x : Stateful ForkDatabase ChainException α) : Keeps I (onForkDb x) :=
  .zoom (.of_true x) (fun _ _ => trivial) (fun s db _ hs _ => hI s db hs) fun s db hs _ =>
    hI s db hs

end Basic

/-- An assertion `I` that blocks keep on their way to head; `After b` holds when `b` has been
applied but is not head yet. -/
structure SwitchInvariant (ctx : HeaderContext) (I : Controller → Prop)
    (After : BlockState → Controller → Prop) : Prop where
  forkDb : ∀ s db, I s → I { s with forkDb := db }
  emit : ∀ s b, I s → I { s with acceptedHeaders := s.acceptedHeaders ++ [b] }
  pop : ∀ s prev, I s → I { s with head := prev, events := s.events ++ [.popped s.head prev] }
  apply : ∀ b outcome, Triple I (applyBlock ctx b outcome) (fun _ => After b) I
  after_forkDb : ∀ b s db, After b s → After b { s with forkDb := db }
  adopt : ∀ b s validated, After b s → I { s with head := { b with validated } }
  notAdopted : ∀ b s, After b s →
    I { s with events := s.events ++ [.notAdopted b.activeRate.rate s.head] }

namespace SwitchInvariant

variable {ctx : HeaderContext} {I : Controller → Prop} {After : BlockState → Controller → Prop}
  (hI : SwitchInvariant ctx I After)
include hI

theorem keeps_updateForkDb (f : ForkDatabase → Except ChainException ForkDatabase) :
    Keeps I (updateForkDb f) :=
  keeps_onForkDb hI.forkDb _

theorem setHead (b : BlockState) (validated : Bool) {E : Controller → Prop} :
    Triple (After b) (setHead { b with validated }) (fun _ => I) E :=
  .modifyState fun s hs => hI.adopt b s validated hs

theorem adoptBlock (b : BlockState) : Triple (After b) (adoptBlock b) (fun _ => I) I := by
  refine .bind (Q := fun _ => After b) (.tryCatch (F := After b) ?_ fun e => ?_) fun _ => ?_
  · exact keeps_onForkDb (hI.after_forkDb b) _
  · refine .bind (Q := fun _ => I) (.modifyState fun s hs => hI.notAdopted b s hs) fun _ => ?_
    exact .throw fun s hs => hs
  · exact hI.setHead b true

/-! ## Irreversibility -/

theorem keeps_advanceRoot (root : Option Sha256) : Keeps I (advanceRoot root) := by
  cases root with
  | none => exact .pure fun s hs => hs
  | some id => exact keeps_onForkDb hI.forkDb _

theorem keeps_logBlocks (readIrreversible : Bool) (o : BlockOutcome) (bs : List BlockState) :
    ∀ root, Keeps I (logBlocks ctx readIrreversible o root bs) := by
  induction bs with
  | nil => exact hI.keeps_advanceRoot
  | cons b bs ih =>
    intro root
    refine .bind (.tryCatch (F := I) ?_ fun e => ?_) fun _ => ih (some b.id)
    · refine .ite (fun _ => ?_) fun _ => ?_
      · refine .bind (hI.apply b (o.apply b)) fun _ => ?_
        refine .bind (hI.setHead b true) fun _ => ?_
        exact .bind (hI.keeps_updateForkDb _) fun _ => keeps_throwIf _
      · exact keeps_throwIf _
    · exact .bind (hI.keeps_advanceRoot root) fun _ => .throw fun s hs => hs

theorem keeps_logIrreversible (o : BlockOutcome) : Keeps I (logIrreversible ctx o) := by
  refine .readState fun s => ?_
  refine .ite (fun _ => .pure fun s hs => hs) fun _ => ?_
  exact hI.keeps_logBlocks s.readIrreversible o _ none

/-! ## Fork switches -/

theorem keeps_popBlock : Keeps I popBlock := by
  refine .readState fun s => ?_
  have hpop (prev : BlockState) : Keeps I (modify fun s =>
      { s with head := prev, events := s.events ++ [.popped s.head prev] }) :=
    .modifyState fun s hs => hI.pop s prev hs
  split
  · exact hpop _
  · exact .bind keeps_assert fun _ => hpop s.forkDb.root

theorem keeps_popBlocks (bs : List BlockState) : Keeps I (popBlocks bs) := by
  induction bs with
  | nil => exact .pure fun s hs => hs
  | cons b bs ih => exact .bind hI.keeps_popBlock fun _ => ih

omit hI in
theorem keeps_assertPopped (branch : List BlockState) (what : String) :
    Keeps I (assertPopped branch what) := by
  unfold assertPopped
  split
  · exact .throw fun s hs => hs
  · exact .readState fun s => keeps_assert

theorem keeps_reapply (again : BlockOutcome) (bs : List BlockState) :
    Keeps I (reapply ctx again bs) := by
  induction bs with
  | nil => exact .pure fun s hs => hs
  | cons b bs ih =>
    refine .bind (hI.apply b (again.apply b)) fun _ => ?_
    exact .bind (hI.setHead b b.validated) fun _ => ih

theorem keeps_switchTo (o again : BlockOutcome) (oldBranch bs : List BlockState) :
    ∀ applied, Keeps I (switchTo ctx o again oldBranch applied bs) := by
  induction bs with
  | nil => exact fun _ => .pure fun s hs => hs
  | cons b bs ih =>
    intro applied
    refine .bind (.tryCatch (F := I) ?_ fun e => ?_) fun _ => ih (applied ++ [b])
    · exact .bind (hI.apply b (o.apply b)) fun _ => hI.adoptBlock b
    refine .bind (hI.keeps_updateForkDb _) fun _ => ?_
    refine .bind (hI.keeps_popBlocks applied) fun _ => ?_
    refine .bind (keeps_assertPopped oldBranch _) fun _ => ?_
    exact .bind (hI.keeps_reapply again _) fun _ => .throw fun s hs => hs

theorem keeps_maybeSwitchForks (newHead : BlockState) (o again : BlockOutcome) :
    Keeps I (maybeSwitchForks ctx newHead o again) := by
  refine .readState fun s => ?_
  refine .ite (fun _ => ?_) fun _ => .ite (fun _ => .pure fun s hs => hs) fun _ => ?_
  · refine .bind (.tryCatch (F := I) ?_ fun e => ?_) fun _ => hI.keeps_logIrreversible o
    · exact .bind (hI.apply newHead (o.apply newHead)) fun _ => hI.adoptBlock newHead
    · exact .bind (hI.keeps_updateForkDb _) fun _ => .throw fun s hs => hs
  refine .bind keeps_ofExcept fun (newBranch, oldBranch) => ?_
  refine .bind (hI.keeps_popBlocks oldBranch) fun _ => ?_
  have hswitch : Keeps I (do
      switchTo ctx o again oldBranch [] newBranch.reverse
      logIrreversible ctx o) :=
    .bind (hI.keeps_switchTo o again oldBranch _ []) fun _ => hI.keeps_logIrreversible o
  refine .ite (fun _ => hswitch) fun _ => ?_
  exact .bind (keeps_assertPopped oldBranch _) fun _ => hswitch

/-! ## Blocks from elsewhere -/

theorem keeps_emitAcceptedBlockHeader (b : BlockState) : Keeps I (emitAcceptedBlockHeader b) :=
  .modifyState fun s hs => hI.emit s b hs

theorem keeps_pushBlock (block : ReceivedBlock) (o again : BlockOutcome) :
    Keeps I (pushBlock ctx block o again) := by
  refine .readState fun s => ?_
  refine .bind keeps_assert fun _ => ?_
  split
  · exact .throw fun s hs => hs
  refine .bind keeps_ofExcept fun b => ?_
  refine .bind keeps_assert fun _ => ?_
  refine .bind (hI.keeps_updateForkDb _) fun _ => ?_
  refine .bind (hI.keeps_emitAcceptedBlockHeader _) fun _ => ?_
  refine .ite (fun _ => hI.keeps_logIrreversible o) fun _ => ?_
  exact .readState fun t => hI.keeps_maybeSwitchForks _ o again

theorem keeps_replayPushBlock (block : ReceivedBlock) (irreversible : Bool)
    (o again : BlockOutcome) : Keeps I (replayPushBlock ctx block irreversible o again) := by
  refine .readState fun s => ?_
  refine .bind keeps_assert fun _ => ?_
  refine .bind keeps_ofExcept fun b => ?_
  refine .ite (fun _ => ?_) fun _ => ?_
  · refine .bind (hI.keeps_emitAcceptedBlockHeader _) fun _ => ?_
    exact .bind (hI.apply ⟨b, false⟩ _) fun _ => hI.setHead ⟨b, false⟩ false
  · refine .bind (hI.keeps_updateForkDb _) fun _ => ?_
    refine .bind (hI.keeps_emitAcceptedBlockHeader _) fun _ => ?_
    exact hI.keeps_maybeSwitchForks _ o again

end SwitchInvariant

end Controller

end DcdProtocol.Chain
