import DcdProtocol.Chain.ForkSwitch

/-!
# The pending block through the operations of the controller

One specification for each operation that the producer plugin uses: what it makes of the pending
block, and for which blocks it emits `accepted_block_header`.  A received block leaves no pending
block behind, however it ends.
-/

namespace DcdProtocol.Chain

open Library PendingBlockHeaderState

/-- The block `b` is the completed pending block `p`. -/
structure PendingBlockHeaderState.Completes (p : PendingBlockHeaderState) (b : BlockState) :
    Prop where
  blockNum : b.blockNum = p.blockNum
  producer : b.header.producer = p.producer
  timestamp : b.header.timestamp = p.timestamp
  confirmed : b.header.confirmed = p.confirmed

theorem PendingBlockHeaderState.completes_of_complete {p : PendingBlockHeaderState}
    {ctx : HeaderContext} {h : SignedBlockHeader} {c : Completion} {b : BlockHeaderState}
    (hok : p.complete ctx h c = .ok b) (validated : Bool) : p.Completes ⟨b, validated⟩ := by
  obtain ⟨r, hcore, sig, sigs, rfl⟩ := BlockHeaderState.complete_ok hok
  obtain ⟨htemplate, hcommon, hheader, -⟩ := finishNextCore_ok hcore
  simp only [checkTemplate, bind_ok_iff, dcdAssert_ok_iff] at htemplate
  obtain ⟨_, htime, _, -, _, hconfirmed, _, hproducer, -⟩ := htemplate
  refine ⟨congrArg BlockHeaderStateCommon.blockNum hcommon, ?_, ?_, ?_⟩
  · exact hheader ▸ hproducer
  · exact hheader ▸ htime
  · exact hheader ▸ hconfirmed

namespace Controller

variable (ctx : HeaderContext)

/-! ## Received blocks -/

def NoPending (s : Controller) : Prop := s.pending = none

theorem noPending_commitBlockWith (addToForkDb : BlockState → ControllerM Unit) (throws : Bool)
    (log : ControllerM Unit) :
    Triple (fun _ => True) (commitBlockWith addToForkDb throws log) (fun _ => NoPending)
      fun _ => True := by
  refine .bind (.of_true _) fun _ => ?_
  refine .readState fun s => ?_
  refine .bind (.of_true _) fun _ => ?_
  exact .modifyState fun s _ => rfl

theorem noPending_applyBlock (b : BlockState) (outcome : ApplyOutcome) :
    Triple (fun _ => True) (applyBlock ctx b outcome) (fun _ => NoPending) NoPending := by
  refine .tryCatch (F := fun _ => True) ?_ fun e => ?_
  · refine .bind (.of_true _) fun _ => ?_
    refine .bind (.of_true _) fun _ => ?_
    refine .bind (.of_true _) fun _ => ?_
    refine .bind (.of_true _) fun _ => ?_
    exact noPending_commitBlockWith _ _ _
  · refine .bind (Q := fun _ => NoPending) (.modifyState fun s _ => rfl) fun _ => ?_
    exact .throw fun s hs => hs

theorem switchInvariant_noPending : SwitchInvariant ctx NoPending fun _ => NoPending where
  forkDb _ _ hs := hs
  emit _ _ hs := hs
  pop _ _ hs := hs
  apply b outcome := (noPending_applyBlock ctx b outcome).weaken (fun _ _ => trivial)
    (fun _ _ hs => hs) fun _ hs => hs
  after_forkDb _ _ _ hs := hs
  adopt _ _ _ hs := hs
  notAdopted _ _ hs := hs

theorem startBlock_spec (head : BlockState) (time : BlockTimestamp) (confirmed : UInt16)
    (throws : Bool) :
    Triple (fun s => s.pending = none ∧ s.acceptedHeaders = [] ∧ s.head = head)
      (startBlock ctx time confirmed throws)
      (fun _ s => s.acceptedHeaders = [] ∧ s.head = head ∧
        ∃ p, s.pending = some (.building p) ∧ head.next ctx.crypto time confirmed = .ok p)
      (fun s => s.pending = none ∧ s.acceptedHeaders = []) := by
  refine .getState fun t ⟨hpending, haccepted, hhead⟩ => ?_
  have hthrow : ∀ s, s = t → s.pending = none ∧ s.acceptedHeaders = [] := by grind
  refine .bind (Q := fun _ s => s = t) (.ofExcept (fun _ _ hs _ => hs) hthrow) fun _ => ?_
  refine .bind (Q := fun p s => s = t ∧ head.next ctx.crypto time confirmed = .ok p)
    (.ofExcept (fun p s hs hp => ⟨hs, hhead ▸ hp⟩) hthrow) fun p => ?_
  refine .bind (Q := fun _ s => s = t ∧ head.next ctx.crypto time confirmed = .ok p)
    (.ite (fun _ => .throw fun s hs => hthrow s hs.1) fun _ => .pure fun s hs => hs) fun _ => ?_
  rintro s ⟨rfl, hp⟩
  exact ⟨haccepted, hhead, p, rfl, hp⟩

theorem finalizeBlock_spec (contents : BlockContents) (stage : Option BlockStage) :
    Triple (fun s => s.acceptedHeaders = [] ∧ s.pending = stage)
      (finalizeBlock ctx contents)
      (fun _ s => s.acceptedHeaders = [] ∧ ∃ p b, stage = some (.building p) ∧
        s.pending = some (.completed b) ∧ p.Completes b)
      (fun s => s.acceptedHeaders = []) := by
  refine .getState fun t ⟨haccepted, hpending⟩ => ?_
  have hkeep : ∀ s, s = t → s.acceptedHeaders = [] := by grind
  split
  case h_2 p hp =>
    refine .bind (Q := fun _ s => s.acceptedHeaders = [])
      (.ofExcept (fun _ s hs _ => hkeep s hs) hkeep) fun h => ?_
    refine .bind (Q := fun _ s => s.acceptedHeaders = []) (.modifyState fun s hs => hs) fun _ => ?_
    refine .bind
      (Q := fun b s => s.acceptedHeaders = [] ∧ p.complete ctx h contents.completion = .ok b)
      (.ofExcept (fun _ s hs hb => ⟨hs, hb⟩) fun s hs => hs) fun b => ?_
    rintro s ⟨hs, hb⟩
    exact ⟨hs, p, ⟨b, false⟩, hpending ▸ hp, rfl, completes_of_complete hb false⟩
  · exact .throw hkeep
  · exact .throw hkeep

theorem addCompleted_spec (b : BlockState) :
    Triple (fun _ => True) (addCompleted b) (fun _ s => b ∈ s.acceptedHeaders) fun _ => True := by
  refine .bind (.of_true _) fun _ => ?_
  refine .bind (.of_true _) fun _ => ?_
  refine .bind (Q := fun _ s => b ∈ s.acceptedHeaders)
    (.modifyState fun s _ => List.mem_append_right _ (List.mem_singleton_self b)) fun _ => ?_
  refine .bind (Q := fun _ s => b ∈ s.acceptedHeaders) (.modifyState fun s hs => hs) fun _ => ?_
  refine .readState fun t => ?_
  exact .ofExcept (fun _ s hs _ => hs) fun _ _ => trivial

/-! ## Emitted signals -/

/-- The signal for `b` has been emitted. -/
def Accepted (b : BlockState) (s : Controller) : Prop := b ∈ s.acceptedHeaders

variable {ctx}

theorem accepted_commitBlockWith {b : BlockState} {addToForkDb : BlockState → ControllerM Unit}
    (throws : Bool) {log : ControllerM Unit} (hadd : ∀ c, Keeps (Accepted b) (addToForkDb c))
    (hlog : Keeps (Accepted b) log) : Keeps (Accepted b) (commitBlockWith addToForkDb throws log) := by
  refine .bind (Q := fun _ => Accepted b) (.modifyState fun s hs => hs) fun _ => ?_
  refine .readState fun s => ?_
  refine .bind (Q := fun _ => Accepted b) (.tryCatch (F := Accepted b) ?_ fun e => ?_) fun _ => ?_
  · refine .readState fun t => ?_
    split
    · refine .bind (hadd _) fun _ => ?_
      exact .bind (keeps_throwIf throws) fun _ => hlog
    · exact .throw fun s hs => hs
  · refine .bind (Q := fun _ => Accepted b) (.modifyState fun s hs => hs) fun _ => ?_
    refine .bind (Q := fun _ => Accepted b) (.modifyState fun s hs => hs) fun _ => ?_
    exact .throw fun s hs => hs
  · exact .modifyState fun s hs => hs

theorem accepted_applyBlock (b c : BlockState) (outcome : ApplyOutcome) :
    Keeps (Accepted b) (applyBlock ctx c outcome) := by
  refine .tryCatch (F := Accepted b) ?_ fun e => ?_
  · refine .bind (Q := fun _ => Accepted b) ?_ fun _ => ?_
    · refine .readState fun s => ?_
      refine .bind keeps_assert fun _ => ?_
      refine .bind keeps_ofExcept fun p => ?_
      exact .bind (keeps_throwIf _) fun _ => .modifyState fun s hs => hs
    refine .bind (Q := fun _ => Accepted b) ?_ fun _ => ?_
    · refine .readState fun s => ?_
      split
      · exact .modifyState fun s hs => hs
      · exact .throw fun s hs => hs
    refine .bind (keeps_throwIf _) fun _ => ?_
    refine .bind (Q := fun _ => Accepted b) (.modifyState fun s hs => hs) fun _ => ?_
    exact accepted_commitBlockWith _ (fun _ => .pure fun s hs => hs) (.pure fun s hs => hs)
  · refine .bind (Q := fun _ => Accepted b) (.modifyState fun s hs => hs) fun _ => ?_
    exact .throw fun s hs => hs

theorem switchInvariant_accepted (b : BlockState) :
    SwitchInvariant ctx (Accepted b) fun _ => Accepted b where
  forkDb _ _ hs := hs
  emit _ _ hs := List.mem_append_left _ hs
  pop _ _ hs := hs
  apply := accepted_applyBlock b
  after_forkDb _ _ _ hs := hs
  adopt _ _ _ hs := hs
  notAdopted _ _ hs := hs

theorem commitBlock_spec (b : BlockState) (throws : Bool) (o : BlockOutcome) :
    Triple (fun s => s.pending = some (.completed b)) (commitBlock ctx throws o)
      (fun _ s => Accepted b s ∧ NoPending s) fun _ => True := by
  refine .bind (Q := fun _ s => s.pending = some (.completed b)) (.modifyState fun s hs => hs)
    fun _ => ?_
  refine .readState fun s => ?_
  refine .bind (Q := fun _ => Accepted b) (.tryCatch (F := fun _ => True) ?_ fun e => ?_)
    fun _ => .modifyState fun s hs => ⟨hs, rfl⟩
  · refine .getState fun t ht => ?_
    rw [ht]
    refine .bind (Q := fun _ => Accepted b)
      ((addCompleted_spec b).weaken (fun _ _ => trivial) (fun _ s hs => hs) fun _ _ => trivial)
      fun _ => ?_
    refine .weaken (P := Accepted b) (Q := fun _ => Accepted b) (E := Accepted b) ?_
      (fun s hs => hs) (fun _ s hs => hs) fun _ _ => trivial
    exact .bind (keeps_throwIf throws) fun _ => (switchInvariant_accepted b).keeps_logIrreversible o
  · refine .bind (.of_true _) fun _ => ?_
    refine .bind (.of_true _) fun _ => ?_
    exact .throw fun _ _ => trivial

end Controller

end DcdProtocol.Chain
