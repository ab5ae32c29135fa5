import DcdProtocol.Chain.AuthorizationSoundness
import DcdProtocol.Chain.TransactionSteps
import DcdProtocol.Library.UndoStack

/-!
# A node and its chain

A node starts blocks, pushes transactions into the pending one, commits or aborts it, and pops
blocks when it switches forks.  Every block has its session in the database, so popping or
aborting one brings back the state before it.  A fork switch is a sequence of these operations,
and so is one that fails.

The state of the node is therefore always that of a chain: there is a run of `start_block`,
`push_transaction` and `push_scheduled_transaction` alone that leads to it, whose block times
increase (`exists_chain`).  What holds along every such chain holds for the node.
-/

namespace DcdProtocol.Chain

open Library

/-- The states at the start of the reversible blocks, and of the pending one, are the saved ones. -/
structure ChainNode where
  chain : UndoStack TransactionState
  pending : Bool := false

inductive NodeInput
  | startBlock (i : TransactionState.BlockInput)
  | pushTransaction (i : TransactionState.PushInput)
  | pushScheduledTransaction (i : TransactionState.ScheduledInput)
  | commitBlock
  | abortBlock
  | popBlock
  /-- The sessions up to a revision belong to irreversible blocks. -/
  | commit (revision : ℤ)

structure NodeStep where
  node : NodeSettings
  input : NodeInput

namespace ChainNode

variable (codec : TransactionCodec) (c : ChainNode)

def startBlock (n : NodeSettings) (i : TransactionState.BlockInput) :
    Except ChainException ChainNode := do
  dcdAssert (c.pending = false) .blockValidateException "pending block already exists"
  let s ← c.chain.current.step codec ⟨n, .startBlock i⟩
  pure ⟨c.chain.push.set s, true⟩

def inPending (l : TransactionStep) : Except ChainException ChainNode := do
  dcdAssert (c.pending = true) .blockValidateException "no pending block"
  let s ← c.chain.current.step codec l
  pure { c with chain := c.chain.set s }

def commitBlock : Except ChainException ChainNode := do
  dcdAssert (c.pending = true) .undefinedBehaviour "there is no pending block"
  pure { c with pending := false }

def abortBlock : ChainNode := if c.pending then ⟨c.chain.undo, false⟩ else c

def popBlock : Except ChainException ChainNode := do
  dcdAssert (c.pending = false ∧ c.chain.saved ≠ []) .blockValidateException
    "attempt to pop beyond last irreversible block"
  pure { c with chain := c.chain.undo }

def step (c : ChainNode) (l : NodeStep) : Except ChainException ChainNode :=
  match l.input with
  | .startBlock i => c.startBlock codec l.node i
  | .pushTransaction i => c.inPending codec ⟨l.node, .pushTransaction i⟩
  | .pushScheduledTransaction i => c.inPending codec ⟨l.node, .pushScheduledTransaction i⟩
  | .commitBlock => c.commitBlock
  | .abortBlock => pure c.abortBlock
  | .popBlock => c.popBlock
  | .commit r => pure { c with chain := c.chain.commit r }

end ChainNode

/-! ## The chain of a node -/

/-- The operations that extend the chain, among those of a node. -/
def TransactionStep.toNode (l : TransactionStep) : NodeStep where
  node := l.node
  input :=
    match l.input with
    | .startBlock i => .startBlock i
    | .pushTransaction i => .pushTransaction i
    | .pushScheduledTransaction i => .pushScheduledTransaction i

/-- `us` is the history of a chain that leads from `s₀` to `s`. -/
abbrev TransactionRun (codec : TransactionCodec) (s₀ : TransactionState)
    (us : List (Transition TransactionState TransactionStep)) (s : TransactionState) : Prop :=
  Run (fun s l s' => s.step codec l = .ok s') s₀ us s

/-- A run of a node from the state `s₀`, which has the revision `r` and no sessions. -/
abbrev NodeRun (codec : TransactionCodec) (r : ℤ) (s₀ : TransactionState)
    (ts : List (Transition ChainNode NodeStep)) (c : ChainNode) : Prop :=
  Run (fun c l c' => c.step codec l = .ok c') ⟨⟨r, s₀, []⟩, false⟩ ts c

namespace ChainNode

variable {codec : TransactionCodec} {s₀ : TransactionState} {c c' : ChainNode}

/-- `s` is the state of a chain whose operations are among those of `ts`. -/
def OnChain (codec : TransactionCodec) (s₀ : TransactionState)
    (ts : List (Transition ChainNode NodeStep)) (s : TransactionState) : Prop :=
  ∃ us, TransactionRun codec s₀ us s ∧ ∀ u ∈ us, ∃ t ∈ ts, t.label = u.label.toNode

variable {ts : List (Transition ChainNode NodeStep)} {t : Transition ChainNode NodeStep}
  {l : TransactionStep}

theorem OnChain.mono {s : TransactionState}
    (h : OnChain codec s₀ ts s) (t : Transition ChainNode NodeStep) :
    OnChain codec s₀ (ts ++ [t]) s := by
  obtain ⟨us, hrun, hus⟩ := h
  refine ⟨us, hrun, fun u hu => ?_⟩
  obtain ⟨t', ht', hlabel⟩ := hus u hu
  exact ⟨t', List.mem_append_left _ ht', hlabel⟩

theorem OnChain.snoc {s s' : TransactionState}
    (h : OnChain codec s₀ ts s) (hstep : s.step codec l = .ok s') (ht : t.label = l.toNode) :
    OnChain codec s₀ (ts ++ [t]) s' := by
  obtain ⟨us, hrun, hus⟩ := h.mono t
  refine ⟨us ++ [⟨s, l, s'⟩], hrun.snoc hstep, fun u hu => ?_⟩
  rcases List.mem_append.mp hu with hu | hu
  · exact hus u hu
  · grind

theorem onChain_inPending
    (h : c.chain.Forall (OnChain codec s₀ ts)) (hok : c.inPending codec l = .ok c')
    (ht : t.label = l.toNode) : c'.chain.Forall (OnChain codec s₀ (ts ++ [t])) := by
  simp only [inPending, bind_ok_iff, pure_ok_iff] at hok
  obtain ⟨_, -, s, hs, rfl⟩ := hok
  exact (h.imp fun s hs => hs.mono t).set (h.1.snoc hs ht)

theorem forall_abortBlock {P : TransactionState → Prop} (h : c.chain.Forall P) :
    c.abortBlock.chain.Forall P := by
  unfold abortBlock
  split
  · exact h.undo
  · exact h

theorem onChain_step {l : NodeStep}
    (h : c.chain.Forall (OnChain codec s₀ ts)) (hok : c.step codec l = .ok c') :
    c'.chain.Forall (OnChain codec s₀ (ts ++ [⟨c, l, c'⟩])) := by
  have hmono := h.imp fun s hs => hs.mono ⟨c, l, c'⟩
  obtain ⟨n, input⟩ := l
  cases input with
  | startBlock i =>
    simp only [step, startBlock, bind_ok_iff, pure_ok_iff] at hok
    obtain ⟨_, -, s, hs, rfl⟩ := hok
    exact hmono.push.set (h.1.snoc hs rfl)
  | pushTransaction i => exact onChain_inPending h hok rfl
  | pushScheduledTransaction i => exact onChain_inPending h hok rfl
  | commitBlock =>
    obtain ⟨_, -, hok⟩ := bind_ok_iff.mp hok
    obtain rfl := pure_ok_iff.mp hok
    exact hmono
  | abortBlock =>
    obtain rfl := pure_ok_iff.mp hok
    exact forall_abortBlock hmono
  | popBlock =>
    obtain ⟨_, -, hok⟩ := bind_ok_iff.mp hok
    obtain rfl := pure_ok_iff.mp hok
    exact hmono.undo
  | commit r =>
    obtain rfl := pure_ok_iff.mp hok
    exact hmono.commit r

theorem exists_chain {r : ℤ}
    (hrun : NodeRun codec r s₀ ts c) : OnChain codec s₀ ts c.chain.current := by
  have hall : c.chain.Forall (OnChain codec s₀ ts) := by
    apply hrun.invariant (I := fun ts c => c.chain.Forall (OnChain codec s₀ ts))
    · exact ⟨⟨[], .nil, List.forall_mem_nil _⟩, List.forall_mem_nil _⟩
    · intro ts c l c' _ h hstep
      exact onChain_step h hstep
  exact hall.1

end ChainNode

/-! ## An example -/

def sampleNode : NodeSettings := { blockStatus := .incomplete }

/-- Ids that tell transactions apart by their delay and their expiration. -/
def sampleCodec : TransactionCodec where
  id trx := { h0 := trx.delaySec.toUInt64, h1 := trx.expiration.toUInt64 }
  packContext _ := []
  unpackContext _ := none

/-- A chain at genesis, with an account for the example permissions; every action costs 5. -/
def sampleChain : TransactionState where
  db := { accounts := [⟨1⟩, ⟨3⟩], authorization := AuthorizationManager.sampleManager }
  feeTables := ⟨fun _ _ => none, fun _ _ => some ⟨5, 0⟩, fun _ _ => some 5⟩

def sampleTransaction (delaySec : UInt32) : Transaction where
  expiration := 60
  delaySec
  actions := [⟨⟨3⟩, ⟨4⟩, [⟨⟨1⟩, activeName⟩], []⟩]

def sampleBlockAt (time : ℤ) : TransactionState.BlockInput where
  time
  headBlockId := {}
  contractCurRate := .one
  blockSummaries _ := {}

end DcdProtocol.Chain
