import DcdProtocol.Chain.ChainNode

/-!
# No input transaction is applied twice

`record_transaction` refuses a transaction whose id is in the deduplication index, but the index
does not keep its entries: `start_block` removes those that have expired.  A transaction that is
no longer in the index has an expiration before the time of the block that removed it, and block
times only increase, so `validate_expiration` refuses it from then on.  Both compare the
expiration, in seconds, with the block time, in microseconds; at equal times the entry is kept and
the transaction is not expired.

The index belongs to the database, so it is rolled back with the blocks that are popped or aborted.
By `ChainNode.exists_chain` it is enough to follow one chain.

An id is the hash of a transaction.  Only transactions without a collision of their ids are pushed;
the ones that a run pushes form the set `pushedTransactions`.
-/

namespace DcdProtocol.Chain

open Library List

namespace TransactionState

/-- The number of input receipts of a transaction on the chain. -/
def inputReceipts (s : TransactionState) (id : Sha256) : ℕ :=
  s.receipts.countP fun r => r.trxId = id ∧ r.input = true

/-- Each accepted transaction is in the index or has expired, and was accepted once. -/
structure Deduplicated (codec : TransactionCodec) (T : Set Transaction) (s : TransactionState) :
    Prop where
  remembered : ∀ r ∈ s.receipts, r.input = true → ∃ trx ∈ T, codec.id trx = r.trxId ∧
    ((r.trxId, trx.expiration) ∈ s.transactions ∨ trx.expirationTime < s.pendingBlockTime)
  once : ∀ id, s.inputReceipts id ≤ 1

end TransactionState

/-- An operation that validates transactions, and pushes one of `T` if it pushes one. -/
structure TransactionStep.Checked (T : Set Transaction) (l : TransactionStep) : Prop where
  checked : l.node.skipTrxChecks = false
  pushed : ∀ i, l.input = .pushTransaction i → i.trx ∈ T

namespace TransactionState

variable {codec : TransactionCodec} {T : Set Transaction} {n : NodeSettings}
  {s s' : TransactionState}

/-! ## One operation -/

theorem validateExpiration_of_validateInput {trx : Transaction} (hskip : n.skipTrxChecks = false)
    (hok : s.validateInput n trx = .ok ()) : s.pendingBlockTime ≤ trx.expirationTime := by
  rw [validateInput, if_neg (by rw [hskip]; decide)] at hok
  obtain ⟨_, hvalid, -⟩ := bind_ok_iff.mp hok
  simp only [validateExpiration, bind_ok_iff, dcdAssert_ok_iff] at hvalid
  obtain ⟨_, hexpiration, -⟩ := hvalid
  exact hexpiration

section

variable (h : s.Deduplicated codec T)
include h

theorem deduplicated_startBlock {i : BlockInput}
    (htime : s.pendingBlockTime < i.time) : (s.startBlock n codec i).Deduplicated codec T := by
  obtain ⟨s₁, hevolves, heq⟩ := startBlock_eq s n codec i
  have hreceipts : (s.startBlock n codec i).receipts = s.receipts := by
    rw [heq]
    exact hevolves.receipts
  have hnow : (s.startBlock n codec i).pendingBlockTime = i.time := by
    rw [heq]
    exact hevolves.time
  have hkept : ∀ t ∈ s.transactions, ¬seconds t.2 < i.time →
      t ∈ (s.startBlock n codec i).transactions := by
    intro t ht hlive
    rw [heq]
    refine mem_filter.mpr ⟨hevolves.transactions ▸ ht, ?_⟩
    rw [hevolves.time]
    exact decide_eq_true hlive
  constructor
  · intro r hr hinput
    rw [hreceipts] at hr
    rw [hnow]
    obtain ⟨trx, htrx, hid, hmem | hexpired⟩ := h.remembered r hr hinput
    · refine ⟨trx, htrx, hid, ?_⟩
      by_cases hlive : seconds trx.expiration < i.time
      · exact .inr hlive
      · exact .inl (hkept _ hmem hlive)
    · grind
  · intro id
    rw [inputReceipts, hreceipts]
    exact h.once id

theorem inputReceipts_eq_zero {trx : Transaction} (hinj : Set.InjOn codec.id T) (htrx : trx ∈ T)
    (hnew : ∀ t ∈ s.transactions, t.1 ≠ codec.id trx)
    (hlive : s.pendingBlockTime ≤ trx.expirationTime) : s.inputReceipts (codec.id trx) = 0 := by
  refine countP_eq_zero.mpr fun r hr hcounted => ?_
  obtain ⟨hid, hinput⟩ := of_decide_eq_true hcounted
  obtain ⟨trx', htrx', hid', hmem | hexpired⟩ := h.remembered r hr hinput
  · exact hnew _ hmem hid
  · -- The ids agree, so it is the transaction that has expired.
    obtain rfl := hinj htrx' htrx (hid'.trans hid)
    exact absurd hlive (not_le_of_gt hexpired)

theorem deduplicated_pushTransaction {i : PushInput}
    (hinj : Set.InjOn codec.id T) (htrx : i.trx ∈ T) (hskip : n.skipTrxChecks = false)
    (hok : s.pushTransaction n codec i = .ok s') : s'.Deduplicated codec T := by
  obtain ⟨hvalid, hnew, fee, s₁, stored, -, hevolves, -, rfl⟩ := pushTransaction_eq_ok hok
  have hzero := inputReceipts_eq_zero h hinj htrx hnew
    (validateExpiration_of_validateInput hskip hvalid)
  have hreceipts : s₁.receipts = s.receipts := hevolves.receipts.trans (chargeFee_receipts ..)
  have htime : s₁.pendingBlockTime = s.pendingBlockTime :=
    hevolves.time.trans (chargeFee_pendingBlockTime ..)
  have htransactions : s₁.transactions = s.transactions ++ [(codec.id i.trx, i.trx.expiration)] :=
    hevolves.transactions.trans (chargeFee_transactions ..)
  constructor
  · intro r hr hinput
    rw [htransactions, htime]
    rcases mem_append.mp hr with hr | hr
    · obtain ⟨trx, htrx, hid, hlive⟩ := h.remembered r (hreceipts ▸ hr) hinput
      exact ⟨trx, htrx, hid, hlive.imp_left (mem_append_left _)⟩
    · grind
  · intro id
    show countP _ (s₁.receipts ++ _) ≤ 1
    rw [countP_append, hreceipts]
    by_cases hid : codec.id i.trx = id
    · subst hid
      rw [inputReceipts] at hzero
      rw [hzero, Nat.zero_add]
      exact countP_le_length
    · rw [countP_cons_of_neg (by simp [hid])]
      exact h.once id

theorem deduplicated_pushScheduledTransaction {i : ScheduledInput}
    (hok : s.pushScheduledTransaction n codec i = .ok s') : s'.Deduplicated codec T := by
  obtain ⟨g, fee, status, s₁, -, -, -, hevolves, rfl⟩ := pushScheduledTransaction_eq_ok hok
  have hreceipts : s₁.receipts = s.receipts := hevolves.receipts.trans (chargeFee_receipts ..)
  have htime : s₁.pendingBlockTime = s.pendingBlockTime :=
    hevolves.time.trans (chargeFee_pendingBlockTime ..)
  have htransactions : s₁.transactions = s.transactions :=
    hevolves.transactions.trans (chargeFee_transactions ..)
  constructor
  · intro r hr hinput
    show ∃ trx ∈ T, _ ∧ (_ ∈ s₁.transactions ∨ _ < s₁.pendingBlockTime)
    rw [htransactions, htime]
    rcases mem_append.mp hr with hr | hr
    · exact h.remembered r (hreceipts ▸ hr) hinput
    · grind
  · intro id
    show countP _ (s₁.receipts ++ _) ≤ 1
    rw [countP_append, hreceipts, countP_cons_of_neg (by simp)]
    exact h.once id

theorem deduplicated_step {l : TransactionStep}
    (hinj : Set.InjOn codec.id T) (hl : l.Checked T) (hok : s.step codec l = .ok s') :
    s'.Deduplicated codec T := by
  obtain ⟨n, input⟩ := l
  cases input with
  | startBlock i =>
    simp only [step, bind_ok_iff, pure_ok_iff, dcdAssert_ok_iff] at hok
    obtain ⟨_, htime, rfl⟩ := hok
    exact deduplicated_startBlock h htime
  | pushTransaction i => exact deduplicated_pushTransaction h hinj (hl.pushed i rfl) hl.checked hok
  | pushScheduledTransaction i => exact deduplicated_pushScheduledTransaction h hok

end

/-! ## Runs -/

theorem deduplicated_of_run {s₀ : TransactionState}
    {us : List (Transition TransactionState TransactionStep)} (hrun : TransactionRun codec s₀ us s)
    (hreceipts : s₀.receipts = []) (hinj : Set.InjOn codec.id T)
    (hus : ∀ u ∈ us, u.label.Checked T) : s.Deduplicated codec T := by
  apply hrun.invariant_of_forall (I := fun _ s => s.Deduplicated codec T) hus
  · constructor
    · grind
    · intro id
      rw [inputReceipts, hreceipts]
      exact Nat.zero_le 1
  · intro us s l s' _ h hstep hl
    exact deduplicated_step h hinj hl hstep

end TransactionState

/-- The input transactions that were pushed in a run of a node. -/
def pushedTransactions (ts : List (Transition ChainNode NodeStep)) : Set Transaction :=
  { trx | ∃ t ∈ ts, ∃ i, t.label.input = .pushTransaction i ∧ i.trx = trx }

/-- In every run of a node that validates transactions, whatever it aborts and pops, each id has at
most one input receipt on the chain from genesis to the head and the pending block. -/
theorem ChainNode.inputReceipts_le_one {codec : TransactionCodec} {s₀ : TransactionState} {r : ℤ}
    {c : ChainNode} {ts : List (Transition ChainNode NodeStep)} (hgenesis : s₀.receipts = [])
    (hrun : NodeRun codec r s₀ ts c) (hchecks : ∀ t ∈ ts, t.label.node.skipTrxChecks = false)
    (hids : Set.InjOn codec.id (pushedTransactions ts)) (id : Sha256) :
    c.chain.current.inputReceipts id ≤ 1 := by
  obtain ⟨us, hchain, hus⟩ := exists_chain hrun
  have hchecked : ∀ u ∈ us, u.label.Checked (pushedTransactions ts) := by
    intro u hu
    obtain ⟨t, ht, hlabel⟩ := hus u hu
    constructor
    · have hcheck := hchecks t ht
      rw [hlabel] at hcheck
      exact hcheck
    · intro i hi
      refine ⟨t, ht, i, ?_, rfl⟩
      rw [hlabel, TransactionStep.toNode, hi]
  exact (TransactionState.deduplicated_of_run hchain hgenesis hids hchecked).once id

/-- A transaction is pushed into a block that is aborted, and then into one that is committed. -/
def sampleRepeatedPush : List NodeStep :=
  [.startBlock (sampleBlockAt 500000), .pushTransaction { trx := sampleTransaction 0 }, .abortBlock,
    .startBlock (sampleBlockAt 1000000), .pushTransaction { trx := sampleTransaction 0 }, .commitBlock,
    .startBlock (sampleBlockAt 1500000)].map fun input => ⟨sampleNode, input⟩

/-- All transactions that are pushed in `ts` are `trx`. -/
def pushesOnly (trx : Transaction) (ts : List (Transition ChainNode NodeStep)) : Bool :=
  ts.all fun t =>
    match t.label.input with
    | .pushTransaction i => i.trx = trx
    | _ => true

theorem injOn_of_pushesOnly {codec : TransactionCodec} {trx : Transaction}
    {ts : List (Transition ChainNode NodeStep)} (h : pushesOnly trx ts = true) :
    Set.InjOn codec.id (pushedTransactions ts) := by
  have honly : ∀ trx' ∈ pushedTransactions ts, trx' = trx := by
    rintro _ ⟨t, ht, i, hi, rfl⟩
    have hpush := all_eq_true.mp h t ht
    rw [hi] at hpush
    exact of_decide_eq_true hpush
  intro trx₁ h₁ trx₂ h₂ _
  rw [honly trx₁ h₁, honly trx₂ h₂]

theorem ChainNode.inputReceipts_le_one_repeated :
    ∃ ts c, NodeRun sampleCodec 0 sampleChain ts c ∧
      (ts.length = 7 ∧ 1 ≤ c.chain.current.inputReceipts (sampleCodec.id (sampleTransaction 0))) ∧
      c.chain.current.inputReceipts (sampleCodec.id (sampleTransaction 0)) ≤ 1 := by
  obtain ⟨ts, c, hrun, hp⟩ := exists_run_of_exec (ChainNode.step sampleCodec)
    ⟨⟨0, sampleChain, []⟩, false⟩ sampleRepeatedPush
    (fun ts c => ts.length = 7 ∧
      1 ≤ c.chain.current.inputReceipts (sampleCodec.id (sampleTransaction 0)) ∧
      (ts.all fun t => !t.label.node.skipTrxChecks) = true ∧
      pushesOnly (sampleTransaction 0) ts = true)
    (by decide +kernel)
  obtain ⟨hlength, hcount, hchecks, honly⟩ := of_decide_eq_true hp
  refine ⟨ts, c, hrun, ⟨hlength, hcount⟩, ?_⟩
  apply inputReceipts_le_one rfl hrun
  · grind
  · exact injOn_of_pushesOnly honly

end DcdProtocol.Chain
