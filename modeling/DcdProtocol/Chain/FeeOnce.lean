import DcdProtocol.Chain.Deduplication

/-!
# How often a transaction pays its fee

`exec` schedules the fee of a transaction before it looks at the delay.  A delayed transaction goes
through `exec` twice, when it is pushed and when its generated transaction is executed, and pays
each time.

For a transaction id, `feesFor` counts the `onfee` actions executed for input transactions, at once
or delayed, and `pendingFor` the delayed transactions that wait.  Every accepted transaction
accounts for one fee, as long as its push or its execution charges nothing: `feesFor + pendingFor` in
the first case, and `feesFor` in the second, never exceed the number of accepted transactions.
-/

namespace DcdProtocol.Chain

open Library List Option

/-- The fee was paid for the input transaction `id`, at once or delayed. -/
def FeeCharge.isFor (f : FeeCharge) (id : Sha256) : Bool :=
  f.trxId = id ∧ ∀ g ∈ f.generated, g.sender = ⟨0⟩

namespace TransactionState

variable (codec : TransactionCodec) (s : TransactionState) (trx : Transaction) (id : Sha256)

/-- The transaction has a fee to pay: its payer is not exempt, and the fee of its actions is
positive. -/
def Chargeable : Prop :=
  ∃ act ∈ trx.actions.head?, ∃ auth ∈ act.authorization.head?, auth.actor ∉ feeExemptNames ∧
    ∃ fee, s.feeTables.getRequiredFee s.contractCurRate
      (trx.actions.map fun act => (act.account, act.name)) = some fee ∧ 0 < fee

/-- The fees that were paid for an input transaction. -/
def feesFor : ℕ := s.fees.countP (·.isFor id)

/-- The delayed transactions that have not been executed. -/
def pendingFor : ℕ :=
  s.db.generated.countP fun g => g.sender = ⟨0⟩ ∧ codec.id g.trx = id

def charged (s s' : TransactionState) : ℤ :=
  ((s'.fees.drop s.fees.length).map fun f => f.amount.toInt).sum

/-! ## The fee of one execution -/

variable {codec s trx id} {s' : TransactionState} {n : NodeSettings} {c : TransactionContext}
  {fee : Option (Name × Int64)} {f : Option FeeCharge}

/-- `schedule_fee_action` schedules a positive amount, and only for a transaction with a fee. -/
theorem scheduleFeeAction_eq_ok (hok : s.scheduleFeeAction trx = .ok fee) :
    (∀ f ∈ fee, 0 < f.2) ∧ (fee ≠ none ↔ s.Chargeable trx) := by
  unfold scheduleFeeAction at hok
  unfold Chargeable
  split at hok
  next => cases hok
  next act acts hacts =>
    split at hok
    next => cases hok
    next auth auths hauths =>
      obtain ⟨_, -, hok⟩ := bind_ok_iff.mp hok
      simp only [hacts, head?_cons, mem_some_iff, exists_eq_left', hauths]
      split_ifs at hok with hexempt
      · obtain rfl := pure_ok_iff.mp hok
        simp [hexempt]
      split at hok
      next => cases hok
      next amount hamount =>
        rw [← hacts, hamount]
        obtain rfl := pure_ok_iff.mp hok
        by_cases hpositive : 0 < amount <;> simp [hexempt]

theorem charged_of_fees (hfees : s'.fees = s.fees ++ f.toList) :
    charged s s' = (f.map fun f => f.amount.toInt).getD 0 := by
  rw [charged, hfees, drop_left]
  cases f with
  | none => rfl
  | some f => exact sum_singleton

theorem feesFor_le (hfees : s'.fees = s.fees ++ f.toList) (id : Sha256) :
    s'.feesFor id ≤ s.feesFor id ∨
      s'.feesFor id = s.feesFor id + 1 ∧ ∃ x ∈ f, x.isFor id = true := by
  rw [feesFor, feesFor, hfees, countP_append]
  cases f with
  | none => exact .inl le_rfl
  | some x => grind

@[simp] theorem pendingFor_chargeFee :
    (s.chargeFee c trx fee).pendingFor codec id = s.pendingFor codec id := by
  rw [pendingFor, chargeFee_db, pendingFor]

theorem pendingFor_le_of_evolves (h : Evolves c s s') (codec : TransactionCodec) (id : Sha256) :
    s'.pendingFor codec id ≤ s.pendingFor codec id := by
  have hcount : ∀ s : TransactionState, s.pendingFor codec id =
      (s.db.generated.filter (·.sender = ⟨0⟩)).countP fun g => codec.id g.trx = id := by
    intro s
    rw [countP_filter, pendingFor]
    congr 1
    funext g
    rw [Bool.decide_and, Bool.and_comm]
  rw [hcount, hcount]
  exact h.inputs.countP_le

theorem pendingFor_removeGenerated_lt {g : GeneratedTransaction} (hg : g ∈ s.db.generated)
    (hsender : g.sender = ⟨0⟩) (hid : codec.id g.trx = id) :
    { s with db := s.db.removeGenerated g }.pendingFor codec id < s.pendingFor codec id := by
  rw [pendingFor, pendingFor, countP_eq_countP_filter_add s.db.generated _
    fun h => ¬(h.sender = g.sender ∧ h.senderId = g.senderId)]
  refine Nat.lt_add_of_pos_right (countP_pos_iff.mpr ⟨g, ?_, decide_eq_true ⟨hsender, hid⟩⟩)
  exact mem_filter.mpr ⟨hg, by simp⟩

/-! ## One operation -/

theorem counts_pushTransaction {i : PushInput} (hok : s.pushTransaction n codec i = .ok s')
    (id : Sha256) :
    (s'.feesFor id ≤ s.feesFor id ∨ s'.feesFor id = s.feesFor id + 1 ∧ codec.id i.trx = id ∧
      s.Chargeable i.trx) ∧
    (s'.pendingFor codec id ≤ s.pendingFor codec id ∨
      s'.pendingFor codec id ≤ s.pendingFor codec id + 1 ∧ codec.id i.trx = id ∧
        i.trx.delaySec ≠ 0) ∧
    s'.inputReceipts id = s.inputReceipts id + if codec.id i.trx = id then 1 else 0 := by
  obtain ⟨-, -, fee, s₁, stored, hfee, hevolves, hstored, rfl⟩ := pushTransaction_eq_ok hok
  refine ⟨?_, ?_, ?_⟩
  · have hfees := hevolves.fees.trans (chargeFee_fees ..)
    refine (feesFor_le hfees id).imp_right ?_
    rintro ⟨hadded, x, hx, hfor⟩
    obtain ⟨f, hf, rfl⟩ := map_eq_some_iff.mp hx
    refine ⟨hadded, (of_decide_eq_true hfor).1, (scheduleFeeAction_eq_ok hfee).2.mp ?_⟩
    rw [hf]
    exact some_ne_none f
  · have hbefore : s₁.pendingFor codec id ≤ s.pendingFor codec id := by
      have hle := pendingFor_le_of_evolves hevolves codec id
      rwa [pendingFor_chargeFee] at hle
    cases stored with
    | none =>
      left
      rw [pendingFor, toList_none, append_nil]
      exact hbefore
    | some g =>
      obtain ⟨hdelay, -, -, htrx⟩ := hstored g rfl
      rw [pendingFor, toList_some, countP_append]
      by_cases hid : codec.id i.trx = id
      · right
        exact ⟨Nat.add_le_add hbefore countP_le_length, hid, hdelay⟩
      · left
        rw [countP_cons_of_neg (by simp [htrx, hid])]
        exact hbefore
  · have hreceipts : s₁.receipts = s.receipts := hevolves.receipts.trans (chargeFee_receipts ..)
    rw [inputReceipts, inputReceipts, hreceipts, countP_append, countP_singleton]
    simp

theorem counts_pushScheduledTransaction {i : ScheduledInput}
    (hok : s.pushScheduledTransaction n codec i = .ok s') (id : Sha256) :
    s'.inputReceipts id = s.inputReceipts id ∧
    s'.pendingFor codec id ≤ s.pendingFor codec id ∧
    (s'.feesFor id ≤ s.feesFor id ∨ s'.feesFor id = s.feesFor id + 1 ∧
      s'.pendingFor codec id < s.pendingFor codec id ∧
      ∃ g, (s.db.generated.find? fun g => g.trxId = i.trxId) = some g ∧ g.sender = ⟨0⟩ ∧
        codec.id g.trx = id ∧ s.Chargeable g.trx) := by
  obtain ⟨g, fee, status, s₁, hg, hexecuted, hfailed, hevolves, rfl⟩ :=
    pushScheduledTransaction_eq_ok hok
  have hpending : s₁.pendingFor codec id ≤
      { s with db := s.db.removeGenerated g }.pendingFor codec id := by
    have hle := pendingFor_le_of_evolves hevolves codec id
    rwa [pendingFor_chargeFee] at hle
  refine ⟨?_, hpending.trans (filter_sublist.countP_le), ?_⟩
  · have hreceipts : s₁.receipts = s.receipts := hevolves.receipts.trans (chargeFee_receipts ..)
    rw [inputReceipts, inputReceipts, pushReceipt, hreceipts, countP_append, countP_singleton]
    simp
  have hfees := hevolves.fees.trans (chargeFee_fees ..)
  refine (feesFor_le hfees id).imp_right ?_
  rintro ⟨hadded, x, hx, hfor⟩
  obtain ⟨f, hf, rfl⟩ := map_eq_some_iff.mp hx
  obtain ⟨hid, hsender⟩ := of_decide_eq_true hfor
  have hsender : g.sender = ⟨0⟩ := hsender g rfl
  have hfee : s.scheduleFeeAction g.trx = .ok fee := by grind
  exact ⟨hadded,
    hpending.trans_lt (pendingFor_removeGenerated_lt (mem_of_find?_eq_some hg) hsender hid),
    g, hg, hsender, hid, (scheduleFeeAction_eq_ok hfee).2.mp (hf ▸ some_ne_none f)⟩

theorem counts_startBlock (codec : TransactionCodec) (s : TransactionState) (n : NodeSettings)
    (i : BlockInput) (id : Sha256) :
    (s.startBlock n codec i).inputReceipts id = s.inputReceipts id ∧
    (s.startBlock n codec i).pendingFor codec id ≤ s.pendingFor codec id ∧
    (s.startBlock n codec i).feesFor id = s.feesFor id := by
  obtain ⟨s₁, hevolves, heq⟩ := startBlock_eq s n codec i
  rw [heq]
  refine ⟨?_, pendingFor_le_of_evolves hevolves codec id, ?_⟩
  · exact congrArg (countP _) hevolves.receipts
  · exact congrArg (countP _) hevolves.fees

end TransactionState

/-! ## Runs -/

/-- A delayed transaction with a fee to pay is pushed. -/
def ChargedAtPush (codec : TransactionCodec) (id : Sha256)
    (u : Transition TransactionState TransactionStep) : Prop :=
  ∃ i, u.label.input = .pushTransaction i ∧ codec.id i.trx = id ∧ i.trx.delaySec ≠ 0 ∧
    u.before.Chargeable i.trx

/-- A delayed transaction with a fee to pay is executed. -/
def ChargedAtExecution (codec : TransactionCodec) (id : Sha256)
    (u : Transition TransactionState TransactionStep) : Prop :=
  ∃ i g, u.label.input = .pushScheduledTransaction i ∧
    (u.before.db.generated.find? fun g => g.trxId = i.trxId) = some g ∧ g.sender = ⟨0⟩ ∧
    codec.id g.trx = id ∧ u.before.Chargeable g.trx

namespace TransactionState

variable {codec : TransactionCodec} {s₀ s s' : TransactionState} {l : TransactionStep}
  {us : List (Transition TransactionState TransactionStep)} {id : Sha256}
  {fee : Option (Name × Int64)} {g : GeneratedTransaction} {r : TransactionReceipt}
  {trx : Transaction} {n : NodeSettings}

theorem feesFor_add_pendingFor_step (hs : s.feesFor id + s.pendingFor codec id ≤ s.inputReceipts id)
    (hok : s.step codec l = .ok s') (hl : ¬ChargedAtPush codec id ⟨s, l, s'⟩) :
    s'.feesFor id + s'.pendingFor codec id ≤ s'.inputReceipts id := by
  obtain ⟨n, input⟩ := l
  cases input with
  | startBlock i =>
    simp only [step, bind_ok_iff, pure_ok_iff] at hok
    obtain ⟨_, -, rfl⟩ := hok
    obtain ⟨hreceipts, hpending, hfees⟩ := counts_startBlock codec s n i id
    omega
  | pushTransaction i =>
    obtain ⟨hfees, hpending, hreceipts⟩ := counts_pushTransaction hok id
    -- The fee and the delay cannot both be there.
    by_cases hid : codec.id i.trx = id
    · rw [if_pos hid] at hreceipts
      rcases hpending with hpending | ⟨hpending, -, hdelay⟩
      · omega
      · rcases hfees with hfees | ⟨-, -, hcharge⟩
        · omega
        · exact (hl ⟨i, rfl, hid, hdelay, hcharge⟩).elim
    · grind
  | pushScheduledTransaction i =>
    obtain ⟨hreceipts, hpending, hfees⟩ := counts_pushScheduledTransaction hok id
    omega

theorem feesFor_step (hs : s.feesFor id ≤ s.inputReceipts id) (hok : s.step codec l = .ok s')
    (hl : ¬ChargedAtExecution codec id ⟨s, l, s'⟩) : s'.feesFor id ≤ s'.inputReceipts id := by
  obtain ⟨n, input⟩ := l
  cases input with
  | startBlock i =>
    simp only [step, bind_ok_iff, pure_ok_iff] at hok
    obtain ⟨_, -, rfl⟩ := hok
    obtain ⟨hreceipts, -, hfees⟩ := counts_startBlock codec s n i id
    omega
  | pushTransaction i =>
    obtain ⟨hfees, -, hreceipts⟩ := counts_pushTransaction hok id
    rcases hfees with hfees | ⟨hfees, hid, -⟩
    · omega
    · grind
  | pushScheduledTransaction i =>
    obtain ⟨hreceipts, -, hfees | ⟨-, -, g, hg, hsender, hid, hcharge⟩⟩ :=
      counts_pushScheduledTransaction hok id
    · omega
    · exact (hl ⟨i, g, rfl, hg, hsender, hid, hcharge⟩).elim

theorem feesFor_le_of_run (hrun : TransactionRun codec s₀ us s) (hfees : s₀.fees = [])
    (hgenerated : s₀.db.generated = [])
    (hus : (∀ u ∈ us, ¬ChargedAtPush codec id u) ∨ ∀ u ∈ us, ¬ChargedAtExecution codec id u) :
    s.feesFor id ≤ s.inputReceipts id := by
  have hfees₀ : s₀.feesFor id = 0 := by
    rw [feesFor, hfees, countP_nil]
  rcases hus with hpush | hexecution
  · have hinv : s.feesFor id + s.pendingFor codec id ≤ s.inputReceipts id := by
      apply hrun.invariant_of_forall
        (I := fun _ s => s.feesFor id + s.pendingFor codec id ≤ s.inputReceipts id) hpush
      · rw [hfees₀, pendingFor, hgenerated]
        exact Nat.zero_le _
      · intro us s l s' _ hs hstep hl
        exact feesFor_add_pendingFor_step hs hstep hl
    omega
  · apply hrun.invariant_of_forall (I := fun _ s => s.feesFor id ≤ s.inputReceipts id) hexecution
    · omega
    · intro us s l s' _ hs hstep hl
      exact feesFor_step hs hstep hl

/-! ## The total fee of a delayed transaction -/

/-- The fees and the rate are the same in both states. -/
def SameFees (s t : TransactionState) : Prop :=
  s.feeTables = t.feeTables ∧ s.contractCurRate = t.contractCurRate

def feeAmount (fee : Option (Name × Int64)) : ℤ := (fee.map fun f => f.2.toInt).getD 0

theorem scheduleFeeAction_congr {t : TransactionState} {trx' : Transaction}
    (hsame : s.SameFees t) (hactions : trx.actions = trx'.actions) :
    s.scheduleFeeAction trx = t.scheduleFeeAction trx' := by
  unfold scheduleFeeAction
  rw [hsame.1, hsame.2, hactions]

theorem charged_chargeFee {c : TransactionContext} (hfees : s'.fees = s.fees ++ (fee.map fun f =>
      ⟨c.trxId, f.1, f.2, trx.actions, c.generated⟩ : Option FeeCharge).toList) :
    charged s s' = feeAmount fee := by
  rw [charged_of_fees hfees, Option.map_map]
  rfl

theorem charged_pushTransaction {i : PushInput} (hok : s.pushTransaction n codec i = .ok s') :
    ∃ fee, s.scheduleFeeAction i.trx = .ok fee ∧ charged s s' = feeAmount fee := by
  obtain ⟨-, -, fee, s₁, stored, hfee, hevolves, -, rfl⟩ := pushTransaction_eq_ok hok
  exact ⟨fee, hfee, charged_chargeFee (hevolves.fees.trans (chargeFee_fees ..))⟩

theorem charged_pushScheduledTransaction {i : ScheduledInput}
    (hok : s.pushScheduledTransaction n codec i = .ok s')
    (hg : (s.db.generated.find? fun g => g.trxId = i.trxId) = some g)
    (hr : s'.receipts.getLast? = some r) (hexecuted : r.status = .executed) :
    ∃ fee, s.scheduleFeeAction g.trx = .ok fee ∧ charged s s' = feeAmount fee := by
  obtain ⟨g', fee, status, s₁, hg', hfee, -, hevolves, rfl⟩ := pushScheduledTransaction_eq_ok hok
  obtain rfl : g = g' := some.inj (hg.symm.trans hg')
  have hlast : ⟨g.trxId, false, status⟩ = r := by
    rw [pushReceipt, getLast?_concat] at hr
    exact some.inj hr
  subst hlast
  exact ⟨fee, hfee hexecuted, charged_chargeFee (hevolves.fees.trans (chargeFee_fees ..))⟩

theorem feeAmount_eq_zero_iff
    (hfee : s.scheduleFeeAction trx = .ok fee) : feeAmount fee = 0 ↔ ¬s.Chargeable trx := by
  obtain ⟨hpositive, hchargeable⟩ := scheduleFeeAction_eq_ok hfee
  rw [← hchargeable, not_not]
  cases fee with
  | none => exact ⟨fun _ => rfl, fun _ => rfl⟩
  | some f =>
    have hf : 0 < f.2.toInt := Int64.lt_iff_toInt_lt.mp (hpositive f rfl)
    exact ⟨fun hzero => absurd hzero hf.ne', nofun⟩

/-- With the fees unchanged, a delayed transaction that is executed pays as much as the same one
without a delay exactly if it has nothing to pay. -/
theorem charged_delayed_iff {n' n'' : NodeSettings} {t t' u u' : TransactionState}
    {i k : PushInput} {j : ScheduledInput} (hpush : s.pushTransaction n codec i = .ok s')
    (hscheduled : t.pushScheduledTransaction n' codec j = .ok t')
    (hg : (t.db.generated.find? fun g => g.trxId = j.trxId) = some g) (htrx : g.trx = i.trx)
    (hr : t'.receipts.getLast? = some r) (hexecuted : r.status = .executed)
    (hundelayed : u.pushTransaction n'' codec k = .ok u')
    (hactions : k.trx.actions = i.trx.actions) (ht : t.SameFees s) (hu : u.SameFees s) :
    charged s s' + charged t t' = charged u u' ↔ ¬s.Chargeable i.trx := by
  obtain ⟨fee, hfee, hs⟩ := charged_pushTransaction hpush
  obtain ⟨fee₁, hfee₁, ht'⟩ := charged_pushScheduledTransaction hscheduled hg hr hexecuted
  obtain ⟨fee₂, hfee₂, hu'⟩ := charged_pushTransaction hundelayed
  rw [htrx, scheduleFeeAction_congr ht rfl, hfee] at hfee₁
  rw [scheduleFeeAction_congr hu hactions, hfee] at hfee₂
  obtain rfl := Except.ok.inj hfee₁
  obtain rfl := Except.ok.inj hfee₂
  rw [hs, ht', hu', ← feeAmount_eq_zero_iff hfee]
  omega

end TransactionState

/-- Along a chain, each accepted transaction pays at most one fee, provided that no delayed one has
a fee to pay both when it is pushed and when it is executed.  With the fees unchanged it then pays
as much as without the delay only if it pays nothing. -/
theorem feesFor_le_inputReceipts (codec : TransactionCodec) :
    (∀ s₀ us s, s₀.fees = [] → s₀.db.generated = [] → TransactionRun codec s₀ us s →
      (∀ id, (∀ u ∈ us, ¬ChargedAtPush codec id u) ∨ ∀ u ∈ us, ¬ChargedAtExecution codec id u) →
      ∀ id, s.feesFor id ≤ s.inputReceipts id) ∧
    ∀ {n n' n'' : NodeSettings} {s s' t t' u u' : TransactionState}
      {i : TransactionState.PushInput} {j : TransactionState.ScheduledInput}
      {k : TransactionState.PushInput} {g : GeneratedTransaction} {r : TransactionReceipt},
      s.pushTransaction n codec i = .ok s' → i.trx.delaySec ≠ 0 →
      t.pushScheduledTransaction n' codec j = .ok t' →
      (t.db.generated.find? fun g => g.trxId = j.trxId) = some g → g.trx = i.trx →
      t'.receipts.getLast? = some r → r.status = .executed →
      u.pushTransaction n'' codec k = .ok u' → k.trx = { i.trx with delaySec := 0 } →
      t.SameFees s → u.SameFees s →
      (TransactionState.charged s s' + TransactionState.charged t t' =
        TransactionState.charged u u' ↔ ¬s.Chargeable i.trx) := by
  constructor
  · intro s₀ us s hfees hgenerated hrun hus id
    exact TransactionState.feesFor_le_of_run hrun hfees hgenerated (hus id)
  intro n n' n'' s s' t t' u u' i j k g r hpush _ hscheduled hg htrx hr hexecuted hundelayed hk
    ht hu
  exact TransactionState.charged_delayed_iff hpush hscheduled hg htrx hr hexecuted hundelayed
    (by rw [hk]) ht hu

/-- No transaction that is pushed in `us` has a delay. -/
def pushesUndelayed (us : List (Transition TransactionState TransactionStep)) : Bool :=
  us.all fun u =>
    match u.label.input with
    | .pushTransaction i => i.trx.delaySec = 0
    | _ => true

theorem not_chargedAtPush_of_undelayed {codec : TransactionCodec} {id : Sha256}
    {us : List (Transition TransactionState TransactionStep)} (h : pushesUndelayed us = true) :
    ∀ u ∈ us, ¬ChargedAtPush codec id u := by
  rintro u hu ⟨i, hi, -, hdelay, -⟩
  have hpush := all_eq_true.mp h u hu
  rw [hi] at hpush
  exact hdelay (of_decide_eq_true hpush)

/-- A transaction without a delay pays once; one with a delay of a second is pushed at time 0 and
executed at time 1 s. -/
theorem feesFor_le_inputReceipts_sample :
    (∃ us s, TransactionRun sampleCodec sampleChain us s ∧
      s.feesFor (sampleCodec.id (sampleTransaction 0)) = 1 ∧
      s.feesFor (sampleCodec.id (sampleTransaction 0)) ≤
        s.inputReceipts (sampleCodec.id (sampleTransaction 0))) ∧
    ∃ s' t' u',
      sampleChain.pushTransaction sampleNode sampleCodec { trx := sampleTransaction 1 } = .ok s' ∧
      { s' with pendingBlockTime := 1000000 }.pushScheduledTransaction sampleNode sampleCodec
        { trxId := sampleCodec.id (sampleTransaction 1) } = .ok t' ∧
      sampleChain.pushTransaction sampleNode sampleCodec { trx := sampleTransaction 0 } = .ok u' ∧
      (TransactionState.charged sampleChain s' +
          TransactionState.charged { s' with pendingBlockTime := 1000000 } t' =
        TransactionState.charged sampleChain u' ↔
          ¬sampleChain.Chargeable (sampleTransaction 1)) := by
  constructor
  · obtain ⟨us, s, hrun, hp⟩ := exists_run_of_exec (TransactionState.step sampleCodec) sampleChain
      [⟨sampleNode, .pushTransaction { trx := sampleTransaction 0 }⟩]
      (fun us s => s.feesFor (sampleCodec.id (sampleTransaction 0)) = 1 ∧ pushesUndelayed us = true)
      (by decide +kernel)
    obtain ⟨hfees, hundelayed⟩ := of_decide_eq_true hp
    refine ⟨us, s, hrun, hfees, ?_⟩
    exact (feesFor_le_inputReceipts sampleCodec).1 sampleChain us s rfl rfl hrun
      (fun id => .inl (not_chargedAtPush_of_undelayed hundelayed)) _
  · refine ⟨_, _, _, rfl, rfl, rfl, ?_⟩
    apply (feesFor_le_inputReceipts sampleCodec).2 (i := { trx := sampleTransaction 1 })
      (j := { trxId := sampleCodec.id (sampleTransaction 1) })
      (k := { trx := sampleTransaction 0 })
    · exact (rfl : sampleChain.pushTransaction sampleNode sampleCodec _ = _)
    · decide
    · exact (rfl : TransactionState.pushScheduledTransaction _ sampleNode sampleCodec _ = _)
    · rfl
    · rfl
    · rfl
    · rfl
    · exact (rfl : sampleChain.pushTransaction sampleNode sampleCodec _ = _)
    · rfl
    · exact ⟨rfl, rfl⟩
    · exact ⟨rfl, rfl⟩

/-- A transaction with a delay of a second is pushed, and executed two blocks later. -/
def sampleDelayed : List TransactionStep :=
  [.startBlock (sampleBlockAt 500000), .pushTransaction { trx := sampleTransaction 1 },
    .startBlock (sampleBlockAt 1000000), .startBlock (sampleBlockAt 1500000),
    .pushScheduledTransaction { trxId := sampleCodec.id (sampleTransaction 1) }].map
      fun input => ⟨sampleNode, input⟩

/-- It is accepted once and pays twice. -/
theorem feesFor_delayed_eq_two :
    ∃ us s, TransactionRun sampleCodec sampleChain us s ∧
      s.inputReceipts (sampleCodec.id (sampleTransaction 1)) = 1 ∧
      s.feesFor (sampleCodec.id (sampleTransaction 1)) = 2 := by
  obtain ⟨us, s, hrun, hp⟩ := exists_run_of_exec (TransactionState.step sampleCodec) sampleChain
    sampleDelayed
    (fun _ s => s.inputReceipts (sampleCodec.id (sampleTransaction 1)) = 1 ∧
      s.feesFor (sampleCodec.id (sampleTransaction 1)) = 2)
    (by decide +kernel)
  exact ⟨us, s, hrun, of_decide_eq_true hp⟩

end DcdProtocol.Chain
