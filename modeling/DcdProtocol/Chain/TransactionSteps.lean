import DcdProtocol.Chain.TransactionContext

/-!
# What the steps of a transaction do

One specification for each function on the way of a transaction, for the proofs about fees and
about the deduplication of transactions.  The effects of actions come first: whatever they are,
they leave receipts, fees and recorded transactions alone, generated transactions without a sender
are only removed, and each deferred transaction that is stored stands in `sends`, with the check of
its authorizations in `checks` unless its contract is privileged (`Evolves`).
-/

namespace DcdProtocol.Chain

open Library List

/-! ## Deferred transactions -/

/-- The record of a check of the authorizations of `g` by the contract that has sent it. -/
structure AuthorizationRecord.CoversSend (r : AuthorizationRecord) (g : GeneratedTransaction) :
    Prop where
  actions : r.input.actions = g.trx.actions
  providedKeys : r.input.providedKeys = []
  providedPermissions : r.input.providedPermissions = [⟨g.sender, dcdCodeName⟩]
  satisfied : r.input.satisfiedAuthorizations = []

namespace ApplyContext

variable {n : NodeSettings} {c c' : ApplyContext} {enforce replaceExisting : Bool}
  {senderId : BitVec 128} {payer : Name} {trx trx' : Transaction}

theorem actions_of_prepareDeferred (hok : c.prepareDeferred senderId trx = .ok trx') :
    trx'.actions = trx.actions := by
  unfold prepareDeferred at hok
  split at hok
  · obtain ⟨exts, -, hok⟩ := bind_ok_iff.mp hok
    split at hok
    · rw [← pure_ok_iff.mp hok]
    · simp only [bind_ok_iff, pure_ok_iff] at hok
      obtain ⟨_, -, _, -, _, -, _, -, _, rfl, rfl⟩ := hok
      rfl
  · rw [← pure_ok_iff.mp hok]
    rfl

theorem createGenerated_eq_ok {db db' : TransactionDatabase} {g : GeneratedTransaction}
    (hok : db.createGenerated g = .ok db') : db' = { db with generated := db.generated ++ [g] } := by
  obtain ⟨_, -, hok⟩ := bind_ok_iff.mp hok
  exact (pure_ok_iff.mp hok).symm

/-- The generated transactions after one has been stored: one with the same sender may have been
removed. -/
theorem storeDeferred_eq_ok {db : TransactionDatabase}
    (hok : c.storeDeferred n senderId payer trx replaceExisting = .ok db) :
    ∃ trxId kept, kept.Sublist c.db.generated ∧
      (∀ g ∈ c.db.generated, g.sender ≠ c.receiver → g ∈ kept) ∧
      db = { c.db with generated := kept ++ [c.deferredObject senderId payer trxId trx] } := by
  unfold storeDeferred at hok
  split at hok
  next old hold =>
    obtain ⟨_, -, _, -, hstore⟩ := by simpa only [bind_ok_iff] using hok
    refine ⟨_, (c.db.removeGenerated old).generated, ?_, ?_, createGenerated_eq_ok hstore⟩
    · exact filter_sublist
    intro g hg hsender
    refine mem_filter.mpr ⟨hg, ?_⟩
    have hsame := (find?_eq_some_iff_append.mp hold).1
    simp only [decide_eq_true_eq] at hsame ⊢
    rintro ⟨heq, -⟩
    exact hsender (heq.trans hsame.1)
  next => exact ⟨_, _, .refl _, fun g hg _ => hg, createGenerated_eq_ok hok⟩

theorem scheduleDeferredTransaction_eq_ok
    (hok : c.scheduleDeferredTransaction n enforce senderId payer trx replaceExisting = .ok c') :
    ∃ trxId trx' kept, trx'.actions = trx.actions ∧ kept.Sublist c.db.generated ∧
      (∀ g ∈ c.db.generated, g.sender ≠ c.receiver → g ∈ kept) ∧
      c'.db = { c.db with generated := kept ++ [c.deferredObject senderId payer trxId trx'] } := by
  simp only [scheduleDeferredTransaction, bind_ok_iff, pure_ok_iff] at hok
  obtain ⟨_, -, _, -, trx', htrx', _, -, db, hstore, _, -, rfl⟩ := hok
  obtain ⟨trxId, kept, hsublist, hkept, rfl⟩ := storeDeferred_eq_ok hstore
  exact ⟨trxId, trx', kept, actions_of_prepareDeferred htrx', hsublist, hkept, rfl⟩

end ApplyContext

/-! ## Effects of actions -/

namespace TransactionState

/-- What effects of actions can do to the state. -/
structure Evolves (c : TransactionContext) (s s' : TransactionState) : Prop where
  transactions : s'.transactions = s.transactions
  time : s'.pendingBlockTime = s.pendingBlockTime
  rate : s'.contractCurRate = s.contractCurRate
  receipts : s'.receipts = s.receipts
  fees : s'.fees = s.fees
  checks : ∀ r ∈ s.checks, r ∈ s'.checks
  sends : ∀ p ∈ s.sends, p ∈ s'.sends
  /-- Generated transactions without a sender are not added. -/
  inputs : (s'.db.generated.filter (·.sender = ⟨0⟩)).Sublist
    (s.db.generated.filter (·.sender = ⟨0⟩))
  /-- Those with a sender are recorded. -/
  stored : ∀ g ∈ s'.db.generated, g ∈ s.db.generated ∨ ∃ privileged, (g, privileged) ∈ s'.sends
  sent : ∀ p ∈ s'.sends, p ∈ s.sends ∨ p.1.sender ≠ ⟨0⟩ ∧
    (p.2 = false → c.node.skipAuthCheck = false → ∃ r ∈ s'.checks, r.CoversSend p.1)

namespace Evolves

variable {c : TransactionContext} {s s' s'' : TransactionState}

theorem refl (c : TransactionContext) (s : TransactionState) : Evolves c s s where
  transactions := rfl
  time := rfl
  rate := rfl
  receipts := rfl
  fees := rfl
  checks _ hr := hr
  sends _ hp := hp
  inputs := .refl _
  stored _ hg := .inl hg
  sent _ hp := .inl hp

theorem trans (h : Evolves c s s') (h' : Evolves c s' s'') : Evolves c s s'' where
  transactions := h'.transactions.trans h.transactions
  time := h'.time.trans h.time
  rate := h'.rate.trans h.rate
  receipts := h'.receipts.trans h.receipts
  fees := h'.fees.trans h.fees
  checks r hr := h'.checks r (h.checks r hr)
  sends p hp := h'.sends p (h.sends p hp)
  inputs := h'.inputs.trans h.inputs
  stored g hg := by
    rcases h'.stored g hg with hg | hsent
    · refine (h.stored g hg).imp_right ?_
      rintro ⟨privileged, hp⟩
      exact ⟨privileged, h'.sends _ hp⟩
    · exact .inr hsent
  sent p hp := by
    rcases h'.sent p hp with hp | hnew
    · refine (h.sent p hp).imp_right ?_
      rintro ⟨hsender, hcheck⟩
      refine ⟨hsender, fun hprivileged hskip => ?_⟩
      obtain ⟨r, hr, hcovers⟩ := hcheck hprivileged hskip
      exact ⟨r, h'.checks r hr, hcovers⟩
    · exact .inr hnew

end Evolves

variable {c : TransactionContext} {s s' : TransactionState} {effects : List ActionEffect}

theorem evolves_removeGenerated (c : TransactionContext) (s : TransactionState)
    (g : GeneratedTransaction) : Evolves c s { s with db := s.db.removeGenerated g } where
  transactions := rfl
  time := rfl
  rate := rfl
  receipts := rfl
  fees := rfl
  checks _ hr := hr
  sends _ hp := hp
  inputs := filter_sublist.filter _
  stored _ hg := .inl (mem_of_mem_filter hg)
  sent _ hp := .inl hp

theorem evolves_cancelDeferred (c : TransactionContext) (s : TransactionState) (sender : Name)
    (senderId : BitVec 128) : Evolves c s (s.cancelDeferred sender senderId) := by
  unfold cancelDeferred
  split
  · exact evolves_removeGenerated c s _
  · exact .refl c s

theorem evolves_sendDeferred {d : DeferredSend} (hok : s.sendDeferred c d = .ok s') :
    Evolves c s s' := by
  simp only [sendDeferred, bind_ok_iff, pure_ok_iff] at hok
  obtain ⟨a', hsend, rfl⟩ := hok
  obtain ⟨trxId, trx', kept, hactions, hsublist, hkept, hdb⟩ :=
    ApplyContext.scheduleDeferredTransaction_eq_ok hsend
  generalize hobj : (s.applyContext c d).deferredObject d.senderId d.payer trxId trx' = obj at hdb
  have hsender : obj.sender = d.receiver := by
    rw [← hobj]
    rfl
  have htrx : obj.trx = trx' := by
    rw [← hobj]
    rfl
  have hlast : a'.db.generated.getLast? = some obj := by grind
  rw [hlast, Option.map_some, Option.toList_some]
  constructor
  · rfl
  · rfl
  · rfl
  · rfl
  · rfl
  · grind
  · grind
  · show (a'.db.generated.filter _).Sublist _
    have hnone : [obj].filter (fun g => decide (g.sender = ⟨0⟩)) = [] := by
      rw [filter_singleton, hsender, decide_eq_false d.receiver_ne]
      rfl
    rw [hdb, filter_append, hnone, append_nil]
    exact hsublist.filter _
  · intro g hg
    rw [hdb, mem_append, mem_singleton] at hg
    rcases hg with hg | rfl
    · exact .inl (hsublist.subset hg)
    · simp
  · intro p hp
    rcases mem_append.mp hp with hp | hp
    · exact .inl hp
    obtain rfl := mem_singleton.mp hp
    refine .inr ⟨hsender ▸ d.receiver_ne, fun hprivileged hskip => ?_⟩
    rw [if_pos ⟨hskip, hprivileged⟩]
    refine ⟨_, mem_append_right _ (mem_singleton_self _), ?_, rfl, ?_, rfl⟩
    · show d.trx.actions = obj.trx.actions
      rw [htrx, hactions]
    · rw [hsender]
      rfl

theorem evolves_runEffect {e : ActionEffect} (hok : s.runEffect c e = .ok s') : Evolves c s s' := by
  cases e with
  | sendDeferred d => exact evolves_sendDeferred hok
  | cancelDeferred sender senderId =>
    rw [← pure_ok_iff.mp hok]
    exact evolves_cancelDeferred c s sender senderId
  | updateAuthorization accounts authorization =>
    rw [← pure_ok_iff.mp hok]
    exact { Evolves.refl c s with }
  | updateFees t =>
    rw [← pure_ok_iff.mp hok]
    exact { Evolves.refl c s with }
  | fail e => cases hok

theorem evolves_of_effects (hok : effects.foldlM (runEffect c) s = .ok s') : Evolves c s s' :=
  foldlM_invariant (I := Evolves c s) hok (.refl c s)
    fun _ _ _ _ hs hstep => hs.trans (evolves_runEffect hstep)

/-! ## Transactions -/

variable {n : NodeSettings} {codec : TransactionCodec} {trx : Transaction} {i : PushInput}

section ChargeFee

variable (s : TransactionState) (c : TransactionContext) (trx : Transaction)
  (fee : Option (Name × Int64))

@[simp] theorem chargeFee_db : (s.chargeFee c trx fee).db = s.db := by cases fee <;> rfl

@[simp] theorem chargeFee_transactions :
    (s.chargeFee c trx fee).transactions = s.transactions := by cases fee <;> rfl

@[simp] theorem chargeFee_pendingBlockTime :
    (s.chargeFee c trx fee).pendingBlockTime = s.pendingBlockTime := by cases fee <;> rfl

@[simp] theorem chargeFee_receipts : (s.chargeFee c trx fee).receipts = s.receipts := by
  cases fee <;> rfl

theorem chargeFee_fees : (s.chargeFee c trx fee).fees = s.fees ++
    (fee.map fun f => ⟨c.trxId, f.1, f.2, trx.actions, c.generated⟩ : Option FeeCharge).toList := by
  cases fee with
  | none => exact (append_nil _).symm
  | some f => rfl

end ChargeFee

theorem exec_eq_ok {delayed : Bool} (hok : s.exec c trx delayed effects = .ok s') :
    ∃ fee s₁, s.scheduleFeeAction trx = .ok fee ∧ Evolves c (s.chargeFee c trx fee) s₁ ∧
      (if delayed then s₁.scheduleTransaction c.trxId trx else pure s₁) = .ok s' := by
  simp only [exec, bind_ok_iff] at hok
  obtain ⟨fee, hfee, s₁, heffects, hs'⟩ := hok
  exact ⟨fee, s₁, hfee, evolves_of_effects heffects, hs'⟩

theorem scheduleTransaction_eq_ok {trxId : Sha256}
    (hok : s.scheduleTransaction trxId trx = .ok s') :
    ∃ g : GeneratedTransaction, g.trxId = trxId ∧ g.sender = ⟨0⟩ ∧ g.trx = trx ∧
      s' = { s with db := { s.db with generated := s.db.generated ++ [g] } } := by
  simp only [scheduleTransaction, bind_ok_iff, pure_ok_iff] at hok
  obtain ⟨db, hcreate, rfl⟩ := hok
  rw [ApplyContext.createGenerated_eq_ok hcreate]
  exact ⟨_, rfl, rfl, rfl, rfl⟩

/-- The context in which an input transaction is executed. -/
def inputContext (s : TransactionState) (n : NodeSettings) (codec : TransactionCodec)
    (trx : Transaction) : TransactionContext where
  node := n
  codec
  trxId := codec.id trx
  published := s.pendingBlockTime

/-- The state in which an input transaction is executed. -/
def accept (s : TransactionState) (n : NodeSettings) (codec : TransactionCodec) (i : PushInput) :
    TransactionState :=
  { s with
    transactions := s.transactions ++ [(codec.id i.trx, i.trx.expiration)]
    checks := s.checks ++
      if n.skipAuthCheck then [] else [⟨s.db.authorizationManager, i.authorizationInput⟩] }

theorem authorizeInput_eq_ok {r : TransactionState}
    (hrecord : s.recordTransaction (codec.id i.trx) i.trx.expiration = .ok r)
    (hok : r.authorizeInput n i = .ok s') :
    (∀ t ∈ s.transactions, t.1 ≠ codec.id i.trx) ∧ s' = s.accept n codec i := by
  simp only [recordTransaction, bind_ok_iff, pure_ok_iff, dcdAssert_ok_iff] at hrecord
  obtain ⟨_, hnew, rfl⟩ := hrecord
  refine ⟨hnew, ?_⟩
  unfold authorizeInput at hok
  unfold accept
  by_cases hskip : n.skipAuthCheck = true
  · simp_all
  · rw [if_neg hskip] at hok ⊢
    obtain ⟨_, -, hok⟩ := bind_ok_iff.mp hok
    exact (pure_ok_iff.mp hok).symm

/-- The object that is stored for a delayed transaction. -/
def StoredFor (codec : TransactionCodec) (trx : Transaction) (g : GeneratedTransaction) : Prop :=
  trx.delaySec ≠ 0 ∧ g.trxId = codec.id trx ∧ g.sender = ⟨0⟩ ∧ g.trx = trx

theorem pushTransaction_eq_ok (hok : s.pushTransaction n codec i = .ok s') :
    s.validateInput n i.trx = .ok () ∧ (∀ t ∈ s.transactions, t.1 ≠ codec.id i.trx) ∧
    ∃ fee s₁, ∃ stored : Option GeneratedTransaction, s.scheduleFeeAction i.trx = .ok fee ∧
      Evolves (s.inputContext n codec i.trx)
        ((s.accept n codec i).chargeFee (s.inputContext n codec i.trx) i.trx fee) s₁ ∧
      (∀ g ∈ stored, StoredFor codec i.trx g) ∧ s' = { s₁ with
        db := { s₁.db with generated := s₁.db.generated ++ stored.toList }
        receipts := s₁.receipts ++
          [⟨codec.id i.trx, true, if i.trx.delaySec = 0 then .executed else .delayed⟩] } := by
  simp only [pushTransaction, bind_ok_iff, pure_ok_iff] at hok
  obtain ⟨_, -, _, hvalid, r, hrecord, a, hauthorize, s₂, hexec, _, -, rfl⟩ := hok
  obtain ⟨hnew, rfl⟩ := authorizeInput_eq_ok hrecord hauthorize
  obtain ⟨fee, s₁, hfee, hevolves, hs₂⟩ := exec_eq_ok hexec
  refine ⟨hvalid, hnew, fee, s₁, ?_⟩
  by_cases hdelay : i.trx.delaySec = 0
  · rw [if_neg (by simpa using hdelay)] at hs₂
    obtain rfl := pure_ok_iff.mp hs₂
    exact ⟨none, hfee, hevolves, by simp, by rw [Option.toList_none, append_nil]⟩
  · rw [if_pos (by simpa using hdelay)] at hs₂
    obtain ⟨g, hid, hsender, htrx, rfl⟩ := scheduleTransaction_eq_ok hs₂
    refine ⟨some g, hfee, hevolves, ?_, rfl⟩
    rintro _ ⟨⟩
    exact ⟨hdelay, hid, hsender, htrx⟩

/-! ## Generated transactions -/

theorem retireFailed_eq_ok {g : GeneratedTransaction} {onerrorEffects : List ActionEffect}
    {e : ChainException} (hok : s.retireFailed n c g onerrorEffects e = .ok s') :
    ∃ status s₁, status ≠ .executed ∧ Evolves c s s₁ ∧ s' = s₁.pushReceipt g.trxId status := by
  unfold retireFailed at hok
  split_ifs at hok
  · exact ⟨.hardFail, s, by decide, .refl c s, (pure_ok_iff.mp hok).symm⟩
  split at hok
  next s₁ heffects =>
    exact ⟨.softFail, s₁, by decide, evolves_of_effects heffects, (pure_ok_iff.mp hok).symm⟩
  next =>
    split_ifs at hok
    exact ⟨.hardFail, s, by decide, .refl c s, (pure_ok_iff.mp hok).symm⟩

theorem pushScheduledTransaction_eq_ok {i : ScheduledInput}
    (hok : s.pushScheduledTransaction n codec i = .ok s') :
    ∃ g fee status s₁, (s.db.generated.find? fun g => g.trxId = i.trxId) = some g ∧
      (status = .executed → s.scheduleFeeAction g.trx = .ok fee) ∧
      (status ≠ .executed → fee = none) ∧
      Evolves (deferredContext n codec g)
        ({ s with db := s.db.removeGenerated g }.chargeFee (deferredContext n codec g) g.trx fee)
        s₁ ∧
      s' = s₁.pushReceipt g.trxId status := by
  unfold pushScheduledTransaction at hok
  split at hok
  next => cases hok
  next g hg =>
    refine ⟨g, ?_⟩
    obtain ⟨_, -, hok⟩ := bind_ok_iff.mp hok
    dsimp only at hok
    split_ifs at hok
    · exact ⟨none, .expired, _, hg, nofun, fun _ => rfl, .refl _ _, (pure_ok_iff.mp hok).symm⟩
    split at hok
    next s₁ hexecuted =>
      obtain ⟨_, -, hexec⟩ := bind_ok_iff.mp hexecuted
      obtain ⟨fee, s₂, hfee, hevolves, hs₂⟩ := exec_eq_ok hexec
      obtain rfl := pure_ok_iff.mp hs₂
      exact ⟨fee, .executed, s₂, hg, fun _ => hfee, fun h => (h rfl).elim, hevolves,
        (pure_ok_iff.mp hok).symm⟩
    next e _ =>
      obtain ⟨status, s₁, hstatus, hevolves, hs'⟩ := retireFailed_eq_ok hok
      exact ⟨none, status, s₁, hg, fun h => (hstatus h).elim, fun _ => rfl, hevolves, hs'⟩

/-! ## Blocks -/

/-- The context of `onblock`. -/
def onblockContext (n : NodeSettings) (codec : TransactionCodec) (i : BlockInput) :
    TransactionContext where
  node := { n with inTrxRequiringChecks := true }
  codec
  trxId := {}
  published := i.time

theorem startBlock_eq (s : TransactionState) (n : NodeSettings) (codec : TransactionCodec)
    (i : BlockInput) :
    ∃ s₁, Evolves (onblockContext n codec i)
        { s with
          pendingBlockTime := i.time
          headBlockId := i.headBlockId
          contractCurRate := i.contractCurRate
          blockSummaries := i.blockSummaries } s₁ ∧
      s.startBlock n codec i = s₁.clearExpiredInputTransactions := by
  refine ⟨_, ?_, rfl⟩
  split
  next heffects => exact evolves_of_effects heffects
  next => exact .refl _ _

end TransactionState

end DcdProtocol.Chain
