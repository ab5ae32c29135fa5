import DcdProtocol.Library.Run
import DcdProtocol.Producer.UnappliedQueue

/-!
# Every callback is called once

A callback that comes with a transaction is called once or held by one entry of the queue, as long as
no submission meets an entry that holds a callback already and the queue has room for the incoming
transactions that are put into it.

## Strategy

`Accounted` has the callbacks that were called and those that entries hold as one multiset, `total`,
and each function is specified by what it adds to it.  Three things keep the callbacks of the source
from being accounted for one by one.

* **A callback in a variable.**  `process_incoming_transaction_async` has the callback before it is
  called or put into the queue.  The total is then short by it, and its specification says that the
  function adds it to the total, whether it throws or not.
* **A callback that is called before its entry is erased.**  The total then has it twice, until
  `erase` takes it out.
* **An entry that is taken out and comes back.**  `added` throws after the entry was inserted, and the
  callback is then called while the entry holds it.  `size_le` bounds the size of the queue through a
  whole round, so that what is taken out always fits again.
-/

namespace DcdProtocol.Producer

open Library List TrxQueue UnappliedTransaction
open Chain (Sha256)
open MultiIndex (findKey eraseKey insertByRank replaceKey findKey_eq_none_iff findKey_of_mem
  key_of_findKey mem_eraseKey_of_ne perm_eraseKey perm_insertByRank perm_replaceKey)
open Library.Stateful (exec)

/-! ## The account of the callbacks -/

def held (queue : List UnappliedTransaction) : List ℕ := queue.filterMap next

def queueSize (cfg : QueueConfig) (queue : List UnappliedTransaction) : ℕ :=
  (queue.map fun e => calcSize cfg e.trxMeta).sum

/-- The queue is in order, and the callbacks that were called or are held by an entry are those of
`total`.  Only incoming transactions have one. -/
structure Accounted (cfg : QueueConfig) (n bound : ℕ) (total : Multiset ℕ) (s : TrxQueue) : Prop where
  ids : (s.queue.map UnappliedTransaction.id).Nodup
  types : ∀ e ∈ s.queue, e.next ≠ none → e.trxType.isIncoming = true
  size : s.sizeInBytes = queueSize cfg s.queue % 2 ^ 64
  size_le : queueSize cfg s.queue ≤ bound
  handed : s.handed = n
  callbacks : (s.called.map Prod.fst : Multiset ℕ) + held s.queue = total

variable {cfg : QueueConfig} {n bound : ℕ} {total : Multiset ℕ} {s : TrxQueue}
  {e : UnappliedTransaction}

theorem coe_held_cons (e : UnappliedTransaction) (queue : List UnappliedTransaction) :
    (held (e :: queue) : Multiset ℕ) = (e.next.toList : Multiset ℕ) + held queue := by
  rw [held, filterMap_cons]
  cases e.next with
  | none => rfl
  | some c => rfl

theorem coe_held_of_perm {queue queue' : List UnappliedTransaction} (h : queue.Perm queue') :
    (held queue : Multiset ℕ) = held queue' := Multiset.coe_eq_coe.mpr (h.filterMap _)

variable (cfg) in
theorem queueSize_cons (e : UnappliedTransaction) (queue : List UnappliedTransaction) :
    queueSize cfg (e :: queue) = calcSize cfg e.trxMeta + queueSize cfg queue := by
  rfl

variable (cfg) in
theorem queueSize_of_perm {queue queue' : List UnappliedTransaction} (h : queue.Perm queue') :
    queueSize cfg queue = queueSize cfg queue' := List.Perm.sum_nat (h.map _)

theorem Accounted.find_of_mem (h : Accounted cfg n bound total s) (he : e ∈ s.queue) :
    s.find e.id = some e := findKey_of_mem h.ids he

theorem Accounted.exists_rest (h : Accounted cfg n bound total s) (hfind : s.find e.id = some e) :
    ∃ rest, total = e.next.toList + rest := by
  refine ⟨(s.called.map Prod.fst : Multiset ℕ) +
    held (eraseKey UnappliedTransaction.id e.id s.queue), ?_⟩
  rw [← h.callbacks, coe_held_of_perm (perm_eraseKey hfind), coe_held_cons]
  abel

theorem Accounted.erased (h : Accounted cfg n bound (e.next.toList + total) s)
    (hfind : s.find e.id = some e) :
    Accounted cfg n bound total { s with
      queue := eraseKey UnappliedTransaction.id e.id s.queue
      sizeInBytes := (s.sizeInBytes + 2 ^ 64 - calcSize cfg e.trxMeta % 2 ^ 64) % 2 ^ 64 } ∧
    queueSize cfg (eraseKey UnappliedTransaction.id e.id s.queue) + calcSize cfg e.trxMeta ≤ bound ∧
    e.id ∉ (eraseKey UnappliedTransaction.id e.id s.queue).map UnappliedTransaction.id := by
  have hperm := perm_eraseKey hfind
  have hcallbacks := h.callbacks
  rw [coe_held_of_perm hperm, coe_held_cons, add_left_comm] at hcallbacks
  have hsum := queueSize_of_perm cfg hperm
  rw [queueSize_cons] at hsum
  have hids := (hperm.map UnappliedTransaction.id).nodup_iff.mp h.ids
  rw [map_cons, nodup_cons] at hids
  have hbound := h.size_le
  refine ⟨⟨hids.2, fun e' he' => h.types e' (hperm.mem_iff.mpr (mem_cons_of_mem _ he')), ?_, ?_,
    h.handed, add_left_cancel hcallbacks⟩, by omega, hids.1⟩
  · dsimp only
    rw [h.size, hsum]
    omega
  · dsimp only
    omega

theorem Accounted.called {c : ℕ} (h : Accounted cfg n bound total s) (response : Response) :
    Accounted cfg n bound ({c} + total) { s with called := s.called ++ [(c, response)] } := by
  refine ⟨h.ids, h.types, h.size, h.size_le, h.handed, ?_⟩
  rw [← h.callbacks, map_append, ← Multiset.coe_add]
  change _ + ({c} : Multiset ℕ) + _ = _
  abel

theorem Accounted.inserted {trx : TrxMeta} {trxType : TrxEnumType} {next : Option ℕ}
    (h : Accounted cfg n bound total s) (hnew : trx.id ∉ s.queue.map UnappliedTransaction.id)
    (htype : next ≠ none → trxType.isIncoming = true) {bound' : ℕ}
    (hbound : queueSize cfg s.queue + calcSize cfg trx ≤ bound') :
    Accounted cfg n bound' (next.toList + total) { s with
      queue := insertByRank rank ⟨trx, trxType, next, s.insertions⟩ s.queue
      insertions := s.insertions + 1
      sizeInBytes := (s.sizeInBytes + calcSize cfg trx) % 2 ^ 64 } := by
  have hperm : (insertByRank rank ⟨trx, trxType, next, s.insertions⟩
      s.queue).Perm (⟨trx, trxType, next, s.insertions⟩ :: s.queue) := perm_insertByRank _ _
  have hsum : queueSize cfg (insertByRank rank ⟨trx, trxType, next, s.insertions⟩ s.queue) =
      calcSize cfg trx + queueSize cfg s.queue :=
    (queueSize_of_perm cfg hperm).trans (queueSize_cons _ _ _)
  refine ⟨?_, ?_, ?_, ?_, h.handed, ?_⟩
  · exact (hperm.map _).nodup_iff.mpr (nodup_cons.mpr ⟨hnew, h.ids⟩)
  · intro e he
    rcases mem_cons.mp (hperm.mem_iff.mp he) with rfl | he
    · exact htype
    · exact h.types e he
  · dsimp only
    rw [h.size, hsum]
    omega
  · dsimp only
    omega
  · rw [← h.callbacks, coe_held_of_perm hperm, coe_held_cons]
    abel

theorem Accounted.replaced {e' : UnappliedTransaction}
    (h : Accounted cfg n bound (e.next.toList + total) s) (hfind : s.find e.id = some e)
    (hmeta : e'.trxMeta = e.trxMeta) (htype : e'.next ≠ none → e'.trxType.isIncoming = true) :
    Accounted cfg n bound (e'.next.toList + total) { s with
      queue := replaceKey UnappliedTransaction.id UnappliedTransaction.rank e'.id e' s.queue } := by
  have hid : e'.id = e.id := congrArg TrxMeta.id hmeta
  rw [hid]
  have hold := perm_eraseKey hfind
  have hnew : (replaceKey UnappliedTransaction.id UnappliedTransaction.rank e.id e' s.queue).Perm
    (e' :: eraseKey UnappliedTransaction.id e.id s.queue) := perm_replaceKey hfind e'
  have hids := (hold.map UnappliedTransaction.id).nodup_iff.mp h.ids
  have hsum : queueSize cfg (replaceKey UnappliedTransaction.id UnappliedTransaction.rank e.id e'
      s.queue) = queueSize cfg s.queue := by
    rw [queueSize_of_perm cfg hnew, queueSize_of_perm cfg hold, queueSize_cons, queueSize_cons, hmeta]
  refine ⟨?_, ?_, ?_, ?_, h.handed, ?_⟩
  · grind
  · intro e'' he''
    rcases mem_cons.mp (hnew.mem_iff.mp he'') with rfl | he''
    · exact htype
    · exact h.types e'' (hold.mem_iff.mpr (mem_cons_of_mem _ he''))
  · rw [hsum]
    exact h.size
  · rw [hsum]
    exact h.size_le
  · have hcallbacks := h.callbacks
    rw [coe_held_of_perm hold, coe_held_cons, add_left_comm] at hcallbacks
    rw [coe_held_of_perm hnew, coe_held_cons, add_left_comm, add_left_cancel hcallbacks]

/-! ## What the functions do to the account -/

variable {E : TrxQueue → Prop} {total' : Multiset ℕ} {trxType : TrxEnumType} {next : Option ℕ}

/-- A transaction can be put into the queue: its entry, if there is one, has no callback, and
otherwise there is room for it. -/
def Room (cfg : QueueConfig) (bound : ℕ) (trx : TrxMeta) (s : TrxQueue) : Prop :=
  match s.find trx.id with
  | some e => e.next = none
  | none => queueSize cfg s.queue + calcSize cfg trx ≤ bound ∧
      bound < cfg.maxTransactionQueueSize

theorem toList_add_of_eq_none (h : next = none) (total : Multiset ℕ) :
    (next.toList : Multiset ℕ) + total = total := by
  rw [h]
  exact zero_add total

theorem call_some_spec (c : ℕ) (response : Response) (F : List UnappliedTransaction → Prop) :
    Triple (fun s => Accounted cfg n bound total s ∧ F s.queue) (call (some c) response)
      (fun _ s => Accounted cfg n bound ({c} + total) s ∧ F s.queue) E :=
  fun _ hs => ⟨hs.1.called response, hs.2⟩

theorem callIfAny_spec (next : Option ℕ) (response : Response)
    (F : List UnappliedTransaction → Prop) :
    Triple (fun s => Accounted cfg n bound total s ∧ F s.queue) (callIfAny next response)
      (fun _ s => Accounted cfg n bound (next.toList + total) s ∧ F s.queue) E := by
  cases next with
  | none =>
    refine .pure fun s hs => ?_
    rw [toList_add_of_eq_none rfl]
    exact hs
  | some c => exact call_some_spec c response F

/-- Calling a callback; the call throws if it is empty, and the account then has it nevertheless. -/
theorem call_spec (next : Option ℕ) (response : Response)
    (hE : ∀ s, Accounted cfg n bound total s → next = none → E s) :
    Triple (Accounted cfg n bound total) (call next response)
      (fun _ => Accounted cfg n bound (next.toList + total)) E := by
  cases next with
  | none => exact .throw fun s hs => hE s hs rfl
  | some c =>
    exact (call_some_spec c response fun _ => True).weaken (fun s hs => ⟨hs, trivial⟩)
      (fun _ _ hs => hs.1) fun _ hs => hs

theorem erase_spec (e : UnappliedTransaction) :
    Triple (fun s => Accounted cfg n bound (e.next.toList + total) s ∧
        findKey UnappliedTransaction.id e.id s.queue = some e) (TrxQueue.erase cfg e)
      (fun _ s => Accounted cfg n bound total s ∧
        queueSize cfg s.queue + calcSize cfg e.trxMeta ≤ bound ∧
        e.id ∉ s.queue.map UnappliedTransaction.id) E :=
  fun _ hs => hs.1.erased hs.2

theorem replace_spec (e : UnappliedTransaction) {e' : UnappliedTransaction}
    (hmeta : e'.trxMeta = e.trxMeta) (htype : e'.next ≠ none → e'.trxType.isIncoming = true)
    (htotal : e'.next.toList + total = total') :
    Triple (fun s => Accounted cfg n bound (e.next.toList + total) s ∧
        findKey UnappliedTransaction.id e.id s.queue = some e) (TrxQueue.replace e')
      (fun _ => Accounted cfg n bound total') E := by
  subst htotal
  exact fun _ hs => hs.1.replaced hs.2 hmeta htype

theorem insertNew_spec {trx : TrxMeta} {bound' : ℕ}
    (htype : next ≠ none → trxType.isIncoming = true)
    (hroom : trxType.isIncoming = true → bound' < cfg.maxTransactionQueueSize)
    (htotal : next.toList + total = total') :
    Triple (fun s => Accounted cfg n bound total s ∧ s.find trx.id = none ∧
        queueSize cfg s.queue + calcSize cfg trx ≤ bound')
      (insertNew cfg trx trxType next) (fun _ => Accounted cfg n bound' total') E := by
  subst htotal
  rintro s ⟨hs, hnone, hbound⟩
  have hcheck : trxType.isIncoming = false ∨
      (s.sizeInBytes + calcSize cfg trx) % 2 ^ 64 < cfg.maxTransactionQueueSize := by
    cases hincoming : trxType.isIncoming with
    | false => exact .inl rfl
    | true =>
      have hlt := hroom hincoming
      have hsize := hs.size
      exact .inr (by omega)
  have hexec : exec (insertNew cfg trx trxType next) s = (.ok ⟨⟩, { s with
      queue := insertByRank rank ⟨trx, trxType, next, s.insertions⟩ s.queue
      insertions := s.insertions + 1
      sizeInBytes := (s.sizeInBytes + calcSize cfg trx) % 2 ^ 64 }) := by
    rw [insertNew, Stateful.exec_modify_bind, Stateful.exec_get_bind,
      Stateful.exec_ofExcept_bind, check, if_pos hcheck]
    rfl
  rw [hexec]
  exact hs.inserted (findKey_eq_none_iff.mp hnone) htype hbound

theorem addPersisted_spec (trx : TrxMeta) :
    Triple (fun s => Accounted cfg n bound total s ∧ Room cfg bound trx s)
      (addPersisted cfg trx) (fun _ => Accounted cfg n bound total) E := by
  refine .getState fun t ht => ?_
  obtain ⟨ht, hroom⟩ := ht
  unfold Room at hroom
  cases hfind : t.find trx.id with
  | none =>
    rw [hfind] at hroom
    exact .of_eq (insertNew_spec (fun h => absurd rfl h) (fun h => absurd h (by decide)) (zero_add _))
      ⟨ht, hfind, hroom.1⟩
  | some e =>
    rw [hfind] at hroom
    have hid : e.id = trx.id := key_of_findKey hfind
    rw [← hid] at hfind
    have htotal := toList_add_of_eq_none hroom total
    refine .ite (fun _ => ?_) fun _ => .pure fun s hs => hs ▸ ht
    exact .of_eq (replace_spec e rfl (fun h => absurd hroom h) htotal) ⟨htotal.symm ▸ ht, hfind⟩

theorem addIncoming_spec (trx : TrxMeta) (persistUntilExpired : Bool) (next : Option ℕ) :
    Triple (fun s => Accounted cfg n bound total s ∧ Room cfg bound trx s)
      (addIncoming cfg trx persistUntilExpired next)
      (fun _ => Accounted cfg n bound (next.toList + total)) E := by
  have hincoming : (TrxEnumType.ofIncoming persistUntilExpired).isIncoming = true := by
    cases persistUntilExpired <;> rfl
  refine .getState fun t ht => ?_
  obtain ⟨ht, hroom⟩ := ht
  unfold Room at hroom
  cases hfind : t.find trx.id with
  | none =>
    rw [hfind] at hroom
    exact .of_eq (insertNew_spec (fun _ => hincoming) (fun _ => hroom.2) rfl) ⟨ht, hfind, hroom.1⟩
  | some e =>
    rw [hfind] at hroom
    have hid : e.id = trx.id := key_of_findKey hfind
    rw [← hid] at hfind
    have htotal := toList_add_of_eq_none hroom total
    exact .of_eq (replace_spec e rfl (fun _ => hincoming) rfl) ⟨htotal.symm ▸ ht, hfind⟩

theorem tryIncoming_spec (trx : TrxMeta) (persistUntilExpired : Bool) (next : Option ℕ)
    (a : TrxQueue.ChainAnswer) :
    Triple (fun s => Accounted cfg n bound total s ∧ Room cfg bound trx s)
      (tryIncoming cfg trx persistUntilExpired next a)
      (fun _ => Accounted cfg n bound (next.toList + total)) (Accounted cfg n bound total) := by
  have hcall (response : Response) :
      Triple (fun s => Accounted cfg n bound total s ∧ Room cfg bound trx s)
        (call next response) (fun _ => Accounted cfg n bound (next.toList + total))
        (Accounted cfg n bound total) :=
    (call_spec next response fun _ hs _ => hs).weaken (fun _ hs => hs.1) (fun _ _ hs => hs)
      fun _ hs => hs
  refine .ite (fun _ => hcall _) fun _ => .ite (fun _ => hcall _) fun _ =>
    .ite (fun _ => addIncoming_spec _ _ _) fun _ => ?_
  cases a.outcome with
  | threw => exact .throw fun _ hs => hs.1
  | except code => exact .ite (fun _ => addIncoming_spec _ _ _) fun _ => hcall _
  | executed =>
    refine .ite (fun _ => ?_) fun _ => hcall _
    exact .bind (addPersisted_spec trx) fun _ => call_spec _ _ fun _ hs _ => hs

theorem processIncoming_spec (trx : TrxMeta) (persistUntilExpired : Bool) (next : Option ℕ)
    (a : TrxQueue.ChainAnswer) :
    Triple (fun s => Accounted cfg n bound total s ∧ Room cfg bound trx s)
      (processIncoming cfg trx persistUntilExpired next a)
      (fun _ => Accounted cfg n bound (next.toList + total))
      (Accounted cfg n bound (next.toList + total)) := by
  refine .tryCatch (tryIncoming_spec trx persistUntilExpired next a) fun e => ?_
  refine call_spec _ _ fun s hs hnext => ?_
  rw [toList_add_of_eq_none hnext]
  exact hs

/-- One transaction of the queue is processed; if it comes back to the queue, there is room for it. -/
theorem processNext_spec (hbound : bound < cfg.maxTransactionQueueSize) (id : Sha256)
    (a : TrxQueue.ChainAnswer) :
    Triple (Accounted cfg n bound total) (processNext cfg id a)
      (fun _ => Accounted cfg n bound total) (Accounted cfg n bound total) := by
  refine .getState fun t ht => ?_
  cases hfind : t.find id with
  | none => exact .pure fun s hs => hs ▸ ht
  | some e =>
    have hid : e.id = id := key_of_findKey hfind
    rw [← hid] at hfind
    obtain ⟨rest, rfl⟩ := ht.exists_rest hfind
    refine .bind (.of_eq (erase_spec e) ⟨ht, hfind⟩) fun _ => ?_
    refine .bind ((processIncoming_spec e.trxMeta _ e.next a).weaken ?_ (fun _ _ hs => hs)
      fun _ hs => hs) fun _ => .pure fun _ hs => hs
    rintro s ⟨hs, hsize, hnew⟩
    refine ⟨hs, ?_⟩
    have hnone : s.find e.trxMeta.id = none := findKey_eq_none_iff.mpr hnew
    rw [Room, hnone]
    exact ⟨hsize, hbound⟩

theorem processIncomingLoop_spec (hbound : bound < cfg.maxTransactionQueueSize) (limit : ℕ)
    (itr : Option Sha256) (answers : List TrxQueue.ChainAnswer) :
    Triple (Accounted cfg n bound total) (processIncomingLoop cfg limit itr answers)
      (fun _ => Accounted cfg n bound total) (Accounted cfg n bound total) := by
  induction limit generalizing itr answers with
  | zero => exact .pure fun _ hs => hs
  | succ limit ih =>
    cases itr with
    | none => exact .pure fun _ hs => hs
    | some id =>
      cases answers with
      | nil => exact .pure fun _ hs => hs
      | cons a answers =>
        exact .bind (processNext_spec hbound id a) fun itr => ih itr answers

theorem processShare_spec {ω : Type} (ops : TrxQueue.WeightOps ω)
    (hbound : bound < cfg.maxTransactionQueueSize) (limit : ℕ) (weight : ω) (itr : Option Sha256)
    (answers : List TrxQueue.ChainAnswer) :
    Triple (Accounted cfg n bound total) (processShare cfg ops limit weight itr answers)
      (fun _ => Accounted cfg n bound total) (Accounted cfg n bound total) := by
  induction limit generalizing weight itr answers with
  | zero => exact .pure fun _ hs => hs
  | succ limit ih =>
    cases itr with
    | none => exact .pure fun _ hs => hs
    | some id =>
      refine .ite (fun _ => ?_) fun _ => .pure fun _ hs => hs
      cases answers with
      | nil => exact .pure fun _ hs => hs
      | cons a answers =>
        exact .bind (processNext_spec hbound id a) fun itr => ih _ itr answers

theorem processScheduledLoop_spec {ω : Type} (ops : TrxQueue.WeightOps ω)
    (hbound : bound < cfg.maxTransactionQueueSize) (scheduled : List (List TrxQueue.ChainAnswer))
    (limit : ℕ) (weight : ω) (itr : Option Sha256) :
    Triple (Accounted cfg n bound total)
      (processScheduledLoop cfg ops scheduled limit weight itr)
      (fun _ => Accounted cfg n bound total) (Accounted cfg n bound total) := by
  induction scheduled generalizing limit weight itr with
  | nil => exact .pure fun _ hs => hs
  | cons answers scheduled ih =>
    refine .bind (processShare_spec ops hbound limit weight itr answers) fun r => ?_
    exact .ite (fun _ => .pure fun _ hs => hs) fun _ => ih _ _ _

/-- Entries without a callback that are in the queue. -/
def Pending (es queue : List UnappliedTransaction) : Prop :=
  (∀ e ∈ es, e ∈ queue ∧ e.next = none) ∧ (es.map UnappliedTransaction.id).Nodup

theorem Pending.tail {es queue : List UnappliedTransaction}
    (h : Pending (e :: es) queue) : Pending es queue :=
  ⟨fun e' he' => h.1 e' (mem_cons_of_mem _ he'), (nodup_cons.mp h.2).2⟩

theorem erase_pending (e : UnappliedTransaction) (es : List UnappliedTransaction) :
    Triple (fun s => Accounted cfg n bound (e.next.toList + total) s ∧ Pending (e :: es) s.queue)
      (erase cfg e) (fun _ s => Accounted cfg n bound total s ∧ Pending es s.queue) E := by
  rintro s ⟨hs, hpending⟩
  have hfind := hs.find_of_mem (hpending.1 e mem_cons_self).1
  refine ⟨(hs.erased hfind).1, fun e' he' => ?_, hpending.tail.2⟩
  obtain ⟨hmem, hnext⟩ := hpending.tail.1 e' he'
  refine ⟨mem_eraseKey_of_ne hfind hmem ?_, hnext⟩
  rintro rfl
  exact (nodup_cons.mp hpending.2).1 (mem_map_of_mem he')

theorem processUnapplied_spec (failures : List UInt64) (e : UnappliedTransaction)
    (es : List UnappliedTransaction) (a : TrxQueue.ChainAnswer) :
    Triple (fun s => Accounted cfg n bound total s ∧ Pending (e :: es) s.queue)
      (processUnapplied cfg failures e a)
      (fun _ s => Accounted cfg n bound total s ∧ Pending es s.queue) E := by
  have hkeep (failures : List UInt64) :
      Triple (fun s => Accounted cfg n bound total s ∧ Pending (e :: es) s.queue)
        (pure failures : QueueM (List UInt64))
        (fun _ s => Accounted cfg n bound total s ∧ Pending es s.queue) E :=
    .pure fun s hs => ⟨hs.1, hs.2.tail⟩
  have hdrop (failures : List UInt64) :
      Triple (fun s => Accounted cfg n bound total s ∧ Pending (e :: es) s.queue)
        (do callIfAny e.next .trace; erase cfg e; pure failures : QueueM _)
        (fun _ s => Accounted cfg n bound total s ∧ Pending es s.queue) E :=
    .bind (callIfAny_spec e.next .trace (Pending (e :: es))) fun _ =>
      .bind (erase_pending e es) fun _ => .pure fun _ hs => hs
  refine .ite (fun _ => ?_) fun _ => ?_
  · refine .bind ((erase_pending e es).weaken (fun s hs => ?_) (fun _ _ hs => hs) fun _ hs => hs)
      fun _ => .pure fun _ hs => hs
    rw [toList_add_of_eq_none (hs.2.1 e mem_cons_self).2]
    exact hs
  · cases a.outcome with
    | threw => exact hkeep failures
    | except code => exact .ite (fun _ => hkeep failures) fun _ => hdrop _
    | executed => exact .ite (fun _ => hdrop failures) fun _ => hkeep failures

theorem processUnappliedLoop_spec (failures : List UInt64) (es : List UnappliedTransaction)
    (answers : List TrxQueue.ChainAnswer) :
    Triple (fun s => Accounted cfg n bound total s ∧ Pending es s.queue)
      (processUnappliedLoop cfg failures es answers)
      (fun _ => Accounted cfg n bound total) E := by
  induction es generalizing failures answers with
  | nil => exact .pure fun _ hs => hs.1
  | cons e es ih =>
    cases answers with
    | nil => exact .pure fun _ hs => hs.1
    | cons a answers =>
      exact .bind (processUnapplied_spec failures e es a) fun failures => ih failures answers

/-- The entries that `process_unapplied_trxs` goes through have no callback: they are not incoming. -/
theorem processUnappliedTrxs_spec (producing : Bool) (answers : List TrxQueue.ChainAnswer) :
    Triple (Accounted cfg n bound total) (processUnappliedTrxs cfg producing answers)
      (fun _ => Accounted cfg n bound total) E := by
  refine .getState fun t ht => .of_eq (processUnappliedLoop_spec _ _ answers) ⟨ht, ?_, ?_⟩
  · intro e he
    obtain ⟨hmem, hfilter⟩ := mem_filter.mp he
    refine ⟨hmem, by_contra fun hnext => ?_⟩
    have hincoming := ht.types e hmem hnext
    have hrank : e.rank = e.trxType.rank := rfl
    rw [hrank] at hfilter
    cases producing <;> cases htype : e.trxType <;>
      simp [htype, TrxEnumType.isIncoming, TrxEnumType.rank] at hincoming hfilter
  · exact (filter_sublist.map _).nodup ht.ids

theorem mem_of_firstExpiring {queue : List UnappliedTransaction}
    (h : firstExpiring queue = some e) : e ∈ queue := by
  induction queue generalizing e with
  | nil => cases h
  | cons e' queue ih =>
    rw [firstExpiring] at h
    cases hfirst : firstExpiring queue with
    | none => grind
    | some e'' => grind

theorem clearExpired_spec (pendingBlockTime rounds : ℕ) :
    Triple (Accounted cfg n bound total) (clearExpired cfg pendingBlockTime rounds)
      (fun _ => Accounted cfg n bound total) E := by
  induction rounds with
  | zero => exact .pure fun _ hs => hs
  | succ rounds ih =>
    refine .getState fun t ht => ?_
    cases hfirst : firstExpiring t.queue with
    | none => exact .pure fun s hs => hs ▸ ht
    | some e =>
      refine .ite (fun _ => .pure fun s hs => hs ▸ ht) fun _ => ?_
      have hfind := ht.find_of_mem (mem_of_firstExpiring hfirst)
      refine .bind (.of_eq (callIfAny_spec e.next .expired
        fun queue => findKey UnappliedTransaction.id e.id queue = some e) ⟨ht, hfind⟩) fun _ => ?_
      exact .bind ((erase_spec e).weaken (fun _ hs => hs) (fun _ _ hs => hs.1) fun _ hs => hs)
        fun _ => ih

theorem clearOne_spec (id : Sha256) :
    Triple (Accounted cfg n bound total) (TrxQueue.clearOne cfg id)
      (fun _ => Accounted cfg n bound total) E := by
  refine .getState fun t ht => ?_
  cases hfind : t.find id with
  | none => exact .pure fun s hs => hs ▸ ht
  | some e =>
    have hid : e.id = id := key_of_findKey hfind
    rw [← hid] at hfind
    refine .bind (.of_eq (callIfAny_spec e.next .duplicate
      fun queue => findKey UnappliedTransaction.id e.id queue = some e) ⟨ht, hfind⟩) fun _ => ?_
    refine .ite (fun _ => ?_) fun _ => replace_spec e rfl (fun h => absurd rfl h) (zero_add _)
    exact (erase_spec e).weaken (fun _ hs => hs) (fun _ _ hs => hs.1) fun _ hs => hs

theorem insert_spec (trx : TrxMeta) (htype : trxType.isIncoming = false) :
    Triple (fun s => ∃ bound, Accounted cfg n bound total s) (insert cfg trx trxType)
      (fun _ s => ∃ bound, Accounted cfg n bound total s) E := by
  refine .getState fun t ht => ?_
  cases hfind : t.find trx.id with
  | some e => exact .pure fun s hs => hs ▸ ht
  | none =>
    obtain ⟨bound, ht⟩ := ht
    refine (Triple.of_eq (E := E) (insertNew_spec (fun h => absurd rfl h)
      (fun h => absurd h (by simp [htype])) (zero_add total)) ⟨ht, hfind, le_rfl⟩).weaken
        (fun _ hs => hs) (fun _ s hs => ⟨_, hs⟩) fun _ hs => hs

/-! ## Runs -/

variable {ω : Type} {ops : TrxQueue.WeightOps ω} {s' : TrxQueue}

/-- When an input does not lose or repeat a callback.  A submitted transaction has no entry with a
callback, and if it has no entry, then the queue has room for it; and the queue has room for what is
taken from it while incoming transactions are processed. -/
def TrxQueue.Admits (cfg : QueueConfig) (s : TrxQueue) : TrxQueue.Input → Prop
  | .incomingTransaction trx _ _ =>
    match s.find trx.id with
    | some e => e.next = none
    | none => queueSize cfg s.queue + calcSize cfg trx < cfg.maxTransactionQueueSize
  | .processScheduled _ _ => queueSize cfg s.queue < cfg.maxTransactionQueueSize
  | .processIncoming _ _ => queueSize cfg s.queue < cfg.maxTransactionQueueSize
  | _ => True

instance (cfg : QueueConfig) (s : TrxQueue) : (input : TrxQueue.Input) → Decidable (s.Admits cfg input)
  | .incomingTransaction trx _ _ =>
    match hfind : s.find trx.id with
    | some e => decidable_of_iff (e.next = none) (by simp only [TrxQueue.Admits, hfind])
    | none => decidable_of_iff
        (queueSize cfg s.queue + calcSize cfg trx < cfg.maxTransactionQueueSize)
        (by simp only [TrxQueue.Admits, hfind])
  | .processScheduled _ _ =>
    inferInstanceAs (Decidable (queueSize cfg s.queue < cfg.maxTransactionQueueSize))
  | .processIncoming _ _ =>
    inferInstanceAs (Decidable (queueSize cfg s.queue < cfg.maxTransactionQueueSize))
  | .removeExpired _ _ | .processUnapplied _ _ | .blockAccepted _ | .blockAborted _ | .forked _ =>
    isTrue trivial

/-- Every callback that was handed in was called or is held, and this once. -/
def Balanced (cfg : QueueConfig) (s : TrxQueue) : Prop :=
  ∃ bound, Accounted cfg s.handed bound (Multiset.range s.handed) s

theorem Balanced.accounted (h : Balanced cfg s) {bound : ℕ} (hbound : queueSize cfg s.queue ≤ bound) :
    Accounted cfg s.handed bound (Multiset.range s.handed) s :=
  let ⟨_, h⟩ := h
  ⟨h.ids, h.types, h.size, hbound, rfl, h.callbacks⟩

theorem Accounted.balanced {n bound : ℕ} (h : Accounted cfg n bound (Multiset.range n) s) :
    Balanced cfg s := by
  obtain rfl := h.handed
  exact ⟨bound, h⟩

theorem Balanced.incoming (h : Balanced cfg s) {trx : TrxMeta} {persistUntilExpired : Bool}
    {a : TrxQueue.ChainAnswer}
    (hadmits : s.Admits cfg (.incomingTransaction trx persistUntilExpired a)) :
    Balanced cfg (step cfg ops s (.incomingTransaction trx persistUntilExpired a)) := by
  -- the bound is that of the queue if the transaction has an entry, and the limit otherwise
  have hs := h.accounted (le_max_left _ (cfg.maxTransactionQueueSize - 1))
  have hnext : Accounted cfg (s.handed + 1) _ (Multiset.range s.handed)
      { s with handed := s.handed + 1 } :=
    ⟨hs.ids, hs.types, hs.size, hs.size_le, rfl, hs.callbacks⟩
  have hroom : Room cfg (max (queueSize cfg s.queue) (cfg.maxTransactionQueueSize - 1)) trx
      { s with handed := s.handed + 1 } := by
    change match s.find trx.id with | some e => _ | none => _
    cases hfind : s.find trx.id with
    | some e => simpa only [TrxQueue.Admits, hfind] using hadmits
    | none =>
      simp only [TrxQueue.Admits, hfind] at hadmits
      dsimp only
      omega
  have hafter := (processIncoming_spec trx persistUntilExpired (some s.handed) a).exec_snd ⟨hnext, hroom⟩
  rw [Option.toList_some, Multiset.coe_singleton, Multiset.singleton_add,
    ← Multiset.range_succ] at hafter
  exact hafter.balanced

theorem Balanced.insertAll (h : Balanced cfg s) {trxType : TrxEnumType}
    (htype : trxType.isIncoming = false) (trxs : List TrxMeta) :
    Balanced cfg (exec (trxs.forM fun trx => insert cfg trx trxType) s).2 := by
  obtain ⟨bound, hafter⟩ := (Triple.forM
    (I := fun _ s' => ∃ bound, Accounted cfg s.handed bound (Multiset.range s.handed) s')
    (fun trx _ => insert_spec trx htype) trxs).exec_snd h
  exact hafter.balanced

theorem Balanced.step (h : Balanced cfg s) {input : TrxQueue.Input} (hadmits : s.Admits cfg input) :
    Balanced cfg (step cfg ops s input) := by
  have hkeeps {α : Type} {x : QueueM α}
      (hx : Triple (Accounted cfg s.handed (queueSize cfg s.queue) (Multiset.range s.handed)) x
        (fun _ => Accounted cfg s.handed (queueSize cfg s.queue) (Multiset.range s.handed))
        (Accounted cfg s.handed (queueSize cfg s.queue) (Multiset.range s.handed))) :
      Balanced cfg (exec x s).2 := (hx.exec_snd (h.accounted le_rfl)).balanced
  have hdiscard {α : Type} {x : QueueM α} (hx : Balanced cfg (exec x s).2) :
      Balanced cfg (exec (discard x) s).2 := by
    rw [Stateful.exec_discard_snd]
    exact hx
  cases input with
  | incomingTransaction trx persistUntilExpired a => exact h.incoming hadmits
  | removeExpired pendingBlockTime rounds =>
    exact hdiscard (hkeeps (clearExpired_spec _ rounds))
  | processUnapplied producing answers =>
    exact hdiscard (hkeeps (processUnappliedTrxs_spec _ answers))
  | processScheduled limit scheduled =>
    exact hkeeps (.readState fun t => processScheduledLoop_spec ops hadmits _ _ _ t.incomingBegin)
  | processIncoming limit answers =>
    exact hdiscard (hkeeps (.readState fun t =>
      processIncomingLoop_spec hadmits limit t.incomingBegin answers))
  | blockAccepted ids =>
    exact hkeeps (Triple.forM (I := fun _ => Accounted cfg s.handed _ (Multiset.range s.handed))
      (fun id _ => clearOne_spec id) ids)
  | blockAborted trxs => exact h.insertAll rfl trxs
  | forked trxs => exact h.insertAll rfl trxs

/-- No callback that was handed in is lost or called twice: it was called once, or one entry of the
queue holds it and it was not called. -/
theorem callbacks_accounted {ts : List (Transition TrxQueue TrxQueue.Input)}
    (hrun : Run (fun s input s' => TrxQueue.step cfg ops s input = s') {} ts s)
    (hadmits : ∀ t ∈ ts, t.before.Admits cfg t.label) {c : ℕ} (hc : c < s.handed) :
    ((s.called.map Prod.fst).count c = 1 ∧ (held s.queue).count c = 0) ∨
      ((s.called.map Prod.fst).count c = 0 ∧ (held s.queue).count c = 1) := by
  have hbalanced : Balanced cfg s := by
    refine hrun.invariant_of_forall (I := fun _ => Balanced cfg) hadmits ?_ ?_
    · exact ⟨0, nodup_nil, fun e he => absurd he not_mem_nil, rfl, le_rfl, rfl, rfl⟩
    · rintro ts s input s' - hs rfl hinput
      exact hs.step hinput
  obtain ⟨bound, hs⟩ := hbalanced
  have hcount := congrArg (Multiset.count c) hs.callbacks
  rw [Multiset.count_add, Multiset.coe_count, Multiset.coe_count,
    Multiset.count_eq_one_of_mem (Multiset.nodup_range _) (Multiset.mem_range.mpr hc)] at hcount
  omega

/-! ## Samples -/

def sampleQueueConfig : QueueConfig where
  maxTransactionQueueSize := 1000
  entrySize := 10
  disablePersistUntilExpired := false

def sampleTrx (n : UInt64) : TrxMeta where
  id := { h0 := n }
  expiration := 100
  estimatedSize := 50
  firstAuthorizer := 7

def sampleIdle : TrxQueue.ChainAnswer where
  building := false
  blockTime := 10
  known := false
  deadlineIsSubjective := false
  outcome := .executed

/-- The transaction is executed in the block that is being built. -/
def sampleExecuted : TrxQueue.ChainAnswer := { sampleIdle with building := true }

def sampleWeightOps : TrxQueue.WeightOps ℕ where
  zero := 0
  atLeastOne weight := 1 ≤ weight
  minusOne weight := weight - 1
  plusRatio weight := weight + 1

/-- Two transactions come before a block is built; the first one is executed in it. -/
theorem callbacks_accounted_sample : ∃ ts s,
    Run (fun s input s' => TrxQueue.step sampleQueueConfig sampleWeightOps s input = s') {} ts s ∧
    s.called = [(0, .trace)] ∧ (held s.queue).count 1 = 1 ∧
    ∀ c < 2, ((s.called.map Prod.fst).count c = 1 ∧ (held s.queue).count c = 0) ∨
      ((s.called.map Prod.fst).count c = 0 ∧ (held s.queue).count c = 1) := by
  have hrun := run_trace (step sampleQueueConfig sampleWeightOps) {}
    [.incomingTransaction (sampleTrx 1) false sampleIdle,
      .incomingTransaction (sampleTrx 2) false sampleIdle, .processIncoming 1 [sampleExecuted]]
  exact ⟨_, _, hrun, by decide +kernel, by decide +kernel, fun c hc =>
    callbacks_accounted hrun (by decide +kernel) (lt_of_lt_of_eq hc (by decide +kernel))⟩

/-- A transaction is submitted twice before a block is built: the first callback is not held by any
entry and is not called, not even when the transaction is executed. -/
theorem first_callback_lost :
    (([.incomingTransaction (sampleTrx 1) false sampleIdle,
        .incomingTransaction (sampleTrx 1) false sampleIdle] : List TrxQueue.Input).foldl
      (TrxQueue.step sampleQueueConfig sampleWeightOps) {}).queue =
      [⟨sampleTrx 1, .incoming, some 1, 0⟩] ∧
    (([.incomingTransaction (sampleTrx 1) false sampleIdle,
        .incomingTransaction (sampleTrx 1) false sampleIdle,
        .processIncoming 1 [sampleExecuted]] : List TrxQueue.Input).foldl
      (TrxQueue.step sampleQueueConfig sampleWeightOps) {}) =
      { insertions := 1, called := [(1, .trace)], handed := 2 } := by
  decide +kernel

end DcdProtocol.Producer
