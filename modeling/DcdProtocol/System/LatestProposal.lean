import DcdProtocol.System.FeeDelay

/-!
# Which of several approved proposals wins

While a change for an action is pending, other proposals for the same action can be approved.  The
pending change should then carry the fee and the time of the latest proposal, in whatever order they
are approved, and an older proposal should change nothing.

The row of a key is what the approvals that reached it made of it, one after the other
(`find?_of_run`).  `check_action_proposal_table` compares the time of a proposal with the one in the
row only for the fee, and writes the time in any case.  So a row has the time of the last approval,
and the latest proposal wins exactly if the approvals come in the order of their proposals
(`InOrder`).
-/

namespace DcdProtocol.System

open Library Chain List

/-- An entry of a proposal that a run of the check at time `ct` approves. -/
structure Approval where
  ct : ℕ
  prop : ActionsFeeProposals
  entry : ActionFeeProp

namespace Approval

variable (a : Approval)

def toBeApplied : ℕ := ((secSinceEpoch a.ct).toNat + feeApprovedApplicationDelay) * 1000000

def revise (info : FeeChanges) : FeeChanges :=
  { info with
    fee := if a.prop.proposedAt > info.proposedAt then a.entry.fee else info.fee
    proposedAt := a.prop.proposedAt
    toBeAppliedAt := a.toBeApplied }

/-- The change that the check creates if none is pending. -/
def create : FeeChanges where
  accountAction := SystemContract.accAct a.entry.account a.entry.action
  account := a.entry.account
  action := a.entry.action
  fee := a.entry.fee
  proposedAt := a.prop.proposedAt
  toBeAppliedAt := a.toBeApplied

/-- The row of a key after one more approval. -/
def recordRow (row : Option PackedFeeChanges) (a : Approval) : Option PackedFeeChanges :=
  match row with
  | some row => some (a.revise row.unpack).pack
  | none => some a.create.pack

/-- The row that a sequence of approvals leaves. -/
def rowAfter (approvals : List Approval) : Option PackedFeeChanges :=
  approvals.foldl recordRow none

theorem rowAfter_snoc (approvals : List Approval) (a : Approval) :
    rowAfter (approvals ++ [a]) = recordRow (rowAfter approvals) a := by
  rw [rowAfter, foldl_append]
  rfl

variable {approvals : List Approval} {a : Approval}

theorem proposedAt_rowAfter {row : PackedFeeChanges}
    (hrow : rowAfter (approvals ++ [a]) = some row) : row.proposedAt = a.prop.proposedAt := by
  rw [rowAfter_snoc] at hrow
  cases hprev : rowAfter approvals with
  | none =>
    rw [hprev] at hrow
    rw [← Option.some.inj hrow]
    rfl
  | some prev =>
    rw [hprev] at hrow
    rw [← Option.some.inj hrow]
    rfl

/-! ## The latest proposal -/

/-- The row is the change of every approved entry, and carries the fee and time of the latest of
them.  This determines both whatever the order of the approvals. -/
def IsLatest (row : PackedFeeChanges) (approvals : List Approval) : Prop :=
  (∃ a ∈ approvals, a.entry.fee = row.fee ∧ a.prop.proposedAt = row.proposedAt) ∧
    ∀ a ∈ approvals, (a.entry.account, a.entry.action) = (row.account, row.action) ∧
      a.prop.proposedAt ≤ row.proposedAt ∧
      (a.prop.proposedAt = row.proposedAt → a.entry.fee = row.fee)

/-- After each approval the row carries the latest proposal, and approving an older one changes
nothing of a change. -/
structure LatestWins (approvals : List Approval) : Prop where
  latest : ∀ pre a post, approvals = pre ++ a :: post →
    ∃ row, rowAfter (pre ++ [a]) = some row ∧ IsLatest row (pre ++ [a])
  older_unchanged : ∀ pre a post, approvals = pre ++ a :: post →
    ∀ info : FeeChanges, rowAfter pre = some info.pack →
      a.prop.proposedAt < info.proposedAt → a.revise info = info

/-- The approvals are for one account and action, and come in the order of their proposals; those
with the same time have the same fee. -/
def InOrder (approvals : List Approval) : Prop :=
  approvals.Pairwise fun a b =>
    (a.entry.account, a.entry.action) = (b.entry.account, b.entry.action) ∧
      a.prop.proposedAt ≤ b.prop.proposedAt ∧
      (a.prop.proposedAt = b.prop.proposedAt → a.entry.fee = b.entry.fee)

/-- The row is what `create` makes of the approval. -/
def Carries (row : PackedFeeChanges) (a : Approval) : Prop :=
  (row.account, row.action) = (a.entry.account, a.entry.action) ∧ row.fee = a.entry.fee ∧
    row.proposedAt = a.prop.proposedAt

theorem exists_rowAfter_carries (horder : InOrder (approvals ++ [a])) :
    ∃ row, rowAfter (approvals ++ [a]) = some row ∧ Carries row a := by
  induction approvals using reverseRecOn generalizing a with
  | nil => exact ⟨_, rfl, rfl, rfl, rfl⟩
  | append_singleton approvals b ih =>
    obtain ⟨hbefore, -, hlast⟩ := pairwise_append.mp horder
    obtain ⟨prev, hprev, hpair, hfee, htime⟩ := ih hbefore
    obtain ⟨hsame, hle, htie⟩ := hlast b (by simp) a (by simp)
    refine ⟨(a.revise prev.unpack).pack, ?_, hpair.trans hsame, ?_, rfl⟩
    · rw [rowAfter_snoc, hprev]
      rfl
    show (if a.prop.proposedAt > prev.proposedAt then a.entry.fee else prev.fee) = a.entry.fee
    rw [htime, hfee]
    split
    next => rfl
    next hnewer => exact htie (le_antisymm hle (not_lt.mp hnewer))

theorem InOrder.latestWins (horder : InOrder approvals) : LatestWins approvals := by
  constructor
  · intro pre a post heq
    have hpre : InOrder (pre ++ [a]) := by
      apply List.Pairwise.sublist _ horder
      rw [heq]
      exact List.Sublist.append_left (singleton_sublist.mpr mem_cons_self) pre
    obtain ⟨row, hrow, hpair, hfee, htime⟩ := exists_rowAfter_carries hpre
    refine ⟨row, hrow, ⟨a, by simp, hfee.symm, htime.symm⟩, ?_⟩
    intro b hb
    rw [hpair, hfee, htime]
    rw [mem_append, mem_singleton] at hb
    rcases hb with hb | rfl
    · exact (pairwise_append.mp hpre).2.2 b hb a (by simp)
    · exact ⟨rfl, le_rfl, fun _ => rfl⟩
  · intro pre a post heq info hinfo holder
    induction pre using reverseRecOn with
    | nil => cases hinfo
    | append_singleton pre b _ =>
      -- the row has the time of `b`, which is not after `a`
      have htime : info.proposedAt = b.prop.proposedAt := proposedAt_rowAfter hinfo
      have hle := ((pairwise_append.mp (heq ▸ horder)).2.2 b (by simp) a (by simp)).2.1
      omega

theorem LatestWins.inOrder (hwins : LatestWins approvals) : InOrder approvals := by
  induction approvals using reverseRecOn with
  | nil => exact List.Pairwise.nil
  | append_singleton approvals a ih =>
    have hbefore : LatestWins approvals := by
      constructor
      · intro pre b post heq
        exact hwins.latest pre b (post ++ [a]) (by rw [heq]; simp)
      · intro pre b post heq
        exact hwins.older_unchanged pre b (post ++ [a]) (by rw [heq]; simp)
    rw [InOrder, pairwise_append]
    refine ⟨ih hbefore, pairwise_singleton _ _, ?_⟩
    intro b hb c hc
    rw [mem_singleton] at hc
    subst hc
    obtain ⟨row, hrow, -, hlatest⟩ := hwins.latest approvals c [] rfl
    obtain ⟨hpairb, hleb, htieb⟩ := hlatest b (by simp [hb])
    obtain ⟨hpairc, -, htiec⟩ := hlatest c (by simp)
    have htime := proposedAt_rowAfter hrow
    refine ⟨hpairb.trans hpairc.symm, htime ▸ hleb, ?_⟩
    intro htie
    rw [htieb (htie.trans htime.symm), htiec htime.symm]

end Approval

namespace SystemContract

open Approval

variable {s s' : SystemContract} {ts : List ContractTransition} {i : ContractInput} {ct : ℕ}
  {changes changes' : FlatMap Name PackedFeeChanges}

/-! ## The history of a row -/

/-- The approvals by the check of a block for the row of a key. -/
def approvalsAt (s : SystemContract) (ct : ℕ) (key : Name) : List Approval :=
  (s.approvedEntries.filter fun e => entryKey e = key).map fun e => ⟨ct, e.1, e.2⟩

/-- The approvals that made the pending change of a key, after one more action. -/
def approvalsAfter (key : Name) (approvals : List Approval) (t : ContractTransition) :
    List Approval :=
  match t.label.action with
  | .onblock =>
    let ct := t.label.time
    let pending :=
      if key ∈ (t.before.appliedChanges ct).map FeeChanges.accountAction then [] else approvals
    if t.before.checkDue ct then pending ++ t.before.approvalsAt ct key else pending
  | _ => approvals

/-- The approvals for the key since its change is pending, in the order of the walks. -/
def approvalsFor (key : Name) (ts : List ContractTransition) : List Approval :=
  ts.foldl (approvalsAfter key) []

theorem recordChange_eq_insert {e : ActionsFeeProposals × ActionFeeProp}
    (hok : recordChange ct changes e = .ok changes') :
    ∃ row, recordRow (changes.find? (entryKey e)) ⟨ct, e.1, e.2⟩ = some row ∧
      changes' = changes.insert (entryKey e) row := by
  obtain ⟨row, hinsert, hnew⟩ := recordChange_eq_ok hok
  refine ⟨row, ?_, hinsert⟩
  rcases hnew with ⟨old, hold, rfl⟩ | ⟨hnone, rfl⟩
  · rw [entryKey, hold]
    rfl
  · rw [entryKey, hnone]
    rfl

/-- The walk over the approved entries changes the row of a key by the entries with that key. -/
theorem find?_foldlM_recordChange {entries : List (ActionsFeeProposals × ActionFeeProp)}
    (hok : entries.foldlM (recordChange ct) changes = .ok changes') (key : Name) :
    changes'.find? key =
      ((entries.filter fun e => entryKey e = key).map fun e => Approval.mk ct e.1 e.2).foldl
        recordRow (changes.find? key) := by
  induction entries generalizing changes with
  | nil => rw [← pure_ok_iff.mp hok]; rfl
  | cons e entries ih =>
    obtain ⟨changes₁, hrecord, hok⟩ := bind_ok_iff.mp hok
    obtain ⟨row, hrow, rfl⟩ := recordChange_eq_insert hrecord
    rw [ih hok, FlatMap.find?_insert]
    by_cases hkey : entryKey e = key
    · grind
    · grind

theorem find?_onBlockUpdates {key : Name} {approvals : List Approval} (hkeyed : Keyed s.feeChanges)
    (hrow : s.feeChanges.find? key = rowAfter approvals) (haction : i.action = .onblock)
    (hok : s.onBlockUpdates i.time = .ok s') (t : SystemContract) :
    s'.feeChanges.find? key = rowAfter (approvalsAfter key approvals ⟨s, i, t⟩) := by
  rw [approvalsAfter, haction]
  generalize i.time = ct at hok ⊢
  have hpending : (s.applyPendingFeeChanges ct).feeChanges.find? key =
      rowAfter (if key ∈ (s.appliedChanges ct).map FeeChanges.accountAction then []
        else approvals) := by
    rw [find?_applyPendingFeeChanges hkeyed]
    cases hdue : s.applyDue ct with
    | false =>
      have hnone : s.appliedChanges ct = [] := by rw [appliedChanges, hdue]; rfl
      rw [hnone]
      exact hrow
    | true =>
      rw [if_pos rfl]
      split
      next => rfl
      next hkey =>
        -- without a row nothing was approved for the key
        rw [← hrow, eq_comm, Option.eq_none_iff_forall_ne_some]
        intro row hsome
        apply hkey
        rw [appliedChanges_of_applyDue hdue, map_map, mem_map]
        exact ⟨row, FlatMap.mem_values_iff.mpr ⟨key, hsome⟩, hkeyed key row hsome⟩
  rcases onBlockUpdates_eq_ok hok with ⟨hcheck, rfl⟩ | ⟨hcheck, changes, hchanges, rfl⟩
  · grind
  · rw [if_pos hcheck, rowAfter, foldl_append, ← rowAfter, ← hpending, approvalsAt]
    exact find?_foldlM_recordChange hchanges key

theorem find?_of_run {t₀ : BlockTimestamp} (hrun : ContractRun t₀ ts s) (key : Name) :
    s.feeChanges.find? key = rowAfter (approvalsFor key ts) := by
  apply hrun.invariant (I := fun ts s => s.feeChanges.find? key = rowAfter (approvalsFor key ts))
  · rfl
  intro ts s i s' hrun hrow hstep
  obtain ⟨-, u, hperform, hs'⟩ := step_eq_ok hstep
  have hchanges : s'.feeChanges = u.feeChanges := by rw [hs']
  rw [hchanges, approvalsFor, foldl_append, foldl_cons, foldl_nil, ← approvalsFor]
  by_cases haction : i.action = .onblock
  · rw [haction, perform] at hperform
    exact find?_onBlockUpdates (scheduled_of_run hrun).keyed hrow haction hperform s'
  rw [(perform_of_ne_onblock haction hperform).1, hrow, approvalsAfter]
  split
  next heq => exact absurd heq haction
  next => rfl

/-- For every key, the latest of the approved proposals wins exactly if they are approved in
order. -/
theorem latestWins_iff_inOrder {t₀ : BlockTimestamp} (hrun : ContractRun t₀ ts s) (key : Name) :
    s.feeChanges.find? key = rowAfter (approvalsFor key ts) ∧
      (LatestWins (approvalsFor key ts) ↔ InOrder (approvalsFor key ts)) :=
  ⟨find?_of_run hrun key, LatestWins.inOrder, InOrder.latestWins⟩

/-! ### Three producers -/

def carol : Name := .ofChars ['c', 'a', 'r', 'o', 'l']

/-- A proposal for the transfers, with the votes of the other producers for it. -/
def approvedProposal (slot : UInt32) (owner : Name) (amount : Int64) : List ContractInput :=
  atSlot slot (.propactfee owner [{ transferFee with fee := ⟨amount, 0x44434404⟩ }]) ::
    ([alice, bob, carol].filter (· ≠ owner)).map fun producer =>
      atSlot slot (.votefeeprop producer owner 1)

/-- Three proposals, and the block whose check approves them. -/
def threeApproved (proposals : List (UInt32 × Name × Int64)) : List ContractInput :=
  registered ++ [atSlot 0 (.regproducer carol)] ++
    (proposals.flatMap fun (slot, owner, amount) => approvedProposal slot owner amount) ++
    [atSlot 600 .onblock]

instance (approvals : List Approval) : Decidable (InOrder approvals) :=
  inferInstanceAs (Decidable (approvals.Pairwise _))

/-- If the producers propose in the order of their names, the last fee is pending. -/
theorem latestWins_iff_inOrder_three :
    ∃ ts s, ContractRun ⟨0⟩ ts s ∧ LatestWins (approvalsFor (accAct dcdToken transfer) ts) ∧
      ∃ row, s.feeChanges.find? (accAct dcdToken transfer) = some row ∧
        row.fee.amount = 30000 ∧ row.proposedAt = (BlockTimestamp.mk 6).toTimePoint := by
  obtain ⟨ts, s, hrun, hend⟩ := exists_run_of_exec step (.initial ⟨0⟩)
    (threeApproved [(2, alice, 10000), (4, bob, 20000), (6, carol, 30000)])
    (fun ts s => decide (InOrder (approvalsFor (accAct dcdToken transfer) ts)) &&
      (s.feeChanges.find? (accAct dcdToken transfer)).any fun row : PackedFeeChanges =>
        decide (row.fee.amount = 30000 ∧ row.proposedAt = (BlockTimestamp.mk 6).toTimePoint))
    (by decide +kernel)
  rw [Bool.and_eq_true, decide_eq_true_eq, Option.any_eq_true] at hend
  obtain ⟨horder, row, hrow, hlatest⟩ := hend
  rw [decide_eq_true_eq] at hlatest
  exact ⟨ts, s, hrun, (latestWins_iff_inOrder hrun _).2.mpr horder, row, hrow, hlatest⟩

/-- `alice` makes the last proposal, for 10000, and the check walks over it first.  The row takes the
time of the proposal of `bob`, which is the oldest, and then the fee of `carol`. -/
theorem latest_proposal_loses :
    ∃ ts s, ContractRun ⟨0⟩ ts s ∧
      (∃ a ∈ approvalsFor (accAct dcdToken transfer) ts, a.entry.fee.amount = 10000 ∧
        ∀ b ∈ approvalsFor (accAct dcdToken transfer) ts, b.prop.proposedAt ≤ a.prop.proposedAt) ∧
      (∃ row, s.feeChanges.find? (accAct dcdToken transfer) = some row ∧
        row.fee.amount = 30000 ∧ row.proposedAt = (BlockTimestamp.mk 4).toTimePoint) ∧
      ¬LatestWins (approvalsFor (accAct dcdToken transfer) ts) := by
  obtain ⟨ts, s, hrun, hend⟩ := exists_run_of_exec step (.initial ⟨0⟩)
    (threeApproved [(2, bob, 20000), (4, carol, 30000), (6, alice, 10000)])
    (fun ts s => ((approvalsFor (accAct dcdToken transfer) ts).any fun a =>
        decide (a.entry.fee.amount = 10000 ∧ ∀ b ∈ approvalsFor (accAct dcdToken transfer) ts,
            b.prop.proposedAt ≤ a.prop.proposedAt)) &&
      ((s.feeChanges.find? (accAct dcdToken transfer)).any fun row : PackedFeeChanges =>
        decide (row.fee.amount = 30000 ∧ row.proposedAt = (BlockTimestamp.mk 4).toTimePoint)) &&
      decide (¬InOrder (approvalsFor (accAct dcdToken transfer) ts)))
    (by decide +kernel)
  simp only [Bool.and_eq_true, any_eq_true, Option.any_eq_true, decide_eq_true_eq] at hend
  obtain ⟨⟨hlast, hrow⟩, horder⟩ := hend
  exact ⟨ts, s, hrun, hlast, hrow, fun hwins => horder hwins.inOrder⟩

end SystemContract

end DcdProtocol.System
