import DcdProtocol.System.Commission

/-!
# What the actions of the commission contract do

One lemma for each function that can fail says what it did when it succeeded; the invariants of
later modules are proved from these lemmas.  The pending changes are stored under their own key
(`Keyed`), and `unpack` gives every row the application time 0, so a run of
`apply_pending_fee_changes` empties the table.
-/

namespace DcdProtocol.System.SystemContract

open Library Chain FlatMap

variable {s s' : SystemContract} {ct : ℕ}

/-! ## Actions of producers -/

variable {prop : ActionsFeeProposals} {changes changes' : FlatMap Name PackedFeeChanges}
  {producer : Name} {entry : ActionsFeeProposals × ActionFeeProp} {p : ActionFeeProp}

theorem unregprod_eq_ok (hok : s.unregprod producer = .ok s') :
    s' = { s with producers := s.producers.insert producer false } := by
  obtain ⟨_, -, hok⟩ := bind_ok_iff.mp hok
  exact (pure_ok_iff.mp hok).symm

theorem propactfee_eq_ok {propFees : List ActionFeeProp}
    (hok : s.propactfee ct producer propFees = .ok s') :
    producer ∈ s.producers.keys ∧ ∃ proposal : ActionsFeeProposals,
      proposal.owner = producer ∧ proposal.votedApprove = 1 ∧ proposal.votedDisapprove = 0 ∧
      proposal.voted = {producer} ∧
      s' = { s with feeProposals := s.feeProposals.insert producer proposal } := by
  obtain ⟨_, hproducer, hok⟩ := bind_ok_iff.mp hok
  obtain ⟨_, -, hok⟩ := bind_ok_iff.mp hok
  have hkey := contains_iff.mp (dcdAssert_ok_iff.mp hproducer)
  exact ⟨hkey, _, rfl, rfl, rfl, rfl, (pure_ok_iff.mp hok).symm⟩

theorem votefeeprop_eq_ok {prodSuggestion : Name} {accept : UInt32}
    (hok : s.votefeeprop producer prodSuggestion accept = .ok s') :
    producer ∈ s.producers.keys ∧ ∃ info info' : ActionsFeeProposals,
      s.feeProposals.find? prodSuggestion = some info ∧ producer ∉ info.voted ∧
      info'.owner = info.owner ∧
      info'.votedApprove = info.votedApprove + (if accept > 0 then 1 else 0) ∧
      info'.votedDisapprove = info.votedDisapprove + (if accept > 0 then 0 else 1) ∧
      info'.voted = insert producer info.voted ∧
      s' = { s with feeProposals := s.feeProposals.insert prodSuggestion info' } := by
  obtain ⟨_, hproducer, hok⟩ := bind_ok_iff.mp hok
  refine ⟨contains_iff.mp (dcdAssert_ok_iff.mp hproducer), ?_⟩
  cases hinfo : s.feeProposals.find? prodSuggestion with
  | none => simp [hinfo] at hok
  | some info =>
    simp only [hinfo] at hok
    obtain ⟨_, hvoted, hok⟩ := bind_ok_iff.mp hok
    refine ⟨info, _, rfl, dcdAssert_ok_iff.mp hvoted, ?_, ?_, ?_, ?_, (pure_ok_iff.mp hok).symm⟩
    all_goals split <;> rfl

/-! ## `check_action_proposal_table` -/

/-- Every pending change is stored under its own key. -/
def Keyed (changes : FlatMap Name PackedFeeChanges) : Prop :=
  ∀ key row, changes.find? key = some row → row.accountAction = key

theorem recordChange_eq_ok (hok : recordChange ct changes (prop, p) = .ok changes') :
    ∃ row, changes' = changes.insert (accAct p.account p.action) row ∧
      ((∃ old, changes.find? (accAct p.account p.action) = some old ∧ row = { old with
          fee := if prop.proposedAt > old.proposedAt then p.fee else old.fee
          proposedAt := prop.proposedAt }) ∨
        changes.find? (accAct p.account p.action) = none ∧
          row = ⟨accAct p.account p.action, p.account, p.action, p.fee, prop.proposedAt⟩) := by
  rw [recordChange] at hok
  cases hrow : changes.find? (accAct p.account p.action) with
  | some old =>
    rw [hrow] at hok
    exact ⟨_, (pure_ok_iff.mp hok).symm, .inl ⟨old, rfl, rfl⟩⟩
  | none =>
    rw [hrow] at hok
    obtain ⟨_, -, hok⟩ := bind_ok_iff.mp hok
    exact ⟨_, (pure_ok_iff.mp hok).symm, .inr ⟨rfl, rfl⟩⟩

theorem recordChange_keyed (hkeyed : Keyed changes)
    (hok : recordChange ct changes entry = .ok changes') : Keyed changes' := by
  intro key row hrow
  obtain ⟨new, rfl, hnew⟩ := recordChange_eq_ok hok
  rw [find?_insert] at hrow
  split at hrow
  · cases hrow
    rcases hnew with ⟨old, hold, rfl⟩ | ⟨-, rfl⟩
    · grind [hkeyed _ old hold]
    · grind
  · exact hkeyed key row hrow

def entryKey (entry : ActionsFeeProposals × ActionFeeProp) : Name :=
  accAct entry.2.account entry.2.action

theorem recordChange_keys (hok : recordChange ct changes entry = .ok changes') {key : Name}
    (hkey : key ∈ changes'.keys) : key = entryKey entry ∨ key ∈ changes.keys := by
  obtain ⟨row, rfl, -⟩ := recordChange_eq_ok hok
  exact mem_keys_insert.mp hkey

theorem mem_approvedEntries : (prop, p) ∈ s.approvedEntries ↔
      prop ∈ s.feeProposals.values ∧ s.approved prop = true ∧ p ∈ prop.feePropList := by
  simp [approvedEntries, and_assoc]

theorem three_mul_prodCount_lt (happroved : s.approved prop = true) :
    3 * s.prodCount < 4 * prop.votedApprove := by
  rw [approved, Bool.and_eq_true, decide_eq_true_eq, decide_eq_true_eq] at happroved
  have hpass : s.prodCount * 3 / 4 + 1 ≤ prop.votedApprove := happroved.2
  omega

/-! ## The jobs of `onblock` -/

@[simp] theorem applyPendingFeeChanges_producers :
    (s.applyPendingFeeChanges ct).producers = s.producers := by
  rw [applyPendingFeeChanges]
  split <;> rfl

@[simp] theorem applyPendingFeeChanges_feeProposals :
    (s.applyPendingFeeChanges ct).feeProposals = s.feeProposals := by
  rw [applyPendingFeeChanges]
  split <;> rfl

@[simp] theorem applyPendingFeeChanges_commisionLastUpdate :
    (s.applyPendingFeeChanges ct).gstate3.commisionLastUpdate = s.gstate3.commisionLastUpdate := by
  rw [applyPendingFeeChanges]
  split <;> rfl

theorem applyPendingFeeChanges_feeChangesLastUpdate :
    (s.applyPendingFeeChanges ct).gstate3.feeChangesLastUpdate =
      if s.applyDue ct then ct else s.gstate3.feeChangesLastUpdate := by
  rw [applyPendingFeeChanges]
  split <;> rfl

@[simp] theorem applyPendingFeeChanges_prodCount :
    (s.applyPendingFeeChanges ct).prodCount = s.prodCount := by
  rw [prodCount, applyPendingFeeChanges_producers, prodCount]

@[simp] theorem applyPendingFeeChanges_approved :
    (s.applyPendingFeeChanges ct).approved = s.approved := by
  funext prop
  rw [approved, approved, applyPendingFeeChanges_prodCount]

@[simp] theorem applyPendingFeeChanges_approvedEntries :
    (s.applyPendingFeeChanges ct).approvedEntries = s.approvedEntries := by
  rw [approvedEntries, applyPendingFeeChanges_approved, applyPendingFeeChanges_feeProposals,
    approvedEntries]

theorem applyPendingFeeChanges_deleted :
    (s.applyPendingFeeChanges ct).deleted ct = s.deleted ct := by
  funext prop
  rw [deleted, deleted, applyPendingFeeChanges_approved, applyPendingFeeChanges_prodCount]

@[simp] theorem applyPendingFeeChanges_checkDue (t : ℕ) :
    (s.applyPendingFeeChanges ct).checkDue t = s.checkDue t := by
  rw [checkDue, applyPendingFeeChanges_commisionLastUpdate, checkDue]

theorem appliedChanges_of_applyDue (hdue : s.applyDue ct = true) :
    s.appliedChanges ct = s.feeChanges.values.map PackedFeeChanges.unpack := by
  rw [appliedChanges, if_pos hdue, List.filter_eq_self]
  intro fa hfa
  obtain ⟨row, -, rfl⟩ := List.mem_map.mp hfa
  exact decide_eq_true (Nat.zero_le ct)

theorem exists_of_mem_appliedChanges {c : FeeChanges} (hc : c ∈ s.appliedChanges ct) :
    s.applyDue ct = true ∧ ∃ key row, s.feeChanges.find? key = some row ∧ row.unpack = c := by
  cases hdue : s.applyDue ct with
  | false => simp [appliedChanges, hdue] at hc
  | true =>
    rw [appliedChanges_of_applyDue hdue] at hc
    obtain ⟨row, hrow, rfl⟩ := List.mem_map.mp hc
    obtain ⟨key, hkey⟩ := mem_values_iff.mp hrow
    exact ⟨rfl, key, row, hkey, rfl⟩

theorem find?_applyPendingFeeChanges (hkeyed : Keyed s.feeChanges) (key : Name) :
    (s.applyPendingFeeChanges ct).feeChanges.find? key =
      if s.applyDue ct then none else s.feeChanges.find? key := by
  rw [applyPendingFeeChanges]
  cases hdue : s.applyDue ct with
  | false => rfl
  | true =>
    rw [if_pos rfl, if_pos rfl, Option.eq_none_iff_forall_ne_some]
    intro row hrow
    obtain ⟨hkey, hrow⟩ := find?_foldl_erase_eq_some.mp hrow
    apply hkey
    rw [appliedChanges_of_applyDue hdue, List.map_map, List.mem_map]
    exact ⟨row, mem_values_iff.mpr ⟨key, hrow⟩, hkeyed key row hrow⟩

theorem applyPendingFeeChanges_keyed (hkeyed : Keyed s.feeChanges) :
    Keyed (s.applyPendingFeeChanges ct).feeChanges := by
  intro key row hrow
  rw [find?_applyPendingFeeChanges hkeyed] at hrow
  split at hrow
  · cases hrow
  · exact hkeyed key row hrow

section

variable (hok : s.onBlockUpdates ct = .ok s')
include hok

theorem onBlockUpdates_eq_ok :
    (s.checkDue ct = false ∧ s' = s.applyPendingFeeChanges ct) ∨
      s.checkDue ct = true ∧ ∃ changes,
        s.approvedEntries.foldlM (recordChange ct) (s.applyPendingFeeChanges ct).feeChanges
          = .ok changes ∧
        s' = { s.applyPendingFeeChanges ct with
          feeChanges := changes
          feeProposals := ((s.feeProposals.values.filter (s.deleted ct)).map
            ActionsFeeProposals.owner).foldl erase s.feeProposals
          gstate3 :=
            { commisionLastUpdate := ct
              feeChangesLastUpdate := (s.applyPendingFeeChanges ct).gstate3.feeChangesLastUpdate
              producersCount := s.prodCount } } := by
  rw [onBlockUpdates, updateFeeVoteState, applyPendingFeeChanges_checkDue] at hok
  cases hcheck : s.checkDue ct with
  | false => simp_all
  | true =>
    rw [hcheck, if_pos rfl] at hok
    obtain ⟨u, hu, hok⟩ := bind_ok_iff.mp hok
    obtain ⟨changes, hchanges, hu⟩ := bind_ok_iff.mp hu
    rw [applyPendingFeeChanges_approvedEntries] at hchanges
    refine .inr ⟨rfl, changes, hchanges, ?_⟩
    rw [← pure_ok_iff.mp hok, ← pure_ok_iff.mp hu]
    simp only [applyPendingFeeChanges_deleted, applyPendingFeeChanges_feeProposals,
      applyPendingFeeChanges_prodCount]

theorem onBlockUpdates_producers : s'.producers = s.producers := by
  rcases onBlockUpdates_eq_ok hok with ⟨-, hs'⟩ | ⟨-, changes, -, hs'⟩
  · simp_all
  · simp_all

theorem find?_of_onBlockUpdates {owner : Name} (hprop : s'.feeProposals.find? owner = some prop) :
    s.feeProposals.find? owner = some prop := by
  rcases onBlockUpdates_eq_ok hok with ⟨-, hs'⟩ | ⟨-, changes, -, hs'⟩
  · simp_all
  · subst hs'
    exact (find?_foldl_erase_eq_some.mp hprop).2

theorem onBlockUpdates_commisionLastUpdate :
    s'.gstate3.commisionLastUpdate =
      if s.checkDue ct then ct else s.gstate3.commisionLastUpdate := by
  rcases onBlockUpdates_eq_ok hok with ⟨hcheck, rfl⟩ | ⟨hcheck, changes, -, rfl⟩
  · simp_all
  · rw [if_pos hcheck]

theorem onBlockUpdates_feeChangesLastUpdate :
    s'.gstate3.feeChangesLastUpdate =
      if s.applyDue ct then ct else s.gstate3.feeChangesLastUpdate := by
  rcases onBlockUpdates_eq_ok hok with ⟨-, rfl⟩ | ⟨-, changes, -, rfl⟩
  · exact applyPendingFeeChanges_feeChangesLastUpdate
  · exact applyPendingFeeChanges_feeChangesLastUpdate

end

theorem onBlockUpdates_keyed (hkeyed : Keyed s.feeChanges) (hok : s.onBlockUpdates ct = .ok s') :
    Keyed s'.feeChanges := by
  rcases onBlockUpdates_eq_ok hok with ⟨-, rfl⟩ | ⟨-, changes, hchanges, rfl⟩
  · exact applyPendingFeeChanges_keyed hkeyed
  · apply foldlM_invariant hchanges (applyPendingFeeChanges_keyed hkeyed)
    intro entry _ changes changes' hkeyed hrecord
    exact recordChange_keyed hkeyed hrecord

theorem perform_of_ne_onblock {action : ContractAction} (hne : action ≠ .onblock)
    (hok : s.perform ct action = .ok s') :
    s'.feeChanges = s.feeChanges ∧ s'.gstate3 = s.gstate3 := by
  cases action with
  | regproducer producer => exact pure_ok_iff.mp hok ▸ ⟨rfl, rfl⟩
  | unregprod producer => exact unregprod_eq_ok hok ▸ ⟨rfl, rfl⟩
  | propactfee producer propFees =>
    obtain ⟨-, proposal, -, -, -, -, rfl⟩ := propactfee_eq_ok hok
    exact ⟨rfl, rfl⟩
  | votefeeprop producer prodSuggestion accept =>
    obtain ⟨-, info, info', -, -, -, -, -, -, rfl⟩ := votefeeprop_eq_ok hok
    exact ⟨rfl, rfl⟩
  | onblock => exact absurd rfl hne
  | other => exact pure_ok_iff.mp hok ▸ ⟨rfl, rfl⟩

/-- Only a proposal and a vote write a row of the proposals, and no producer's row is erased. -/
theorem perform_keeps {action : ContractAction} (hok : s.perform ct action = .ok s')
    (hpropose : ∀ producer propFees, action ≠ .propactfee producer propFees)
    (hvote : ∀ producer owner accept, action ≠ .votefeeprop producer owner accept) :
    (∀ owner prop, s'.feeProposals.find? owner = some prop →
        s.feeProposals.find? owner = some prop) ∧ ∀ p ∈ s.producers.keys, p ∈ s'.producers.keys := by
  cases action with
  | regproducer producer =>
    cases hok
    exact ⟨fun _ _ h => h, fun p hp => mem_keys_insert.mpr (.inr hp)⟩
  | unregprod producer =>
    rw [unregprod_eq_ok hok]
    exact ⟨fun _ _ h => h, fun p hp => mem_keys_insert.mpr (.inr hp)⟩
  | propactfee producer propFees => exact absurd rfl (hpropose producer propFees)
  | votefeeprop producer owner accept => exact absurd rfl (hvote producer owner accept)
  | onblock =>
    exact ⟨fun _ _ => find?_of_onBlockUpdates hok, onBlockUpdates_producers hok ▸ fun _ h => h⟩
  | other =>
    cases hok
    exact ⟨fun _ _ h => h, fun _ h => h⟩

theorem step_eq_ok {i : ContractInput} (hok : s.step i = .ok s') :
    s.now ≤ i.time ∧ ∃ u, s.perform i.time i.action = .ok u ∧ s' = { u with now := i.time } := by
  obtain ⟨_, hnow, hok⟩ := bind_ok_iff.mp hok
  obtain ⟨u, hu, hok⟩ := bind_ok_iff.mp hok
  exact ⟨dcdAssert_ok_iff.mp hnow, u, hu, (pure_ok_iff.mp hok).symm⟩

end DcdProtocol.System.SystemContract
