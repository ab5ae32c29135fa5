import DcdProtocol.System.CommissionSteps

/-!
# Which fees are applied

A fee that `apply_pending_fee_changes` sends should be one that a proposal listed for that account
and action, and that more than three quarters of the producers approved.

The votes are read off the history of a run (`approvers`), and the counter in the row of a proposal
agrees with them (`Counted`).  A pending change is stored under the sum of the names of its account
and action.  As long as the pairs that meet in one run of the check have different sums
(`KeysApart`), every pending change is an approved entry (`Pending`).  Two pairs with the same sum
share a row: it keeps the names of the first and takes the fee of the second.
-/

namespace DcdProtocol.System

open Library Chain List FlatMap

/-! ## Votes -/

/-- The producers who approve the proposal of `owner`, after one more action: a new proposal has
the vote of its author only. -/
def approversAfter (owner : Name) (approving : Finset Name) (t : ContractTransition) :
    Finset Name :=
  match t.label.action with
  | .propactfee producer _ => if producer = owner then {producer} else approving
  | .votefeeprop producer prodSuggestion accept =>
    if prodSuggestion = owner ∧ accept > 0 then insert producer approving else approving
  | _ => approving

/-- The producers who approve the proposal of `owner`, by the actions taken so far. -/
def approvers (owner : Name) (ts : List ContractTransition) : Finset Name :=
  ts.foldl (approversAfter owner) ∅

theorem approvers_snoc (owner : Name) (ts : List ContractTransition) (t : ContractTransition) :
    approvers owner (ts ++ [t]) = approversAfter owner (approvers owner ts) t := by
  rw [approvers, foldl_append]
  rfl

/-- The transition runs `check_action_proposal_table`. -/
def RunsCheck (t : ContractTransition) : Prop :=
  t.label.action = .onblock ∧ t.before.checkDue t.label.time = true

/-- After the actions `pre`, the check run by `t` approves an entry: a proposal lists it that more
than three quarters of the producers approve. -/
def Approves (pre : List ContractTransition) (t : ContractTransition) (entry : ActionFeeProp) :
    Prop :=
  RunsCheck t ∧ ∃ prop ∈ t.before.feeProposals.values, entry ∈ prop.feePropList ∧
    (∀ p ∈ approvers prop.owner pre, p ∈ t.before.producers.keys) ∧
    3 * t.before.producers.keys.length < 4 * (approvers prop.owner pre).card

/-- An earlier run of the check approved the entry. -/
def WasApproved (ts : List ContractTransition) (entry : ActionFeeProp) : Prop :=
  ∃ pre t post, ts = pre ++ t :: post ∧ Approves pre t entry

theorem WasApproved.snoc {ts : List ContractTransition} {entry : ActionFeeProp}
    (happroved : WasApproved ts entry) (t : ContractTransition) :
    WasApproved (ts ++ [t]) entry := by
  obtain ⟨pre, u, post, rfl, happroves⟩ := happroved
  exact ⟨pre, u, post ++ [t], by simp, happroves⟩

namespace SystemContract

variable {s s' : SystemContract} {ts : List ContractTransition} {i : ContractInput}

/-! ## The counters of the proposals -/

/-- The row of a proposal agrees with the votes, and only producers have voted. -/
structure CountedBy (s : SystemContract) (owner : Name) (approving : Finset Name)
    (prop : ActionsFeeProposals) : Prop where
  owner_eq : prop.owner = owner
  votedApprove : prop.votedApprove = approving.card
  approving_voted : approving ⊆ prop.voted
  voted_producers : ∀ p ∈ prop.voted, p ∈ s.producers.keys

def Counted (ts : List ContractTransition) (s : SystemContract) : Prop :=
  ∀ owner prop, s.feeProposals.find? owner = some prop →
    s.CountedBy owner (approvers owner ts) prop

theorem Counted.of_subset {l : ContractInput} (hcounted : Counted ts s)
    (hproposals : ∀ owner prop, s'.feeProposals.find? owner = some prop →
      s.feeProposals.find? owner = some prop)
    (hproducers : ∀ p ∈ s.producers.keys, p ∈ s'.producers.keys)
    (hsame : ∀ owner approving, approversAfter owner approving ⟨s, l, s'⟩ = approving) :
    Counted (ts ++ [⟨s, l, s'⟩]) s' := by
  intro owner prop hprop
  obtain ⟨howner, happrove, hvoted, hkeys⟩ := hcounted owner prop (hproposals owner prop hprop)
  rw [approvers_snoc, hsame]
  exact ⟨howner, happrove, hvoted, fun p hp => hproducers p (hkeys p hp)⟩

variable {p : ActionFeeProp} {prop : ActionsFeeProposals} {ct : ℕ} {good : ActionFeeProp → Prop}
  {t₀ : BlockTimestamp} {u : SystemContract}

theorem counted_propactfee {producer : Name} {propFees : List ActionFeeProp}
    (hcounted : Counted ts s) (haction : i.action = .propactfee producer propFees)
    (hok : s.propactfee ct producer propFees = .ok u)
    (hproposals : s'.feeProposals = u.feeProposals)
    (hproducers : s'.producers = u.producers) : Counted (ts ++ [⟨s, i, s'⟩]) s' := by
  obtain ⟨hkey, proposal, howner, hone, -, hvoted, rfl⟩ := propactfee_eq_ok hok
  intro owner prop hprop
  rw [approvers_snoc, approversAfter, haction]
  rw [hproposals, find?_insert] at hprop
  dsimp only
  by_cases heq : owner = producer
  · subst heq
    rw [if_pos rfl, Option.some.injEq] at hprop
    subst hprop
    rw [if_pos rfl]
    refine ⟨howner, by rw [hone, Finset.card_singleton], hvoted ▸ subset_rfl, ?_⟩
    intro p hp
    rw [hvoted, Finset.mem_singleton] at hp
    rw [hp, hproducers]
    exact hkey
  · rw [if_neg heq] at hprop
    obtain ⟨howner, happrove, hvoted, hkeys⟩ := hcounted owner prop hprop
    rw [if_neg (Ne.symm heq)]
    refine ⟨howner, happrove, hvoted, ?_⟩
    rw [hproducers]
    exact hkeys

theorem counted_votefeeprop {producer prodSuggestion : Name} {accept : UInt32}
    (hcounted : Counted ts s) (haction : i.action = .votefeeprop producer prodSuggestion accept)
    (hok : s.votefeeprop producer prodSuggestion accept = .ok u)
    (hproposals : s'.feeProposals = u.feeProposals) (hproducers : s'.producers = u.producers) :
    Counted (ts ++ [⟨s, i, s'⟩]) s' := by
  obtain ⟨hkey, info, info', hinfo, hnew, howner', happrove', -, hvoted', rfl⟩ :=
    votefeeprop_eq_ok hok
  intro owner prop hprop
  rw [approvers_snoc, approversAfter, haction]
  rw [hproposals, find?_insert] at hprop
  dsimp only
  by_cases heq : owner = prodSuggestion
  · subst heq
    rw [if_pos rfl, Option.some.injEq] at hprop
    subst hprop
    obtain ⟨howner, happrove, hvoted, hkeys⟩ := hcounted owner info hinfo
    -- the vote is counted once: who has approved has voted, and the voter has not
    refine ⟨howner'.trans howner, ?_, ?_, ?_⟩
    · grind
    · grind
    · grind
  · rw [if_neg heq] at hprop
    obtain ⟨howner, happrove, hvoted, hkeys⟩ := hcounted owner prop hprop
    rw [if_neg fun h => heq h.1.symm]
    refine ⟨howner, happrove, hvoted, ?_⟩
    rw [hproducers]
    exact hkeys

theorem counted_step (hcounted : Counted ts s) (hstep : s.step i = .ok s') :
    Counted (ts ++ [⟨s, i, s'⟩]) s' := by
  obtain ⟨-, u, hperform, hs'⟩ := step_eq_ok hstep
  have hproposals : s'.feeProposals = u.feeProposals := by rw [hs']
  have hproducers : s'.producers = u.producers := by rw [hs']
  cases haction : i.action with
  | propactfee producer propFees =>
    rw [haction, perform] at hperform
    exact counted_propactfee hcounted haction hperform hproposals hproducers
  | votefeeprop producer prodSuggestion accept =>
    rw [haction, perform] at hperform
    exact counted_votefeeprop hcounted haction hperform hproposals hproducers
  | _ =>
    rw [haction] at hperform
    obtain ⟨hkept, hgrown⟩ := perform_keeps hperform (by simp) (by simp)
    rw [← hproposals] at hkept
    rw [← hproducers] at hgrown
    refine hcounted.of_subset hkept hgrown ?_
    intro owner approving
    simp only [approversAfter, haction]

theorem counted_of_run (hrun : ContractRun t₀ ts s) : Counted ts s := by
  apply hrun.invariant
  · intro owner prop hprop
    cases hprop
  · intro ts s i s' _ hcounted hstep
    exact counted_step hcounted hstep

/-! ## Pending changes -/

/-- The pairs of account and action whose changes meet in the block at `ct`: those that stay
pending and those approved by the check. -/
def pairsInPlay (s : SystemContract) (ct : ℕ) : List (Name × Name) :=
  (if s.applyDue ct then [] else s.feeChanges.values.map fun c => (c.account, c.action)) ++
    s.approvedEntries.map fun e => (e.2.account, e.2.action)

/-- Different pairs in play have different keys. -/
def KeysApart (s : SystemContract) (ct : ℕ) : Prop :=
  ∀ p ∈ s.pairsInPlay ct, ∀ q ∈ s.pairsInPlay ct, accAct p.1 p.2 = accAct q.1 q.2 → p = q

instance (s : SystemContract) (ct : ℕ) : Decidable (s.KeysApart ct) := by
  unfold KeysApart
  infer_instance

/-- Every row is an entry with property `good`, stored under the key of its pair. -/
def RowsGood (good : ActionFeeProp → Prop) (changes : FlatMap Name PackedFeeChanges) : Prop :=
  ∀ key row, changes.find? key = some row →
    accAct row.account row.action = key ∧ good ⟨row.account, row.action, row.fee⟩

theorem recordChange_rowsGood
    {changes changes' : FlatMap Name PackedFeeChanges} (hrows : RowsGood good changes) (hp : good p)
    (hapart : ∀ row ∈ changes.values, accAct row.account row.action = accAct p.account p.action →
      (row.account, row.action) = (p.account, p.action))
    (hok : recordChange ct changes (prop, p) = .ok changes') : RowsGood good changes' := by
  intro key row hrow
  obtain ⟨new, rfl, hnew⟩ := recordChange_eq_ok hok
  rw [find?_insert] at hrow
  split at hrow
  next heq =>
    rw [Option.some.injEq] at hrow
    subst hrow heq
    rcases hnew with ⟨old, hold, rfl⟩ | ⟨-, rfl⟩
    · obtain ⟨hkey, hgood⟩ := hrows _ old hold
      refine ⟨hkey, ?_⟩
      -- if the fee is that of `p`, so is the pair
      have hpair := hapart old (mem_values_iff.mpr ⟨_, hold⟩) hkey
      rw [Prod.mk.injEq] at hpair
      dsimp only
      split_ifs
      · rw [hpair.1, hpair.2]
        exact hp
      · exact hgood
    · exact ⟨rfl, hp⟩
  next => exact hrows key row hrow

theorem mem_pairsInPlay_of_find? (hkeyed : Keyed s.feeChanges) {key : Name} {row : PackedFeeChanges}
    (hrow : (s.applyPendingFeeChanges ct).feeChanges.find? key = some row) :
    (row.account, row.action) ∈ s.pairsInPlay ct := by
  rw [find?_applyPendingFeeChanges hkeyed] at hrow
  split at hrow
  next => cases hrow
  next hdue =>
    rw [pairsInPlay, if_neg hdue, mem_append, mem_map]
    exact .inl ⟨row, mem_values_iff.mpr ⟨key, hrow⟩, rfl⟩

/-- If the keys in play are apart, the rows after `onblock` are good when the rows before it and
the entries it approves are. -/
theorem onBlockUpdates_rowsGood (hkeyed : Keyed s.feeChanges) (hrows : RowsGood good s.feeChanges)
    (hentries : s.checkDue ct = true → ∀ prop p, (prop, p) ∈ s.approvedEntries → good p)
    (hapart : s.checkDue ct = true → s.KeysApart ct) (hok : s.onBlockUpdates ct = .ok s') :
    RowsGood good s'.feeChanges := by
  have hpending : RowsGood good (s.applyPendingFeeChanges ct).feeChanges := by
    intro key row hrow
    rw [find?_applyPendingFeeChanges hkeyed] at hrow
    split at hrow
    next => cases hrow
    next => exact hrows key row hrow
  rcases onBlockUpdates_eq_ok hok with ⟨-, rfl⟩ | ⟨hdue, changes, hchanges, rfl⟩
  · exact hpending
  -- along the loop every pair with a row is in play
  suffices hloop : RowsGood (fun e => good e ∧ (e.account, e.action) ∈ s.pairsInPlay ct) changes by
    intro key row hrow
    exact ⟨(hloop key row hrow).1, (hloop key row hrow).2.1⟩
  refine foldlM_invariant hchanges ?_ ?_
  · intro key row hrow
    obtain ⟨hkey, hgood⟩ := hpending key row hrow
    exact ⟨hkey, hgood, mem_pairsInPlay_of_find? hkeyed hrow⟩
  rintro ⟨prop, p⟩ hp changes changes' hrows hrecord
  have hplay : (p.account, p.action) ∈ s.pairsInPlay ct :=
    mem_append_right _ (mem_map_of_mem hp)
  refine recordChange_rowsGood hrows ⟨hentries hdue prop p hp, hplay⟩ ?_ hrecord
  intro row hrow hkey
  obtain ⟨key, hrow⟩ := mem_values_iff.mp hrow
  exact hapart hdue _ (hrows key row hrow).2.2 _ hplay hkey

/-- The pending changes are entries that were approved. -/
structure Pending (ts : List ContractTransition) (s : SystemContract) : Prop where
  keyed : Keyed s.feeChanges
  approved : RowsGood (WasApproved ts) s.feeChanges

theorem approves_of_mem_approvedEntries (hcounted : Counted ts s) (haction : i.action = .onblock)
    (hdue : s.checkDue i.time = true) (hp : (prop, p) ∈ s.approvedEntries) :
    Approves ts ⟨s, i, s'⟩ p := by
  obtain ⟨hprop, happroved, hlisted⟩ := mem_approvedEntries.mp hp
  obtain ⟨owner, howner⟩ := mem_values_iff.mp hprop
  obtain ⟨rfl, hvotes, hvoted, hproducers⟩ := hcounted owner prop howner
  refine ⟨⟨haction, hdue⟩, prop, hprop, hlisted, fun q hq => hproducers q (hvoted hq), ?_⟩
  have hquorum := three_mul_prodCount_lt happroved
  rw [hvotes, prodCount] at hquorum
  rwa [FlatMap.keys, length_map]

theorem pending_step (hcounted : Counted ts s) (hpending : Pending ts s) (hstep : s.step i = .ok s')
    (hapart : RunsCheck ⟨s, i, s'⟩ → s.KeysApart i.time) : Pending (ts ++ [⟨s, i, s'⟩]) s' := by
  obtain ⟨-, u, hperform, hs'⟩ := step_eq_ok hstep
  have hchanges : s'.feeChanges = u.feeChanges := by rw [hs']
  have hrows : RowsGood (WasApproved (ts ++ [⟨s, i, s'⟩])) s.feeChanges := by
    intro key row hrow
    obtain ⟨hkey, happroved⟩ := hpending.approved key row hrow
    exact ⟨hkey, happroved.snoc _⟩
  by_cases haction : i.action = .onblock
  · rw [haction, perform] at hperform
    constructor
    · rw [hchanges]
      exact onBlockUpdates_keyed hpending.keyed hperform
    rw [hchanges]
    refine onBlockUpdates_rowsGood hpending.keyed hrows ?_ ?_ hperform
    · intro hdue prop p hp
      exact ⟨ts, _, [], rfl, approves_of_mem_approvedEntries hcounted haction hdue hp⟩
    · intro hdue
      exact hapart ⟨haction, hdue⟩
  · have hsame := (perform_of_ne_onblock haction hperform).1
    rw [← hsame, ← hchanges] at hrows
    refine ⟨?_, hrows⟩
    rw [hchanges, hsame]
    exact hpending.keyed

theorem pending_of_run (hrun : ContractRun t₀ ts s)
    (hapart : ∀ t ∈ ts, RunsCheck t → t.before.KeysApart t.label.time) : Pending ts s := by
  apply hrun.invariant_of_forall hapart
  · constructor
    · intro key row hrow
      cases hrow
    · intro key row hrow
      cases hrow
  · intro ts s i s' hrun hpending hstep hkeys
    exact pending_step (counted_of_run hrun) hpending hstep hkeys

/-- Only approved fees are applied, in every run in which no two pairs of account and action that
meet in a run of the check have the same key. -/
theorem appliedFee_was_approved {t₀ : BlockTimestamp} (hrun : ContractRun t₀ ts s)
    (hapart : ∀ t ∈ ts, RunsCheck t → t.before.KeysApart t.label.time) {ct : ℕ} {c : FeeChanges}
    (hc : c ∈ s.appliedChanges ct) : WasApproved ts ⟨c.account, c.action, c.fee⟩ := by
  obtain ⟨-, key, row, hrow, rfl⟩ := exists_of_mem_appliedChanges hc
  exact ((pending_of_run hrun hapart).approved key row hrow).2

/-! ### Two producers -/

def alice : Name := .ofChars ['a', 'l', 'i', 'c', 'e']

def bob : Name := .ofChars ['b', 'o', 'b']

/-- An action in the block with the given slot. -/
def atSlot (slot : UInt32) (action : ContractAction) : ContractInput := ⟨⟨slot⟩, action⟩

def registered : List ContractInput :=
  [atSlot 0 (.regproducer alice), atSlot 0 (.regproducer bob)]

def dcdToken : Name := .ofChars ['d', 'c', 'd', '.', 't', 'o', 'k', 'e', 'n']

def transfer : Name := .ofChars ['t', 'r', 'a', 'n', 's', 'f', 'e', 'r']

/-- A fee for the transfers of the token contract. -/
def transferFee : ActionFeeProp := ⟨dcdToken, transfer, ⟨10000, 0x44434404⟩⟩

/-- Another fee, for the pair with the two names exchanged. -/
def exchangedFee : ActionFeeProp := ⟨transfer, dcdToken, ⟨20000, 0x44434404⟩⟩

/-- The proposal of `alice` for the transfers is approved, and the change is pending after 300
seconds. -/
def transferApproved : List ContractInput :=
  registered ++
    [atSlot 2 (.propactfee alice [transferFee]), atSlot 4 (.votefeeprop bob alice 1),
      atSlot 600 .onblock]

theorem appliedFee_was_approved_transfer :
    ∃ ts s, ContractRun ⟨0⟩ ts s ∧
      ∃ c ∈ s.appliedChanges (BlockTimestamp.mk 1800).toTimePoint,
        (⟨c.account, c.action, c.fee⟩ : ActionFeeProp) = transferFee ∧
          WasApproved ts transferFee := by
  obtain ⟨ts, s, hrun, hend⟩ := exists_run_of_exec step (.initial ⟨0⟩) transferApproved
    (fun ts s => (s.appliedChanges (BlockTimestamp.mk 1800).toTimePoint).any
        (fun c => decide ((⟨c.account, c.action, c.fee⟩ : ActionFeeProp) = transferFee)) &&
      ts.all fun t => decide (t.before.KeysApart t.label.time)) (by decide +kernel)
  simp only [Bool.and_eq_true, any_eq_true, all_eq_true, decide_eq_true_eq] at hend
  obtain ⟨⟨c, hc, heq⟩, hapart⟩ := hend
  refine ⟨ts, s, hrun, c, hc, heq, ?_⟩
  rw [← heq]
  exact appliedFee_was_approved hrun (fun t ht _ => hapart t ht) hc

/-- The proposals of `alice` and of `bob` are approved by both.  The fee that `bob` proposed for the
exchanged pair is sent for the pair of `alice`; no proposal listed it. -/
theorem appliedFee_never_proposed :
    ∃ ts s, ContractRun ⟨0⟩ ts s ∧
      ∃ c ∈ s.appliedChanges (BlockTimestamp.mk 1800).toTimePoint,
        ∀ t ∈ ts, ∀ prop ∈ t.before.feeProposals.values,
          (⟨c.account, c.action, c.fee⟩ : ActionFeeProp) ∉ prop.feePropList := by
  obtain ⟨ts, s, hrun, hend⟩ := exists_run_of_exec step (.initial ⟨0⟩) (registered ++
      [atSlot 2 (.propactfee alice [transferFee]), atSlot 4 (.votefeeprop bob alice 1),
        atSlot 6 (.propactfee bob [exchangedFee]), atSlot 8 (.votefeeprop alice bob 1),
        atSlot 600 .onblock])
    (fun ts s => (s.appliedChanges (BlockTimestamp.mk 1800).toTimePoint).any fun c =>
      ts.all fun t => t.before.feeProposals.values.all fun prop =>
        decide ((⟨c.account, c.action, c.fee⟩ : ActionFeeProp) ∉ prop.feePropList))
    (by decide +kernel)
  simp only [any_eq_true, all_eq_true, decide_eq_true_eq] at hend
  exact ⟨ts, s, hrun, hend⟩

end SystemContract

end DcdProtocol.System
