import DcdProtocol.System.FeeApproval

/-!
# How a fee proposal ends

`check_action_proposal_table` should take a proposal out of the table before it expires only if
more than three quarters of the producers approved it, or some producer and at least a fifth of
them disapproved it, and not for both reasons at once; when it has expired, it should take it out.

The number of disapprovals that rejects is a fifth of the producers, rounded down.  With fewer than
five producers it is zero.
-/

namespace DcdProtocol.System

open Library Chain List FlatMap

/-- The votes against the proposal of `owner`, after one more action. -/
def disapprovalsAfter (owner : Name) (n : ℕ) (t : ContractTransition) : ℕ :=
  match t.label.action with
  | .propactfee producer _ => if producer = owner then 0 else n
  | .votefeeprop _ prodSuggestion accept =>
    if prodSuggestion = owner then n + if accept > 0 then 0 else 1 else n
  | _ => n

/-- The votes against the proposal of `owner`, by the actions taken so far. -/
def disapprovals (owner : Name) (ts : List ContractTransition) : ℕ :=
  ts.foldl (disapprovalsAfter owner) 0

namespace SystemContract

/-- The check takes the proposal for rejected. -/
def rejected (s : SystemContract) (prop : ActionsFeeProposals) : Bool :=
  decide (s.prodCount ≠ 0) && decide (prop.votedDisapprove ≥ votesToFail s.prodCount)

/-- What the check that `t` runs after the actions `pre` should do with a proposal. -/
structure Decided (pre : List ContractTransition) (t : ContractTransition)
    (prop : ActionsFeeProposals) : Prop where
  early : t.after.feeProposals.find? prop.owner = none → t.label.time < prop.expiresAt →
    3 * t.before.prodCount < 4 * (approvers prop.owner pre).card ∨
      0 < disapprovals prop.owner pre ∧ t.before.prodCount ≤ 5 * disapprovals prop.owner pre
  once : ¬(t.before.approved prop = true ∧ t.before.rejected prop = true)
  expired : prop.expiresAt ≤ t.label.time → t.after.feeProposals.find? prop.owner = none

/-- The rounding of the fifth does not matter: an approved proposal has fewer disapprovals, and
if the proposal has as many, the fifth is exact or the proposal has expired. -/
def FifthIsClear (pre : List ContractTransition) (t : ContractTransition)
    (prop : ActionsFeeProposals) : Prop :=
  (3 * t.before.prodCount < 4 * (approvers prop.owner pre).card →
      disapprovals prop.owner pre < t.before.prodCount / 5) ∧
    (disapprovals prop.owner pre = t.before.prodCount / 5 →
      5 ∣ t.before.prodCount ∨ prop.expiresAt ≤ t.label.time)

instance decidableFifthIsClear (pre : List ContractTransition) (t : ContractTransition)
    (prop : ActionsFeeProposals) : Decidable (FifthIsClear pre t prop) :=
  inferInstanceAs (Decidable (_ ∧ _))

/-- After the actions `pre`, `t` runs the check, on a table with the proposal of `owner`. -/
structure Checks (t₀ : BlockTimestamp) (pre : List ContractTransition) (t : ContractTransition)
    (owner : Name) (prop : ActionsFeeProposals) : Prop where
  run : ContractRun t₀ pre t.before
  step : t.before.step t.label = .ok t.after
  due : RunsCheck t
  row : t.before.feeProposals.find? owner = some prop

variable {s : SystemContract} {ts : List ContractTransition} {t : ContractTransition}
  {prop : ActionsFeeProposals} {owner : Name} {t₀ : BlockTimestamp}

theorem votedDisapprove_of_run (hrun : ContractRun t₀ ts s) :
    ∀ owner prop, s.feeProposals.find? owner = some prop →
      prop.votedDisapprove = disapprovals owner ts := by
  apply hrun.invariant
  · intro owner prop hprop
    cases hprop
  intro ts s i s' _ hs hstep owner prop hprop
  obtain ⟨-, u, hperform, rfl⟩ := step_eq_ok hstep
  rw [disapprovals, foldl_append, foldl_cons, foldl_nil, ← disapprovals]
  cases haction : i.action with
  | propactfee producer propFees =>
    rw [haction] at hperform
    obtain ⟨-, proposal, -, -, hnone, -, rfl⟩ := propactfee_eq_ok hperform
    simp only [find?_insert, disapprovalsAfter, haction] at hprop ⊢
    grind
  | votefeeprop producer prodSuggestion accept =>
    rw [haction] at hperform
    obtain ⟨-, info, info', hinfo, -, -, -, hmore, -, rfl⟩ := votefeeprop_eq_ok hperform
    simp only [find?_insert, disapprovalsAfter, haction] at hprop ⊢
    grind
  | _ =>
    rw [haction] at hperform
    simp only [disapprovalsAfter, haction]
    exact hs owner prop ((perform_keeps hperform (by simp) (by simp)).1 owner prop hprop)

theorem Checks.removed_iff (h : Checks t₀ ts t owner prop) :
    t.after.feeProposals.find? owner = none ↔ t.before.deleted t.label.time prop = true := by
  obtain ⟨-, u, hperform, hafter⟩ := step_eq_ok h.step
  rw [h.due.1] at hperform
  rcases onBlockUpdates_eq_ok hperform with ⟨hnot, -⟩ | ⟨-, changes, -, rfl⟩
  · exact absurd h.due.2 (hnot ▸ Bool.false_ne_true)
  have hrow := h.row
  have howner : ∀ {owner prop}, t.before.feeProposals.find? owner = some prop →
      prop.owner = owner := fun hrow => (counted_of_run h.run _ _ hrow).owner_eq
  rw [hafter, Option.eq_none_iff_forall_ne_some]
  simp only [ne_eq, find?_foldl_erase_eq_some, mem_map, mem_filter, mem_values_iff]
  grind

/-- The check does what it should with a proposal exactly when the rounding does not matter. -/
theorem decided_iff_fifthIsClear (h : Checks t₀ ts t owner prop) :
    Decided ts t prop ↔ FifthIsClear ts t prop := by
  have hremoved := h.removed_iff
  have hagainst := votedDisapprove_of_run h.run owner prop h.row
  obtain ⟨rfl, hfor, hvoted, hproducers⟩ := counted_of_run h.run owner prop h.row
  have hnone : t.before.prodCount = 0 → (approvers prop.owner ts).card = 0 := by
    intro hcount
    rw [Finset.card_eq_zero, Finset.eq_empty_iff_forall_notMem]
    intro p hp
    have hkey := hproducers p (hvoted hp)
    rw [FlatMap.keys, List.length_eq_zero_iff.mp hcount] at hkey
    cases hkey
  have hdeleted : t.before.deleted t.label.time prop = true ↔ t.before.approved prop = true ∨
      t.before.rejected prop = true ∨ prop.expiresAt ≤ t.label.time := by
    simp [deleted, rejected, or_assoc]
  have happroved : t.before.approved prop = true ↔
      3 * t.before.prodCount < 4 * (approvers prop.owner ts).card := by
    simp only [approved, Bool.and_eq_true, decide_eq_true_eq, votesToPass, hfor]
    omega
  have hrejected : t.before.rejected prop = true ↔
      t.before.prodCount ≠ 0 ∧ t.before.prodCount / 5 ≤ disapprovals prop.owner ts := by
    simp [rejected, votesToFail, hagainst]
  rw [FifthIsClear]
  constructor
  · rintro ⟨hearly, honce, -⟩
    rw [hremoved, hdeleted, happroved, hrejected] at hearly
    rw [happroved, hrejected] at honce
    constructor
    · omega
    · omega
  · rintro ⟨hfew, hexact⟩
    refine ⟨?_, ?_, ?_⟩
    · rw [hremoved, hdeleted, happroved, hrejected]
      omega
    · rw [happroved, hrejected]
      omega
    · rw [hremoved, hdeleted]
      exact fun hexpired => .inr (.inr hexpired)

/-! ### Two producers -/

def aliceProposes : List ContractInput :=
  registered ++ [atSlot 2 (.propactfee alice [transferFee])]

/-- The check at slot 600 finds the proposal of `alice`, with the given property. -/
def checkFinds (p : List ContractTransition → ContractTransition → ActionsFeeProposals → Bool)
    (ts : List ContractTransition) (s : SystemContract) : Bool :=
  match s.step (atSlot 600 .onblock) with
  | .ok s' => s.checkDue (atSlot 600 .onblock).time &&
    (s.feeProposals.find? alice).any (p ts ⟨s, atSlot 600 .onblock, s'⟩)
  | .error _ => false

theorem exists_checks {p : List ContractTransition → ContractTransition → ActionsFeeProposals → Bool}
    (hrun : ContractRun ⟨0⟩ ts s) (hfinds : checkFinds p ts s = true) :
    ∃ t prop, Checks ⟨0⟩ ts t alice prop ∧ p ts t prop = true := by
  rw [checkFinds] at hfinds
  split at hfinds
  next s' hstep =>
    simp only [Bool.and_eq_true, Option.any_eq_true] at hfinds
    obtain ⟨hdue, prop, hprop, hp⟩ := hfinds
    exact ⟨⟨s, atSlot 600 .onblock, s'⟩, prop, ⟨hrun, hstep, ⟨rfl, hdue⟩, hprop⟩, hp⟩
  next => cases hfinds

/-- A vote of `bob` against the proposal decides it. -/
theorem decided_iff_fifthIsClear_rejected :
    ∃ ts t prop, Checks ⟨0⟩ ts t alice prop ∧ Decided ts t prop := by
  obtain ⟨ts, s, hrun, hend⟩ := exists_run_of_exec step (.initial ⟨0⟩)
    (aliceProposes ++ [atSlot 4 (.votefeeprop bob alice 0)])
    (checkFinds fun ts t prop => decide (FifthIsClear ts t prop)) (by decide +kernel)
  obtain ⟨t, prop, hchecks, hclear⟩ := exists_checks hrun hend
  exact ⟨ts, t, prop, hchecks, (decided_iff_fifthIsClear hchecks).mpr (of_decide_eq_true hclear)⟩

/-- Without another vote the proposal is removed: a fifth of two producers is rounded to zero. -/
theorem not_decided_undisputed :
    ∃ ts t prop, Checks ⟨0⟩ ts t alice prop ∧ ¬Decided ts t prop := by
  obtain ⟨ts, s, hrun, hend⟩ := exists_run_of_exec step (.initial ⟨0⟩) aliceProposes
    (checkFinds fun ts t prop => (t.after.feeProposals.find? prop.owner).isNone &&
      decide (t.label.time < prop.expiresAt ∧ disapprovals prop.owner ts = 0 ∧
        4 * (approvers prop.owner ts).card ≤ 3 * t.before.prodCount)) (by decide +kernel)
  obtain ⟨t, prop, hchecks, hend⟩ := exists_checks hrun hend
  simp only [Bool.and_eq_true, decide_eq_true_eq, Option.isNone_iff_eq_none] at hend
  refine ⟨ts, t, prop, hchecks, fun hdecided => ?_⟩
  have hreason := hdecided.early hend.1 hend.2.1
  omega

end SystemContract

end DcdProtocol.System
