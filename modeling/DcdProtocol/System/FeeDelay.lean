import DcdProtocol.System.FeeApproval

/-!
# When approved fees are applied

A pending change should be sent no earlier than `fee_approved_application_delay` after the run of
the check that approved it.  The row type does not serialize `to_be_applied_at`, so in a later block
every row is due and the next run of `apply_pending_fee_changes` sends it.

The run that approved a row is read off the history (`approvedAt`).  The jobs have periods of 60 and
300 seconds and run in one order, so a pending change was approved by the latest run of the check,
whose time the contract keeps (`Scheduled`).  So the delay is kept exactly when that run is long
enough ago.
-/

namespace DcdProtocol.System

open Library Chain FlatMap

namespace SystemContract

variable {s s' : SystemContract} {ts : List ContractTransition} {i : ContractInput} {ct : ℕ}
  {key : Name}

/-! ## Seconds -/

theorem toTimePoint_lt (t : BlockTimestamp) : t.toTimePoint / 1000000 < 2 ^ 32 := by
  have hslot := t.slot.toNat_lt
  rw [BlockTimestamp.toTimePoint, blockIntervalMs, blockTimestampEpoch]
  omega

theorem secondsSince_eq {last : ℕ} (hlast : last ≤ ct) (hct : ct / 1000000 < 2 ^ 32) :
    secondsSince ct last = ct / 1000000 - last / 1000000 := by
  have hle : last / 1000000 ≤ ct / 1000000 := Nat.div_le_div_right hlast
  have hsec : ∀ t, t / 1000000 < 2 ^ 32 → (secSinceEpoch t).toNat = t / 1000000 := by
    intro t ht
    exact UInt32.toNat_ofNat_of_lt' ht
  rw [secondsSince, toNat_sub_of_toNat_le, hsec ct hct, hsec last (hle.trans_lt hct)]
  rw [hsec ct hct, hsec last (hle.trans_lt hct)]
  exact hle

/-! ## The run of the check that approved a change -/

/-- The time at which the pending change with a key was last approved, after one more action. -/
def approvedAtAfter (key : Name) (last : Option ℕ) (t : ContractTransition) : Option ℕ :=
  match t.label.action with
  | .onblock =>
    let ct := t.label.time
    if t.before.checkDue ct = true ∧ key ∈ t.before.approvedEntries.map entryKey then some ct
    else if key ∈ (t.before.appliedChanges ct).map FeeChanges.accountAction then none
    else last
  | _ => last

/-- The time of the run of the check that last approved the pending change with the key. -/
def approvedAt (key : Name) (ts : List ContractTransition) : Option ℕ :=
  ts.foldl (approvedAtAfter key) none

theorem approvedAt_snoc (key : Name) (ts : List ContractTransition) (t : ContractTransition) :
    approvedAt key (ts ++ [t]) = approvedAtAfter key (approvedAt key ts) t := by
  rw [approvedAt, List.foldl_append]
  rfl

/-- The key is that of an entry the check records in this block, or of a change that stays
pending. -/
theorem mem_keys_of_onBlockUpdates (hkeyed : Keyed s.feeChanges)
    (hok : s.onBlockUpdates ct = .ok s') (hkey : key ∈ s'.feeChanges.keys) :
    (s.checkDue ct = true ∧ key ∈ s.approvedEntries.map entryKey) ∨
      (s.applyDue ct = false ∧ key ∈ s.feeChanges.keys) := by
  have hpending : ∀ key ∈ (s.applyPendingFeeChanges ct).feeChanges.keys,
      s.applyDue ct = false ∧ key ∈ s.feeChanges.keys := by
    intro key hkey
    obtain ⟨row, hrow⟩ := mem_keys_iff.mp hkey
    rw [find?_applyPendingFeeChanges hkeyed] at hrow
    split at hrow
    next => cases hrow
    next hdue => exact ⟨Bool.eq_false_iff.mpr hdue, mem_keys_iff.mpr ⟨row, hrow⟩⟩
  rcases onBlockUpdates_eq_ok hok with ⟨-, rfl⟩ | ⟨hdue, changes, hchanges, rfl⟩
  · exact .inr (hpending key hkey)
  have hloop := foldlM_invariant (I := fun changes => ∀ key ∈ changes.keys,
    key ∈ s.approvedEntries.map entryKey ∨ s.applyDue ct = false ∧ key ∈ s.feeChanges.keys)
    hchanges (fun key hkey => .inr (hpending key hkey)) (by
      intro entry hentry changes changes' hchanges hrecord key hkey
      rcases recordChange_keys hrecord hkey with rfl | hkey
      · grind
      · exact hchanges key hkey)
  rcases hloop key hkey with hentry | hold
  · exact .inl ⟨hdue, hentry⟩
  · exact .inr hold

/-! ## The schedule of the jobs -/

/-- The times of the jobs, and that the pending changes were approved by the latest run of the
check. -/
structure Scheduled (ts : List ContractTransition) (s : SystemContract) : Prop where
  keyed : Keyed s.feeChanges
  commision_le : s.gstate3.commisionLastUpdate ≤ s.now
  feeChanges_le : s.gstate3.feeChangesLastUpdate ≤ s.now
  /-- Once the changes have been applied after the check, none is pending. -/
  applied : s.gstate3.commisionLastUpdate < s.gstate3.feeChangesLastUpdate → s.feeChanges.keys = []
  approved : ∀ key ∈ s.feeChanges.keys, approvedAt key ts = some s.gstate3.commisionLastUpdate

theorem Scheduled.applyDue_of_checkDue (hs : Scheduled ts s) (hnow : s.now ≤ ct)
    (hct : ct / 1000000 < 2 ^ 32) (hcheck : s.checkDue ct = true)
    (hkey : key ∈ s.feeChanges.keys) : s.applyDue ct = true := by
  have hcommision := hs.commision_le.trans hnow
  have hchanges := hs.feeChanges_le.trans hnow
  rw [checkDue, decide_eq_true_eq, secondsSince_eq hcommision hct] at hcheck
  rw [applyDue, decide_eq_true_eq, secondsSince_eq hchanges hct]
  by_contra hdue
  -- the changes were applied less than a minute ago, and the check is older than that
  have hlt : s.gstate3.commisionLastUpdate < s.gstate3.feeChangesLastUpdate := by
    rw [proposedFeeUpdatePeriodSeconds] at hcheck
    rw [appliedFeesUpdatePeriodSeconds] at hdue
    omega
  rw [hs.applied hlt] at hkey
  cases hkey

theorem scheduled_onblock {u : SystemContract} (hs : Scheduled ts s) (hnow : s.now ≤ i.time)
    (haction : i.action = .onblock) (hok : s.onBlockUpdates i.time = .ok u) :
    Scheduled (ts ++ [⟨s, i, s'⟩]) { u with now := i.time } := by
  have hct : i.time / 1000000 < 2 ^ 32 := toTimePoint_lt i.timestamp
  have hcommision := onBlockUpdates_commisionLastUpdate hok
  have happlied := onBlockUpdates_feeChangesLastUpdate hok
  -- a change that stays pending does so in a block without a check
  have hkeys : ∀ key ∈ u.feeChanges.keys,
      (s.checkDue i.time = true ∧ key ∈ s.approvedEntries.map entryKey) ∨
        s.checkDue i.time = false ∧ s.applyDue i.time = false ∧ key ∈ s.feeChanges.keys := by
    intro key hkey
    rcases mem_keys_of_onBlockUpdates hs.keyed hok hkey with hentry | ⟨hdue, hold⟩
    · exact .inl hentry
    refine .inr ⟨?_, hdue, hold⟩
    by_contra hcheck
    rw [Bool.not_eq_false] at hcheck
    rw [hs.applyDue_of_checkDue hnow hct hcheck hold] at hdue
    cases hdue
  have hkeyed := onBlockUpdates_keyed hs.keyed hok
  refine ⟨hkeyed, hcommision.trans_le ?_, happlied.trans_le ?_, ?_, ?_⟩
  · split
    · exact le_rfl
    · exact hs.commision_le.trans hnow
  · split
    · exact le_rfl
    · exact hs.feeChanges_le.trans hnow
  · intro hlt
    dsimp only at hlt
    rw [List.eq_nil_iff_forall_not_mem]
    intro key hkey
    rcases hkeys key hkey with ⟨hcheck, -⟩ | ⟨hcheck, hdue, hold⟩
    · rw [hcommision, if_pos hcheck, happlied] at hlt
      split at hlt
      · exact absurd hlt (lt_irrefl _)
      · exact absurd hlt (hs.feeChanges_le.trans hnow).not_gt
    · rw [hcommision, hcheck, happlied, hdue] at hlt
      rw [hs.applied hlt] at hold
      cases hold
  · intro key hkey
    rw [approvedAt_snoc, approvedAtAfter, haction]
    dsimp only
    rcases hkeys key hkey with ⟨hcheck, hentry⟩ | ⟨hcheck, hdue, hold⟩
    · simp_all
    · rw [if_neg fun h => Bool.eq_false_iff.mp hcheck h.1, hcommision, hcheck, appliedChanges, hdue]
      exact hs.approved key hold

theorem scheduled_step (hs : Scheduled ts s) (hstep : s.step i = .ok s') :
    Scheduled (ts ++ [⟨s, i, s'⟩]) s' := by
  obtain ⟨hnow, u, hperform, rfl⟩ := step_eq_ok hstep
  by_cases haction : i.action = .onblock
  · rw [haction, perform] at hperform
    exact scheduled_onblock hs hnow haction hperform
  obtain ⟨hsame, hsame3⟩ := perform_of_ne_onblock haction hperform
  obtain ⟨hkeyed, hcommision, hchanges, happlied, happroved⟩ := hs
  rw [← hsame] at hkeyed happlied happroved
  rw [← hsame3] at hcommision hchanges happlied happroved
  refine ⟨hkeyed, hcommision.trans hnow, hchanges.trans hnow, happlied, fun key hkey => ?_⟩
  rw [approvedAt_snoc, approvedAtAfter]
  split
  next heq => exact absurd heq haction
  next => exact happroved key hkey

theorem scheduled_of_run {t₀ : BlockTimestamp} (hrun : ContractRun t₀ ts s) : Scheduled ts s := by
  apply hrun.invariant
  · refine ⟨?_, le_rfl, le_rfl, fun _ => rfl, ?_⟩
    · intro key row hrow
      cases hrow
    · intro key hkey
      cases hkey
  · intro ts s i s' _ hs hstep
    exact scheduled_step hs hstep

/-- `fee_approved_application_delay` in microseconds. -/
def applicationDelay : ℕ := feeApprovedApplicationDelay * 1000000

/-- The change was approved, and its delay is over. -/
def WaitedOut (ts : List ContractTransition) (ct : ℕ) (c : FeeChanges) : Prop :=
  ∃ T, approvedAt c.accountAction ts = some T ∧ T + applicationDelay ≤ ct

/-- The changes that are sent have waited out their delay exactly if the latest run of the check is
that long ago. -/
theorem appliedChanges_waitedOut_iff {t₀ : BlockTimestamp} (hrun : ContractRun t₀ ts s) (ct : ℕ) :
    (∀ c ∈ s.appliedChanges ct, WaitedOut ts ct c) ↔
      (s.applyDue ct = true → s.feeChanges.keys ≠ [] →
        s.gstate3.commisionLastUpdate + applicationDelay ≤ ct) := by
  have hs := scheduled_of_run hrun
  have happroved : ∀ c ∈ s.appliedChanges ct,
      approvedAt c.accountAction ts = some s.gstate3.commisionLastUpdate := by
    intro c hc
    obtain ⟨-, key, row, hrow, rfl⟩ := exists_of_mem_appliedChanges hc
    show approvedAt row.accountAction ts = _
    rw [hs.keyed key row hrow]
    exact hs.approved key (mem_keys_iff.mpr ⟨row, hrow⟩)
  constructor
  · intro hwaited hdue hkeys
    obtain ⟨key, hkey⟩ := List.exists_mem_of_ne_nil _ hkeys
    obtain ⟨row, hrow⟩ := mem_keys_iff.mp hkey
    have hc : row.unpack ∈ s.appliedChanges ct := by
      rw [appliedChanges_of_applyDue hdue]
      exact List.mem_map_of_mem (mem_values_iff.mpr ⟨key, hrow⟩)
    obtain ⟨T, hT, hle⟩ := hwaited _ hc
    rw [happroved _ hc, Option.some.injEq] at hT
    rwa [hT]
  · intro hlate c hc
    obtain ⟨hdue, key, row, hrow, -⟩ := exists_of_mem_appliedChanges hc
    refine ⟨_, happroved c hc, hlate hdue ?_⟩
    exact List.ne_nil_of_mem (mem_keys_iff.mpr ⟨row, hrow⟩)

/-- With no block between the approval and twenty minutes later, the delay is kept. -/
theorem appliedChanges_waitedOut_transfer :
    ∃ ts s, ContractRun ⟨0⟩ ts s ∧
      s.appliedChanges (BlockTimestamp.mk 3000).toTimePoint ≠ [] ∧
      ∀ c ∈ s.appliedChanges (BlockTimestamp.mk 3000).toTimePoint,
        WaitedOut ts (BlockTimestamp.mk 3000).toTimePoint c := by
  obtain ⟨ts, s, hrun, hend⟩ := exists_run_of_exec step (.initial ⟨0⟩) transferApproved
    (fun _ s => !(s.appliedChanges (BlockTimestamp.mk 3000).toTimePoint).isEmpty &&
      decide (s.gstate3.commisionLastUpdate + applicationDelay ≤
        (BlockTimestamp.mk 3000).toTimePoint)) (by decide +kernel)
  rw [Bool.and_eq_true, Bool.not_eq_true', List.isEmpty_eq_false_iff, decide_eq_true_eq] at hend
  exact ⟨ts, s, hrun, hend.1, (appliedChanges_waitedOut_iff hrun _).mpr fun _ _ => hend.2⟩

/-- A change that is approved in one block is sent 60 seconds later. -/
theorem appliedChanges_sent_early :
    ∃ ts s, ContractRun ⟨0⟩ ts s ∧
      ∃ c ∈ s.appliedChanges (BlockTimestamp.mk 720).toTimePoint,
        approvedAt c.accountAction ts = some (BlockTimestamp.mk 600).toTimePoint ∧
        ¬WaitedOut ts (BlockTimestamp.mk 720).toTimePoint c := by
  obtain ⟨ts, s, hrun, hend⟩ := exists_run_of_exec step (.initial ⟨0⟩) transferApproved
    (fun ts s => (s.appliedChanges (BlockTimestamp.mk 720).toTimePoint).any fun c =>
      decide (approvedAt c.accountAction ts = some (BlockTimestamp.mk 600).toTimePoint))
    (by decide +kernel)
  simp only [List.any_eq_true, decide_eq_true_eq] at hend
  obtain ⟨c, hc, happroved⟩ := hend
  refine ⟨ts, s, hrun, c, hc, happroved, ?_⟩
  rintro ⟨T, hT, hle⟩
  rw [happroved, Option.some.injEq] at hT
  subst hT
  exact absurd hle (by decide)

end SystemContract

end DcdProtocol.System
