import DcdProtocol.System.Oracles
import DcdProtocol.System.FeeDelay

/-!
# Whether `onblock` succeeds

`on_block_updates` runs the three jobs of fee governance, and sends `setfee` and `setrate` inline.
If a job or one of the inline actions throws, the transaction of `onblock` is undone as a whole.

The contents of a proposal are stored as they are given.  Two kinds of them throw later: an entry
whose account and action add up to the name 0, which has no payer for its row, and a fee that the
chain does not unpack.  `onblock_succeeds_iff` says that there is no other way to fail.  A block
that fails leaves the row or the proposal in place for the next one.
-/

namespace DcdProtocol.Chain

/-- What `data_as<setfee>` does with the fee. -/
def Asset.unpack (a : Asset) : Except ChainException Unit := do
  dcdAssert (Asset.validSymbol a.symbol = true) .symbolTypeException "invalid symbol: ${name}"
  dcdAssert (a.isAmountWithinRange = true) .assetTypeException
    "magnitude of asset amount must be less than 2^62"

def Asset.IsValid (a : Asset) : Prop :=
  Asset.validSymbol a.symbol = true ∧ a.isAmountWithinRange = true

instance (a : Asset) : Decidable a.IsValid := inferInstanceAs (Decidable (_ ∧ _))

theorem Asset.unpack_eq_ok_iff {a : Asset} : a.unpack = .ok ⟨⟩ ↔ a.IsValid := by
  rw [Asset.unpack, Library.bind_ok_iff]
  simp only [dcdAssert_ok_iff, exists_const, Asset.IsValid]

end DcdProtocol.Chain

namespace DcdProtocol.System

open Library Chain List

inductive InlineAction (R : Type)
  | setfee (account action : Name) (fee : Asset)
  | setrate (newRate : R)

/-- The native handler of an inline action; `set_proposed_rate` refuses a rate without throwing. -/
def InlineAction.apply {R : Type} : InlineAction R → Except ChainException Unit
  | .setfee _ _ fee => fee.unpack
  | .setrate _ => pure ()

structure FeeGovernance (R : Type) where
  contract : SystemContract
  oracles : OracleState R

inductive GovernanceAction (R : Type)
  | contract (action : ContractAction)
  | oracle (action : OracleAction R)

structure GovernanceInput (R : Type) where
  timestamp : BlockTimestamp
  action : GovernanceAction R

namespace FeeGovernance

variable {R : Type} [RateValue R] (mean : R → R → R)

def initial (t₀ : BlockTimestamp) : FeeGovernance R := ⟨.initial t₀, .initial t₀⟩

/-- `on_block_updates`: the new state and the inline actions it sends. -/
def onBlockUpdates (g : FeeGovernance R) (ct : ℕ) :
    Except ChainException (FeeGovernance R × List (InlineAction R)) := do
  let setfees := (g.contract.appliedChanges ct).map fun fa => .setfee fa.account fa.action fa.fee
  let contract := g.contract.applyPendingFeeChanges ct
  let (oracles, rate) := g.oracles.updateOraclesRateState mean ct
  let contract ← contract.updateFeeVoteState ct
  pure (⟨contract, oracles⟩, setfees ++ (rate.map .setrate).toList)

/-- The transaction of `onblock`. -/
def onblock (g : FeeGovernance R) (ct : ℕ) : Except ChainException (FeeGovernance R) := do
  let (g, sent) ← g.onBlockUpdates mean ct
  sent.forM InlineAction.apply
  pure g

def perform (g : FeeGovernance R) (ct : ℕ) :
    GovernanceAction R → Except ChainException (FeeGovernance R)
  | .contract .onblock => g.onblock mean ct
  | .contract action => do
    let contract ← g.contract.perform ct action
    pure { g with contract }
  | .oracle action => do
    let oracles ← g.oracles.perform ct action
    pure { g with oracles }

def step (g : FeeGovernance R) (i : GovernanceInput R) :
    Except ChainException (FeeGovernance R) := do
  dcdAssert (g.contract.now ≤ i.timestamp.toTimePoint) .external
    "the time of a block is not before that of its parent"
  let g ← g.perform mean i.timestamp.toTimePoint i.action
  pure { g with contract := { g.contract with now := i.timestamp.toTimePoint } }

end FeeGovernance

abbrev GovernanceRun {R : Type} [RateValue R] (mean : R → R → R) (t₀ : BlockTimestamp) :=
  Run (fun g i g' => FeeGovernance.step mean g i = .ok g') (.initial t₀)

/-! ## The check -/

namespace SystemContract

variable {s : SystemContract} {ct : ℕ} {changes : FlatMap Name PackedFeeChanges}

theorem recordChange_cases (ct : ℕ)
    (hzero : changes.find? ⟨0⟩ = none) (e : ActionsFeeProposals × ActionFeeProp) :
    (entryKey e ≠ ⟨0⟩ ∧
        ∃ changes', recordChange ct changes e = .ok changes' ∧ changes'.find? ⟨0⟩ = none) ∨
      entryKey e = ⟨0⟩ ∧ ∀ changes', recordChange ct changes e ≠ .ok changes' := by
  by_cases hkey : entryKey e = ⟨0⟩
  · refine .inr ⟨hkey, ?_⟩
    intro changes' hok
    have hrow : changes.find? (accAct e.2.account e.2.action) = none := by
      rw [← hzero, ← hkey, entryKey]
    rw [recordChange] at hok
    rw [hrow] at hok
    obtain ⟨_, hpayer, -⟩ := bind_ok_iff.mp hok
    exact dcdAssert_ok_iff.mp hpayer hkey
  · refine .inl ⟨hkey, ?_⟩
    have hkept : ∀ row, (changes.insert (entryKey e) row).find? ⟨0⟩ = none := by
      intro row
      rw [FlatMap.find?_insert_of_ne _ _ (Ne.symm hkey), hzero]
    rw [recordChange]
    cases changes.find? (accAct e.2.account e.2.action) with
    | some old => exact ⟨_, rfl, hkept _⟩
    | none =>
      refine ⟨_, bind_ok_iff.mpr ⟨⟨⟩, dcdAssert_ok_iff.mpr hkey, rfl⟩, hkept _⟩

theorem foldlM_recordChange_ok_iff (ct : ℕ)
    (hzero : changes.find? ⟨0⟩ = none) (entries : List (ActionsFeeProposals × ActionFeeProp)) :
    (∃ changes', entries.foldlM (recordChange ct) changes = .ok changes') ↔
      ∀ e ∈ entries, entryKey e ≠ ⟨0⟩ := by
  induction entries generalizing changes with
  | nil => exact ⟨fun _ e he => absurd he not_mem_nil, fun _ => ⟨changes, rfl⟩⟩
  | cons e entries ih =>
    simp only [foldlM_cons, bind_ok_iff]
    rcases recordChange_cases ct hzero e with
      ⟨hkey, changes₁, hok, hzero₁⟩ | ⟨hkey, hthrows⟩
    · grind
    · grind

theorem find?_zero_of_run {t₀ : BlockTimestamp} {ts : List ContractTransition}
    (hrun : ContractRun t₀ ts s) : s.feeChanges.find? ⟨0⟩ = none := by
  apply hrun.invariant (I := fun _ s => s.feeChanges.find? ⟨0⟩ = none)
  · rfl
  intro ts s i s' hrun hzero hstep
  obtain ⟨-, u, hperform, hs'⟩ := step_eq_ok hstep
  have hchanges : s'.feeChanges = u.feeChanges := by rw [hs']
  rw [hchanges]
  by_cases haction : i.action = .onblock
  · rw [haction, perform] at hperform
    have hpending : (s.applyPendingFeeChanges i.time).feeChanges.find? ⟨0⟩ = none := by
      rw [find?_applyPendingFeeChanges (scheduled_of_run hrun).keyed, hzero, ite_self]
    rcases onBlockUpdates_eq_ok hperform with ⟨-, rfl⟩ | ⟨-, changes, hloop, rfl⟩
    · exact hpending
    refine foldlM_invariant (I := fun changes => changes.find? ⟨0⟩ = none) hloop hpending ?_
    intro e _ changes changes' hzero hrecord
    rcases recordChange_cases i.time hzero e with
      ⟨-, changes₁, hok, hzero₁⟩ | ⟨-, hthrows⟩
    · grind
    · grind
  · rw [(perform_of_ne_onblock haction hperform).1]
    exact hzero

theorem updateFeeVoteState_ok_iff (ct : ℕ) {s : SystemContract}
    (hzero : s.feeChanges.find? ⟨0⟩ = none) :
    (∃ s', s.updateFeeVoteState ct = .ok s') ↔
      (s.checkDue ct = true → ∀ e ∈ s.approvedEntries, entryKey e ≠ ⟨0⟩) := by
  rw [updateFeeVoteState]
  cases hdue : s.checkDue ct with
  | false => exact ⟨fun _ h => absurd h Bool.false_ne_true, fun _ => ⟨s, rfl⟩⟩
  | true =>
    rw [if_pos rfl, ← foldlM_recordChange_ok_iff ct hzero]
    simp only [checkActionProposalTable, bind_ok_iff]
    constructor
    · simp
    · simp

end SystemContract

/-! ## The transaction of `onblock` -/

namespace FeeGovernance

variable {R : Type} [RateValue R] {mean : R → R → R} {t₀ : BlockTimestamp} {g g' : FeeGovernance R}
  {ts : List (Transition (FeeGovernance R) (GovernanceInput R))} {ct : ℕ}

theorem onBlockUpdates_eq_ok {sent : List (InlineAction R)}
    (hok : g.onBlockUpdates mean ct = .ok (g', sent)) :
    g.contract.onBlockUpdates ct = .ok g'.contract ∧
      sent = ((g.contract.appliedChanges ct).map fun fa => .setfee fa.account fa.action fa.fee) ++
        ((g.oracles.updateOraclesRateState mean ct).2.map .setrate).toList := by
  obtain ⟨contract, hcontract, hok⟩ := bind_ok_iff.mp hok
  rw [pure_ok_iff, Prod.mk.injEq] at hok
  rw [← hok.1, ← hok.2]
  exact ⟨hcontract, rfl⟩

/-- The contract part of a run is a run of the contract, to which the actions of oracles are other
actions. -/
theorem exists_contractRun (hrun : GovernanceRun mean t₀ ts g) :
    ∃ ts', ContractRun t₀ ts' g.contract := by
  apply hrun.invariant (I := fun _ g => ∃ ts', ContractRun t₀ ts' g.contract)
  · exact ⟨[], .nil⟩
  rintro _ g i g' - ⟨ts', hrun'⟩ hstep
  obtain ⟨_, hnow, hstep⟩ := bind_ok_iff.mp hstep
  obtain ⟨u, hperform, hstep⟩ := bind_ok_iff.mp hstep
  rw [dcdAssert_ok_iff] at hnow
  rw [← pure_ok_iff.mp hstep]
  suffices hcontract : ∃ action,
      g.contract.perform i.timestamp.toTimePoint action = .ok u.contract by
    obtain ⟨action, haction⟩ := hcontract
    refine ⟨_, hrun'.snoc (l := ⟨i.timestamp, action⟩) ?_⟩
    exact bind_ok_iff.mpr ⟨⟨⟩, dcdAssert_ok_iff.mpr hnow,
      bind_ok_iff.mpr ⟨u.contract, haction, rfl⟩⟩
  cases haction : i.action with
  | oracle action =>
    rw [haction] at hperform
    obtain ⟨oracles, -, hu⟩ := bind_ok_iff.mp hperform
    rw [← pure_ok_iff.mp hu]
    exact ⟨.other, rfl⟩
  | contract action =>
    rw [haction] at hperform
    by_cases honblock : action = .onblock
    · rw [honblock] at hperform
      obtain ⟨⟨u', sent⟩, hupdates, hu⟩ := bind_ok_iff.mp hperform
      obtain ⟨_, -, hu⟩ := bind_ok_iff.mp hu
      rw [← pure_ok_iff.mp hu]
      exact ⟨.onblock, (onBlockUpdates_eq_ok hupdates).1⟩
    · rw [perform] at hperform
      · obtain ⟨contract, hcontract, hu⟩ := bind_ok_iff.mp hperform
        rw [← pure_ok_iff.mp hu]
        exact ⟨action, hcontract⟩
      · exact honblock

/-- Nothing that `onblock` uses at `ct` throws: the fees that are due can be unpacked, and no
approved entry has the key 0. -/
structure Harmless (s : SystemContract) (ct : ℕ) : Prop where
  fees : s.applyDue ct = true → ∀ row ∈ s.feeChanges.values, row.fee.IsValid
  keys : s.checkDue ct = true → ∀ e ∈ s.approvedEntries, SystemContract.entryKey e ≠ ⟨0⟩

/-- In every reachable state, `onblock` succeeds exactly if what it uses is harmless. -/
theorem onblock_succeeds_iff (hrun : GovernanceRun mean t₀ ts g) (ct : ℕ) :
    (∃ g', g.onblock mean ct = .ok g') ↔ Harmless g.contract ct := by
  obtain ⟨ts', hcontract⟩ := exists_contractRun hrun
  have hzero : (g.contract.applyPendingFeeChanges ct).feeChanges.find? ⟨0⟩ = none := by
    rw [SystemContract.find?_applyPendingFeeChanges (SystemContract.scheduled_of_run hcontract).keyed,
      SystemContract.find?_zero_of_run hcontract, ite_self]
  have hcheck := SystemContract.updateFeeVoteState_ok_iff ct hzero
  rw [SystemContract.applyPendingFeeChanges_checkDue,
    SystemContract.applyPendingFeeChanges_approvedEntries] at hcheck
  have hfees : (∀ fa ∈ g.contract.appliedChanges ct, fa.fee.IsValid) ↔
      (g.contract.applyDue ct = true → ∀ row ∈ g.contract.feeChanges.values, row.fee.IsValid) := by
    cases hdue : g.contract.applyDue ct with
    | false => simp [SystemContract.appliedChanges, hdue]
    | true =>
      rw [SystemContract.appliedChanges_of_applyDue hdue, forall_mem_map]
      exact ⟨fun h _ => h, fun h => h rfl⟩
  constructor
  · rintro ⟨g', hok⟩
    obtain ⟨⟨u, sent⟩, hupdates, hok⟩ := bind_ok_iff.mp hok
    obtain ⟨_, hsent, -⟩ := bind_ok_iff.mp hok
    obtain ⟨hu, rfl⟩ := onBlockUpdates_eq_ok hupdates
    refine ⟨hfees.mp ?_, hcheck.mp ⟨u.contract, hu⟩⟩
    intro fa hfa
    have happlied := forM_eq_ok_iff.mp hsent (.setfee fa.account fa.action fa.fee)
      (mem_append_left _ (mem_map_of_mem hfa))
    exact Asset.unpack_eq_ok_iff.mp happlied
  · rintro ⟨hvalid, hkeys⟩
    obtain ⟨contract, hok⟩ := hcheck.mpr hkeys
    refine ⟨_, bind_ok_iff.mpr ⟨_, bind_ok_iff.mpr ⟨contract, hok, rfl⟩,
      bind_ok_iff.mpr ⟨⟨⟩, forM_eq_ok_iff.mpr ?_, rfl⟩⟩⟩
    intro action haction
    rcases mem_append.mp haction with hsetfee | hsetrate
    · obtain ⟨fa, hfa, rfl⟩ := mem_map.mp hsetfee
      exact Asset.unpack_eq_ok_iff.mpr (hfees.mpr hvalid fa hfa)
    · obtain ⟨rate, -, rfl⟩ := Option.mem_map.mp (Option.mem_toList.mp hsetrate)
      rfl

/-! ### Two proposals -/

open SystemContract

/-- `alice` proposes a fee and `bob` approves it. -/
def approvedFee (fee : ActionFeeProp) : List (GovernanceInput ℚ) :=
  (registered ++
    [atSlot 2 (.propactfee alice [fee]), atSlot 4 (.votefeeprop bob alice 1)]).map
    fun i => ⟨i.timestamp, .contract i.action⟩

def onblockAt (slot : UInt32) : GovernanceInput ℚ := ⟨⟨slot⟩, .contract .onblock⟩

instance (s : SystemContract) (ct : ℕ) : Decidable (Harmless s ct) :=
  decidable_of_iff
    ((s.applyDue ct = true → ∀ row ∈ s.feeChanges.values, row.fee.IsValid) ∧
      (s.checkDue ct = true → ∀ e ∈ s.approvedEntries, entryKey e ≠ ⟨0⟩))
    ⟨fun h => ⟨h.1, h.2⟩, fun h => ⟨h.fees, h.keys⟩⟩

/-- The check approves the fee for the transfers, and the next block sends it. -/
theorem onblock_succeeds_iff_transfer :
    ∃ ts g, GovernanceRun exactMean ⟨0⟩ ts g ∧
      g.contract.appliedChanges (BlockTimestamp.mk 720).toTimePoint ≠ [] ∧
      ∃ g', g.onblock exactMean (BlockTimestamp.mk 720).toTimePoint = .ok g' := by
  obtain ⟨ts, g, hrun, hend⟩ := exists_run_of_exec (step exactMean) (.initial ⟨0⟩)
    (approvedFee transferFee ++ [onblockAt 600])
    (fun _ g => !(g.contract.appliedChanges (BlockTimestamp.mk 720).toTimePoint).isEmpty &&
      decide (Harmless g.contract (BlockTimestamp.mk 720).toTimePoint)) (by decide +kernel)
  rw [Bool.and_eq_true, Bool.not_eq_true', isEmpty_eq_false_iff, decide_eq_true_eq] at hend
  exact ⟨ts, g, hrun, hend.1, (onblock_succeeds_iff hrun _).mpr hend.2⟩

/-- An action whose name is the negative of the account's. -/
def unpayableFee : ActionFeeProp := ⟨dcdToken, ⟨0 - dcdToken.value⟩, ⟨10000, 0x44434404⟩⟩

/-- A fee whose symbol has the precision 255. -/
def malformedFee : ActionFeeProp := ⟨dcdToken, transfer, ⟨10000, 0xff⟩⟩

/-- No `onblock` in these slots succeeds. -/
def stoppedAt (slots : List UInt32) (g : FeeGovernance ℚ) : Bool :=
  slots.all fun slot => !(g.onblock exactMean (BlockTimestamp.mk slot).toTimePoint).isOk

theorem onblock_ne_ok_of_stoppedAt {slots : List UInt32} {g : FeeGovernance ℚ}
    (hstopped : stoppedAt slots g = true) {slot : UInt32} (hslot : slot ∈ slots)
    (g' : FeeGovernance ℚ) :
    g.onblock exactMean (BlockTimestamp.mk slot).toTimePoint ≠ .ok g' := by
  intro hok
  have hthrows := all_eq_true.mp hstopped slot hslot
  rw [hok] at hthrows
  cases hthrows

/-- The proposal without a payer stops `onblock` when the check runs, and the malformed fee when it
is applied.  Neither goes away when the proposal has expired. -/
theorem onblock_stopped :
    (∃ ts g, GovernanceRun exactMean ⟨0⟩ ts g ∧ ∀ slot ∈ [600, 1200, 1000000],
        ∀ g', g.onblock exactMean (BlockTimestamp.mk slot).toTimePoint ≠ .ok g') ∧
      ∃ ts g, GovernanceRun exactMean ⟨0⟩ ts g ∧ ∀ slot ∈ [720, 1200, 1000000],
        ∀ g', g.onblock exactMean (BlockTimestamp.mk slot).toTimePoint ≠ .ok g' := by
  constructor
  · obtain ⟨ts, g, hrun, hstopped⟩ := exists_run_of_exec (step exactMean) (.initial ⟨0⟩)
      (approvedFee unpayableFee) (fun _ => stoppedAt [600, 1200, 1000000]) (by decide +kernel)
    exact ⟨ts, g, hrun, fun slot hslot => onblock_ne_ok_of_stoppedAt hstopped hslot⟩
  · obtain ⟨ts, g, hrun, hstopped⟩ := exists_run_of_exec (step exactMean) (.initial ⟨0⟩)
      (approvedFee malformedFee ++ [onblockAt 600]) (fun _ => stoppedAt [720, 1200, 1000000])
      (by decide +kernel)
    exact ⟨ts, g, hrun, fun slot hslot => onblock_ne_ok_of_stoppedAt hstopped hslot⟩

end FeeGovernance

end DcdProtocol.System
