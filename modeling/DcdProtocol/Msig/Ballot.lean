import DcdProtocol.Msig.Contract

/-!
# Proposals as ballots

Which of the two tables holds the lists of a proposal does not matter to what the proposal is: the
bytes of a transaction, the levels that are still requested, and the approvals that were given.  A
`Ballot` is that view.  An approval in the older table has no time; it is read as given at time
zero, and then `exec` asks the same of it as of any other, that no invalidation is as late.

The contract keeps the three tables consistent (`Stored`), and every action that succeeds changes at
most one ballot.  `Effect` says how, action by action; `effect_of_step` reads it off the contract,
and what follows from it needs neither the tables nor the code again.
-/

namespace DcdProtocol.Msig

open Library hiding check check_ok_iff
open Contract
open Chain (Name PermissionLevel Sha256 BlockTimestamp)

structure Ballot where
  packedTransaction : List UInt8
  requested : List PermissionLevel
  provided : List Approval

/-- The rows that the tables may have for one key. -/
inductive Stored : Option (List UInt8) → Option (ApprovalLists Approval) →
    Option (ApprovalLists PermissionLevel) → Prop
  | absent : Stored none none none
  | current (packed apps) : Stored (some packed) (some apps) none
  | legacy (packed apps) : Stored (some packed) none (some apps)

namespace Stored

variable {p : Option (List UInt8)} {c : Option (ApprovalLists Approval)}
  {o : Option (ApprovalLists PermissionLevel)}

theorem of_none (h : Stored none c o) : c = none ∧ o = none := by
  cases h with
  | absent => exact ⟨rfl, rfl⟩

theorem of_current {apps : ApprovalLists Approval} (h : Stored p (some apps) o) :
    ∃ packed, p = some packed ∧ o = none := by
  cases h with
  | current packed => exact ⟨packed, rfl, rfl⟩

theorem of_legacy {apps : ApprovalLists PermissionLevel} (h : Stored p c (some apps)) :
    ∃ packed, p = some packed ∧ c = none := by
  cases h with
  | legacy packed => exact ⟨packed, rfl, rfl⟩

end Stored

def ballotOf : Option (List UInt8) → Option (ApprovalLists Approval) →
    Option (ApprovalLists PermissionLevel) → Option Ballot
  | some packed, some apps, _ =>
    some ⟨packed, apps.requestedApprovals.map Approval.level, apps.providedApprovals⟩
  | some packed, none, some apps =>
    some ⟨packed, apps.requestedApprovals, apps.providedApprovals.map fun level => ⟨level, 0⟩⟩
  | _, _, _ => none

namespace Multisig

def Consistent (s : Multisig) : Prop :=
  ∀ key, Stored (s.proposals.find? key) (s.approvals.find? key) (s.oldApprovals.find? key)

def ballot (s : Multisig) (key : ProposalKey) : Option Ballot :=
  ballotOf (s.proposals.find? key) (s.approvals.find? key) (s.oldApprovals.find? key)

end Multisig

/-! ## What an action does -/

/-- What a successful action does to the ballots, the invalidations and the deferred
transactions. -/
inductive Effect (host : Host) (ctx : MsigContext) (s s' : Multisig) : MsigAction → Prop
  | propose {proposer proposalName : Name} {requested : List PermissionLevel} {trx : List UInt8}
      (hnone : s.ballot (toLex (proposer, proposalName)) = none)
      (hballot : s'.ballot =
        Function.update s.ballot (toLex (proposer, proposalName)) (some ⟨trx, requested, []⟩))
      (hinvalid : s'.invalidations = s.invalidations) (hdeferred : s'.deferred = s.deferred) :
      Effect host ctx s s' (.propose proposer proposalName requested trx)
  | approve {proposer proposalName : Name} {level : PermissionLevel} {hash : Option Sha256}
      {b : Ballot} {time : ℕ}
      (hsome : s.ballot (toLex (proposer, proposalName)) = some b)
      (hrequested : level ∈ b.requested) (htime : time ≤ ctx.now)
      (hballot : s'.ballot = Function.update s.ballot (toLex (proposer, proposalName))
        (some ⟨b.packedTransaction, b.requested.erase level, b.provided ++ [⟨level, time⟩]⟩))
      (hinvalid : s'.invalidations = s.invalidations) (hdeferred : s'.deferred = s.deferred) :
      Effect host ctx s s' (.approve proposer proposalName level hash)
  | unapprove {proposer proposalName : Name} {level : PermissionLevel} {b : Ballot}
      (hsome : s.ballot (toLex (proposer, proposalName)) = some b)
      (hprovided : ∃ a ∈ b.provided, a.level = level)
      (hballot : s'.ballot = Function.update s.ballot (toLex (proposer, proposalName))
        (some ⟨b.packedTransaction, b.requested ++ [level],
          b.provided.eraseP fun a => a.level = level⟩))
      (hinvalid : s'.invalidations = s.invalidations) (hdeferred : s'.deferred = s.deferred) :
      Effect host ctx s s' (.unapprove proposer proposalName level)
  | cancel {proposer proposalName canceler : Name}
      (hballot : s'.ballot = Function.update s.ballot (toLex (proposer, proposalName)) none)
      (hinvalid : s'.invalidations = s.invalidations) (hdeferred : s'.deferred = s.deferred) :
      Effect host ctx s s' (.cancel proposer proposalName canceler)
  | exec {proposer proposalName executer : Name} {b : Ballot} {expiration : UInt32}
      (hsome : s.ballot (toLex (proposer, proposalName)) = some b)
      (hexpiration : host.expiration b.packedTransaction = some expiration)
      (hfresh : ctx.nowSec ≤ expiration)
      (hauth : ctx.checkTransactionAuthorization b.packedTransaction
        ((b.provided.filter s.stands).map Approval.level) = true)
      (hballot : s'.ballot = Function.update s.ballot (toLex (proposer, proposalName)) none)
      (hinvalid : s'.invalidations = s.invalidations)
      (hdeferred : s'.deferred =
        s.deferred ++ [⟨toLex (proposer, proposalName), executer, b.packedTransaction⟩]) :
      Effect host ctx s s' (.exec proposer proposalName executer)
  | invalidate {account : Name} (hballot : s'.ballot = s.ballot)
      (hinvalid : s'.invalidations = s.invalidations.insert account ctx.now)
      (hdeferred : s'.deferred = s.deferred) : Effect host ctx s s' (.invalidate account)

/-! ## Changing the rows of one key -/

/-- The rows of every other key are as they were. -/
def Frame (key : ProposalKey) (s s' : Multisig) : Prop :=
  ∀ k, k ≠ key → s'.proposals.find? k = s.proposals.find? k ∧
    s'.approvals.find? k = s.approvals.find? k ∧ s'.oldApprovals.find? k = s.oldApprovals.find? k

variable {host : Host} {ctx : MsigContext} {s s' : Multisig} {key : ProposalKey}

theorem Frame.consistent (hframe : Frame key s s') (hs : s.Consistent)
    (hkey : Stored (s'.proposals.find? key) (s'.approvals.find? key) (s'.oldApprovals.find? key)) :
    s'.Consistent := by
  intro k
  by_cases hk : k = key
  · rw [hk]
    exact hkey
  · obtain ⟨hproposals, happrovals, hold⟩ := hframe k hk
    rw [hproposals, happrovals, hold]
    exact hs k

theorem Frame.ballot_eq (hframe : Frame key s s') :
    s'.ballot = Function.update s.ballot key (s'.ballot key) := by
  funext k
  by_cases hk : k = key
  · rw [hk, Function.update_self]
  · obtain ⟨hproposals, happrovals, hold⟩ := hframe k hk
    rw [Function.update_of_ne hk, Multisig.ballot, hproposals, happrovals, hold]
    rfl

theorem map_level_eraseP (as : List Approval) (level : PermissionLevel) :
    (as.eraseP fun a => a.level = level).map Approval.level = (as.map Approval.level).erase level := by
  rw [List.erase_eq_eraseP', List.eraseP_map]
  congr

theorem Multisig.Consistent.insert_approvals {apps : ApprovalLists Approval} (hs : s.Consistent)
    (happrovals : s.approvals.find? key = some apps) (apps' : ApprovalLists Approval) :
    ∃ packed, s.ballot key =
        some ⟨packed, apps.requestedApprovals.map Approval.level, apps.providedApprovals⟩ ∧
      Consistent { s with approvals := s.approvals.insert key apps' } ∧
      ballot { s with approvals := s.approvals.insert key apps' } = Function.update s.ballot key
        (some ⟨packed, apps'.requestedApprovals.map Approval.level, apps'.providedApprovals⟩) := by
  obtain ⟨packed, hproposals, hold⟩ := (happrovals ▸ hs key).of_current
  have hframe : Frame key s { s with approvals := s.approvals.insert key apps' } :=
    fun k hk => ⟨rfl, FlatMap.find?_insert_of_ne _ _ hk, rfl⟩
  refine ⟨packed, by rw [ballot, hproposals, happrovals]; rfl, hframe.consistent hs ?_, ?_⟩
  · dsimp only
    rw [FlatMap.find?_insert_self, hproposals, hold]
    exact .current _ _
  · rw [hframe.ballot_eq]
    simp [ballot, ballotOf, hproposals]

theorem Multisig.Consistent.insert_oldApprovals {apps : ApprovalLists PermissionLevel}
    (hs : s.Consistent) (hold : s.oldApprovals.find? key = some apps)
    (apps' : ApprovalLists PermissionLevel) :
    ∃ packed, s.ballot key = some ⟨packed, apps.requestedApprovals,
        apps.providedApprovals.map fun level => ⟨level, 0⟩⟩ ∧
      Consistent { s with oldApprovals := s.oldApprovals.insert key apps' } ∧
      ballot { s with oldApprovals := s.oldApprovals.insert key apps' } =
        Function.update s.ballot key (some ⟨packed, apps'.requestedApprovals,
          apps'.providedApprovals.map fun level => ⟨level, 0⟩⟩) := by
  obtain ⟨packed, hproposals, happrovals⟩ := (hold ▸ hs key).of_legacy
  have hframe : Frame key s { s with oldApprovals := s.oldApprovals.insert key apps' } :=
    fun k hk => ⟨rfl, rfl, FlatMap.find?_insert_of_ne _ _ hk⟩
  refine ⟨packed, by rw [ballot, hproposals, happrovals, hold]; rfl, hframe.consistent hs ?_, ?_⟩
  · dsimp only
    rw [FlatMap.find?_insert_self, hproposals, happrovals]
    exact .legacy _ _
  · rw [hframe.ballot_eq]
    simp [ballot, ballotOf, hproposals, happrovals]

theorem eraseApprovals_spec (hok : s.eraseApprovals key = .ok s')
    (hone : s.approvals.find? key = none ∨ s.oldApprovals.find? key = none) :
    ∃ apps olds, s' = { s with approvals := apps, oldApprovals := olds } ∧
      apps.find? key = none ∧ olds.find? key = none ∧
      ∀ k, k ≠ key → apps.find? k = s.approvals.find? k ∧ olds.find? k = s.oldApprovals.find? k := by
  rw [Multisig.eraseApprovals] at hok
  cases happrovals : s.approvals.find? key with
  | some apps =>
    rw [happrovals] at hok
    obtain rfl := pure_ok_iff.mp hok
    refine ⟨_, _, rfl, ?_, ?_, fun k hk => ⟨?_, rfl⟩⟩
    · rw [FlatMap.find?_erase, if_pos rfl]
    · grind
    · rw [FlatMap.find?_erase, if_neg hk]
  | none =>
    rw [happrovals] at hok
    simp only [bind_ok_iff, pure_ok_iff] at hok
    obtain ⟨-, -, rfl⟩ := hok
    refine ⟨_, _, rfl, happrovals, ?_, fun k hk => ⟨rfl, ?_⟩⟩
    · rw [FlatMap.find?_erase, if_pos rfl]
    · rw [FlatMap.find?_erase, if_neg hk]

theorem Multisig.Consistent.one_table (hs : s.Consistent) (key : ProposalKey) :
    s.approvals.find? key = none ∨ s.oldApprovals.find? key = none := by
  cases hold : s.oldApprovals.find? key with
  | none => exact .inr rfl
  | some apps => exact .inl (hold ▸ hs key).of_legacy.choose_spec.2

/-- When the approvals have been erased, and the proposal is too, the ballot is closed. -/
theorem Multisig.Consistent.eraseApprovals {t t' : Multisig} (hs : s.Consistent)
    (hok : t.eraseApprovals key = .ok t') (happrovals : t.approvals = s.approvals)
    (hold : t.oldApprovals = s.oldApprovals) :
    ∃ apps olds, t' = { t with approvals := apps, oldApprovals := olds } ∧
      ∀ s' : Multisig, s'.proposals = s.proposals.erase key → s'.approvals = apps →
        s'.oldApprovals = olds → s'.Consistent ∧ s'.ballot = Function.update s.ballot key none := by
  have hone := hs.one_table key
  rw [← happrovals, ← hold] at hone
  obtain ⟨apps, olds, rfl, happs, holds, hothers⟩ := eraseApprovals_spec hok hone
  rw [happrovals, hold] at hothers
  refine ⟨apps, olds, rfl, ?_⟩
  rintro s' hproposals rfl rfl
  have hnone : s'.proposals.find? key = none := by
    rw [hproposals, FlatMap.find?_erase, if_pos rfl]
  have hframe : Frame key s s' := by
    intro k hk
    rw [hproposals, FlatMap.find?_erase, if_neg hk]
    exact ⟨rfl, hothers k hk⟩
  refine ⟨hframe.consistent hs ?_, ?_⟩
  · rw [hnone, happs, holds]
    exact .absent
  · rw [hframe.ballot_eq, ballot, hnone, happs, holds]
    rfl

/-! ## Actions -/

variable {proposalName proposer : Name} {level : PermissionLevel} {a : MsigAction}

theorem propose_effect {requested : List PermissionLevel} {trx : List UInt8} (hs : s.Consistent)
    (hok : s.propose host ctx proposer proposalName requested trx = .ok s') :
    s'.Consistent ∧ Effect host ctx s s' (.propose proposer proposalName requested trx) := by
  rw [Multisig.propose] at hok
  simp only [bind_ok_iff, check_ok_iff, pure_ok_iff] at hok
  obtain ⟨expiration, -, -, -, -, -, -, hproposals, -, -, -, happrovals, rfl⟩ := hok
  set key := toLex (proposer, proposalName) with hkey
  have hold : s.oldApprovals.find? key = none := (hproposals ▸ hs key).of_none.2
  have hframe : Frame key s { s with
      proposals := s.proposals.insert key trx
      approvals := s.approvals.insert key ⟨requested.map fun level => ⟨level, 0⟩, []⟩ } := by
    intro k hk
    exact ⟨FlatMap.find?_insert_of_ne _ _ hk, FlatMap.find?_insert_of_ne _ _ hk, rfl⟩
  refine ⟨hframe.consistent hs ?_, .propose ?_ ?_ rfl rfl⟩
  · dsimp only
    rw [FlatMap.find?_insert_self, FlatMap.find?_insert_self, hold]
    exact .current _ _
  · rw [Multisig.ballot, hproposals]
    rfl
  · rw [hframe.ballot_eq]
    congr 1
    simp [Multisig.ballot, ballotOf, Function.comp_def]

theorem approve_effect {hash : Option Sha256} (hs : s.Consistent)
    (hok : s.approve host ctx proposer proposalName level hash = .ok s') :
    s'.Consistent ∧ Effect host ctx s s' (.approve proposer proposalName level hash) := by
  rw [Multisig.approve] at hok
  simp only [bind_ok_iff] at hok
  obtain ⟨-, -, -, -, hok⟩ := hok
  cases happrovals : s.approvals.find? (toLex (proposer, proposalName)) with
  | some apps =>
    rw [happrovals] at hok
    simp only [ApprovalLists.approve, bind_ok_iff, check_ok_iff, pure_ok_iff] at hok
    obtain ⟨apps', ⟨-, hrequested, rfl⟩, rfl⟩ := hok
    obtain ⟨packed, hballot, hconsistent, hupdate⟩ := hs.insert_approvals happrovals _
    refine ⟨hconsistent, .approve hballot ?_ le_rfl ?_ rfl rfl⟩
    · simpa using hrequested
    · rw [hupdate, map_level_eraseP]
  | none =>
    rw [happrovals] at hok
    simp only [ApprovalLists.approve, bind_ok_iff, check_ok_iff, require_ok_iff, pure_ok_iff] at hok
    obtain ⟨apps, hold, apps', ⟨-, hrequested, rfl⟩, rfl⟩ := hok
    obtain ⟨packed, hballot, hconsistent, hupdate⟩ := hs.insert_oldApprovals hold _
    refine ⟨hconsistent, .approve hballot ?_ (Nat.zero_le _) ?_ rfl rfl⟩
    · simpa using hrequested
    · rw [hupdate, List.map_append, List.erase_eq_eraseP']
      rfl

theorem unapprove_effect
    (hs : s.Consistent) (hok : s.unapprove ctx proposer proposalName level = .ok s') :
    s'.Consistent ∧ Effect host ctx s s' (.unapprove proposer proposalName level) := by
  rw [Multisig.unapprove] at hok
  simp only [bind_ok_iff] at hok
  obtain ⟨-, -, hok⟩ := hok
  cases happrovals : s.approvals.find? (toLex (proposer, proposalName)) with
  | some apps =>
    rw [happrovals] at hok
    simp only [ApprovalLists.unapprove, bind_ok_iff, check_ok_iff, pure_ok_iff] at hok
    obtain ⟨apps', ⟨-, hprovided, rfl⟩, rfl⟩ := hok
    obtain ⟨packed, hballot, hconsistent, hupdate⟩ := hs.insert_approvals happrovals _
    refine ⟨hconsistent, .unapprove hballot hprovided ?_ rfl rfl⟩
    rw [hupdate, List.map_append]
    rfl
  | none =>
    rw [happrovals] at hok
    simp only [ApprovalLists.unapprove, bind_ok_iff, check_ok_iff, require_ok_iff,
      pure_ok_iff] at hok
    obtain ⟨apps, hold, apps', ⟨-, hprovided, rfl⟩, rfl⟩ := hok
    obtain ⟨packed, hballot, hconsistent, hupdate⟩ := hs.insert_oldApprovals hold _
    refine ⟨hconsistent, .unapprove hballot ?_ ?_ rfl rfl⟩
    · simpa using hprovided
    · rw [hupdate, List.eraseP_map]
      rfl

theorem cancel_effect {canceler : Name} (hs : s.Consistent)
    (hok : s.cancel host ctx proposer proposalName canceler = .ok s') :
    s'.Consistent ∧ Effect host ctx s s' (.cancel proposer proposalName canceler) := by
  rw [Multisig.cancel] at hok
  simp only [bind_ok_iff] at hok
  obtain ⟨-, -, packed, -, -, -, hok⟩ := hok
  obtain ⟨apps, olds, rfl, hclosed⟩ := hs.eraseApprovals hok rfl rfl
  exact ⟨(hclosed _ rfl rfl rfl).1, .cancel (hclosed _ rfl rfl rfl).2 rfl rfl⟩

theorem standingApprovals_ballot {packed : List UInt8} {levels : List PermissionLevel}
    (hproposals : s.proposals.find? key = some packed)
    (hok : s.standingApprovals key = .ok levels) :
    ∃ b, s.ballot key = some b ∧ b.packedTransaction = packed ∧
      levels = (b.provided.filter s.stands).map Approval.level := by
  rw [Multisig.standingApprovals] at hok
  cases happrovals : s.approvals.find? key with
  | some apps =>
    rw [happrovals] at hok
    obtain rfl := pure_ok_iff.mp hok
    exact ⟨_, by rw [Multisig.ballot, hproposals, happrovals]; rfl, rfl, rfl⟩
  | none =>
    rw [happrovals] at hok
    simp only [bind_ok_iff, require_ok_iff, pure_ok_iff] at hok
    obtain ⟨apps, hold, rfl⟩ := hok
    refine ⟨_, by rw [Multisig.ballot, hproposals, happrovals, hold]; rfl, rfl, ?_⟩
    -- no invalidation is before time zero
    have hstands : ∀ level : PermissionLevel,
        s.stands ⟨level, 0⟩ = (s.invalidations.find? level.actor).isNone := by
      intro level
      unfold Multisig.stands
      cases s.invalidations.find? level.actor with
      | none => rfl
      | some last => simp
    simp [List.filter_map, Function.comp_def, hstands]

theorem exec_effect {executer : Name} (hs : s.Consistent)
    (hok : s.exec host ctx proposer proposalName executer = .ok s') :
    s'.Consistent ∧ Effect host ctx s s' (.exec proposer proposalName executer) := by
  rw [Multisig.exec] at hok
  simp only [bind_ok_iff, check_ok_iff, require_ok_iff, pure_ok_iff] at hok
  obtain ⟨-, -, packed, hpacked, expiration, hexpiration, -, hfresh, levels, hlevels, s₁, herase, -,
    hauth, -, -, rfl⟩ := hok
  obtain ⟨b, hsome, rfl, rfl⟩ := standingApprovals_ballot hpacked hlevels
  obtain ⟨apps, olds, rfl, hclosed⟩ := hs.eraseApprovals herase rfl rfl
  exact ⟨(hclosed _ rfl rfl rfl).1,
    .exec hsome hexpiration hfresh hauth (hclosed _ rfl rfl rfl).2 rfl rfl⟩

theorem effect_of_perform (hs : s.Consistent)
    (hok : s.perform host ctx a = .ok s') : s'.Consistent ∧ Effect host ctx s s' a := by
  cases a with
  | propose proposer proposalName requested trx => exact propose_effect hs hok
  | approve proposer proposalName level proposalHash => exact approve_effect hs hok
  | unapprove proposer proposalName level => exact unapprove_effect hs hok
  | cancel proposer proposalName canceler => exact cancel_effect hs hok
  | exec proposer proposalName executer => exact exec_effect hs hok
  | invalidate account =>
    simp only [Multisig.perform, Multisig.invalidate, bind_ok_iff, pure_ok_iff] at hok
    obtain ⟨-, -, rfl⟩ := hok
    exact ⟨hs, .invalidate rfl rfl rfl⟩

theorem Effect.at_time {time : ℕ} (h : Effect host ctx s s' a) :
    Effect host ctx s { s' with now := time } a := by
  cases h with
  | propose hnone hballot hinvalid hdeferred => exact .propose hnone hballot hinvalid hdeferred
  | approve hsome hrequested htime hballot hinvalid hdeferred =>
    exact .approve hsome hrequested htime hballot hinvalid hdeferred
  | unapprove hsome hprovided hballot hinvalid hdeferred =>
    exact .unapprove hsome hprovided hballot hinvalid hdeferred
  | cancel hballot hinvalid hdeferred => exact .cancel hballot hinvalid hdeferred
  | exec hsome hexpiration hfresh hauth hballot hinvalid hdeferred =>
    exact .exec hsome hexpiration hfresh hauth hballot hinvalid hdeferred
  | invalidate hballot hinvalid hdeferred => exact .invalidate hballot hinvalid hdeferred

theorem effect_of_step {i : MsigInput} (hs : s.Consistent) (hok : s.step host i = .ok s') :
    s'.Consistent ∧ Effect host i.context s s' i.action ∧ s.now ≤ i.context.now ∧
      s'.now = i.context.now := by
  rw [Multisig.step] at hok
  simp only [bind_ok_iff, check_ok_iff, pure_ok_iff] at hok
  obtain ⟨-, hnow, s₁, hperform, rfl⟩ := hok
  obtain ⟨hconsistent, heffect⟩ := effect_of_perform hs hperform
  exact ⟨fun key => hconsistent key, heffect.at_time, hnow, rfl⟩

theorem LegacyTables.initial_consistent (legacy : LegacyTables) : legacy.initial.Consistent := by
  intro key
  have hsame := legacy.same_keys key
  show Stored (legacy.proposals.find? key) none (legacy.approvals.find? key)
  cases hproposals : legacy.proposals.find? key with
  | none =>
    rw [hproposals] at hsame
    have hnone : legacy.approvals.find? key = none := by simpa using hsame.symm
    rw [hnone]
    exact .absent
  | some packed =>
    rw [hproposals] at hsame
    obtain ⟨apps, happs⟩ := Option.isSome_iff_exists.mp hsame.symm
    rw [happs]
    exact .legacy packed apps

end DcdProtocol.Msig
