import DcdProtocol.Msig.Ballot

/-!
# Only what was approved is executed

A deferred transaction that `exec` sends is traced back through the run: to the action that created
the proposal (or the row that the earlier version of the contract left), and for every permission
level that authorizes it to the approval of that level.

Nothing says which entry of the lists belongs to which approval.  If a proposal requests a level
twice, the level may approve twice, and one `unapprove` takes back only one of the two; the proposal
is then executed with the authority of a level that has unapproved it since
(`exec_after_unapprove`).  If no proposal requests a level twice, every execution is approved
(`exec_only_approved`).

The invariant `Tracked` holds of every ballot: its lists are a permutation of what was requested, and
each approval on it was given after the proposal was created and not taken back since.  That the
levels are distinct is what makes the approval that `unapprove` removes the only one of its level.
-/

namespace DcdProtocol.Msig

open Library hiding check check_ok_iff
open Contract
open Chain (Name PermissionLevel Sha256 BlockTimestamp)

/-! ## The history of a proposal -/

section history

variable (legacy : LegacyTables) (ts : List MsigTransition) (proposer proposalName : Name)

/-- Where a proposal comes from: `requested` and `packed` are what it was created with, and `since`
are the transitions after that. -/
inductive Origin : List PermissionLevel → List UInt8 → List MsigTransition → Prop
  | proposed {before since : List MsigTransition} {t : MsigTransition}
      {requested : List PermissionLevel} {trx : List UInt8} (hts : ts = before ++ t :: since)
      (haction : t.label.action = .propose proposer proposalName requested trx) :
      Origin requested trx since
  | legacy {packed : List UInt8} {apps : ApprovalLists PermissionLevel}
      (hproposal : legacy.proposals.find? (toLex (proposer, proposalName)) = some packed)
      (happs : legacy.approvals.find? (toLex (proposer, proposalName)) = some apps) :
      Origin (apps.requestedApprovals ++ apps.providedApprovals) packed ts

/-- No transition of `since` has cancelled or executed the proposal. -/
def Pending (since : List MsigTransition) : Prop :=
  ∀ u ∈ since, ∀ account, u.label.action ≠ .cancel proposer proposalName account ∧
    u.label.action ≠ .exec proposer proposalName account

/-- The level has approved the proposal after it was created, has not unapproved it since, and its
account has not invalidated its approvals at that time or later. -/
inductive Approved (since : List MsigTransition) (level : PermissionLevel) : Prop
  | approved {before after : List MsigTransition} {t : MsigTransition} {hash : Option Sha256}
      (hsince : since = before ++ t :: after)
      (haction : t.label.action = .approve proposer proposalName level hash)
      (hkept : ∀ u ∈ after, u.label.action ≠ .unapprove proposer proposalName level)
      (hvalid : ∀ u ∈ ts, u.label.action = .invalidate level.actor →
        u.label.context.now < t.label.context.now)
  | legacy {apps : ApprovalLists PermissionLevel} (hsince : since = ts)
      (happs : legacy.approvals.find? (toLex (proposer, proposalName)) = some apps)
      (hprovided : level ∈ apps.providedApprovals)
      (hkept : ∀ u ∈ ts, u.label.action ≠ .unapprove proposer proposalName level)
      (hvalid : ∀ u ∈ ts, u.label.action ≠ .invalidate level.actor)

/-- The approval was given in `since` at its time or later, and not taken back. -/
inductive Granted (since : List MsigTransition) (a : Approval) : Prop
  | approved {before after : List MsigTransition} {t : MsigTransition} {hash : Option Sha256}
      (hsince : since = before ++ t :: after)
      (haction : t.label.action = .approve proposer proposalName a.level hash)
      (hkept : ∀ u ∈ after, u.label.action ≠ .unapprove proposer proposalName a.level)
      (htime : a.time ≤ t.label.context.now)
  | legacy {apps : ApprovalLists PermissionLevel} (hsince : since = ts)
      (happs : legacy.approvals.find? (toLex (proposer, proposalName)) = some apps)
      (hprovided : a.level ∈ apps.providedApprovals)
      (hkept : ∀ u ∈ ts, u.label.action ≠ .unapprove proposer proposalName a.level)
      (htime : a.time = 0)

structure Tracked (b : Ballot) (requested : List PermissionLevel) (since : List MsigTransition) :
    Prop where
  origin : Origin legacy ts proposer proposalName requested b.packedTransaction since
  pending : Pending proposer proposalName since
  nodup : requested.Nodup
  perm : (b.requested ++ b.provided.map Approval.level).Perm requested
  granted : ∀ a ∈ b.provided, Granted legacy ts proposer proposalName since a

end history

variable {legacy : LegacyTables} {ts since : List MsigTransition} {proposer proposalName : Name}
  {host : Host} {ctx : MsigContext} {s s' : Multisig} {t : MsigTransition}

/-! ## One more transition -/

variable {b : Ballot} {requested : List PermissionLevel} {i : MsigInput} {level : PermissionLevel}
  {packed : List UInt8} {a : MsigAction}

theorem Origin.snoc (h : Origin legacy ts proposer proposalName requested packed since) :
    Origin legacy (ts ++ [t]) proposer proposalName requested packed (since ++ [t]) := by
  cases h with
  | proposed hts haction => exact .proposed (by rw [hts, List.append_assoc]; rfl) haction
  | legacy hproposal happs => exact .legacy hproposal happs

theorem Pending.snoc (h : Pending proposer proposalName since)
    (ht : ∀ account, t.label.action ≠ .cancel proposer proposalName account ∧
      t.label.action ≠ .exec proposer proposalName account) :
    Pending proposer proposalName (since ++ [t]) := by
  intro u hu
  rcases List.mem_append.mp hu with hu | hu
  · exact h u hu
  · grind

theorem forall_mem_snoc {p : MsigTransition → Prop} (h : ∀ u ∈ ts, p u) (ht : p t) :
    ∀ u ∈ ts ++ [t], p u := by
  intro u hu
  rcases List.mem_append.mp hu with hu | hu
  · exact h u hu
  · exact List.mem_singleton.mp hu ▸ ht

theorem Granted.snoc {a : Approval} (h : Granted legacy ts proposer proposalName since a)
    (ht : t.label.action ≠ .unapprove proposer proposalName a.level) :
    Granted legacy (ts ++ [t]) proposer proposalName (since ++ [t]) a := by
  cases h with
  | approved hsince haction hkept htime =>
    exact .approved (by rw [hsince, List.append_assoc]; rfl) haction (forall_mem_snoc hkept ht) htime
  | legacy hsince happs hprovided hkept htime =>
    exact .legacy (by rw [hsince]) happs hprovided (forall_mem_snoc hkept ht) htime

def MsigAction.proposal? : MsigAction → Option ProposalKey
  | .propose proposer proposalName _ _ => some (toLex (proposer, proposalName))
  | .approve proposer proposalName _ _ => some (toLex (proposer, proposalName))
  | .unapprove proposer proposalName _ => some (toLex (proposer, proposalName))
  | .cancel proposer proposalName _ => some (toLex (proposer, proposalName))
  | .exec proposer proposalName _ => some (toLex (proposer, proposalName))
  | .invalidate _ => none

theorem Tracked.of_other (h : Tracked legacy ts proposer proposalName b requested since)
    (hother : t.label.action.proposal? ≠ some (toLex (proposer, proposalName))) :
    Tracked legacy (ts ++ [t]) proposer proposalName b requested (since ++ [t]) where
  origin := h.origin.snoc
  pending := h.pending.snoc fun account =>
    ⟨fun hc => hother (by rw [hc]; rfl), fun hc => hother (by rw [hc]; rfl)⟩
  nodup := h.nodup
  perm := h.perm
  granted := fun a ha => (h.granted a ha).snoc fun hc => hother (by rw [hc]; rfl)

theorem Tracked.of_propose {trx : List UInt8}
    (haction : t.label.action = .propose proposer proposalName requested trx)
    (hnodup : requested.Nodup) :
    Tracked legacy (ts ++ [t]) proposer proposalName ⟨trx, requested, []⟩ requested [] where
  origin := .proposed rfl haction
  pending := by simp [Pending]
  nodup := hnodup
  perm := by simp
  granted := by simp

theorem Tracked.of_approve {hash : Option Sha256} {time : ℕ}
    (h : Tracked legacy ts proposer proposalName b requested since)
    (haction : t.label.action = .approve proposer proposalName level hash)
    (hrequested : level ∈ b.requested) (htime : time ≤ t.label.context.now) :
    Tracked legacy (ts ++ [t]) proposer proposalName
      ⟨b.packedTransaction, b.requested.erase level, b.provided ++ [⟨level, time⟩]⟩ requested
      (since ++ [t]) where
  origin := h.origin.snoc
  pending := h.pending.snoc fun account => by simp [haction]
  nodup := h.nodup
  perm := by
    refine List.Perm.trans ?_ h.perm
    rw [List.map_append]
    have hcons : (level :: b.requested.erase level).Perm b.requested :=
      (List.perm_cons_erase hrequested).symm
    refine List.Perm.trans ?_ (hcons.append_right _)
    rw [← List.append_assoc]
    exact List.perm_append_singleton level _
  granted := by
    intro a ha
    rcases List.mem_append.mp ha with ha | ha
    · exact (h.granted a ha).snoc (by simp [haction])
    · obtain rfl := List.mem_singleton.mp ha
      exact .approved (show since ++ [t] = since ++ t :: [] from rfl) haction (by simp) htime

theorem Tracked.of_unapprove (h : Tracked legacy ts proposer proposalName b requested since)
    (haction : t.label.action = .unapprove proposer proposalName level)
    (hprovided : ∃ a ∈ b.provided, a.level = level) :
    Tracked legacy (ts ++ [t]) proposer proposalName
      ⟨b.packedTransaction, b.requested ++ [level], b.provided.eraseP fun a => a.level = level⟩
      requested (since ++ [t]) where
  origin := h.origin.snoc
  pending := h.pending.snoc fun account => by simp [haction]
  nodup := h.nodup
  perm := by
    refine List.Perm.trans ?_ h.perm
    rw [map_level_eraseP, List.append_assoc]
    have hmem : level ∈ b.provided.map Approval.level := by simpa using hprovided
    exact (List.perm_cons_erase hmem).symm.append_left _
  granted := by
    intro a ha
    have hnodup : (b.provided.map Approval.level).Nodup :=
      (h.perm.nodup_iff.mpr h.nodup).of_append_right
    have hne : a.level ≠ level := by
      have hmem : a.level ∈ (b.provided.map Approval.level).erase level := by
        rw [← map_level_eraseP]
        exact List.mem_map_of_mem ha
      exact (hnodup.mem_erase_iff.mp hmem).1
    refine (h.granted a (List.mem_of_mem_eraseP ha)).snoc ?_
    rw [haction]
    intro heq
    exact hne (MsigAction.unapprove.inj heq).2.2.symm

/-! ## Runs -/

def MsigAction.Distinct : MsigAction → Prop
  | .propose _ _ requested _ => requested.Nodup
  | _ => True

/-- The proposals that were there request no level twice. -/
def LegacyTables.Distinct (legacy : LegacyTables) : Prop :=
  ∀ key apps, legacy.approvals.find? key = some apps →
    (apps.requestedApprovals ++ apps.providedApprovals).Nodup

structure History (legacy : LegacyTables) (ts : List MsigTransition) (s : Multisig) : Prop where
  consistent : s.Consistent
  tracked : ∀ proposer proposalName b, s.ballot (toLex (proposer, proposalName)) = some b →
    ∃ requested since, Tracked legacy ts proposer proposalName b requested since
  invalidated : ∀ u ∈ ts, ∀ account, u.label.action = .invalidate account →
    ∃ last, s.invalidations.find? account = some last ∧ u.label.context.now ≤ last
  past : ∀ account last, s.invalidations.find? account = some last → last ≤ s.now

theorem History.initial (hlegacy : legacy.Distinct) : History legacy [] legacy.initial where
  consistent := legacy.initial_consistent
  tracked := by
    intro proposer proposalName b hb
    have hballot : ballotOf (legacy.proposals.find? (toLex (proposer, proposalName))) none
        (legacy.approvals.find? (toLex (proposer, proposalName))) = some b := hb
    cases hproposal : legacy.proposals.find? (toLex (proposer, proposalName)) with
    | none => simp [hproposal, ballotOf] at hballot
    | some packed =>
      cases happs : legacy.approvals.find? (toLex (proposer, proposalName)) with
      | none => simp [happs, ballotOf] at hballot
      | some apps =>
        rw [hproposal, happs] at hballot
        obtain rfl := Option.some.inj hballot
        refine ⟨_, [], .legacy hproposal happs, by simp [Pending], hlegacy _ _ happs, ?_, ?_⟩
        · simp [Function.comp_def]
        · intro a ha
          obtain ⟨level, hlevel, rfl⟩ := List.mem_map.mp ha
          exact .legacy rfl happs hlevel (by simp) rfl
  invalidated := by simp
  past := by
    intro account last hlast
    exact absurd hlast (by simp [LegacyTables.initial])

theorem Effect.ballot_of_ne {key : ProposalKey} (h : Effect host ctx s s' a)
    (hkey : a.proposal? ≠ some key) : s'.ballot key = s.ballot key := by
  cases h with
  | propose _ hballot => rw [hballot, Function.update_of_ne fun hc => hkey (by rw [hc]; rfl)]
  | approve _ _ _ hballot => rw [hballot, Function.update_of_ne fun hc => hkey (by rw [hc]; rfl)]
  | unapprove _ _ hballot => rw [hballot, Function.update_of_ne fun hc => hkey (by rw [hc]; rfl)]
  | cancel hballot => rw [hballot, Function.update_of_ne fun hc => hkey (by rw [hc]; rfl)]
  | exec _ _ _ _ hballot => rw [hballot, Function.update_of_ne fun hc => hkey (by rw [hc]; rfl)]
  | invalidate hballot => rw [hballot]

theorem toLex_pair_inj {a b c d : Name} (h : toLex (a, b) = toLex (c, d)) : a = c ∧ b = d :=
  Prod.mk.inj (toLex.injective h)

theorem History.tracked_step (h : History legacy ts s)
    (heffect : Effect host i.context s s' i.action) (hdistinct : i.action.Distinct)
    (proposer proposalName : Name) (b : Ballot)
    (hb : s'.ballot (toLex (proposer, proposalName)) = some b) :
    ∃ requested since,
      Tracked legacy (ts ++ [⟨s, i, s'⟩]) proposer proposalName b requested since := by
  by_cases hkey : i.action.proposal? = some (toLex (proposer, proposalName))
  · generalize hi : i.action = a at heffect hdistinct hkey
    cases heffect with
    | propose _ hballot =>
      obtain ⟨rfl, rfl⟩ := toLex_pair_inj (Option.some.inj hkey)
      rw [hballot, Function.update_self] at hb
      obtain rfl := Option.some.inj hb
      exact ⟨_, _, .of_propose hi hdistinct⟩
    | approve hsome hrequested htime hballot =>
      obtain ⟨rfl, rfl⟩ := toLex_pair_inj (Option.some.inj hkey)
      rw [hballot, Function.update_self] at hb
      obtain rfl := Option.some.inj hb
      obtain ⟨requested, since, htracked⟩ := h.tracked _ _ _ hsome
      exact ⟨_, _, htracked.of_approve hi hrequested htime⟩
    | unapprove hsome hprovided hballot =>
      obtain ⟨rfl, rfl⟩ := toLex_pair_inj (Option.some.inj hkey)
      rw [hballot, Function.update_self] at hb
      obtain rfl := Option.some.inj hb
      obtain ⟨requested, since, htracked⟩ := h.tracked _ _ _ hsome
      exact ⟨_, _, htracked.of_unapprove hi hprovided⟩
    | cancel hballot =>
      obtain ⟨rfl, rfl⟩ := toLex_pair_inj (Option.some.inj hkey)
      simp [hballot] at hb
    | exec _ _ _ _ hballot =>
      obtain ⟨rfl, rfl⟩ := toLex_pair_inj (Option.some.inj hkey)
      simp [hballot] at hb
    | invalidate => simp [MsigAction.proposal?] at hkey
  · rw [heffect.ballot_of_ne hkey] at hb
    obtain ⟨requested, since, htracked⟩ := h.tracked _ _ _ hb
    exact ⟨_, _, htracked.of_other hkey⟩

theorem Effect.invalidations_cases (h : Effect host ctx s s' a) :
    ((∀ account, a ≠ .invalidate account) ∧ s'.invalidations = s.invalidations) ∨
      ∃ account, a = .invalidate account ∧
        s'.invalidations = s.invalidations.insert account ctx.now := by
  cases h with
  | propose _ _ hinvalid => exact .inl ⟨by simp, hinvalid⟩
  | approve _ _ _ _ hinvalid => exact .inl ⟨by simp, hinvalid⟩
  | unapprove _ _ _ hinvalid => exact .inl ⟨by simp, hinvalid⟩
  | cancel _ hinvalid => exact .inl ⟨by simp, hinvalid⟩
  | exec _ _ _ _ _ hinvalid => exact .inl ⟨by simp, hinvalid⟩
  | invalidate _ hinvalid => exact .inr ⟨_, rfl, hinvalid⟩

theorem History.step (h : History legacy ts s) (hstep : s.step host i = .ok s')
    (hdistinct : i.action.Distinct) : History legacy (ts ++ [⟨s, i, s'⟩]) s' := by
  obtain ⟨hconsistent, heffect, hnow, hnow'⟩ := effect_of_step h.consistent hstep
  refine ⟨hconsistent, h.tracked_step heffect hdistinct, ?_, ?_⟩
  · rcases heffect.invalidations_cases with ⟨hother, hsame⟩ | ⟨account, haction, hinsert⟩
    · rw [hsame]
      exact forall_mem_snoc h.invalidated fun account haction => absurd haction (hother account)
    rw [hinsert]
    refine forall_mem_snoc ?_ ?_
    · intro u hu acc hacc
      obtain ⟨last, hlast, hle⟩ := h.invalidated u hu acc hacc
      rw [FlatMap.find?_insert]
      split_ifs with heq
      · exact ⟨_, rfl, hle.trans ((h.past acc last hlast).trans hnow)⟩
      · exact ⟨last, hlast, hle⟩
    · simp_all
  · intro acc last hlast
    rw [hnow']
    rcases heffect.invalidations_cases with ⟨-, hsame⟩ | ⟨account, -, hinsert⟩
    · exact (h.past acc last (hsame ▸ hlast)).trans hnow
    rw [hinsert, FlatMap.find?_insert] at hlast
    split_ifs at hlast with heq
    · exact (Option.some.inj hlast).ge
    · exact (h.past acc last hlast).trans hnow

theorem history_of_run (hrun : MsigRun host legacy ts s)
    (hdistinct : ∀ u ∈ ts, u.label.action.Distinct) (hlegacy : legacy.Distinct) :
    History legacy ts s :=
  hrun.invariant_of_forall (I := History legacy) hdistinct (.initial hlegacy)
    fun _ _ _ _ _ h hstep hcond => h.step hstep hcond

/-! ## Executions -/

theorem Granted.approved_of_stands {a : Approval} (h : History legacy ts s)
    (hgranted : Granted legacy ts proposer proposalName since a) (hstands : s.stands a = true) :
    Approved legacy ts proposer proposalName since a.level := by
  have hlate : ∀ u ∈ ts, u.label.action = .invalidate a.level.actor →
      u.label.context.now < a.time := by
    intro u hu haction
    obtain ⟨last, hlast, hle⟩ := h.invalidated u hu _ haction
    rw [Multisig.stands, hlast] at hstands
    exact lt_of_le_of_lt hle (of_decide_eq_true hstands)
  cases hgranted with
  | approved hsince haction hkept htime =>
    exact .approved hsince haction hkept fun u hu hu' => (hlate u hu hu').trans_le htime
  | legacy hsince happs hprovided hkept htime =>
    refine .legacy hsince happs hprovided hkept fun u hu hu' => ?_
    have hlt := hlate u hu hu'
    omega

/-- What `t` sends after the transitions `ts`: the bytes of a proposal that is still pending, before
it expires, authorized by levels that were requested and have approved. -/
def SendsApproved (host : Host) (legacy : LegacyTables) (ts : List MsigTransition)
    (t : MsigTransition) : Prop :=
  ∃ proposer proposalName executer packed requested since levels expiration,
    t.label.action = .exec proposer proposalName executer ∧
    t.after.deferred =
      t.before.deferred ++ [⟨toLex (proposer, proposalName), executer, packed⟩] ∧
    Origin legacy ts proposer proposalName requested packed since ∧
    Pending proposer proposalName since ∧
    host.expiration packed = some expiration ∧ t.label.context.nowSec ≤ expiration ∧
    t.label.context.checkTransactionAuthorization packed levels = true ∧
    ∀ level ∈ levels, level ∈ requested ∧ Approved legacy ts proposer proposalName since level

theorem History.sends (h : History legacy ts s) (hstep : s.step host i = .ok s') :
    s'.deferred = s.deferred ∨ SendsApproved host legacy ts ⟨s, i, s'⟩ := by
  obtain ⟨-, heffect, -⟩ := effect_of_step h.consistent hstep
  generalize hi : i.action = a at heffect
  cases heffect with
  | propose _ _ _ hdeferred => exact .inl hdeferred
  | approve _ _ _ _ _ hdeferred => exact .inl hdeferred
  | unapprove _ _ _ _ hdeferred => exact .inl hdeferred
  | cancel _ _ hdeferred => exact .inl hdeferred
  | exec hsome hexpiration hfresh hauth _ _ hdeferred =>
    obtain ⟨requested, since, htracked⟩ := h.tracked _ _ _ hsome
    refine .inr ⟨_, _, _, _, requested, since, _, _, hi, hdeferred, htracked.origin,
      htracked.pending, hexpiration, hfresh, hauth, ?_⟩
    intro level hlevel
    obtain ⟨a, ha, rfl⟩ := List.mem_map.mp hlevel
    obtain ⟨hprovided, hstands⟩ := List.mem_filter.mp ha
    refine ⟨htracked.perm.mem_iff.mp ?_, (htracked.granted a hprovided).approved_of_stands h hstands⟩
    exact List.mem_append_right _ (List.mem_map_of_mem hprovided)
  | invalidate _ _ hdeferred => exact .inl hdeferred

/-- If no proposal requests a level twice: whatever is sent was approved, and the lists of every
proposal are those of its origin. -/
theorem exec_only_approved (hrun : MsigRun host legacy ts s)
    (hdistinct : ∀ t ∈ ts, t.label.action.Distinct) (hlegacy : legacy.Distinct) :
    (∀ before t after, ts = before ++ t :: after →
      t.after.deferred = t.before.deferred ∨ SendsApproved host legacy before t) ∧
    (∀ proposer proposalName apps,
      s.approvals.find? (toLex (proposer, proposalName)) = some apps →
      ∃ requested packed since, Origin legacy ts proposer proposalName requested packed since ∧
        Pending proposer proposalName since ∧
        ((apps.requestedApprovals ++ apps.providedApprovals).map Approval.level).Perm requested) ∧
    (∀ proposer proposalName apps,
      s.oldApprovals.find? (toLex (proposer, proposalName)) = some apps →
      ∃ requested packed since, Origin legacy ts proposer proposalName requested packed since ∧
        Pending proposer proposalName since ∧
        (apps.requestedApprovals ++ apps.providedApprovals).Perm requested) := by
  have hhistory := history_of_run hrun hdistinct hlegacy
  refine ⟨?_, ?_, ?_⟩
  · rintro before t after rfl
    obtain ⟨hbefore, hstep, -⟩ := hrun.split
    exact (history_of_run hbefore (fun u hu => hdistinct u (by simp [hu])) hlegacy).sends hstep
  · intro proposer proposalName apps happs
    obtain ⟨packed, hproposal, -⟩ := (happs ▸ hhistory.consistent _).of_current
    have hballot : s.ballot (toLex (proposer, proposalName)) =
        some ⟨packed, apps.requestedApprovals.map Approval.level, apps.providedApprovals⟩ := by
      rw [Multisig.ballot, hproposal, happs]
      rfl
    obtain ⟨requested, since, htracked⟩ := hhistory.tracked _ _ _ hballot
    exact ⟨requested, packed, since, htracked.origin, htracked.pending,
      by rw [List.map_append]; exact htracked.perm⟩
  · intro proposer proposalName apps happs
    obtain ⟨packed, hproposal, hnone⟩ := (happs ▸ hhistory.consistent _).of_legacy
    have hballot : s.ballot (toLex (proposer, proposalName)) =
        some ⟨packed, apps.requestedApprovals, apps.providedApprovals.map fun l => ⟨l, 0⟩⟩ := by
      rw [Multisig.ballot, hproposal, hnone, happs]
      rfl
    obtain ⟨requested, since, htracked⟩ := hhistory.tracked _ _ _ hballot
    refine ⟨requested, packed, since, htracked.origin, htracked.pending, ?_⟩
    simpa [Function.comp_def] using htracked.perm

/-! ## A proposal that requests a level twice -/

/-- Reads the expiration in the first four bytes. -/
def sampleHost : Host where
  expiration
    | b₀ :: b₁ :: b₂ :: b₃ :: _ => some
        (b₀.toUInt32 ||| b₁.toUInt32 <<< 8 ||| b₂.toUInt32 <<< 16 ||| b₃.toUInt32 <<< 24)
    | _ => none
  sha256 := fun _ => ⟨0, 0, 0, 0⟩

def sampleLevel : PermissionLevel := ⟨.ofChars ['b', 'o', 'b'], .ofChars ['a', 'c', 't', 'i', 'v', 'e']⟩

/-- In a block of its own, on a chain where the transaction needs the authority of `sampleLevel`. -/
def sampleInput (slot : UInt32) (action : MsigAction) : MsigInput where
  context :=
    { auths := [sampleLevel]
      timestamp := ⟨slot⟩
      checkTransactionAuthorization := fun _ levels => decide (sampleLevel ∈ levels)
      acceptsDeferred := true }
  action := action

def sampleBytes : List UInt8 := [255, 255, 255, 255, 1, 2, 3]

/-- The proposal `n` of the actor of `sampleLevel`, approved once and executed. -/
def approvedInputs : List MsigInput :=
  let bob := sampleLevel.actor
  [sampleInput 1 (.propose bob ⟨7⟩ [sampleLevel] sampleBytes),
    sampleInput 2 (.approve bob ⟨7⟩ sampleLevel none), sampleInput 3 (.exec bob ⟨7⟩ bob)]

theorem exec_only_approved_sample : ∃ ts s, MsigRun sampleHost .empty ts s ∧
    (∀ t ∈ ts, t.label.action.Distinct) ∧ LegacyTables.empty.Distinct ∧ s.deferred ≠ [] ∧
    ∀ before t after, ts = before ++ t :: after →
      t.after.deferred = t.before.deferred ∨ SendsApproved sampleHost .empty before t := by
  have hlegacy : LegacyTables.empty.Distinct := by
    intro key apps happs
    simp [LegacyTables.empty] at happs
  obtain ⟨ts, s, hrun, hlabels, hsent⟩ := exists_run_of_exec_labels (Multisig.step sampleHost)
    LegacyTables.empty.initial approvedInputs (fun _ s => s.deferred.isEmpty == false)
    (by decide +kernel)
  have hdistinct : ∀ t ∈ ts, t.label.action.Distinct := by
    intro t ht
    have hmem : t.label ∈ approvedInputs := hlabels ▸ List.mem_map_of_mem ht
    have hall : ∀ i ∈ approvedInputs, i.action.Distinct := by
      simp [approvedInputs, sampleInput, MsigAction.Distinct]
    exact hall _ hmem
  exact ⟨ts, s, hrun, hdistinct, hlegacy, by simpa using hsent,
    (exec_only_approved hrun hdistinct hlegacy).1⟩

/-- The same level requested twice, approving twice and unapproving once. -/
def twiceRequestedInputs : List MsigInput :=
  let bob := sampleLevel.actor
  [sampleInput 1 (.propose bob ⟨7⟩ [sampleLevel, sampleLevel] sampleBytes),
    sampleInput 2 (.approve bob ⟨7⟩ sampleLevel none),
    sampleInput 3 (.approve bob ⟨7⟩ sampleLevel none),
    sampleInput 4 (.unapprove bob ⟨7⟩ sampleLevel), sampleInput 5 (.exec bob ⟨7⟩ bob)]

theorem not_approved_of_unapprove
    (haction : t.label.action = .unapprove proposer proposalName level)
    (horigin : Origin legacy (ts ++ [t]) proposer proposalName requested packed since) :
    ¬ Approved legacy (ts ++ [t]) proposer proposalName since level := by
  intro happroved
  cases happroved with
  | legacy _ _ _ hkept _ => exact hkept t (by simp) haction
  | @approved before after u hash hsince hu hkept _ =>
    -- the approval or something after it is the last transition
    have hlast : ∃ earlier, ts ++ [t] = earlier ++ u :: after := by
      cases horigin with
      | proposed hts _ => exact ⟨_, by rw [hts, hsince]; exact (List.append_assoc _ (_ :: _) _).symm⟩
      | legacy _ _ => exact ⟨before, hsince⟩
    obtain ⟨earlier, hearlier⟩ := hlast
    rcases List.eq_nil_or_concat after with rfl | ⟨init, v, rfl⟩
    · simp_all
    have heq : ts ++ [t] = (earlier ++ u :: init) ++ [v] := by simpa using hearlier
    obtain ⟨-, htv⟩ := List.append_inj' heq rfl
    obtain rfl : t = v := by simpa using htv
    exact hkept t (by simp) haction

/-- The proposal is executed with the authority of a level that has unapproved it. -/
theorem exec_after_unapprove : ∃ ts s before t, MsigRun sampleHost .empty ts s ∧
    ts.map (·.label) = twiceRequestedInputs ∧ ts = before ++ [t] ∧
    t.after.deferred ≠ t.before.deferred ∧ ¬ SendsApproved sampleHost .empty before t := by
  obtain ⟨ts, s, hrun, hlabels, hsent⟩ := exists_run_of_exec_labels (Multisig.step sampleHost)
    LegacyTables.empty.initial twiceRequestedInputs
    (fun ts _ => ts.getLast?.any fun t : MsigTransition => t.after.deferred ≠ t.before.deferred)
    (by decide +kernel)
  obtain ⟨t₁, t₂, t₃, t₄, t₅, rfl⟩ : ∃ t₁ t₂ t₃ t₄ t₅, ts = [t₁, t₂, t₃, t₄, t₅] := by
    have hlength : ts.length = 5 := by
      rw [← List.length_map (f := Transition.label), hlabels]
      rfl
    match ts, hlength with
    | [t₁, t₂, t₃, t₄, t₅], _ => exact ⟨t₁, t₂, t₃, t₄, t₅, rfl⟩
  refine ⟨_, s, [t₁, t₂, t₃, t₄], t₅, hrun, hlabels, rfl, by simpa using hsent, ?_⟩
  simp only [List.map_cons, List.map_nil, twiceRequestedInputs, List.cons.injEq, and_true] at hlabels
  obtain ⟨-, -, -, h₄, h₅⟩ := hlabels
  rintro ⟨proposer, proposalName, executer, packed, requested, since, levels, expiration, haction, -,
    horigin, -, -, -, hauth, hlevels⟩
  rw [h₅] at haction hauth
  cases haction
  have hmem : sampleLevel ∈ levels := of_decide_eq_true hauth
  have horigin' : Origin .empty ([t₁, t₂, t₃] ++ [t₄]) _ _ requested packed since := horigin
  exact not_approved_of_unapprove (by rw [h₄]; rfl) horigin' (hlevels _ hmem).2

end DcdProtocol.Msig
