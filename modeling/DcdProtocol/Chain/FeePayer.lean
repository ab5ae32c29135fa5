import DcdProtocol.Chain.ChainNode

/-!
# Who pays a fee

The `onfee` action names the first authorizer of the transaction as the payer and is not checked
itself.  Whether the payer has agreed therefore depends on the check of the transaction, which was
made when it was pushed, or when a contract sent it.  The invariant `Accounted` carries that check to
the execution: each fee, each waiting delayed transaction and each deferred transaction of an
unprivileged contract has its record in `checks`.

A record only says that `check_authorization` was called and that its caller went on.  The
verification of the permissions is not part of `check_authorization`, and a contract that sends to
itself goes on after a failed check where the block is validated.  So the payer has authorized the
transaction where all recorded checks would pass the verification (`Verified`).
-/

namespace DcdProtocol.Chain

open Library List

/-- The record of a check of an input transaction, whose permissions have to come from keys. -/
structure AuthorizationRecord.CoversInput (r : AuthorizationRecord) (actions : List Action) :
    Prop where
  actions : r.input.actions = actions
  providedPermissions : r.input.providedPermissions = []
  satisfied : r.input.satisfiedAuthorizations = []

/-- The check passes the verification of its permissions, which the source leaves out. -/
def AuthorizationRecord.Verified (r : AuthorizationRecord) : Prop :=
  ∃ pts, r.manager.permissionsToSatisfy r.input = .ok pts ∧
    r.manager.verifyPermissions r.input pts = .ok ()

namespace TransactionState

structure Accounted (s : TransactionState) : Prop where
  sent : ∀ p ∈ s.sends, p.1.sender ≠ ⟨0⟩ ∧ (p.2 = false → ∃ r ∈ s.checks, r.CoversSend p.1)
  waiting : ∀ g ∈ s.db.generated, g.sender = ⟨0⟩ → ∃ r ∈ s.checks, r.CoversInput g.trx.actions
  payer : ∀ f ∈ s.fees, ∃ act ∈ f.actions, ∃ level ∈ act.authorization, level.actor = f.payer
  generated : ∀ f ∈ s.fees, ∀ g ∈ f.generated, f.actions = g.trx.actions
  input : ∀ f ∈ s.fees, (∀ g ∈ f.generated, g.sender = ⟨0⟩) →
    ∃ r ∈ s.checks, r.CoversInput f.actions

variable {codec : TransactionCodec} {n : NodeSettings} {c : TransactionContext}
  {s s' : TransactionState} {trx : Transaction} {fee : Option (Name × Int64)} {f : FeeCharge}

/-! ## One operation -/

theorem Accounted.transfer (h : s.Accounted) (hfees : s'.fees = s.fees)
    (hchecks : ∀ r ∈ s.checks, r ∈ s'.checks) (hsent : ∀ p ∈ s'.sends, p ∈ s.sends ∨
      p.1.sender ≠ ⟨0⟩ ∧ (p.2 = false → ∃ r ∈ s'.checks, r.CoversSend p.1))
    (hwaiting : ∀ g ∈ s'.db.generated, g.sender = ⟨0⟩ → g ∈ s.db.generated ∨
      ∃ r ∈ s'.checks, r.CoversInput g.trx.actions) : s'.Accounted := by
  have hkept {P : AuthorizationRecord → Prop} : (∃ r ∈ s.checks, P r) → ∃ r ∈ s'.checks, P r :=
    fun ⟨r, hr, hP⟩ => ⟨r, hchecks r hr, hP⟩
  constructor
  · intro p hp
    rcases hsent p hp with hp | hnew
    · obtain ⟨hsender, hcheck⟩ := h.sent p hp
      exact ⟨hsender, fun hunprivileged => hkept (hcheck hunprivileged)⟩
    · exact hnew
  · intro g hg hsender
    rcases hwaiting g hg hsender with hg | hnew
    · exact hkept (h.waiting g hg hsender)
    · exact hnew
  · exact hfees ▸ h.payer
  · exact hfees ▸ h.generated
  · intro f hf hinput
    exact hkept (h.input f (hfees ▸ hf) hinput)

theorem scheduleFeeAction_payer {f : Name × Int64} (hok : s.scheduleFeeAction trx = .ok (some f)) :
    ∃ act ∈ trx.actions, ∃ level ∈ act.authorization, level.actor = f.1 := by
  unfold scheduleFeeAction at hok
  split at hok
  next => cases hok
  next act acts hacts =>
    split at hok
    next => cases hok
    next level levels hlevels =>
      obtain ⟨_, -, hok⟩ := bind_ok_iff.mp hok
      refine ⟨act, hacts ▸ mem_cons_self, level, hlevels ▸ mem_cons_self, ?_⟩
      split_ifs at hok
      · cases pure_ok_iff.mp hok
      split at hok
      next => cases hok
      next amount _ =>
        have hsome := pure_ok_iff.mp hok
        split_ifs at hsome
        exact congrArg Prod.fst (Option.some.inj hsome)

theorem Accounted.chargeFee (h : s.Accounted) (hfee : ∀ f ∈ fee, s.scheduleFeeAction trx = .ok fee)
    (hgenerated : ∀ g ∈ c.generated, trx = g.trx)
    (hinput : (∀ g ∈ c.generated, g.sender = ⟨0⟩) → ∃ r ∈ s.checks, r.CoversInput trx.actions) :
    (s.chargeFee c trx fee).Accounted := by
  cases fee with
  | none => exact h
  | some f =>
    have hpayer := scheduleFeeAction_payer (hfee f rfl)
    constructor
    · exact h.sent
    · exact h.waiting
    · intro x hx
      rcases mem_append.mp hx with hx | hx
      · exact h.payer x hx
      · grind
    · intro x hx g hg
      rcases mem_append.mp hx with hx | hx
      · exact h.generated x hx g hg
      · grind
    · intro x hx hsender
      rcases mem_append.mp hx with hx | hx
      · exact h.input x hx hsender
      · obtain rfl := mem_singleton.mp hx
        exact hinput hsender

theorem AuthorizationRecord.Verified.satisfied {r : AuthorizationRecord} (hr : r.Verified)
    (hsatisfied : r.input.satisfiedAuthorizations = []) {act : Action} {level : PermissionLevel}
    (hact : act ∈ r.input.actions) (hlevel : level ∈ act.authorization) :
    ∃ delay, r.manager.Required r.input level delay ∧
      ((r.manager.checker r.input).satisfied delay level ∅).1 = true := by
  obtain ⟨pts, hpts, hverify⟩ := hr
  obtain ⟨delay, hrequired⟩ := AuthorizationManager.exists_required (m := r.manager) hact hlevel
    (hsatisfied ▸ not_mem_nil)
  have hauthorized := ((AuthorizationManager.verifyPermissions_ok_iff hpts).mp hverify).1
  exact ⟨delay, hrequired, hauthorized level delay hrequired⟩

end TransactionState

end DcdProtocol.Chain
