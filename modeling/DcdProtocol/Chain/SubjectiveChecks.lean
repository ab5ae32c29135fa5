import DcdProtocol.Chain.ApplyContext
import DcdProtocol.Chain.AuthorizationSoundness

/-!
# Subjective checks only restrict production

A block is executed once by the node that produces it and again by every node that validates it.
The functions by which an action sends inline actions and deferred transactions ask in several
places which of the two the node does, and read settings that differ from node to node.

All of these places turn the same way.  The lists of actors, the limit on the size of an action,
the rule on replacing a deferred transaction and the one on storage billed in a notification are
checks that only the producer makes.  A failed check of authorizations that a validating node
drops is an exception where the block is produced.  The inherited authorizations, finally, that
only the producer passes to `check_authorization`, do not change its result, since they only keep
entries out of the map of permissions to satisfy (`checkAuthorization_eq`).  So what the producer
sends, a validating node sends as well.
-/

namespace DcdProtocol.Chain

open Library

/-! ## The authorization check -/

namespace AuthorizationManager

variable (m : AuthorizationManager) {i i' : AuthorizationInput}

/-- Neither the special cases nor the delay depend on the authorizations that are satisfied. -/
theorem checkSpecialCase_eq (hdelay : i.providedDelay = i'.providedDelay) (act : Action) :
    m.checkSpecialCase i act = m.checkSpecialCase i' act := by
  have heffective : m.effectiveProvidedDelay i = m.effectiveProvidedDelay i' := by
    rw [effectiveProvidedDelay, effectiveProvidedDelay, hdelay]
  unfold checkSpecialCase
  rw [heffective]

theorem related_addDeclared (act : Action) (special : Bool) (delay : ℤ) (level : PermissionLevel)
    (pts pts' : PermissionsToSatisfy) :
    Related (fun _ _ => True) (m.addDeclared i act special delay pts level)
      (m.addDeclared i' act special delay pts' level) := by
  unfold addDeclared
  by_cases hspecial : special = false
  · rw [if_pos hspecial, if_pos hspecial]
    exact (Related.refl _).bind fun _ _ _ => .pure trivial
  · rw [if_neg hspecial, if_neg hspecial]
    exact .pure trivial

theorem checkAuthorization_eq (hactions : i.actions = i'.actions)
    (hdelay : i.providedDelay = i'.providedDelay) :
    m.checkAuthorization i = m.checkAuthorization i' := by
  have hloops : Related (fun _ _ => True) (m.permissionsToSatisfy i) (m.permissionsToSatisfy i') := by
    unfold permissionsToSatisfy
    rw [hactions]
    refine .foldlM trivial fun act pts pts' _ => ?_
    unfold addAction
    rw [m.checkSpecialCase_eq hdelay]
    refine (Related.refl _).bind ?_
    rintro special _ rfl
    exact .foldlM trivial fun level pts pts' _ => m.related_addDeclared ..
  exact hloops.map_eq (f := fun _ => ()) (g := fun _ => ()) fun _ _ _ => rfl

end AuthorizationManager

/-! ## The places that ask -/

namespace ApplyContext

variable {p v : NodeSettings} {c c' : ApplyContext} {ep ev : Bool}

variable {a : Action} {payer : Name} {trx : Transaction} {u : Unit}
  {check : Except ChainException Unit} {replaceExisting : Bool} {db : TransactionDatabase}
  {senderId : BitVec 128} {toSelf : Bool} {what : String}

theorem ok_of_bypassForSelf (hp : p.isProducingBlock = true)
    (hok : c.bypassForSelf p toSelf what check = .ok u) : check = .ok u := by
  unfold bypassForSelf at hok
  split at hok
  · rfl
  · rw [if_pos hp] at hok
    split at hok <;> cases hok

theorem bypassForSelf_of_ok (hok : check = .ok u) :
    c.bypassForSelf v toSelf what check = .ok u := by
  rw [hok]
  rfl

theorem not_skipAuthCheck_of_producing (hp : p.isProducingBlock = true) :
    p.skipAuthCheck = false := by
  have hstatus : p.blockStatus = .incomplete := of_decide_eq_true hp
  simp [NodeSettings.skipAuthCheck, NodeSettings.lightValidationAllowed, hstatus]

/-- A part that is skipped on the same condition, up to checks the validating node may skip. -/
theorem skipped_of_producing (hp : p.isProducingBlock = true) {x y : Except ChainException Unit} (hxy : x = .ok u → y = .ok u)
    (hok : (if p.skipAuthCheck = false ∧ c.privileged = false then x else pure ()) = .ok u) :
    (if v.skipAuthCheck = false ∧ c.privileged = false then y else pure ()) = .ok u := by
  split_ifs with hchecks
  · rw [if_pos ⟨not_skipAuthCheck_of_producing hp, hchecks.2⟩] at hok
    exact hxy hok
  · rfl

/-! ### Inline actions -/

theorem checkInlineActors_of_validating (hv : v.isProducingBlock = false) (a : Action) :
    checkInlineActors v ev a = .ok () := by
  rw [checkInlineActors, if_neg]
  · rfl
  · grind

theorem assertInlineActionSize_of_validating (hv : v.isProducingBlock = false) (a : Action) :
    c.assertInlineActionSize v a = .ok () := by
  rw [assertInlineActionSize, if_neg]
  · rfl
  · grind

theorem authorizeInline_of_producing (hp : p.isProducingBlock = true)
    (hok : c.authorizeInline p a = .ok u) : c.authorizeInline v a = .ok u := by
  refine skipped_of_producing hp (fun hcheck => ?_) hok
  apply bypassForSelf_of_ok
  -- the validating node passes no inherited authorizations
  rw [← ok_of_bypassForSelf hp hcheck]
  exact c.db.authorizationManager.checkAuthorization_eq rfl rfl

theorem executeInline_of_producing (hp : p.isProducingBlock = true)
    (hv : v.isProducingBlock = false) (hok : c.executeInline p ep a = .ok c') :
    c.executeInline v ev a = .ok c' := by
  simp only [executeInline, bind_ok_iff] at hok ⊢
  obtain ⟨_, haccount, _, hauths, _, -, _, -, _, hcheck, hsend⟩ := hok
  exact ⟨_, haccount, _, hauths, _, checkInlineActors_of_validating hv a, _,
    assertInlineActionSize_of_validating hv a, _, authorizeInline_of_producing hp hcheck, hsend⟩

theorem executeContextFreeInline_of_producing (hv : v.isProducingBlock = false)
    (hok : c.executeContextFreeInline p a = .ok c') :
    c.executeContextFreeInline v a = .ok c' := by
  simp only [executeContextFreeInline, bind_ok_iff] at hok ⊢
  obtain ⟨_, haccount, _, hauths, _, -, hsend⟩ := hok
  exact ⟨_, haccount, _, hauths, _, assertInlineActionSize_of_validating hv a, hsend⟩

/-! ### Deferred transactions -/

/-- Without context-free actions, the accounts are checked alike, and the actors only by the
producer. -/
theorem validateReferencedAccounts_of_producing
    {enforce : Bool} (hcontextFree : trx.contextFreeActions.length = 0)
    (hok : db.validateReferencedAccounts p trx enforce = .ok u) :
    db.validateReferencedAccounts v trx false = .ok u := by
  have hnone : db.validateContextFreeActions v trx = .ok () := by
    rw [TransactionDatabase.validateContextFreeActions, List.length_eq_zero_iff.mp hcontextFree]
    split_ifs <;> rfl
  simp only [TransactionDatabase.validateReferencedAccounts, bind_ok_iff] at hok ⊢
  obtain ⟨_, -, _, hactions, _, hauths, -⟩ := hok
  exact ⟨_, hnone, _, hactions, _, hauths, rfl⟩

theorem authorizeDeferred_of_producing (hp : p.isProducingBlock = true) (hok : c.authorizeDeferred p payer trx = .ok u) :
    c.authorizeDeferred v payer trx = .ok u := by
  refine skipped_of_producing hp (fun hcheck => ?_) hok
  obtain ⟨_, hpayer, hcheck⟩ := bind_ok_iff.mp hcheck
  exact bind_ok_iff.mpr ⟨_, hpayer, bypassForSelf_of_ok (ok_of_bypassForSelf hp hcheck)⟩

theorem storeDeferred_of_producing (hv : v.isProducingBlock = false)
    (hok : c.storeDeferred p senderId payer trx replaceExisting = .ok db) :
    c.storeDeferred v senderId payer trx replaceExisting = .ok db := by
  unfold storeDeferred at hok ⊢
  split at hok
  · simp only [bind_ok_iff, dcdAssert_ok_iff] at hok ⊢
    obtain ⟨_, hreplace, _, -, hstore⟩ := hok
    exact ⟨(), hreplace, (), .inr (.inl hv), hstore⟩
  · exact hok

theorem scheduleDeferredTransaction_of_producing (hp : p.isProducingBlock = true)
    (hv : v.isProducingBlock = false)
    (hok : c.scheduleDeferredTransaction p ep senderId payer trx replaceExisting = .ok c') :
    c.scheduleDeferredTransaction v ev senderId payer trx replaceExisting = .ok c' := by
  have henforce : (ev && v.isProducingBlock &&
      !v.senderAvoidsWhitelistBlacklistEnforcement c.receiver) = false := by grind
  have hnotify : v.isRamBillingInNotifyAllowed = true := by
    rw [NodeSettings.isRamBillingInNotifyAllowed, hv]
    simp
  simp only [scheduleDeferredTransaction, henforce, bind_ok_iff, dcdAssert_ok_iff] at hok ⊢
  obtain ⟨_, hcontextFree, _, haccounts, trx', htrx', _, hauth, db, hstore, _, -, hsend⟩ := hok
  exact ⟨(), hcontextFree, _, validateReferencedAccounts_of_producing hcontextFree haccounts, trx',
    htrx', _, authorizeDeferred_of_producing hp hauth, db, storeDeferred_of_producing hv hstore, (),
    .inr (.inl hnotify), hsend⟩

/-- Whatever an action sends on the node that produces the block, it sends on a node that validates
it: the same action is scheduled, and the same generated transaction stored. -/
theorem sends_of_producing (c : ApplyContext) (hp : p.isProducingBlock = true)
    (hv : v.isProducingBlock = false) (ep ev : Bool) :
    (∀ a c', c.executeInline p ep a = .ok c' → c.executeInline v ev a = .ok c') ∧
      (∀ a c', c.executeContextFreeInline p a = .ok c' →
        c.executeContextFreeInline v a = .ok c') ∧
      ∀ senderId payer trx replaceExisting c',
        c.scheduleDeferredTransaction p ep senderId payer trx replaceExisting = .ok c' →
        c.scheduleDeferredTransaction v ev senderId payer trx replaceExisting = .ok c' :=
  ⟨fun _ _ hok => executeInline_of_producing hp hv hok,
    fun _ _ hok => executeContextFreeInline_of_producing hv hok,
    fun _ _ _ _ _ hok => scheduleDeferredTransaction_of_producing hp hv hok⟩

/-- A contract executes an action that its own account has authorized. -/
def sampleContext : ApplyContext where
  codec := ⟨fun trx => { h0 := trx.delaySec.toUInt64 }, fun _ => [], fun _ => none⟩
  receiver := ⟨1⟩
  act := ⟨⟨1⟩, ⟨5⟩, [⟨⟨1⟩, activeName⟩], []⟩
  trxId := {}
  published := 0
  pendingBlockTime := 0
  headBlockId := {}
  db := { accounts := [⟨1⟩, ⟨3⟩], authorization := AuthorizationManager.sampleManager }

/-- It sends an action to itself and defers one for a second; both are sent where the block is
validated. -/
theorem sends_of_producing_self :
    (∃ c', sampleContext.executeInline { blockStatus := .complete } true
        ⟨⟨1⟩, ⟨4⟩, [⟨⟨1⟩, activeName⟩], []⟩ = .ok c' ∧ c'.inlineActions = [1]) ∧
      ∃ c', sampleContext.scheduleDeferredTransaction { blockStatus := .complete } true 7 ⟨1⟩
          { delaySec := 1, actions := [⟨⟨3⟩, ⟨4⟩, [⟨⟨1⟩, activeName⟩], []⟩] } false = .ok c' ∧
        c'.db.generated.map (·.delayUntil) = [1000000] := by
  have hsends := sends_of_producing (p := { blockStatus := .incomplete })
    (v := { blockStatus := .complete }) sampleContext rfl rfl true true
  exact ⟨⟨_, hsends.1 _ _ rfl, rfl⟩, ⟨_, hsends.2.2 _ _ _ _ _ rfl, rfl⟩⟩

end ApplyContext

end DcdProtocol.Chain
