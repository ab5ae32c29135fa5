import DcdProtocol.Library.FlatMap
import DcdProtocol.Chain.Types

/-!
# The authority checker

`authority_checker` decides whether keys, permissions and a delay satisfy an authority.  It adds
up the weights of the factors it recognizes, the heaviest first, and stops at the threshold.  A
factor that names a permission is looked up in a cache, or else checked recursively, to a limited
depth; an entry that is being evaluated counts as unsatisfied, which ends the cycles.

On the way the checker marks the keys it uses, and takes back the marks of an authority that
turns out unsatisfied.  The marks are only written: `satisfied_used` says that the verdict does
not depend on the keys marked before, and that the call adds the same keys to any of them.  So
one checker can be used for several permissions in turn.
-/

namespace DcdProtocol.Chain

open Library

/-! ## Authorities -/

structure PermissionLevel where
  actor : Name
  permission : Name
  deriving DecidableEq, Repr

instance : LinearOrder PermissionLevel :=
  .lift' (fun level => toLex (level.actor, level.permission)) fun a b h => by
    obtain ⟨hactor, hpermission⟩ := Prod.mk.inj (toLex.injective h)
    cases a
    cases b
    simp_all

structure PermissionLevelWeight where
  permission : PermissionLevel
  weight : UInt16
  deriving DecidableEq, Repr

structure WaitWeight where
  waitSec : UInt32
  weight : UInt16
  deriving DecidableEq, Repr

structure Authority where
  threshold : UInt32
  keys : List KeyWeight
  accounts : List PermissionLevelWeight := []
  waits : List WaitWeight := []
  deriving DecidableEq, Repr

/-- `fc::seconds`, as microseconds. -/
def seconds (n : UInt32) : ℤ := n.toNat * 1000000

/-- `fc::microseconds::maximum()`. -/
def maximumMicroseconds : ℤ := 2 ^ 63 - 1

/-! ## The factors of an authority -/

/-- An entry of `meta_permission_map`. -/
inductive MetaPermission
  | account (a : PermissionLevelWeight)
  | key (k : KeyWeight)
  | wait (w : WaitWeight)

namespace MetaPermission

def weight : MetaPermission → UInt16
  | account a => a.weight
  | key k => k.weight
  | wait w => w.weight

def priority : MetaPermission → ℕ
  | account _ => 1
  | key _ => 2
  | wait _ => 3

/-- The order of the keys of `meta_permission_map`. -/
def Before (m n : MetaPermission) : Prop :=
  n.weight < m.weight ∨ n.weight = m.weight ∧ n.priority < m.priority

instance (m n : MetaPermission) : Decidable (m.Before n) :=
  inferInstanceAs (Decidable (_ ∨ _ ∧ _))

/-- `emplace` of a multimap: after the entries with the same key. -/
def emplace (m : MetaPermission) : List MetaPermission → List MetaPermission
  | [] => [m]
  | n :: ns => if m.Before n then m :: n :: ns else n :: emplace m ns

end MetaPermission

/-- The factors of an authority in the order in which they are checked. -/
def Authority.permissions (authority : Authority) : List MetaPermission :=
  (authority.accounts.map MetaPermission.account ++ authority.keys.map MetaPermission.key ++
    authority.waits.map MetaPermission.wait).foldl (fun ms m => m.emplace ms) []

/-! ## The checker -/

inductive PermissionCacheStatus
  | beingEvaluated
  | permissionUnsatisfied
  | permissionSatisfied
  deriving DecidableEq, Repr

abbrev PermissionCache := FlatMap PermissionLevel PermissionCacheStatus

/-- `permission_status_in_cache`; the empty permission stands for every one of its actor. -/
def permissionStatusInCache (permissions : PermissionCache) (level : PermissionLevel) :
    Option PermissionCacheStatus :=
  permissions.find? level <|> permissions.find? ⟨level.actor, ⟨0⟩⟩

/-- What does not change while a checker is used.  `permissionToAuthority` is `none` where the
source throws a `permission_query_exception`. -/
structure AuthorityChecker where
  permissionToAuthority : PermissionLevel → Option Authority
  recursionDepthLimit : UInt16
  providedKeys : List PublicKey
  providedPermissions : List PermissionLevel

/-- The cache, and the provided keys that are marked in `_used_keys`. -/
structure CheckState where
  cache : PermissionCache
  usedKeys : Finset PublicKey

/-- The state of a `weight_tally_visitor`. -/
structure Tally extends CheckState where
  totalWeight : UInt32

def Tally.add (t : Tally) (weight : UInt16) : Tally :=
  { t with totalWeight := t.totalWeight + weight.toUInt32 }

namespace AuthorityChecker

variable (c : AuthorityChecker) (delay : ℤ)

/-- `satisfied( authority, cached_permissions, depth )` at some depth. -/
abbrev Check := Authority → CheckState → Bool × CheckState

def visitWait (w : WaitWeight) (t : Tally) : Tally :=
  if seconds w.waitSec ≤ delay then t.add w.weight else t

def visitKey (k : KeyWeight) (t : Tally) : Tally :=
  if k.key ∈ c.providedKeys then
    { t.add k.weight with usedKeys := insert k.key t.usedKeys }
  else t

/-- The visit of a permission that is not in the cache; `deeper` checks its authority. -/
def visitAuthority (deeper : Check) (a : PermissionLevelWeight) (auth : Authority) (t : Tally) :
    Tally :=
  let (r, s) := deeper auth { t with cache := t.cache.emplace a.permission .beingEvaluated }
  if r then
    { s with cache := s.cache.insert a.permission .permissionSatisfied
             totalWeight := t.totalWeight + a.weight.toUInt32 }
  else
    { s with cache := s.cache.insert a.permission .permissionUnsatisfied
             totalWeight := t.totalWeight }

/-- `deeper` is `none` at the recursion depth limit. -/
def visitAccount (deeper : Option Check) (a : PermissionLevelWeight) (t : Tally) : Tally :=
  match permissionStatusInCache t.cache a.permission with
  | none =>
    match deeper, c.permissionToAuthority a.permission with
    | some deeper, some auth => visitAuthority deeper a auth t
    | _, _ => t
  | some .permissionSatisfied => t.add a.weight
  | some _ => t

/-- `weight_tally_visitor`. -/
def visit (deeper : Option Check) : MetaPermission → Tally → Tally
  | .account a => c.visitAccount deeper a
  | .key k => c.visitKey k
  | .wait w => visitWait delay w

/-- The loop over the factors, until the threshold is reached. -/
def tallyLoop (visit : MetaPermission → Tally → Tally) (threshold : UInt32) :
    List MetaPermission → Tally → Bool × Tally
  | [], t => (false, t)
  | m :: ms, t =>
    if threshold ≤ (visit m t).totalWeight then (true, visit m t)
    else tallyLoop visit threshold ms (visit m t)

/-- Without the threshold, the marks are those from before. -/
def satisfiedAuthority (deeper : Option Check) : Check := fun authority s =>
  let (r, t) := tallyLoop (c.visit delay deeper) authority.threshold authority.permissions
    { s with totalWeight := 0 }
  (r, { cache := t.cache, usedKeys := if r then t.usedKeys else s.usedKeys })

/-- The check with `n` levels of recursion left. -/
def checkAt : ℕ → Option Check
  | 0 => none
  | n + 1 => some (c.satisfiedAuthority delay (checkAt n))

def initializePermissionCache : PermissionCache :=
  c.providedPermissions.foldl (fun cache p => cache.emplace p .permissionSatisfied) .empty

/-- `satisfied( permission, override_provided_delay )`: the verdict, and the keys marked after
it when `used` are marked before. -/
def satisfied (permission : PermissionLevel) (used : Finset PublicKey) :
    Bool × Finset PublicKey :=
  let t := c.visitAccount (c.checkAt delay c.recursionDepthLimit.toNat) ⟨permission, 1⟩
    { cache := c.initializePermissionCache, usedKeys := used, totalWeight := 0 }
  (decide (0 < t.totalWeight), t.usedKeys)

end AuthorityChecker

/-! ## The marks -/

def CheckState.addUsed (marks : Finset PublicKey) (s : CheckState) : CheckState :=
  { s with usedKeys := marks ∪ s.usedKeys }

def Tally.addUsed (marks : Finset PublicKey) (t : Tally) : Tally :=
  { t with usedKeys := marks ∪ t.usedKeys }

namespace AuthorityChecker

/-- A check that does not read the marks: keys marked before are marked after, besides those the
check adds. -/
def IgnoresMarks (check : Check) : Prop :=
  ∀ marks authority s,
    check authority (s.addUsed marks) =
      ((check authority s).1, (check authority s).2.addUsed marks)

variable {c : AuthorityChecker} {delay : ℤ} {marks : Finset PublicKey} {deeper : Option Check}

theorem visitKey_addUsed (k : KeyWeight) (t : Tally) :
    c.visitKey k (t.addUsed marks) = (c.visitKey k t).addUsed marks := by
  unfold visitKey
  split_ifs
  · simp [Tally.addUsed, Tally.add]
  · rfl

theorem visitAuthority_addUsed {deeper : Check} (hdeeper : IgnoresMarks deeper)
    (a : PermissionLevelWeight) (auth : Authority) (t : Tally) :
    visitAuthority deeper a auth (t.addUsed marks) =
      (visitAuthority deeper a auth t).addUsed marks := by
  have hcheck : deeper auth
        { t.addUsed marks with cache := t.cache.emplace a.permission .beingEvaluated } = _ :=
    hdeeper marks auth { t with cache := t.cache.emplace a.permission .beingEvaluated }
  have hcache : (t.addUsed marks).cache = t.cache := rfl
  simp only [visitAuthority, hcache, hcheck]
  split_ifs <;> rfl

theorem visitAccount_addUsed
    (hdeeper : ∀ check, deeper = some check → IgnoresMarks check) (a : PermissionLevelWeight)
    (t : Tally) :
    c.visitAccount deeper a (t.addUsed marks) = (c.visitAccount deeper a t).addUsed marks := by
  have hcache : (t.addUsed marks).cache = t.cache := rfl
  unfold visitAccount
  rw [hcache]
  cases permissionStatusInCache t.cache a.permission with
  | none =>
    cases deeper with
    | none => rfl
    | some check =>
      cases c.permissionToAuthority a.permission with
      | none => rfl
      | some auth => exact visitAuthority_addUsed (hdeeper check rfl) a auth t
  | some status => cases status <;> rfl

theorem visit_addUsed
    (hdeeper : ∀ check, deeper = some check → IgnoresMarks check) (m : MetaPermission) (t : Tally) :
    c.visit delay deeper m (t.addUsed marks) = (c.visit delay deeper m t).addUsed marks := by
  cases m with
  | account a => exact visitAccount_addUsed hdeeper a t
  | key k => exact visitKey_addUsed k t
  | wait w =>
    show visitWait delay w _ = (visitWait delay w t).addUsed marks
    unfold visitWait
    split_ifs <;> rfl

theorem tallyLoop_addUsed {visit : MetaPermission → Tally → Tally} {threshold : UInt32}
    (hvisit : ∀ m t, visit m (t.addUsed marks) = (visit m t).addUsed marks)
    (ms : List MetaPermission) (t : Tally) :
    tallyLoop visit threshold ms (t.addUsed marks) =
      ((tallyLoop visit threshold ms t).1, (tallyLoop visit threshold ms t).2.addUsed marks) := by
  induction ms generalizing t with
  | nil => rfl
  | cons m ms ih =>
    have hweight : ((visit m t).addUsed marks).totalWeight = (visit m t).totalWeight := rfl
    simp only [tallyLoop, hvisit, hweight]
    split_ifs
    · rfl
    · exact ih _

theorem satisfiedAuthority_ignoresMarks
    (hdeeper : ∀ check, deeper = some check → IgnoresMarks check) :
    IgnoresMarks (c.satisfiedAuthority delay deeper) := by
  intro marks authority s
  have hstart : ({ s.addUsed marks with totalWeight := 0 } : Tally) =
      Tally.addUsed marks { s with totalWeight := 0 } := rfl
  dsimp only [satisfiedAuthority]
  rw [hstart, tallyLoop_addUsed fun m t => visit_addUsed hdeeper m t]
  split_ifs <;> rfl

theorem checkAt_ignoresMarks (n : ℕ) {check : Check} (hcheck : c.checkAt delay n = some check) :
    IgnoresMarks check := by
  induction n generalizing check with
  | zero => simp [checkAt] at hcheck
  | succ n ih =>
    obtain rfl := Option.some.inj hcheck
    exact satisfiedAuthority_ignoresMarks fun check hn => ih hn

/-- The verdict does not depend on the keys marked before, and the call adds the same keys to
any of them. -/
theorem satisfied_used (permission : PermissionLevel) (used : Finset PublicKey) :
    c.satisfied delay permission used =
      ((c.satisfied delay permission ∅).1, used ∪ (c.satisfied delay permission ∅).2) := by
  have hstart : (⟨⟨c.initializePermissionCache, used⟩, 0⟩ : Tally) =
      Tally.addUsed used ⟨⟨c.initializePermissionCache, ∅⟩, 0⟩ := by
    simp [Tally.addUsed]
  unfold satisfied
  rw [hstart, visitAccount_addUsed fun check hn => checkAt_ignoresMarks _ hn]
  rfl

end AuthorityChecker

end DcdProtocol.Chain
