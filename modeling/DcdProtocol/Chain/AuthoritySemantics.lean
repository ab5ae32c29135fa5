import DcdProtocol.Chain.AuthorityChecker

/-!
# What the authority checker computes

The permissions that keys, permissions and a delay satisfy are the least set closed under two
rules (`granted`): a provided permission is satisfied, and so is one whose authority has satisfied
factors of enough weight.  The checker explores this set by a recursion with a cache.

* **Soundness.**  An entry of the cache counts only once its authority was found satisfied, so the
  checker never grants more (`satisfied_sound`).  The one exception is a permission with the empty
  name: its entry answers for every permission of its actor, which is meant for provided ones.
  `get_permission` refuses such names, so no authority of the chain has one.
* **Completeness.**  A negative entry may be premature: it is written while other permissions are
  still being evaluated, or at the depth limit.  Where every chain of account factors ends within
  the limit neither can happen (`satisfied_complete`).

So a further key never revokes a permission if the chains end (`satisfied_mono`); where they do
not, it can (`satisfied_lost_by_key`).
-/

namespace DcdProtocol.Chain

open Library List FlatMap UInt32 Option

/-! ## Valid authorities -/

/-- The order of `public_key_type`: by curve, then by the serialized bytes. -/
def PublicKey.less (a b : PublicKey) : Prop :=
  a.which < b.which ∨ a.which = b.which ∧ a.data < b.data

instance (a b : PublicKey) : Decidable (a.less b) := inferInstanceAs (Decidable (_ ∨ _ ∧ _))

namespace Authority

def factors (auth : Authority) : List MetaPermission :=
  auth.accounts.map .account ++ auth.keys.map .key ++ auth.waits.map .wait

def validate (auth : Authority) : Bool :=
  let totalWeight := (auth.factors.map fun m => m.weight.toUInt32).foldl (· + ·) 0
  decide (auth.keys.length + auth.accounts.length + auth.waits.length ≤ 2 ^ 16) &&
    decide (auth.threshold ≠ 0) &&
    decide (auth.keys.IsChain fun a b => a.key.less b.key) &&
    decide (auth.accounts.IsChain fun a b => a.permission < b.permission) &&
    decide (∀ w ∈ auth.waits.head?, w.waitSec ≠ 0) &&
    decide (auth.waits.IsChain fun a b => a.waitSec < b.waitSec) &&
    decide (auth.threshold ≤ totalWeight)

theorem perm_emplace (m : MetaPermission) (ms : List MetaPermission) :
    (m.emplace ms).Perm (m :: ms) := by
  induction ms with
  | nil => exact .refl _
  | cons n ms ih =>
    rw [MetaPermission.emplace]
    split_ifs
    · exact .refl _
    · exact (ih.cons n).trans (.swap m n ms)

theorem perm_permissions (auth : Authority) : auth.permissions.Perm auth.factors := by
  suffices h : ∀ ms acc : List MetaPermission,
      (ms.foldl (fun ms m => m.emplace ms) acc).Perm (ms ++ acc) by
    have hfactors := h auth.factors []
    rwa [append_nil] at hfactors
  intro ms
  induction ms with
  | nil => exact fun acc => .refl _
  | cons m ms ih =>
    intro acc
    exact (ih _).trans (((perm_emplace m acc).append_left ms).trans perm_middle)

end Authority

namespace AuthorityChecker

variable (c : AuthorityChecker) (delay : ℤ)

/-! ## The least set closed under the rules -/

/-- A factor counts when the permissions in `S` are satisfied. -/
def Counts (S : Set PermissionLevel) : MetaPermission → Prop
  | .account a => a.permission ∈ S
  | .key k => k.key ∈ c.providedKeys
  | .wait w => seconds w.waitSec ≤ delay

open Classical in
/-- The total weight of the factors that count. -/
noncomputable def weightOf (S : Set PermissionLevel) (ms : List MetaPermission) : ℕ :=
  (ms.map fun m => if c.Counts delay S m then m.weight.toNat else 0).sum

/-- The permission is provided, by its name or by the empty one. -/
def Provided (level : PermissionLevel) : Prop :=
  level ∈ c.providedPermissions ∨ ⟨level.actor, ⟨0⟩⟩ ∈ c.providedPermissions

variable {c delay} in
theorem weightOf_mono {c' : AuthorityChecker} {S T : Set PermissionLevel} {ms : List MetaPermission}
    (h : ∀ m ∈ ms, c.Counts delay S m → c'.Counts delay T m) :
    c.weightOf delay S ms ≤ c'.weightOf delay T ms := by
  refine sum_le_sum fun m hm => ?_
  split_ifs with hS hT
  · exact le_rfl
  · exact absurd (h m hm hS) hT
  · exact Nat.zero_le _
  · exact le_rfl

theorem counts_mono {S T : Set PermissionLevel} (hST : S ⊆ T) {m : MetaPermission}
    (hm : c.Counts delay S m) : c.Counts delay T m := by
  cases m with
  | account a => exact hST hm
  | key k => exact hm
  | wait w => exact hm

/-- The rules, as an operator on sets of permissions. -/
noncomputable def rules : Set PermissionLevel →o Set PermissionLevel where
  toFun S := {level | c.Provided level ∨ ∃ auth, c.permissionToAuthority level = some auth ∧
    auth.threshold.toNat ≤ c.weightOf delay S auth.factors}
  monotone' S T hST level := by
    rintro (hprovided | ⟨auth, hauth, hweight⟩)
    · exact Or.inl hprovided
    · exact Or.inr ⟨auth, hauth, hweight.trans
        (weightOf_mono fun m _ => c.counts_mono delay hST)⟩

noncomputable def granted : Set PermissionLevel := (c.rules delay).lfp

theorem mem_granted_iff {level : PermissionLevel} :
    level ∈ c.granted delay ↔ c.Provided level ∨ ∃ auth,
      c.permissionToAuthority level = some auth ∧
        auth.threshold.toNat ≤ c.weightOf delay (c.granted delay) auth.factors :=
  (Set.ext_iff.mp (c.rules delay).map_lfp level).symm

variable {c delay} {S : Set PermissionLevel} {deeper : Option Check} {m : MetaPermission}
  {J : List MetaPermission → Tally → Prop}

theorem weightOf_concat (ms : List MetaPermission) (m : MetaPermission) :
    c.weightOf delay S (ms ++ [m]) = c.weightOf delay S ms + c.weightOf delay S [m] := by
  simp [weightOf]

theorem weightOf_of_counts (hm : c.Counts delay S m) :
    c.weightOf delay S [m] = m.weight.toNat := by
  simp [weightOf, hm]

theorem weightOf_of_not (hm : ¬ c.Counts delay S m) :
    c.weightOf delay S [m] = 0 := by
  simp [weightOf, hm]

theorem weightOf_permissions (auth : Authority) :
    c.weightOf delay S auth.permissions = c.weightOf delay S auth.factors :=
  ((auth.perm_permissions).map _).sum_eq

theorem weightOf_le_of_isPrefix {seen all : List MetaPermission} (hseen : seen <+: all) :
    c.weightOf delay S seen ≤ c.weightOf delay S all := by
  obtain ⟨rest, rfl⟩ := hseen
  simp [weightOf]

/-! ## Rules for the loop and the recursion -/

private theorem tallyLoop_rule {visit : MetaPermission → Tally → Tally} (threshold : UInt32)
    {all : List MetaPermission}
    (hvisit : ∀ done m t, done ++ [m] <+: all → J done t → J (done ++ [m]) (visit m t))
    (rest done : List MetaPermission) (t : Tally) (hall : done ++ rest = all) (hJ : J done t) :
    ∃ seen, seen <+: all ∧ J seen (tallyLoop visit threshold rest t).2 ∧
      ((tallyLoop visit threshold rest t).1 = true →
        threshold ≤ (tallyLoop visit threshold rest t).2.totalWeight) ∧
      ((tallyLoop visit threshold rest t).1 = false → seen = all ∧
        (rest = [] ∨ (tallyLoop visit threshold rest t).2.totalWeight < threshold)) := by
  induction rest generalizing done t with
  | nil =>
    rw [append_nil] at hall
    exact ⟨done, hall ▸ prefix_refl _, hJ, by simp [tallyLoop], fun _ => ⟨hall, .inl rfl⟩⟩
  | cons m rest ih =>
    have hm : done ++ [m] <+: all := ⟨rest, by simpa using hall⟩
    have hnext := hvisit done m t hm hJ
    rw [tallyLoop]
    split_ifs with hreached
    · exact ⟨_, hm, hnext, fun _ => hreached, by simp⟩
    obtain ⟨seen, hseen, hJ', htrue, hfalse⟩ := ih (done ++ [m]) _ (by simpa using hall) hnext
    refine ⟨seen, hseen, hJ', htrue, fun h => ⟨(hfalse h).1, .inr ?_⟩⟩
    rcases (hfalse h).2 with rfl | hlt
    · exact UInt32.not_le.mp hreached
    · exact hlt

/-- An invariant of the visits holds when the check of an authority is over; on the way it knows
the factors visited so far. -/
theorem satisfiedAuthority_rule (c : AuthorityChecker) (delay : ℤ) (deeper : Option Check)
    (auth : Authority) (s : CheckState) (hstart : J [] { s with totalWeight := 0 })
    (hvisit : ∀ done m t, done ++ [m] <+: auth.permissions → J done t →
      J (done ++ [m]) (c.visit delay deeper m t)) :
    ∃ seen t, seen <+: auth.permissions ∧ J seen t ∧
      (c.satisfiedAuthority delay deeper auth s).2.cache = t.cache ∧
      (c.satisfiedAuthority delay deeper auth s).2.usedKeys =
        (if (c.satisfiedAuthority delay deeper auth s).1 = true then t.usedKeys else s.usedKeys) ∧
      ((c.satisfiedAuthority delay deeper auth s).1 = true → auth.threshold ≤ t.totalWeight) ∧
      ((c.satisfiedAuthority delay deeper auth s).1 = false → seen = auth.permissions ∧
        (auth.permissions = [] ∨ t.totalWeight < auth.threshold)) := by
  obtain ⟨seen, hseen, hJ, htrue, hfalse⟩ :=
    tallyLoop_rule auth.threshold hvisit auth.permissions [] _ rfl hstart
  exact ⟨seen, _, hseen, hJ, rfl, rfl, htrue, hfalse⟩

/-- What holds at each depth if it holds at the one above it. -/
theorem checkAt_rule {P : ℕ → Check → Prop}
    (hstep : ∀ n, (∀ check, c.checkAt delay n = some check → P n check) →
      P (n + 1) (c.satisfiedAuthority delay (c.checkAt delay n)))
    (n : ℕ) (check : Check) (hcheck : c.checkAt delay n = some check) : P n check := by
  induction n generalizing check with
  | zero => simp [checkAt] at hcheck
  | succ n ih =>
    obtain rfl := some.inj hcheck
    exact hstep n ih

theorem find?_initializePermissionCache (level : PermissionLevel) :
    c.initializePermissionCache.find? level =
      if level ∈ c.providedPermissions then some .permissionSatisfied else none := by
  suffices h : ∀ (ps : List PermissionLevel) (cache : PermissionCache),
      (ps.foldl (fun cache p => cache.emplace p .permissionSatisfied) cache).find? level =
        (cache.find? level <|> if level ∈ ps then some .permissionSatisfied else none) from
    h c.providedPermissions .empty
  intro ps
  induction ps with
  | nil =>
    intro cache
    cases hfind : cache.find? level <;> simp [hfind]
  | cons p ps ih =>
    intro cache
    rw [foldl_cons, ih, find?_emplace]
    by_cases hp : level = p
    · subst hp
      cases cache.find? level <;> simp
    · cases cache.find? level <;> simp [hp]

/-- A permission is evaluated, found satisfied in the cache, or skipped. -/
theorem visitAccount_cases (c : AuthorityChecker) (deeper : Option Check)
    (a : PermissionLevelWeight) (t : Tally) :
    (∃ check auth, deeper = some check ∧ permissionStatusInCache t.cache a.permission = none ∧
        c.permissionToAuthority a.permission = some auth ∧
        c.visitAccount deeper a t = visitAuthority check a auth t) ∨
      (permissionStatusInCache t.cache a.permission = some .permissionSatisfied ∧
        c.visitAccount deeper a t = t.add a.weight) ∨
      (permissionStatusInCache t.cache a.permission ≠ some .permissionSatisfied ∧
        (permissionStatusInCache t.cache a.permission = none →
          deeper = none ∨ c.permissionToAuthority a.permission = none) ∧
        c.visitAccount deeper a t = t) := by
  unfold visitAccount
  cases hstatus : permissionStatusInCache t.cache a.permission with
  | none =>
    cases deeper with
    | none => simp
    | some check => cases hauth : c.permissionToAuthority a.permission <;> simp
  | some status => cases status <;> simp

/-! ## Soundness -/

variable (c) in
/-- No authority belongs to the empty permission name. -/
def NamesPermissions : Prop :=
  ∀ actor, c.permissionToAuthority ⟨actor, ⟨0⟩⟩ = none

theorem NamesPermissions.ne (hnames : c.NamesPermissions) {level : PermissionLevel}
    {auth : Authority} (hauth : c.permissionToAuthority level = some auth) (actor : Name) :
    (⟨actor, ⟨0⟩⟩ : PermissionLevel) ≠ level := by
  rintro rfl
  simp [hnames actor] at hauth

variable (c delay) in
/-- The entries that count are granted, and those of empty names are provided. -/
structure CacheSound (cache : PermissionCache) : Prop where
  granted : ∀ level, cache.find? level = some .permissionSatisfied → level ∈ c.granted delay
  wildcard : ∀ actor status, cache.find? ⟨actor, ⟨0⟩⟩ = some status →
    ⟨actor, ⟨0⟩⟩ ∈ c.providedPermissions

variable (c delay) in
/-- A check that accepts only authorities of enough weight. -/
def Sound (check : Check) : Prop :=
  ∀ auth s, c.CacheSound delay s.cache → c.CacheSound delay (check auth s).2.cache ∧
    ((check auth s).1 = true →
      auth.threshold.toNat ≤ c.weightOf delay (c.granted delay) auth.factors)

variable {cache : PermissionCache} {level : PermissionLevel} {auth : Authority}
  {status : PermissionCacheStatus} {t : Tally}

theorem emplace_of_status (hstatus : permissionStatusInCache cache level = none)
    (status : PermissionCacheStatus) : cache.emplace level status = cache.insert level status := by
  have hnone : cache.find? level = none := by
    unfold permissionStatusInCache at hstatus
    cases hfind : cache.find? level with
    | none => rfl
    | some status => simp [hfind] at hstatus
  simp [FlatMap.emplace, FlatMap.contains, hnone]

theorem find?_of_status (hstatus : permissionStatusInCache cache level = some status) :
    cache.find? level = some status ∨ cache.find? ⟨level.actor, ⟨0⟩⟩ = some status := by
  unfold permissionStatusInCache at hstatus
  cases hfind : cache.find? level with
  | none => exact .inr (by simpa [hfind] using hstatus)
  | some other => exact .inl (by simpa [hfind] using hstatus)

theorem CacheSound.insert (hcache : c.CacheSound delay cache) (hnames : c.NamesPermissions)
    (hauth : c.permissionToAuthority level = some auth)
    (hstatus : status = .permissionSatisfied → level ∈ c.granted delay) :
    c.CacheSound delay (cache.insert level status) := by
  constructor
  · intro other hother
    rw [find?_insert] at hother
    split_ifs at hother with heq
    · exact heq ▸ hstatus (some.inj hother)
    · exact hcache.granted other hother
  · intro actor status' hfind
    rw [find?_insert_of_ne _ _ (hnames.ne hauth actor)] at hfind
    exact hcache.wildcard actor status' hfind

theorem CacheSound.of_status (hcache : c.CacheSound delay cache)
    (hstatus : permissionStatusInCache cache level = some .permissionSatisfied) :
    level ∈ c.granted delay := by
  rcases find?_of_status hstatus with hfind | hfind
  · exact hcache.granted level hfind
  · exact (c.mem_granted_iff delay).mpr (.inl (.inr (hcache.wildcard _ _ hfind)))

section

variable (hnames : c.NamesPermissions) (hdeeper : ∀ check, deeper = some check → c.Sound delay check)
include hnames hdeeper

/-- A visit keeps the cache sound and adds a weight only for a factor that counts. -/
theorem visit_sound (ht : c.CacheSound delay t.cache) (m : MetaPermission) :
    c.CacheSound delay (c.visit delay deeper m t).cache ∧
      ((c.visit delay deeper m t).totalWeight = t.totalWeight ∨ c.Counts delay (c.granted delay) m ∧
          (c.visit delay deeper m t).totalWeight = t.totalWeight + m.weight.toUInt32) := by
  cases m with
  | account a =>
    rw [visit]
    rcases c.visitAccount_cases deeper a t with
      ⟨check, auth, rfl, hstatus, hauth, heq⟩ | ⟨hstatus, heq⟩ | ⟨-, -, heq⟩ <;> rw [heq]
    · dsimp only [visitAuthority]
      rw [emplace_of_status hstatus]
      obtain ⟨hsound, hweight⟩ := hdeeper check rfl auth
        { t with cache := t.cache.insert a.permission .beingEvaluated }
        (ht.insert hnames hauth (by simp))
      split_ifs with hr
      · have hgranted : a.permission ∈ c.granted delay :=
          (c.mem_granted_iff delay).mpr (.inr ⟨auth, hauth, hweight hr⟩)
        exact ⟨hsound.insert hnames hauth fun _ => hgranted, .inr ⟨hgranted, rfl⟩⟩
      · exact ⟨hsound.insert hnames hauth (by simp), .inl rfl⟩
    · exact ⟨ht, .inr ⟨ht.of_status hstatus, rfl⟩⟩
    · exact ⟨ht, .inl rfl⟩
  | key k =>
    rw [visit, visitKey]
    split_ifs with hk
    · exact ⟨ht, .inr ⟨hk, rfl⟩⟩
    · exact ⟨ht, .inl rfl⟩
  | wait w =>
    rw [visit, visitWait]
    split_ifs with hw
    · exact ⟨ht, .inr ⟨hw, rfl⟩⟩
    · exact ⟨ht, .inl rfl⟩

theorem satisfiedAuthority_sound : c.Sound delay (c.satisfiedAuthority delay deeper) := by
  intro auth s hs
  let J (done : List MetaPermission) (t : Tally) : Prop := c.CacheSound delay t.cache ∧
    t.totalWeight.toNat ≤ c.weightOf delay (c.granted delay) done
  have hvisit : ∀ done m t, done ++ [m] <+: auth.permissions → J done t →
      J (done ++ [m]) (c.visit delay deeper m t) := by
    rintro done m t - ⟨hcache, hweight⟩
    obtain ⟨hcache', hadded⟩ := visit_sound hnames hdeeper hcache m
    refine ⟨hcache', ?_⟩
    rw [weightOf_concat]
    rcases hadded with hsame | ⟨hcounts, hadd⟩
    · rw [hsame]
      omega
    · rw [hadd, weightOf_of_counts hcounts, UInt32.toNat_add, UInt16.toNat_toUInt32]
      omega
  obtain ⟨seen, t, hseen, ⟨hcache, hweight⟩, heq, -, htrue, -⟩ :=
    c.satisfiedAuthority_rule delay deeper auth s (J := J) ⟨hs, le_rfl⟩ hvisit
  rw [heq]
  refine ⟨hcache, fun h => ?_⟩
  calc auth.threshold.toNat
      ≤ t.totalWeight.toNat := le_iff_toNat_le.mp (htrue h)
    _ ≤ c.weightOf delay (c.granted delay) seen := hweight
    _ ≤ c.weightOf delay (c.granted delay) auth.permissions := weightOf_le_of_isPrefix hseen
    _ = c.weightOf delay (c.granted delay) auth.factors := weightOf_permissions auth

end

theorem cacheSound_initializePermissionCache : c.CacheSound delay c.initializePermissionCache := by
  constructor
  · intro level hfind
    rw [find?_initializePermissionCache] at hfind
    have hlevel : level ∈ c.providedPermissions := by
      by_contra hnot
      simp [hnot] at hfind
    exact (c.mem_granted_iff delay).mpr (.inl (.inl hlevel))
  · intro actor status hfind
    rw [find?_initializePermissionCache] at hfind
    by_contra hnot
    simp [hnot] at hfind

theorem sound_of_checkAt (delay : ℤ) (hnames : c.NamesPermissions) (n : ℕ) (check : Check)
    (hcheck : c.checkAt delay n = some check) : c.Sound delay check :=
  checkAt_rule (P := fun _ check => c.Sound delay check)
    (fun _ ih => satisfiedAuthority_sound hnames ih) n check hcheck

theorem granted_of_satisfied (delay : ℤ) (hnames : c.NamesPermissions)
    (permission : PermissionLevel) (used : Finset PublicKey)
    (hsatisfied : (c.satisfied delay permission used).1 = true) :
    permission ∈ c.granted delay := by
  have hdeeper := sound_of_checkAt delay hnames c.recursionDepthLimit.toNat
  obtain ⟨-, hsame | ⟨hgranted, -⟩⟩ := visit_sound hnames hdeeper
    (t := ⟨⟨c.initializePermissionCache, used⟩, 0⟩) cacheSound_initializePermissionCache
    (.account ⟨permission, 1⟩)
  · have hpositive := of_decide_eq_true hsatisfied
    rw [visit] at hsame
    rw [hsame] at hpositive
    exact absurd hpositive (UInt32.lt_irrefl _)
  · exact hgranted

/-- What the checker accepts is granted, for any map that gives no authority to an empty
permission name. -/
theorem satisfied_sound (c : AuthorityChecker) (delay : ℤ) (hnames : c.NamesPermissions)
    (permission : PermissionLevel) (used : Finset PublicKey) :
    (c.satisfied delay permission used).1 = true → permission ∈ c.granted delay :=
  granted_of_satisfied delay hnames permission used

def ofAuthorities (authorities : List (PermissionLevel × Authority)) (keys : List PublicKey) :
    AuthorityChecker where
  permissionToAuthority level := (authorities.find? fun x => x.1 = level).map Prod.snd
  recursionDepthLimit := 6
  providedKeys := keys
  providedPermissions := []

/-- A permission that needs another one, which needs a key. -/
def sampleAuthorities : List (PermissionLevel × Authority) :=
  [ (⟨⟨1⟩, ⟨1⟩⟩, { threshold := 1, keys := [], accounts := [⟨⟨⟨2⟩, ⟨1⟩⟩, 1⟩] }),
    (⟨⟨2⟩, ⟨1⟩⟩, { threshold := 1, keys := [⟨⟨0, [1]⟩, 1⟩] }) ]

theorem satisfied_sound_sample :
    (⟨⟨1⟩, ⟨1⟩⟩ : PermissionLevel) ∈ (ofAuthorities sampleAuthorities [⟨0, [1]⟩]).granted 0 :=
  satisfied_sound _ 0 (fun actor => by simp [ofAuthorities, sampleAuthorities]) _ ∅
    (by decide +kernel)

/-- The account 2 needs the permission 1 of the account 1 and the one with the empty name. -/
def emptyNameAuthorities : List (PermissionLevel × Authority) :=
  [ (⟨⟨1⟩, ⟨0⟩⟩, { threshold := 1, keys := [⟨⟨0, [1]⟩, 1⟩] }),
    (⟨⟨1⟩, ⟨1⟩⟩, { threshold := 1, keys := [⟨⟨0, [2]⟩, 1⟩] }),
    (⟨⟨2⟩, ⟨1⟩⟩, { threshold := 2, keys := [], accounts :=
      [⟨⟨⟨1⟩, ⟨0⟩⟩, 1⟩, ⟨⟨⟨1⟩, ⟨1⟩⟩, 1⟩] }) ]

/-- With the key of the empty name alone, the checker takes it for the permission 1. -/
theorem satisfied_by_empty_name :
    ¬ ∀ (c : AuthorityChecker) (delay : ℤ) (permission : PermissionLevel)
      (used : Finset PublicKey), (c.satisfied delay permission used).1 = true →
        permission ∈ c.granted delay := by
  intro hclaim
  let c := ofAuthorities emptyNameAuthorities [⟨0, [1]⟩]
  have hgranted := hclaim c 0 ⟨⟨2⟩, ⟨1⟩⟩ ∅ (by decide +kernel)
  have hclosed : c.rules 0 {⟨⟨1⟩, ⟨0⟩⟩} ≤ {⟨⟨1⟩, ⟨0⟩⟩} := by
    rintro level (hprovided | ⟨auth, hauth, hweight⟩)
    · simp [Provided, c, ofAuthorities] at hprovided
    simp only [c, ofAuthorities, emptyNameAuthorities, find?_cons] at hauth
    split at hauth
    · simp_all
    split at hauth
    · obtain rfl := some.inj hauth
      simp [weightOf, Authority.factors, Counts, c, ofAuthorities] at hweight
    split at hauth
    · obtain rfl := some.inj hauth
      simp [weightOf, Authority.factors, Counts, MetaPermission.weight] at hweight
    · simp at hauth
  simpa using (c.rules 0).lfp_le hclosed hgranted

/-! ## Completeness -/

variable (c) in
/-- Every chain of account factors that starts at the permission ends within `n` authorities: at
one without account factors, at a provided permission or at a missing one. -/
def EndsWithin : ℕ → PermissionLevel → Prop
  | 0, level => c.Provided level ∨ c.permissionToAuthority level = none
  | n + 1, level => c.Provided level ∨ ∀ auth, c.permissionToAuthority level = some auth →
    ∀ a ∈ auth.accounts, EndsWithin n a.permission

theorem EndsWithin.succ {n : ℕ} (hends : c.EndsWithin n level) : c.EndsWithin (n + 1) level := by
  induction n generalizing level with
  | zero =>
    refine hends.imp_right fun hnone auth hauth => ?_
    simp [hnone] at hauth
  | succ n ih => exact hends.imp_right fun h auth hauth a ha => ih (h auth hauth a ha)

theorem EndsWithin.mono {n n' : ℕ} (hends : c.EndsWithin n level) (hle : n ≤ n') :
    c.EndsWithin n' level := by
  induction hle with
  | refl => exact hends
  | step _ ih => exact ih.succ

variable (c delay) in
/-- The provided permissions are in the cache, and what it denies is not granted. -/
structure CacheComplete (cache : PermissionCache) : Prop where
  provided : ∀ level ∈ c.providedPermissions, cache.find? level = some .permissionSatisfied
  unsatisfied : ∀ level, cache.find? level = some .permissionUnsatisfied → level ∉ c.granted delay
  wildcard : ∀ actor status, cache.find? ⟨actor, ⟨0⟩⟩ = some status → status = .permissionSatisfied

def Open (cache : PermissionCache) (level : PermissionLevel) : Prop :=
  cache.find? level = some .beingEvaluated

variable (c delay) in
/-- A check that accepts every valid authority of enough weight whose chains end within fewer than
`n` further authorities, if none of these is being evaluated. -/
def Complete (n : ℕ) (check : Check) : Prop :=
  ∀ k < n, ∀ auth s, auth.validate = true → (∀ a ∈ auth.accounts, c.EndsWithin k a.permission) →
    c.CacheComplete delay s.cache → (∀ level, Open s.cache level → ¬ c.EndsWithin k level) →
    c.CacheComplete delay (check auth s).2.cache ∧
      (∀ level, Open (check auth s).2.cache level → Open s.cache level) ∧
      (auth.threshold.toNat ≤ c.weightOf delay (c.granted delay) auth.factors →
        (check auth s).1 = true)

theorem CacheComplete.not_provided (hcache : c.CacheComplete delay cache)
    (hstatus : permissionStatusInCache cache level = none) : ¬ c.Provided level := by
  unfold permissionStatusInCache at hstatus
  rintro (hlevel | hactor)
  · simp [hcache.provided _ hlevel] at hstatus
  · simp [hcache.provided _ hactor] at hstatus

theorem CacheComplete.insert (hcache : c.CacheComplete delay cache) (hnames : c.NamesPermissions)
    (hauth : c.permissionToAuthority level = some auth) (hnot : level ∉ c.providedPermissions)
    (hstatus : status = .permissionUnsatisfied → level ∉ c.granted delay) :
    c.CacheComplete delay (cache.insert level status) := by
  refine ⟨?_, ?_, ?_⟩
  · intro other hother
    rw [find?_insert_of_ne _ _ (ne_of_mem_of_not_mem hother hnot)]
    exact hcache.provided other hother
  · intro other hother
    rw [find?_insert] at hother
    split_ifs at hother with heq
    · exact heq ▸ hstatus (some.inj hother)
    · exact hcache.unsatisfied other hother
  · intro actor status' hfind
    rw [find?_insert_of_ne _ _ (hnames.ne hauth actor)] at hfind
    exact hcache.wildcard actor status' hfind

/-- A permission that is skipped is not granted. -/
theorem CacheComplete.not_granted {n k : ℕ} (hcache : c.CacheComplete delay cache)
    (hends : c.EndsWithin k level) (hk : k ≤ n)
    (hopen : ∀ level, Open cache level → ¬ c.EndsWithin k level)
    (hnot : permissionStatusInCache cache level ≠ some .permissionSatisfied)
    (hnone : permissionStatusInCache cache level = none →
      c.checkAt delay n = none ∨ c.permissionToAuthority level = none) :
    level ∉ c.granted delay := by
  cases hstatus : permissionStatusInCache cache level with
  | none =>
    have hprovided := hcache.not_provided hstatus
    have hmissing : c.permissionToAuthority level = none := by
      rcases hnone hstatus with hlimit | hmissing
      · -- at the depth limit the chain has ended
        cases n with
        | zero =>
          obtain rfl := Nat.le_zero.mp hk
          exact hends.resolve_left hprovided
        | succ n => simp [checkAt] at hlimit
      · exact hmissing
    rw [mem_granted_iff]
    rintro (h | ⟨auth, hauth, -⟩)
    · exact hprovided h
    · simp [hmissing] at hauth
  | some status =>
    rcases find?_of_status hstatus with hfind | hfind
    · cases status with
      | permissionSatisfied => exact absurd hstatus hnot
      | permissionUnsatisfied => exact hcache.unsatisfied level hfind
      | beingEvaluated => exact absurd hends (hopen level hfind)
    · rw [hcache.wildcard _ _ hfind] at hstatus
      exact absurd hstatus hnot

variable (c) in
/-- The authorities are valid, and none belongs to the empty permission name. -/
structure WellFormed : Prop where
  names : c.NamesPermissions
  valid : ∀ level auth, c.permissionToAuthority level = some auth → auth.validate = true

/-- The least depth within which the chains of an evaluated permission end: below it the
permission itself cannot come up again. -/
theorem exists_depth {k : ℕ} (hends : c.EndsWithin k level) (hprovided : ¬ c.Provided level)
    (hauth : c.permissionToAuthority level = some auth) :
    ∃ i < k, (∀ a ∈ auth.accounts, c.EndsWithin i a.permission) ∧ ¬ c.EndsWithin i level := by
  induction k with
  | zero =>
    rcases hends with h | h
    · exact absurd h hprovided
    · simp [hauth] at h
  | succ k ih =>
    by_cases hk : c.EndsWithin k level
    · obtain ⟨i, hi, h⟩ := ih hk
      exact ⟨i, by omega, h⟩
    · exact ⟨k, by omega, (hends.resolve_left hprovided) auth hauth, hk⟩

/-- The evaluation of a permission that is not in the cache. -/
theorem visitAuthority_complete {n k : ℕ} (hc : c.WellFormed) {check : Check}
    (hdeeper : c.Complete delay n check) (hk : k ≤ n) {a : PermissionLevelWeight}
    (hends : c.EndsWithin k a.permission) (ht : c.CacheComplete delay t.cache)
    (hopen : ∀ level, Open t.cache level → ¬ c.EndsWithin k level)
    (hstatus : permissionStatusInCache t.cache a.permission = none)
    (hauth : c.permissionToAuthority a.permission = some auth) :
    c.CacheComplete delay (visitAuthority check a auth t).cache ∧
      (∀ level, Open (visitAuthority check a auth t).cache level → Open t.cache level) ∧
      ((visitAuthority check a auth t).totalWeight = t.totalWeight + a.weight.toUInt32 ∨
        a.permission ∉ c.granted delay ∧
          (visitAuthority check a auth t).totalWeight = t.totalWeight) := by
  have hprovided := ht.not_provided hstatus
  have hnot : a.permission ∉ c.providedPermissions := fun h => hprovided (.inl h)
  obtain ⟨i, hi, hbelow, hself⟩ := exists_depth hends hprovided hauth
  have hopen' : ∀ level, Open (t.cache.insert a.permission .beingEvaluated) level →
      ¬ c.EndsWithin i level := by
    intro level hlevel hlevels
    rw [Open, find?_insert] at hlevel
    split_ifs at hlevel with heq
    · exact hself (heq ▸ hlevels)
    · exact hopen level hlevel (hlevels.mono hi.le)
  obtain ⟨hcache, hback, haccept⟩ := hdeeper i (by omega) auth
    { t with cache := t.cache.insert a.permission .beingEvaluated } (hc.valid _ _ hauth) hbelow
    (ht.insert hc.names hauth hnot (by simp)) hopen'
  -- what is open after the evaluation was open before, since its own entry is overwritten
  have hback' {status : PermissionCacheStatus} (hclosed : status ≠ .beingEvaluated) :
      ∀ level, Open ((check auth { t with
        cache := t.cache.insert a.permission .beingEvaluated }).2.cache.insert a.permission status)
        level → Open t.cache level := by
    intro level hlevel
    rw [Open, find?_insert] at hlevel
    split_ifs at hlevel with heq
    · exact absurd (some.inj hlevel) hclosed
    · have hbefore := hback level hlevel
      rwa [Open, find?_insert_of_ne _ _ heq] at hbefore
  dsimp only [visitAuthority]
  rw [emplace_of_status hstatus]
  split_ifs with hr
  · exact ⟨hcache.insert hc.names hauth hnot (by simp), hback' (by simp), .inl rfl⟩
  have hdenied : a.permission ∉ c.granted delay := by
    rw [mem_granted_iff]
    rintro (h | ⟨auth', hauth', hweight⟩)
    · exact hprovided h
    · obtain rfl := some.inj (hauth.symm.trans hauth')
      exact hr (haccept hweight)
  exact ⟨hcache.insert hc.names hauth hnot fun _ => hdenied, hback' (by simp),
    .inr ⟨hdenied, rfl⟩⟩

/-- A visit adds the weight of every factor that counts. -/
theorem visit_complete {n k : ℕ} (hc : c.WellFormed)
    (hdeeper : ∀ check, c.checkAt delay n = some check → c.Complete delay n check) (hk : k ≤ n)
    (hends : ∀ a, m = .account a → c.EndsWithin k a.permission)
    (ht : c.CacheComplete delay t.cache)
    (hopen : ∀ level, Open t.cache level → ¬ c.EndsWithin k level) :
    c.CacheComplete delay (c.visit delay (c.checkAt delay n) m t).cache ∧
      (∀ level, Open (c.visit delay (c.checkAt delay n) m t).cache level → Open t.cache level) ∧
      ((c.visit delay (c.checkAt delay n) m t).totalWeight =
          t.totalWeight + m.weight.toUInt32 ∨
        ¬ c.Counts delay (c.granted delay) m ∧
          (c.visit delay (c.checkAt delay n) m t).totalWeight = t.totalWeight) := by
  cases m with
  | account a =>
    rw [visit]
    rcases c.visitAccount_cases (c.checkAt delay n) a t with
      ⟨check, auth, hcheck, hstatus, hauth, heq⟩ | ⟨-, heq⟩ | ⟨hnot, hnone, heq⟩ <;> rw [heq]
    · exact visitAuthority_complete hc (hdeeper check hcheck) hk (hends a rfl) ht hopen hstatus
        hauth
    · exact ⟨ht, fun _ h => h, .inl rfl⟩
    · exact ⟨ht, fun _ h => h, .inr ⟨ht.not_granted (hends a rfl) hk hopen hnot hnone, rfl⟩⟩
  | key k =>
    rw [visit, visitKey]
    split_ifs with hprovided
    · exact ⟨ht, fun _ h => h, .inl rfl⟩
    · exact ⟨ht, fun _ h => h, .inr ⟨hprovided, rfl⟩⟩
  | wait w =>
    rw [visit, visitWait]
    split_ifs with hw
    · exact ⟨ht, fun _ h => h, .inl rfl⟩
    · exact ⟨ht, fun _ h => h, .inr ⟨hw, rfl⟩⟩

theorem length_permissions_le (hvalid : auth.validate = true) :
    auth.permissions.length ≤ 2 ^ 16 := by
  simp only [Authority.validate, Bool.and_eq_true, decide_eq_true_eq] at hvalid
  have hlength := auth.perm_permissions.length_eq
  simp only [Authority.factors, length_append, length_map] at hlength
  omega

theorem threshold_pos (hvalid : auth.validate = true) : 0 < auth.threshold.toNat := by
  simp only [Authority.validate, Bool.and_eq_true, decide_eq_true_eq] at hvalid
  have hthreshold : auth.threshold ≠ 0 := by tauto
  exact Nat.pos_of_ne_zero fun h => hthreshold (UInt32.toNat_inj.mp h)

theorem satisfiedAuthority_complete {n : ℕ} (hc : c.WellFormed)
    (hdeeper : ∀ check, c.checkAt delay n = some check → c.Complete delay n check) :
    c.Complete delay (n + 1) (c.satisfiedAuthority delay (c.checkAt delay n)) := by
  intro k hk auth s hvalid hends hs hopen
  -- at most 2 ^ 16 factors of 16 bits each: the sum of the weights does not wrap around
  let J (done : List MetaPermission) (t : Tally) : Prop := c.CacheComplete delay t.cache ∧
    (∀ level, Open t.cache level → Open s.cache level) ∧
    c.weightOf delay (c.granted delay) done ≤ t.totalWeight.toNat ∧
    t.totalWeight.toNat ≤ 65535 * done.length
  have hvisit : ∀ done m t, done ++ [m] <+: auth.permissions → J done t →
      J (done ++ [m]) (c.visit delay (c.checkAt delay n) m t) := by
    rintro done m t hdone ⟨hcache, hback, hlower, hupper⟩
    have hm : ∀ a, m = .account a → c.EndsWithin k a.permission := by
      have hmem := auth.perm_permissions.mem_iff.mp
        (hdone.mem (mem_append_right done (mem_singleton_self _)))
      simp only [Authority.factors] at hmem
      grind
    obtain ⟨hcache', hback', hadded⟩ := visit_complete hc hdeeper (Nat.le_of_lt_succ hk) hm hcache
      fun level h => hopen level (hback level h)
    refine ⟨hcache', fun level h => hback level (hback' level h), ?_⟩
    have hlength := hdone.length_le.trans (length_permissions_le hvalid)
    have hw : m.weight.toNat < 65536 := m.weight.toNat_lt
    rw [weightOf_concat, length_append, length_singleton] at *
    rcases hadded with hadd | ⟨hnot, hsame⟩
    · rw [hadd, UInt32.toNat_add, UInt16.toNat_toUInt32, Nat.mod_eq_of_lt (by omega)]
      by_cases hcounts : c.Counts delay (c.granted delay) m
      · rw [weightOf_of_counts hcounts]
        omega
      · rw [weightOf_of_not hcounts]
        omega
    · rw [hsame, weightOf_of_not hnot]
      omega
  obtain ⟨seen, t, -, ⟨hcache, hback, hlower, -⟩, heq, -, -, hfalse⟩ :=
    c.satisfiedAuthority_rule delay (c.checkAt delay n) auth s (J := J)
      ⟨hs, fun _ h => h, le_rfl, le_rfl⟩ hvisit
  rw [heq]
  refine ⟨hcache, hback, fun hweight => ?_⟩
  by_contra hdenied
  obtain ⟨rfl, hlt⟩ := hfalse (Bool.not_eq_true _ ▸ hdenied)
  rw [weightOf_permissions] at hlower
  have hpos := threshold_pos hvalid
  rcases hlt with hempty | hlt
  · rw [← weightOf_permissions, hempty] at hweight
    exact absurd (hpos.trans_le hweight) (lt_irrefl _)
  · have hlt' := lt_iff_toNat_lt.mp hlt
    omega

theorem cacheComplete_initializePermissionCache :
    c.CacheComplete delay c.initializePermissionCache := by
  refine ⟨fun level hlevel => ?_, fun level hfind => ?_, fun actor status hfind => ?_⟩
  · rw [find?_initializePermissionCache, if_pos hlevel]
  · rw [find?_initializePermissionCache] at hfind
    simp at hfind
  · rw [find?_initializePermissionCache] at hfind
    split_ifs at hfind
    exact (some.inj hfind).symm

theorem complete_of_checkAt (delay : ℤ) (hc : c.WellFormed) (n : ℕ) (check : Check)
    (hcheck : c.checkAt delay n = some check) : c.Complete delay n check :=
  checkAt_rule (P := c.Complete delay) (fun _ ih => satisfiedAuthority_complete hc ih) n check
    hcheck

/-- The checker accepts what is granted, where the chains end within its depth limit. -/
theorem satisfied_complete (delay : ℤ) (hc : c.WellFormed) {permission : PermissionLevel}
    (hends : c.EndsWithin c.recursionDepthLimit.toNat permission) (used : Finset PublicKey)
    (hgranted : permission ∈ c.granted delay) : (c.satisfied delay permission used).1 = true := by
  have hopen : ∀ level, Open c.initializePermissionCache level →
      ¬ c.EndsWithin c.recursionDepthLimit.toNat level := by
    intro level hlevel
    rw [Open, find?_initializePermissionCache] at hlevel
    simp at hlevel
  obtain ⟨-, -, hadded⟩ := visit_complete hc (complete_of_checkAt delay hc _) le_rfl
    (m := .account ⟨permission, 1⟩) (t := ⟨⟨c.initializePermissionCache, used⟩, 0⟩)
    (by rintro a ⟨⟩; exact hends) cacheComplete_initializePermissionCache hopen
  rcases hadded with hadd | ⟨hnot, -⟩
  · have hpositive : (0 : UInt32) < 0 + (1 : UInt16).toUInt32 := by decide
    exact decide_eq_true (hadd ▸ hpositive)
  · exact absurd hgranted hnot

/-- The checker accepts exactly what is granted, where the chains end within its depth limit. -/
theorem satisfied_iff_granted (delay : ℤ) (hc : c.WellFormed) {permission : PermissionLevel}
    (hends : c.EndsWithin c.recursionDepthLimit.toNat permission) (used : Finset PublicKey) :
    (c.satisfied delay permission used).1 = true ↔ permission ∈ c.granted delay :=
  ⟨granted_of_satisfied delay hc.names permission used, satisfied_complete delay hc hends used⟩

theorem satisfied_iff_granted_denied : (⟨⟨1⟩, ⟨1⟩⟩ : PermissionLevel) ∉ (ofAuthorities
    [(⟨⟨1⟩, ⟨1⟩⟩, { threshold := 1, keys := [⟨⟨0, [1]⟩, 1⟩] })] []).granted 0 := by
  refine (satisfied_iff_granted 0 ⟨by simp [NamesPermissions, ofAuthorities], ?_⟩ ?_ ∅).not.mp
    (by decide +kernel)
  · intro level auth hauth
    obtain ⟨x, hx, rfl⟩ := map_eq_some_iff.mp hauth
    rw [mem_singleton.mp (mem_of_find?_eq_some hx)]
    decide
  · exact .inr fun auth hauth a ha => by cases hauth; cases ha

/-! ## Further keys -/

variable (c) in
def withKeys (keys : List PublicKey) : AuthorityChecker := { c with providedKeys := keys }

theorem granted_withKeys_mono {keys₁ keys₂ : List PublicKey} (hkeys : keys₁ ⊆ keys₂) :
    (c.withKeys keys₁).granted delay ⊆ (c.withKeys keys₂).granted delay := by
  refine OrderHom.lfp_le _ ?_
  rintro level (hprovided | ⟨auth, hauth, hweight⟩)
  · exact ((c.withKeys keys₂).mem_granted_iff delay).mpr (.inl hprovided)
  refine ((c.withKeys keys₂).mem_granted_iff delay).mpr
    (.inr ⟨auth, hauth, hweight.trans (weightOf_mono fun m _ hm => ?_)⟩)
  cases m with
  | account a => exact hm
  | key k => exact hkeys hm
  | wait w => exact hm

theorem endsWithin_withKeys {keys : List PublicKey} {n : ℕ} (hends : c.EndsWithin n level) :
    (c.withKeys keys).EndsWithin n level := by
  induction n generalizing level with
  | zero => exact hends
  | succ n ih => exact hends.imp_right fun h auth hauth a ha => ih (h auth hauth a ha)

theorem WellFormed.withKeys (hc : c.WellFormed) (keys : List PublicKey) :
    (c.withKeys keys).WellFormed := ⟨hc.names, hc.valid⟩

/-- A further key revokes nothing, where the chains end within the depth limit. -/
theorem satisfied_mono (c : AuthorityChecker) (delay : ℤ) (hc : c.WellFormed)
    {keys₁ keys₂ : List PublicKey} (hkeys : keys₁ ⊆ keys₂) {permission : PermissionLevel}
    (hends : c.EndsWithin c.recursionDepthLimit.toNat permission)
    (hsatisfied : ((c.withKeys keys₁).satisfied delay permission ∅).1 = true) :
    ((c.withKeys keys₂).satisfied delay permission ∅).1 = true := by
  have hgranted : permission ∈ (c.withKeys keys₁).granted delay :=
    (granted_of_satisfied delay (hc.withKeys keys₁).names permission ∅ hsatisfied)
  exact satisfied_complete delay (hc.withKeys keys₂) (endsWithin_withKeys hends) ∅
    (granted_withKeys_mono hkeys hgranted)

theorem satisfied_mono_sample :
    (((ofAuthorities sampleAuthorities []).withKeys [⟨0, [1]⟩, ⟨0, [2]⟩]).satisfied 0
      ⟨⟨1⟩, ⟨1⟩⟩ ∅).1 = true := by
  refine satisfied_mono _ 0 ⟨fun actor => by simp [ofAuthorities, sampleAuthorities], ?_⟩
    (show [⟨0, [1]⟩] ⊆ _ by simp) ?_ (by decide +kernel)
  · intro level auth hauth
    have hmem : auth ∈ sampleAuthorities.map Prod.snd := by
      obtain ⟨x, hx, rfl⟩ := map_eq_some_iff.mp hauth
      exact mem_map_of_mem (mem_of_find?_eq_some hx)
    have hall : ∀ auth ∈ sampleAuthorities.map Prod.snd, auth.validate = true := by decide
    exact hall auth hmem
  · refine .inr fun auth hauth a ha => .inr fun auth' hauth' a' ha' => ?_
    obtain rfl := some.inj hauth
    obtain rfl := mem_singleton.mp ha
    obtain rfl := some.inj hauth'
    simp at ha'

/-- The account 1 needs 2, 4 and 5; 2 needs one of the key 2 and 5; 5 needs 4; and 4 needs one of 5
and the key 1. -/
def cyclicAuthorities : List (PermissionLevel × Authority) :=
  [ (⟨⟨1⟩, ⟨1⟩⟩, { threshold := 3, keys := [], accounts :=
      [⟨⟨⟨2⟩, ⟨1⟩⟩, 1⟩, ⟨⟨⟨4⟩, ⟨1⟩⟩, 1⟩, ⟨⟨⟨5⟩, ⟨1⟩⟩, 1⟩] }),
    (⟨⟨2⟩, ⟨1⟩⟩, { threshold := 1, keys := [⟨⟨0, [2]⟩, 1⟩], accounts := [⟨⟨⟨5⟩, ⟨1⟩⟩, 1⟩] }),
    (⟨⟨5⟩, ⟨1⟩⟩, { threshold := 1, keys := [], accounts := [⟨⟨⟨4⟩, ⟨1⟩⟩, 1⟩] }),
    (⟨⟨4⟩, ⟨1⟩⟩, { threshold := 1, keys := [⟨⟨0, [1]⟩, 1⟩], accounts := [⟨⟨⟨5⟩, ⟨1⟩⟩, 2⟩] }) ]

/-- Without the key 2, 5 is evaluated first, and 4 inside it.  With the key, 5 is first met inside
4, which it needs itself, and stays denied. -/
theorem satisfied_lost_by_key :
    ¬ ∀ (c : AuthorityChecker) (delay : ℤ) (keys₁ keys₂ : List PublicKey)
      (permission : PermissionLevel), keys₁ ⊆ keys₂ →
        ((c.withKeys keys₁).satisfied delay permission ∅).1 = true →
        ((c.withKeys keys₂).satisfied delay permission ∅).1 = true := by
  intro hclaim
  have hlost := hclaim (ofAuthorities cyclicAuthorities []) 0 [⟨0, [1]⟩] [⟨0, [1]⟩, ⟨0, [2]⟩]
    ⟨⟨1⟩, ⟨1⟩⟩ (by simp) (by decide +kernel)
  revert hlost
  decide +kernel

end AuthorityChecker

end DcdProtocol.Chain
