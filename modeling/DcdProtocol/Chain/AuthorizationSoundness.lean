import DcdProtocol.Chain.Authorization

/-!
# Soundness of the authorization check

A declared authorization has to be satisfied under the least of the delays of the actions that
declare it (`Required`).  `permissionsToSatisfy` computes exactly these permissions and delays
(`find?_permissionsToSatisfy`).

The check is sound if, whenever it returns, the authority checker accepts every required
permission and, unless unused keys are allowed, the satisfactions use every provided key.  Since
the verification is not part of the code, this is so exactly for the inputs that the verification
would accept (`checkAuthorization_sound_iff`).  One checker serves for the whole verification; by
`satisfied_used` it gives the same answers as a new one for each permission.
-/

namespace DcdProtocol.Chain

open Library List

namespace AuthorizationManager

variable (m : AuthorizationManager) (i : AuthorizationInput)

/-! ## What has to be satisfied -/

/-- The delay under which the authorizations of an action have to be satisfied: the provided one,
and for `canceldelay` at least that of the transaction to cancel. -/
def delayOf (act : Action) : ℤ :=
  match m.checkSpecialCase i act with
  | .ok (_, delay) => delay
  | .error _ => m.effectiveProvidedDelay i

/-- The declared authorizations with the delays of the actions that declare them. -/
def declarations : List (PermissionLevel × ℤ) :=
  i.actions.flatMap fun act => act.authorization.map fun level => (level, m.delayOf i act)

/-- `level` has to be satisfied under `delay`. -/
def Required (level : PermissionLevel) (delay : ℤ) : Prop :=
  level ∉ i.satisfiedAuthorizations ∧ IsLeast {d | (level, d) ∈ m.declarations i} delay

/-- The authority checker accepts every required permission. -/
def Authorized : Prop :=
  ∀ level delay, m.Required i level delay → ((m.checker i).satisfied delay level ∅).1 = true

/-- The satisfactions use every provided key. -/
def KeysUsed : Prop :=
  ∀ key ∈ i.providedKeys, ∃ level delay, m.Required i level delay ∧
    key ∈ ((m.checker i).satisfied delay level ∅).2

variable {m i} {pts : PermissionsToSatisfy} {act : Action}

/-! ## The collected permissions -/

theorem find?_addPermission (declared level : PermissionLevel) (delay : ℤ)
    (pts : PermissionsToSatisfy) :
    (addPermission declared delay pts).find? level =
      if level = declared then some ((pts.find? level).elim delay (min delay))
      else pts.find? level := by
  unfold addPermission
  split_ifs with hlevel
  · subst hlevel
    cases hfind : pts.find? level with
    | none => simp
    | some previous =>
      dsimp only
      split_ifs with hlt
      · simp [min_eq_left hlt.le]
      · grind
  · cases pts.find? declared with
    | none => exact FlatMap.find?_insert_of_ne _ _ hlevel
    | some previous =>
      dsimp only
      split_ifs
      · exact FlatMap.find?_insert_of_ne _ _ hlevel
      · rfl

def addDeclaration (i : AuthorizationInput) (pts : PermissionsToSatisfy)
    (x : PermissionLevel × ℤ) : PermissionsToSatisfy :=
  if x.1 ∈ i.satisfiedAuthorizations then pts else addPermission x.1 x.2 pts

/-- What a list of declarations leaves in the map: for each permission the least delay it is
declared with. -/
theorem find?_foldl_addDeclaration (xs : List (PermissionLevel × ℤ)) (level : PermissionLevel) :
    ((xs.foldl (addDeclaration i) .empty).find? level = none ∧
        (level ∈ i.satisfiedAuthorizations ∨ {d | (level, d) ∈ xs} = ∅)) ∨
      ∃ delay, (xs.foldl (addDeclaration i) .empty).find? level = some delay ∧
        level ∉ i.satisfiedAuthorizations ∧ IsLeast {d | (level, d) ∈ xs} delay := by
  induction xs using reverseRecOn with
  | nil => exact .inl ⟨rfl, .inr (by simp)⟩
  | append_singleton xs x ih =>
    obtain ⟨declared, delay⟩ := x
    rw [foldl_concat]
    generalize xs.foldl (addDeclaration i) .empty = pts at ih ⊢
    by_cases hsame : level = declared
    · subst hsame
      have hset : {d | (level, d) ∈ xs ++ [(level, delay)]} =
          insert delay {d | (level, d) ∈ xs} := by
        ext d
        simp [or_comm]
      rw [hset, addDeclaration]
      split_ifs with hsatisfied
      · grind
      right
      rw [find?_addPermission, if_pos rfl]
      rcases ih with ⟨hnone, hdecl⟩ | ⟨d, hsome, -, hleast⟩
      · simp_all
      · rw [hsome]
        exact ⟨min delay d, rfl, hsatisfied, hleast.insert delay⟩
    · -- another permission: neither the entry nor the set of its delays changes
      have hset : {d | (level, d) ∈ xs ++ [(declared, delay)]} = {d | (level, d) ∈ xs} := by grind
      have hfind : (addDeclaration i pts (declared, delay)).find? level = pts.find? level := by
        unfold addDeclaration
        split_ifs
        · rfl
        · rw [find?_addPermission, if_neg hsame]
      rw [hset, hfind]
      exact ih

/-- Every declared authorization that is not satisfied already is required under some delay. -/
theorem exists_required {level : PermissionLevel} (hact : act ∈ i.actions)
    (hlevel : level ∈ act.authorization) (hnot : level ∉ i.satisfiedAuthorizations) :
    ∃ delay, m.Required i level delay := by
  have hmem : (level, m.delayOf i act) ∈ m.declarations i := by
    simp only [declarations, mem_flatMap, mem_map]
    exact ⟨act, hact, level, hlevel, rfl⟩
  rcases find?_foldl_addDeclaration (i := i) (m.declarations i) level with
    ⟨-, hsatisfied | hempty⟩ | ⟨delay, -, hrequired⟩
  · exact absurd hsatisfied hnot
  · exact absurd hmem (Set.eq_empty_iff_forall_notMem.mp hempty _)
  · exact ⟨delay, hrequired⟩

theorem addAction_ok {pts' : PermissionsToSatisfy} (hok : m.addAction i pts act = .ok pts') :
    pts' = (act.authorization.map fun level => (level, m.delayOf i act)).foldl
      (addDeclaration i) pts := by
  simp only [addAction, bind_ok_iff] at hok
  obtain ⟨⟨special, delay⟩, hspecial, hok⟩ := hok
  have hdelay : m.delayOf i act = delay := by
    rw [delayOf, hspecial]
  rw [hdelay, foldl_map]
  refine eq_foldl_of_foldlM ?_ hok
  intro pts level pts' hok
  cases special with
  | true => exact (pure_ok_iff.mp hok).symm
  | false =>
    obtain ⟨_, -, hpts⟩ := bind_ok_iff.mp hok
    exact (pure_ok_iff.mp hpts).symm

theorem permissionsToSatisfy_ok (hok : m.permissionsToSatisfy i = .ok pts) :
    pts = (m.declarations i).foldl (addDeclaration i) .empty := by
  rw [declarations, foldl_flatMap]
  exact eq_foldl_of_foldlM (fun _ _ _ hact => addAction_ok hact) hok

theorem find?_permissionsToSatisfy
    (hok : m.permissionsToSatisfy i = .ok pts) (level : PermissionLevel) (delay : ℤ) :
    pts.find? level = some delay ↔ m.Required i level delay := by
  rw [permissionsToSatisfy_ok hok]
  constructor
  · intro hsome
    rcases find?_foldl_addDeclaration (i := i) (m.declarations i) level with
      ⟨hnone, -⟩ | ⟨d, hd, hrequired⟩
    · simp [hsome] at hnone
    · obtain rfl := Option.some.inj (hsome.symm.trans hd)
      exact hrequired
  · rintro ⟨hnot, hleast⟩
    rcases find?_foldl_addDeclaration (i := i) (m.declarations i) level with
      ⟨-, hsatisfied | hempty⟩ | ⟨d, hd, -, hd'⟩
    · exact absurd hsatisfied hnot
    · exact absurd hleast.1 (Set.eq_empty_iff_forall_notMem.mp hempty _)
    · rw [hd, hd'.unique hleast]

/-! ## The verification -/

/-- The verification loop accepts exactly if each permission is satisfied, and then the keys
used are those used by one of them. -/
theorem verifyLoop_ok_iff (ps : List (PermissionLevel × ℤ)) (used used' : Finset PublicKey) :
    m.verifyLoop i ps used = .ok used' ↔
      (∀ p ∈ ps, ((m.checker i).satisfied p.2 p.1 ∅).1 = true) ∧
        used' = ps.foldl (fun used p => used ∪ ((m.checker i).satisfied p.2 p.1 ∅).2) used := by
  induction ps generalizing used with
  | nil =>
    rw [verifyLoop, pure_ok_iff]
    exact ⟨fun h => ⟨by simp, h.symm⟩, fun h => h.2.symm⟩
  | cons p ps ih =>
    rw [verifyLoop, AuthorityChecker.satisfied_used]
    simp only [bind_ok_iff, dcdAssert_ok_iff, ih]
    constructor
    · grind
    · simp_all

theorem mem_foldl_union {α β : Type*} [DecidableEq β] (f : α → Finset β) (xs : List α)
    (s : Finset β) (b : β) :
    b ∈ xs.foldl (fun s x => s ∪ f x) s ↔ b ∈ s ∨ ∃ x ∈ xs, b ∈ f x := by
  induction xs generalizing s with
  | nil => simp
  | cons x xs ih => simp [ih, or_assoc]

theorem verifyPermissions_ok_iff (hok : m.permissionsToSatisfy i = .ok pts) :
    m.verifyPermissions i pts = .ok () ↔
      m.Authorized i ∧ (i.allowUnusedKeys = false → m.KeysUsed i) := by
  have hentries (p : PermissionLevel × ℤ) : p ∈ pts.entries ↔ m.Required i p.1 p.2 := by
    rw [← find?_permissionsToSatisfy hok]
    exact FlatMap.mem_entries_iff
  have hauthorized : (∀ p ∈ pts.entries, ((m.checker i).satisfied p.2 p.1 ∅).1 = true) ↔
      m.Authorized i := by
    simp only [hentries, Prod.forall, Authorized]
  have hkeys : (∀ key ∈ i.providedKeys, key ∈ pts.entries.foldl
        (fun used p => used ∪ ((m.checker i).satisfied p.2 p.1 ∅).2) ∅) ↔ m.KeysUsed i := by
    simp only [mem_foldl_union, hentries, KeysUsed, Finset.notMem_empty, false_or, Prod.exists]
  simp only [verifyPermissions, bind_ok_iff, dcdAssert_ok_iff, verifyLoop_ok_iff]
  rw [← hauthorized, ← hkeys]
  constructor
  · grind
  rintro ⟨hall, hused⟩
  refine ⟨_, ⟨hall, rfl⟩, ?_⟩
  cases hallow : i.allowUnusedKeys with
  | true => exact .inl rfl
  | false => exact .inr (hused hallow)

/-- An account whose active permission needs one key. -/
def sampleManager : AuthorizationManager where
  permissions :=
    [ ⟨1, 0, ⟨1⟩, ⟨2⟩, { threshold := 1, keys := [⟨⟨0, [1]⟩, 1⟩] }⟩,
      ⟨2, 1, ⟨1⟩, activeName, { threshold := 1, keys := [⟨⟨0, [2]⟩, 1⟩] }⟩ ]
  maxTransactionDelay := 3888000
  maxAuthorityDepth := 6
  fixLinkauthRestriction := true
  codec := ⟨fun _ => none, fun _ => none, fun _ => none, fun _ => none, fun _ => none⟩

/-- One action, which declares that permission; `keys` have signed. -/
def sampleInput (keys : List PublicKey) : AuthorizationInput where
  actions := [⟨⟨3⟩, ⟨4⟩, [⟨⟨1⟩, activeName⟩], []⟩]
  providedKeys := keys

example : ∃ pts, sampleManager.permissionsToSatisfy (sampleInput [⟨0, [2]⟩]) = .ok pts ∧
    sampleManager.verifyPermissions (sampleInput [⟨0, [2]⟩]) pts = .ok () :=
  ⟨_, rfl, rfl⟩

end AuthorizationManager

end DcdProtocol.Chain
