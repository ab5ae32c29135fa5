import DcdProtocol.Chainbase.UndoIndex

/-!
# The trees of a container

Every tree of a container holds each object once, in the order of its index (`Valid`).  While `undo`
puts old values back, keys may be equal for a moment, and the trees are only ordered up to equal keys
(`WeaklyValid`).  Once the objects are part of a container in which keys are unique, the order is
strict again; since a strict order is determined by the objects, so are the trees (`Valid.eq_of_byId`).
-/

namespace DcdProtocol.Chainbase

open Library List FlatMap

variable {V : Type*} {ixs : List (OrderedIndex V)} {ix : OrderedIndex V} {m m' : FlatMap ℕ V}
  {x x' y : Indices V} {id a b : ℕ} {v : V}

/-! ## Comparing nodes -/

theorem OrderedIndex.strictWeak_before (ix : OrderedIndex V) (m : FlatMap ℕ V) :
    StrictWeak (ix.before m) := by
  constructor
  · intro a
    rw [before]
    cases m.find? a with
    | none => rfl
    | some x => exact ix.strictWeak.irrefl _
  · intro a b c hab hbc
    rw [before] at *
    cases hc : m.find? c with
    | none => simp [hc] at hbc
    | some z =>
      cases hb : m.find? b with
      | none => simp [hb] at hab
      | some y =>
        cases ha : m.find? a with
        | none => rfl
        | some x =>
          simp only [ha, hb, hc] at hab hbc ⊢
          exact ix.strictWeak.trans hab hbc
  · intro a c b hac
    simp only [before] at *
    cases hc : m.find? c with
    | none => simp [hc] at hac
    | some z =>
      cases hb : m.find? b with
      | none => exact .inr rfl
      | some y =>
        cases ha : m.find? a with
        | none => exact .inl rfl
        | some x =>
          simp only [ha, hc] at hac ⊢
          exact ix.strictWeak.negTrans _ hac

theorem OrderedIndex.before_congr (ha : m.find? a = m'.find? a) (hb : m.find? b = m'.find? b) :
    ix.before m a b = ix.before m' a b := by
  rw [before, before, ha, hb]

/-- The objects of `m` are among those of `m'`. -/
def Submap (m m' : FlatMap ℕ V) : Prop := ∀ id v, m.find? id = some v → m'.find? id = some v

def Unique (ixs : List (OrderedIndex V)) (m : FlatMap ℕ V) : Prop :=
  ∀ ix ∈ ixs, ∀ a ∈ m.keys, ∀ b ∈ m.keys, a ≠ b → ix.before m a b = true ∨ ix.before m b a = true

theorem Submap.find?_eq (h : Submap m m') (ha : a ∈ m.keys) : m.find? a = m'.find? a := by
  obtain ⟨v, hv⟩ := mem_keys_iff.mp ha
  rw [hv, h a v hv]

theorem Submap.mem_keys (h : Submap m m') (ha : a ∈ m.keys) : a ∈ m'.keys := by
  obtain ⟨v, hv⟩ := mem_keys_iff.mp ha
  exact mem_keys_iff.mpr ⟨v, h a v hv⟩

theorem Unique.of_submap (hm' : Unique ixs m') (h : Submap m m') : Unique ixs m := by
  intro ix hix a ha b hb hne
  rw [OrderedIndex.before_congr (h.find?_eq ha) (h.find?_eq hb),
    OrderedIndex.before_congr (h.find?_eq hb) (h.find?_eq ha)]
  exact hm' ix hix a (h.mem_keys ha) b (h.mem_keys hb) hne

/-! ## Trees in order -/

/-- A tree with all objects of `m`, ordered as `R` says. -/
def TreeOf (R : (ℕ → ℕ → Bool) → List ℕ → Prop) (m : FlatMap ℕ V) (ix : OrderedIndex V)
    (tree : List ℕ) : Prop :=
  R (ix.before m) tree ∧ tree.Perm m.keys

namespace Indices

/-- The trees hold the objects in the strict order of their indices. -/
def Valid (ixs : List (OrderedIndex V)) (x : Indices V) : Prop :=
  List.Forall₂ (TreeOf Strict x.byId) ixs x.trees

/-- The trees hold the objects in order, up to equal keys. -/
def WeaklyValid (ixs : List (OrderedIndex V)) (x : Indices V) : Prop :=
  List.Forall₂ (TreeOf Weak x.byId) ixs x.trees

theorem Valid.weaklyValid (h : x.Valid ixs) : x.WeaklyValid ixs :=
  h.imp fun ix _ htree => ⟨htree.1.weak (ix.strictWeak_before _), htree.2⟩

theorem WeaklyValid.valid (h : x.WeaklyValid ixs) (hunique : Unique ixs x.byId) : x.Valid ixs := by
  have htrees : ∀ ix ∈ ixs, ∀ tree, TreeOf Weak x.byId ix tree → TreeOf Strict x.byId ix tree := by
    rintro ix hix tree ⟨hweak, hperm⟩
    refine ⟨hweak.strict (hperm.nodup_iff.mpr x.byId.keys_nodup) ?_, hperm⟩
    intro a ha b hb
    exact hunique ix hix a (hperm.subset ha) b (hperm.subset hb)
  rw [Valid, forall₂_iff_zip]
  obtain ⟨hlength, hzip⟩ := forall₂_iff_zip.mp h
  exact ⟨hlength, fun hmem => htrees _ (of_mem_zip hmem).1 _ (hzip hmem)⟩

theorem Valid.unique (h : x.Valid ixs) : Unique ixs x.byId := by
  intro ix hix a ha b hb hne
  obtain ⟨i, hi, rfl⟩ := getElem_of_mem hix
  have htree := forall₂_iff_get.mp h
  obtain ⟨hstrict, hperm⟩ := htree.2 i hi (htree.1 ▸ hi)
  exact hstrict.comparable (hperm.symm.subset ha) (hperm.symm.subset hb) hne

theorem Valid.eq_of_byId (hx : x.Valid ixs) (hy : y.Valid ixs) (heq : x.byId = y.byId) : x = y := by
  obtain ⟨m, trees⟩ := x
  obtain ⟨m', trees'⟩ := y
  obtain rfl : m = m' := heq
  change List.Forall₂ (TreeOf Strict m) ixs trees at hx
  change List.Forall₂ (TreeOf Strict m) ixs trees' at hy
  congr
  induction hx generalizing trees' with
  | nil =>
    cases hy
    rfl
  | cons htree _ ih =>
    cases hy with
    | cons htree' hrest =>
      rw [ih _ hrest, htree.1.eq_of_perm (OrderedIndex.strictWeak_before _ _) htree'.1
        (htree.2.trans htree'.2.symm)]

/-! ## Insertion, removal and modification -/

variable {R : Bool → Bool → Prop} {trees : List (List ℕ)} {tree : List ℕ}

theorem pairwise_before_congr
    (htree : tree.Pairwise fun a b => R (ix.before m a b) (ix.before m b a))
    (hfind : ∀ a ∈ tree, m.find? a = m'.find? a) :
    tree.Pairwise fun a b => R (ix.before m' a b) (ix.before m' b a) := by
  refine htree.imp_of_mem fun {a b} ha hb hR => ?_
  rwa [← OrderedIndex.before_congr (hfind a ha) (hfind b hb),
    ← OrderedIndex.before_congr (hfind b hb) (hfind a ha)]

theorem find?_insert_of_notMem (hid : id ∉ tree) (v : V) :
    ∀ a ∈ tree, m.find? a = (m.insert id v).find? a := by
  intro a ha
  have hne : a ≠ id := by grind
  rw [find?_insert_of_ne m v hne]

theorem forall₂_insertImpl {trees' : List (List ℕ)}
    (h : List.Forall₂ (TreeOf Strict m) ixs trees) (hid : id ∉ m.keys)
    (hok : insertImpl (m.insert id v) id ixs trees = some trees') :
    List.Forall₂ (TreeOf Strict (m.insert id v)) ixs trees' := by
  induction h generalizing trees' with
  | nil =>
    obtain rfl := Option.some.inj hok
    exact .nil
  | @cons ix tree ixs trees htree _ ih =>
    simp only [insertImpl] at hok
    split_ifs at hok with hinserted
    obtain ⟨rest, hrest, rfl⟩ := Option.map_eq_some_iff.mp hok
    have hnot : id ∉ tree := fun hmem => hid (htree.2.subset hmem)
    have hstrict : Strict (ix.before (m.insert id v)) tree :=
      pairwise_before_congr (R := fun b _ => b = true) htree.1 (find?_insert_of_notMem hnot v)
    refine .cons ⟨strict_insertUnique (ix.strictWeak_before _) hstrict hinserted, ?_⟩ (ih hrest)
    exact (perm_insertUnique _ _ _).trans ((htree.2.cons id).trans (perm_keys_insert hid v).symm)

theorem Valid.insert (h : x.Valid ixs) (hok : x.insert ixs id v = some x') :
    x'.Valid ixs ∧ x'.byId = x.byId.insert id v ∧ id ∉ x.byId.keys := by
  unfold Indices.insert at hok
  split_ifs at hok with hcontains
  obtain ⟨trees, htrees, rfl⟩ := Option.map_eq_some_iff.mp hok
  have hid : id ∉ x.byId.keys := fun hmem => hcontains (contains_iff.mpr hmem)
  exact ⟨forall₂_insertImpl h hid htrees, rfl, hid⟩

theorem Valid.insert_isSome (h : x.Valid ixs) (hid : id ∉ x.byId.keys)
    (hunique : Unique ixs (x.byId.insert id v)) : ∃ x', x.insert ixs id v = some x' := by
  have htrees : ∀ {ixs : List (OrderedIndex V)} {trees : List (List ℕ)},
      List.Forall₂ (TreeOf Strict x.byId) ixs trees → Unique ixs (x.byId.insert id v) →
      ∃ trees', insertImpl (x.byId.insert id v) id ixs trees = some trees' := by
    intro ixs trees htrees hunique
    induction htrees with
    | nil => exact ⟨[], rfl⟩
    | @cons ix tree ixs trees htree _ ih =>
      obtain ⟨rest, hrest⟩ := ih fun ix hix => hunique ix (mem_cons_of_mem _ hix)
      have hinserted : (insertUnique (ix.before (x.byId.insert id v)) id tree).1 = true := by
        apply insertUnique_of_unique
        intro a ha
        have hne : id ≠ a := fun heq => hid (htree.2.subset (heq ▸ ha))
        exact hunique ix mem_cons_self id (mem_keys_insert.mpr (.inl rfl)) a
          (mem_keys_insert.mpr (.inr (htree.2.subset ha))) hne
      simp only [insertImpl, hinserted, hrest]
      exact ⟨_, rfl⟩
  obtain ⟨trees', htrees'⟩ := htrees h hunique
  have hcontains : x.byId.contains id = false := by
    rw [← Bool.not_eq_true, FlatMap.contains_iff]
    exact hid
  refine ⟨⟨x.byId.insert id v, trees'⟩, ?_⟩
  simp only [Indices.insert, hcontains, htrees']
  rfl

theorem forall₂_erase
    (h : List.Forall₂ (TreeOf (fun lt tree => tree.Pairwise fun a b => R (lt a b) (lt b a)) m) ixs
      trees) :
    List.Forall₂ (TreeOf (fun lt tree => tree.Pairwise fun a b => R (lt a b) (lt b a)) (m.erase id))
      ixs (trees.map (·.erase id)) := by
  rw [forall₂_map_right_iff]
  refine h.imp fun ix tree htree => ⟨?_, ?_⟩
  · have hmem : ∀ a ∈ tree.erase id, m.find? a = (m.erase id).find? a := by
      intro a ha
      have hne : a ≠ id := by
        rintro rfl
        exact ((htree.2.nodup_iff.mpr m.keys_nodup).mem_erase_iff.mp ha).1 rfl
      rw [find?_erase, if_neg hne]
    exact pairwise_before_congr (htree.1.sublist erase_sublist) hmem
  · exact (htree.2.erase id).trans (perm_keys_erase m id).symm

theorem Valid.erase (h : x.Valid ixs) (id : ℕ) : (x.erase id).Valid ixs :=
  forall₂_erase (R := fun b _ => b = true) h

theorem TreeOf.pairwise_erase
    (h : TreeOf (fun lt tree => tree.Pairwise fun a b => R (lt a b) (lt b a)) m ix tree) (v : V) :
    (tree.erase id).Pairwise fun a b =>
      R (ix.before (m.insert id v) a b) (ix.before (m.insert id v) b a) := by
  refine pairwise_before_congr (h.1.sublist erase_sublist) (find?_insert_of_notMem ?_ v)
  intro hmem
  exact ((h.2.nodup_iff.mpr m.keys_nodup).mem_erase_iff.mp hmem).1 rfl

theorem forall₂_postModify (h : List.Forall₂ (TreeOf Strict m) ixs trees)
    (hid : id ∈ m.keys) (hok : (postModify true (m.insert id v) id ixs trees).1 = true) :
    List.Forall₂ (TreeOf Strict (m.insert id v)) ixs
      (postModify true (m.insert id v) id ixs trees).2 := by
  induction h with
  | nil => exact .nil
  | @cons ix tree ixs trees htree _ ih =>
    have hmem : id ∈ tree := htree.2.symm.subset hid
    simp only [postModify] at hok ⊢
    split_ifs at hok ⊢ with hplaced
    refine .cons ⟨strict_refit (ix.strictWeak_before _) hmem ?_ hplaced, ?_⟩ (ih hok)
    · exact TreeOf.pairwise_erase (R := fun b _ => b = true) htree v
    · rw [keys_insert_of_mem hid]
      exact (perm_refit hmem true).trans htree.2

theorem forall₂_postModify_weak (h : List.Forall₂ (TreeOf Weak m) ixs trees) (hid : id ∈ m.keys) :
    List.Forall₂ (TreeOf Weak (m.insert id v)) ixs
      (postModify false (m.insert id v) id ixs trees).2 := by
  induction h with
  | nil => exact .nil
  | @cons ix tree ixs trees htree _ ih =>
    have hmem : id ∈ tree := htree.2.symm.subset hid
    simp only [postModify, refit_fst_of_equal]
    refine .cons ⟨weak_refit (ix.strictWeak_before _) hmem ?_, ?_⟩ ih
    · exact TreeOf.pairwise_erase (R := fun _ b => b = false) htree v
    · rw [keys_insert_of_mem hid]
      exact (perm_refit hmem false).trans htree.2

theorem set_byId (x : Indices V) (unique : Bool) (id : ℕ) (v : V) :
    (x.set ixs unique id v).2.byId = x.byId.insert id v := rfl

theorem Valid.set (h : x.Valid ixs) (hid : id ∈ x.byId.keys)
    (hok : (x.set ixs true id v).1 = true) : (x.set ixs true id v).2.Valid ixs :=
  forall₂_postModify h hid hok

theorem WeaklyValid.set (h : x.WeaklyValid ixs) (hid : id ∈ x.byId.keys) (v : V) :
    (x.set ixs false id v).2.WeaklyValid ixs :=
  forall₂_postModify_weak h hid

end Indices

end DcdProtocol.Chainbase
