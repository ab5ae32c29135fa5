import DcdProtocol.Chainbase.UndoRefinement

/-!
# Modifications that are rejected

A `modify` whose new value collides with another object throws.  If the session has a copy of the old
value since this call, the object gets it back, and the copy is dropped, but not the time stamp of the
session: the next `modify` of the object takes no copy, and `undo` cannot bring the old value back.
If the object had been created or modified before in the session, it is removed, and `undo` brings it
back as after a `remove`.
-/

namespace DcdProtocol.Chainbase

open Library List FlatMap UndoIndex

variable {V : Type*} {ixs : List (OrderedIndex V)} {c : UndoIndex V} {ks : List (Container V)}
  {id : ℕ} {calls : List (Call V)} {f : V → V}

/-! ## Trees in which one object was moved -/

namespace Indices

variable {x : Indices V} {m m' : FlatMap ℕ V} {trees trees' : List (List ℕ)} {id : ℕ} {v : V}

/-- The trees differ in the place of one object. -/
def Moved (id : ℕ) : List (List ℕ) → List (List ℕ) → Prop :=
  List.Forall₂ fun tree tree' => tree'.Perm tree ∧ tree'.erase id = tree.erase id

theorem moved_postModify (h : List.Forall₂ (TreeOf Strict m) ixs trees) (hid : id ∈ m.keys)
    (unique : Bool) (m' : FlatMap ℕ V) : Moved id trees (postModify unique m' id ixs trees).2 := by
  induction h with
  | nil => exact .nil
  | @cons ix tree ixs trees htree hrest ih =>
    have hmoved : (refit (ix.before m') id unique tree).2.Perm tree ∧
        (refit (ix.before m') id unique tree).2.erase id = tree.erase id :=
      ⟨perm_refit (htree.2.symm.subset hid) unique,
        erase_refit (htree.2.nodup_iff.mpr m.keys_nodup) unique⟩
    simp only [postModify]
    split_ifs
    · exact .cons hmoved ih
    · exact .cons hmoved (forall₂_same.mpr fun tree _ => ⟨Perm.refl tree, rfl⟩)

theorem postModify_of_moved (h : List.Forall₂ (TreeOf Strict m) ixs trees) (hid : id ∈ m.keys)
    (hmoved : Moved id trees trees') : postModify true m id ixs trees' = (true, trees) := by
  induction h generalizing trees' with
  | nil =>
    cases hmoved
    rfl
  | @cons ix tree ixs trees htree hrest ih =>
    cases hmoved with
    | @cons _ tree' _ trees' hmoved hrest' =>
      obtain ⟨hperm, herase⟩ := hmoved
      have hmem : id ∈ tree := htree.2.symm.subset hid
      have hplaced : (refit (ix.before m) id true tree').1 = true := by
        refine refit_fst_of_unique fun b hb => ?_
        rw [herase, (htree.2.nodup_iff.mpr m.keys_nodup).mem_erase_iff] at hb
        exact htree.1.comparable hmem hb.2 hb.1.symm
      have hstrict : Strict (ix.before m) (refit (ix.before m) id true tree').2 := by
        refine strict_refit (ix.strictWeak_before m) (hperm.symm.subset hmem) ?_ hplaced
        rw [herase]
        exact htree.1.sublist erase_sublist
      have htree' : (refit (ix.before m) id true tree').2 = tree :=
        hstrict.eq_of_perm (ix.strictWeak_before m) htree.1
          ((perm_refit (hperm.symm.subset hmem) true).trans hperm)
      simp only [postModify]
      rw [if_pos hplaced, ih hrest', htree']

/-- The old value puts the object back to its places. -/
theorem Valid.set_set (h : x.Valid ixs) (hv : x.byId.find? id = some v) (w : V) :
    (x.set ixs true id w).2.set ixs true id v = (true, x) := by
  have hid : id ∈ x.byId.keys := mem_keys_iff.mpr ⟨v, hv⟩
  have hbyId : (x.set ixs true id w).2.byId.insert id v = x.byId := by
    rw [set_byId, insert_insert, insert_of_find? hv]
  have hback := postModify_of_moved h hid (moved_postModify h hid true (x.byId.insert id w))
  unfold Indices.set at hbyId ⊢
  dsimp only at hbyId ⊢
  rw [hbyId, hback]

theorem Valid.erase_set (h : x.Valid ixs) (hid : id ∈ x.byId.keys) (unique : Bool) (w : V) :
    (x.set ixs unique id w).2.erase id = x.erase id := by
  have hbyId : (x.byId.insert id w).erase id = x.byId.erase id := by
    refine ext_find? fun id' => ?_
    grind [find?_erase, find?_insert_of_ne]
  have hmoved := moved_postModify h hid unique (x.byId.insert id w)
  have htrees : (postModify unique (x.byId.insert id w) id ixs x.trees).2.map (·.erase id) =
      x.trees.map (·.erase id) := by
    refine forall₂_eq_eq_eq ▸ ?_
    rw [forall₂_map_left_iff, forall₂_map_right_iff]
    exact hmoved.flip.imp fun _ _ hmoved => hmoved.2
  unfold Indices.set Indices.erase
  rw [hbyId, htrees]

end Indices

/-! ## What a rejected modification does -/

/-- The open session, if there is one, has created or modified the object. -/
def UndoIndex.Touched (c : UndoIndex V) (id : ℕ) : Prop :=
  ∀ st ∈ c.undoStack.head?, st.ctime ≤ c.mtime id

theorem UndoIndex.onModify_of_touched (h : c.Touched id) (v : V) :
    c.onModify id v = (false, c) := by
  unfold onModify
  split
  next => rfl
  next st sts hstack =>
    rw [if_pos (h st (by rw [hstack]; rfl))]

theorem UndoIndex.onModify_fst_of_not_touched (h : ¬c.Touched id) (v : V) :
    (c.onModify id v).1 = true := by
  unfold onModify
  unfold Touched at h
  split
  next hstack => simp [hstack] at h
  next st sts hstack =>
    rw [if_neg]
    simpa [hstack] using h

/-- An object that the session had not touched is as before; another one is removed, with the value
that was rejected. -/
theorem Inv.modify_rejected (h : Inv ixs c ks)
    (hthrown : (c.modify ixs id f).2 = some .logicError) : ∃ v, c.indices.byId.find? id = some v ∧
      (¬c.Touched id ∧ (c.modify ixs id f).1.toContainer = c.toContainer ∨
        c.Touched id ∧ (c.modify ixs id f).1 = c.removeNode id (f v)) := by
  unfold UndoIndex.modify at hthrown ⊢
  cases hv : c.indices.byId.find? id with
  | none =>
    rw [hv] at hthrown
    cases hthrown
  | some v =>
    rw [hv] at hthrown
    refine ⟨v, rfl, ?_⟩
    dsimp only at hthrown ⊢
    rw [onModify_toContainer] at hthrown ⊢
    have hback := h.valid.set_set hv (f v)
    have herase := h.valid.erase_set (mem_keys_iff.mpr ⟨v, hv⟩) true (f v)
    rcases hset : c.indices.set ixs true id (f v) with ⟨success, indices⟩
    rw [hset] at hthrown hback herase
    cases success with
    | true => cases hthrown
    | false =>
      by_cases htouched : c.Touched id
      · right
        rw [onModify_of_touched htouched]
        refine ⟨htouched, ?_⟩
        simp only [Bool.false_eq_true, if_false, UndoIndex.removeNode]
        rw [herase]
      · left
        rw [onModify_fst_of_not_touched htouched]
        refine ⟨htouched, ?_⟩
        show Container.mk (indices.set ixs true id v).2 c.nextId = _
        rw [hback]

theorem UndoIndex.modify_cases (ixs : List (OrderedIndex V)) (c : UndoIndex V) (id : ℕ) (f : V → V) :
    (c.modify ixs id f).1 = c ∨ (c.modify ixs id f).2 = none ∨
      (c.modify ixs id f).2 = some .logicError := by
  unfold modify
  split
  next => exact .inl rfl
  next =>
    right
    dsimp only
    split
    next => exact .inl rfl
    next =>
      right
      split_ifs <;> rfl

theorem Inv.modify_of_touched (h : Inv ixs c ks)
    (htouched : (c.modify ixs id f).2 = some .logicError → c.Touched id) :
    Inv ixs (c.modify ixs id f).1 ks := by
  rcases c.modify_cases ixs id f with hsame | hok | hthrown
  · rwa [hsame]
  · exact h.modify hok
  obtain ⟨v, hv, ⟨hnot, -⟩ | ⟨htouched, heq⟩⟩ := h.modify_rejected hthrown
  · exact absurd (htouched hthrown) hnot
  rw [heq]
  refine h.removeNode hv (.inr fun st hst => ?_)
  -- the first session is the newest one, and the older ones were started before it
  cases hstack : c.undoStack with
  | nil =>
    rw [hstack] at hst
    cases hst
  | cons top sts =>
    have hsessions := h.sessions
    rw [hstack] at hst hsessions
    exact (hsessions.le_head hst).1.trans (htouched top (by rw [hstack]; rfl))

/-! ## Runs -/

/-- A rejected modification in a sequence of calls is one of an object that the open session, if there
is one, has created or modified before. -/
def RejectsTouched (ixs : List (OrderedIndex V)) : UndoIndex V → List (Call V) → Prop
  | _, [] => True
  | c, call :: calls => (match call with
      | .modify id f => (c.modify ixs id f).2 = some .logicError → c.Touched id
      | _ => True) ∧
    RejectsTouched ixs (c.step ixs call).1 calls

/-- The containers at the starts of the open sessions after a sequence of calls, newest first. -/
def startsAfter (ixs : List (OrderedIndex V)) :
    UndoIndex V → List (Container V) → List (Call V) → List (Container V)
  | _, ks, [] => ks
  | c, ks, call :: calls =>
    startsAfter ixs (c.step ixs call).1
      (abstractStep ixs ⟨c.revision, c.toContainer, ks⟩ call).1.saved calls

theorem Inv.step {call : Call V} (h : Inv ixs c ks)
    (htouched : RejectsTouched ixs c (call :: calls)) : Inv ixs (c.step ixs call).1
      (abstractStep ixs ⟨c.revision, c.toContainer, ks⟩ call).1.saved := by
  have hrefines : Refines ixs c ⟨c.revision, c.toContainer, ks⟩ := ⟨rfl, rfl, h⟩
  cases call with
  | modify id f =>
    have hsaved : (abstractStep ixs ⟨c.revision, c.toContainer, ks⟩ (.modify id f)).1.saved = ks := by
      rw [abstractStep]
      cases c.toContainer.modify ixs id f <;> rfl
    rw [hsaved]
    exact h.modify_of_touched htouched.1
  | _ => exact (hrefines.step (show ModifiesSucceed ixs c [_] from ⟨trivial, trivial⟩)).1.inv

theorem Inv.run (h : Inv ixs c ks) (htouched : RejectsTouched ixs c calls) :
    Inv ixs (runCalls (UndoIndex.step ixs) c calls).1 (startsAfter ixs c ks calls) := by
  induction calls generalizing c ks with
  | nil => exact h
  | cons call calls ih => exact ih (h.step htouched) htouched.2

/-- A rejected modification leaves the container as it was, or without the object.  As long as the
rejected ones are of objects that the session has touched, `undo` brings back the container at the
start of the session. -/
theorem UndoIndex.undo_restores_after_rejections (ixs : List (OrderedIndex V)) (revision : ℤ)
    (calls : List (Call V)) (htouched : RejectsTouched ixs (.empty ixs revision) calls) :
    let c := (runCalls (UndoIndex.step ixs) (.empty ixs revision) calls).1
    (∀ id f, (c.modify ixs id f).2 = some .logicError →
      (c.modify ixs id f).1.toContainer = c.toContainer ∨
        c.toContainer.remove id = .ok (c.modify ixs id f).1.toContainer) ∧
    ∀ k ks, startsAfter ixs (.empty ixs revision) [] calls = k :: ks →
      ∃ c', c.undo ixs = some c' ∧ c'.toContainer = k := by
  intro c
  have hinv := (Refines.empty ixs revision).inv.run htouched
  constructor
  · intro id f hthrown
    obtain ⟨v, hv, ⟨-, heq⟩ | ⟨-, heq⟩⟩ := hinv.modify_rejected hthrown
    · exact .inl heq
    right
    have hcontains : c.indices.byId.contains id = true := by
      rw [FlatMap.contains, hv]
      rfl
    rw [heq, removeNode_toContainer, Container.remove, if_pos hcontains]
  · intro k ks hstarts
    obtain ⟨c', hundo, hcontainer, -⟩ := (hstarts ▸ hinv).undo
    exact ⟨c', hundo, hcontainer⟩

/-- The second modification of the object 0 is rejected, and the object is removed. -/
theorem UndoIndex.undo_restores_after_rejections_removed :
    let c := (runCalls (UndoIndex.step [sampleIndex]) (.empty [sampleIndex] 0)
      [.emplace 5, .emplace 7, .startUndoSession, .modify 0 (· + 1), .modify 0 (· + 1)]).1
    c.toContainer = ⟨⟨FlatMap.empty.insert 1 7, [[1]]⟩, 2⟩ ∧ ∃ c', c.undo [sampleIndex] = some c' ∧
        c'.toContainer = ⟨⟨(FlatMap.empty.insert 0 5).insert 1 7, [[0, 1]]⟩, 2⟩ := by
  refine ⟨rfl, (undo_restores_after_rejections [sampleIndex] 0
    [.emplace 5, .emplace 7, .startUndoSession, .modify 0 (· + 1), .modify 0 (· + 1)]
    ⟨trivial, trivial, trivial, ?_, ?_, trivial⟩).2 _ [] rfl⟩
  · intro hthrown
    cases hthrown
  · rintro - st ⟨⟩
    decide

/-- Every tree holds the objects, in the strict order of its index; so no two objects are equal for
an index. -/
theorem UndoIndex.trees_valid (ixs : List (OrderedIndex V)) (revision : ℤ) (calls : List (Call V))
    (htouched : RejectsTouched ixs (.empty ixs revision) calls) :
    let x := (runCalls (UndoIndex.step ixs) (.empty ixs revision) calls).1.indices
    x.Valid ixs ∧ Unique ixs x.byId := by
  have hvalid := ((Refines.empty ixs revision).inv.run htouched).valid
  exact ⟨hvalid, hvalid.unique⟩

theorem UndoIndex.trees_valid_sample :
    let x := (runCalls (UndoIndex.step [sampleIndex]) (.empty [sampleIndex] 0)
      [.emplace 7, .emplace 5]).1.indices
    x.trees = [[1, 0]] ∧ x.Valid [sampleIndex] :=
  ⟨rfl, (trees_valid [sampleIndex] 0 [.emplace 7, .emplace 5] ⟨trivial, trivial, trivial⟩).1⟩

/-- The value 7 is rejected for the object 0, which keeps the value 5; the value 6 is accepted, and
`undo` leaves it. -/
theorem UndoIndex.undo_loses_value :
    let start := (runCalls (UndoIndex.step [sampleIndex]) (.empty [sampleIndex] 0)
      [.emplace 5, .emplace 7]).1
    let calls : List (Call ℕ) := [.modify 0 fun _ => 7, .modify 0 fun _ => 6]
    let (c, thrown) := runCalls (UndoIndex.step [sampleIndex]) start.addSession calls
    start.indices.byId.find? 0 = some 5 ∧ thrown = [some .logicError, none] ∧
      (c.undo [sampleIndex]).map (·.indices.byId.find? 0) = some (some 6) := by
  decide

end DcdProtocol.Chainbase
