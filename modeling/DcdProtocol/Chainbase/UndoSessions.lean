import DcdProtocol.Chainbase.IndexOrder
import DcdProtocol.Library.Fallible

/-!
# What the sessions of an index remember

The lists `_old_values` and `_removed_values` consist of one block for each session, newest first,
and what is left of sessions that were committed.  For a session, the entries before its ends, its
own block and those of the newer sessions, form a log of versions in the sense of `Shows`: together
with the nodes that are in the table or have been removed since, they show the container at the
start of the session.  `Sessions` says this for all sessions of the stack, and `Inv` adds what holds
of the index as a whole.

Each operation changes the nodes, the time stamps or the blocks of the newest session, and keeps all
older snapshots by the rule of `Shows` for such a change.
-/

namespace DcdProtocol.Chainbase

open Library Function List FlatMap Option

variable {V : Type*} {ixs : List (OrderedIndex V)} {ks : List (Container V)}

/-! ## Lists with pointers -/

theorem splitAtPointer_append {β : Type*} {address : β → ℕ} {l₁ l₂ : List β}
    (hnodup : ((l₁ ++ l₂).map address).Nodup) :
    splitAtPointer address (l₂.head?.map address) (l₁ ++ l₂) = some (l₁, l₂) := by
  cases l₂ with
  | nil => simp [splitAtPointer]
  | cons x l₂ =>
    have hl₁ : ∀ a ∈ l₁, decide (address a ≠ address x) = true := by grind
    rw [head?_cons, map_some, splitAtPointer, if_pos (by simp),
      takeWhile_append_of_pos hl₁, dropWhile_append_of_pos hl₁,
      takeWhile_cons_of_neg (by simp), dropWhile_cons_of_neg (by simp),
      append_nil]

/-- The value of a node, in the table or among the removed ones. -/
def nodeAt (m : FlatMap ℕ V) (removed : List (ℕ × V)) (id : ℕ) : Option V :=
  (m.find? id).or (removed.lookup id)

section NodeAt

variable {m : FlatMap ℕ V} {rs rs' : List (ℕ × V)} {id : ℕ} {v w : V}

theorem lookup_ne_none_iff : rs.lookup id ≠ none ↔ id ∈ rs.map Prod.fst := by
  simp [lookup_eq_none_iff]

theorem nodeAt_ne_none_iff : nodeAt m rs id ≠ none ↔ id ∈ m.keys ∨ id ∈ rs.map Prod.fst := by
  rw [← lookup_ne_none_iff, nodeAt, ne_eq, or_eq_none_iff, not_and_or, find?_eq_none_iff, not_not]

theorem nodeAt_append : nodeAt m (rs ++ rs') = fun id => (nodeAt m rs id).or (rs'.lookup id) := by
  funext id
  rw [nodeAt, nodeAt, lookup_append, Option.or_assoc]

theorem nodeAt_nil : nodeAt m [] = m.find? := by
  funext id
  rw [nodeAt, lookup_nil, or_none]

theorem nodeAt_insert : nodeAt (m.insert id v) rs = update (nodeAt m rs) id (some v) := by
  funext id'
  by_cases hid : id' = id
  · rw [hid, update_self, nodeAt, find?_insert_self, some_or]
  · rw [update_of_ne hid, nodeAt, find?_insert_of_ne m v hid, nodeAt]

theorem nodeAt_erase (hid : id ∉ rs.map Prod.fst) :
    nodeAt (m.erase id) rs = update (nodeAt m rs) id none := by
  funext id'
  by_cases hid' : id' = id
  · subst hid'
    rw [update_self, nodeAt, find?_erase, if_pos rfl, none_or]
    by_contra hne
    exact hid (lookup_ne_none_iff.mp hne)
  · rw [update_of_ne hid', nodeAt, find?_erase, if_neg hid', nodeAt]

theorem nodeAt_erase_cons :
    nodeAt (m.erase id) ((id, w) :: rs) = update (nodeAt m rs) id (some w) := by
  funext id'
  by_cases hid : id' = id
  · subst hid
    rw [update_self, nodeAt, find?_erase, if_pos rfl, none_or, lookup_cons_self]
  · rw [update_of_ne hid, nodeAt, find?_erase, if_neg hid, nodeAt, lookup_cons,
      beq_eq_false_iff_ne.mpr hid]

end NodeAt

theorem Container.emplace_eq_ok {ixs : List (OrderedIndex V)} {k k' : Container V} {v : V}
    (hok : k.emplace ixs v = .ok k') :
    ∃ x, k.indices.insert ixs k.nextId v = some x ∧ k' = ⟨x, k.nextId + 1⟩ := by
  unfold Container.emplace at hok
  split at hok
  next x hx =>
    obtain rfl := Except.ok.inj hok
    exact ⟨x, hx, rfl⟩
  next => cases hok

/-! ## Sessions -/

/-- A session with the entries before its ends, `es` and `rs`, and the removed nodes `qs` after it:
it shows the container `k`. -/
structure Level (ixs : List (OrderedIndex V)) (m : FlatMap ℕ V) (mtime : ℕ → ℕ) (st : UndoState)
    (es : List (OldNode V)) (rs qs : List (ℕ × V)) (k : Container V) : Prop where
  valid : k.indices.Valid ixs
  nextId : k.nextId = st.oldNextId
  removed : ∀ x ∈ qs, x.1 < st.oldNextId
  shows : Shows st.ctime (· < st.oldNextId) (nodeAt m rs) mtime (es.map OldNode.toVersion)
    k.indices.byId.find?

/-- The sessions and the containers they show, for lists that go on with `fs` and `qs` after the
entries `es` and `rs` of newer sessions. -/
def Sessions (ixs : List (OrderedIndex V)) (m : FlatMap ℕ V) (mtime : ℕ → ℕ) :
    List UndoState → List (Container V) → List (OldNode V) → List (OldNode V) →
      List (ℕ × V) → List (ℕ × V) → Prop
  | [], [], _, _, _, _ => True
  | st :: sts, k :: ks, es, fs, rs, qs =>
    ∃ b fs' q qs', fs = b ++ fs' ∧ qs = q ++ qs' ∧
      st.oldValuesEnd = fs'.head?.map (·.addr) ∧ st.removedValuesEnd = qs'.head?.map Prod.fst ∧
      Level ixs m mtime st (es ++ b) (rs ++ q) qs' k ∧
      (∀ st' ∈ sts, st'.ctime < st.ctime ∧ st'.oldNextId ≤ st.oldNextId) ∧
      Sessions ixs m mtime sts ks (es ++ b) fs' (rs ++ q) qs'
  | _, _, _, _, _, _ => False

namespace Sessions

variable {m m' : FlatMap ℕ V} {mtime mtime' : ℕ → ℕ} {sts : List UndoState}
  {es es₂ fs : List (OldNode V)} {rs rs₂ qs : List (ℕ × V)}

section

variable (h : Sessions ixs m mtime sts ks es fs rs qs)
include h

theorem length_eq : sts.length = ks.length := by
  induction sts generalizing ks es fs rs qs with
  | nil =>
    cases ks with
    | nil => rfl
    | cons k ks => exact h.elim
  | cons st sts ih =>
    cases ks with
    | nil => exact h.elim
    | cons k ks =>
      obtain ⟨b, fs', q, qs', -, -, -, -, -, -, hrest⟩ := h
      rw [length_cons, length_cons, ih hrest]

/-- A change of the nodes, and of the entries of newer sessions, that every session allows. -/
theorem map (hlevel : ∀ st ∈ sts, ∀ es' rs' qs' k, qs = rs' ++ qs' →
      Level ixs m mtime st (es ++ es') (rs ++ rs') qs' k →
      Level ixs m' mtime' st (es₂ ++ es') (rs₂ ++ rs') qs' k) :
    Sessions ixs m' mtime' sts ks es₂ fs rs₂ qs := by
  induction sts generalizing ks es es₂ fs rs rs₂ qs with
  | nil =>
    cases ks with
    | nil => trivial
    | cons k ks => exact h.elim
  | cons st sts ih =>
    cases ks with
    | nil => exact h.elim
    | cons k ks =>
      obtain ⟨b, fs', q, qs', rfl, rfl, hold, hremoved, hst, horder, hrest⟩ := h
      refine ⟨b, fs', q, qs', rfl, rfl, hold, hremoved,
        hlevel st mem_cons_self b q qs' k rfl hst, horder, ih hrest ?_⟩
      intro st' hst' es' rs' qs'' k' hqs h'
      rw [append_assoc, append_assoc] at h' ⊢
      refine hlevel st' (mem_cons_of_mem _ hst') _ _ _ _ ?_ h'
      rw [hqs, append_assoc]

theorem absorb : Sessions ixs m mtime sts ks [] (es ++ fs) [] (rs ++ qs) := by
  cases sts with
  | nil =>
    cases ks with
    | nil => trivial
    | cons k ks => exact h.elim
  | cons st sts =>
    cases ks with
    | nil => exact h.elim
    | cons k ks =>
      obtain ⟨b, fs', q, qs', rfl, rfl, hold, hremoved, hst, horder, hrest⟩ := h
      refine ⟨es ++ b, fs', rs ++ q, qs', ?_, ?_, hold, hremoved, hst, horder, hrest⟩
      · rw [append_assoc]
      · rw [append_assoc]

end

theorem push (es : List (OldNode V)) (rs : List (ℕ × V))
    (h : Sessions ixs m mtime sts ks [] fs [] qs)
    (hlevel : ∀ st ∈ sts, ∀ es' rs' qs' k, qs = rs' ++ qs' →
      Level ixs m mtime st es' rs' qs' k → Level ixs m' mtime' st (es ++ es') (rs ++ rs') qs' k) :
    Sessions ixs m' mtime' sts ks [] (es ++ fs) [] (rs ++ qs) :=
  (h.map fun st hst es' rs' qs' k hqs h' => hlevel st hst es' rs' qs' k hqs h').absorb

theorem le_head {st st' : UndoState} (h : Sessions ixs m mtime (st :: sts) ks es fs rs qs)
    (hst' : st' ∈ st :: sts) : st'.ctime ≤ st.ctime ∧ st'.oldNextId ≤ st.oldNextId := by
  cases ks with
  | nil => exact h.elim
  | cons k ks =>
    obtain ⟨b, fs', q, qs', -, -, -, -, -, horder, -⟩ := h
    rcases mem_cons.mp hst' with rfl | hst'
    · exact ⟨le_rfl, le_rfl⟩
    · grind

end Sessions

/-! ## The index -/

/-- The index is in order, and its sessions show the containers `ks`. -/
structure Inv (ixs : List (OrderedIndex V)) (c : UndoIndex V) (ks : List (Container V)) :
    Prop where
  valid : c.indices.Valid ixs
  keys_lt : ∀ id ∈ c.indices.byId.keys, id < c.nextId
  removed_lt : ∀ x ∈ c.removedValues, x.1 < c.nextId
  removed_nodup : (c.removedValues.map Prod.fst).Nodup
  removed_notMem : ∀ x ∈ c.removedValues, x.1 ∉ c.indices.byId.keys
  mtime_le : ∀ id, nodeAt c.indices.byId c.removedValues id ≠ none →
    c.mtime id ≤ c.monotonicRevision
  stack_le : ∀ st ∈ c.undoStack, st.ctime ≤ c.monotonicRevision ∧ st.oldNextId ≤ c.nextId
  addr_nodup : (c.oldValues.map (·.addr)).Nodup
  addr_lt : ∀ e ∈ c.oldValues, e.addr < c.nextAddr
  sessions : Sessions ixs c.indices.byId c.mtime c.undoStack ks [] c.oldValues [] c.removedValues

namespace Inv

variable {c c' : UndoIndex V} {id : ℕ} {f : V → V} {v : V}

/-! ### Changes -/

theorem addSession (h : Inv ixs c ks) : Inv ixs c.addSession (c.toContainer :: ks) := by
  refine ⟨h.valid, h.keys_lt, h.removed_lt, h.removed_nodup, h.removed_notMem, ?_, ?_,
    h.addr_nodup, h.addr_lt, ?_⟩
  · intro id hid
    exact (h.mtime_le id hid).trans (Nat.le_succ _)
  · intro st hst
    rcases mem_cons.mp hst with rfl | hst
    · exact ⟨le_rfl, le_rfl⟩
    · exact ⟨(h.stack_le st hst).1.trans (Nat.le_succ _), (h.stack_le st hst).2⟩
  · refine ⟨[], c.oldValues, [], c.removedValues, rfl, rfl, rfl, rfl, ?_, ?_, h.sessions⟩
    · refine ⟨h.valid, rfl, h.removed_lt, ?_⟩
      rw [append_nil, nodeAt_nil]
      refine Shows.start ?_ ?_
      · intro id hid
        exact h.keys_lt id (not_not.mp (find?_eq_none_iff.not.mp hid))
      · intro id hid
        refine Nat.lt_succ_of_le (h.mtime_le id ?_)
        exact nodeAt_ne_none_iff.mpr (.inl (not_not.mp (find?_eq_none_iff.not.mp hid)))
    · intro st hst
      exact ⟨Nat.lt_succ_of_le (h.stack_le st hst).1, (h.stack_le st hst).2⟩

theorem nodeAt_nextId (h : Inv ixs c ks) {rs qs : List (ℕ × V)} (hrs : c.removedValues = rs ++ qs) :
    nodeAt c.indices.byId rs c.nextId = none := by
  by_contra hne
  rcases nodeAt_ne_none_iff.mp hne with hmem | hmem
  · exact absurd (h.keys_lt _ hmem) (lt_irrefl _)
  · obtain ⟨x, hx, heq⟩ := mem_map.mp hmem
    exact absurd (h.removed_lt x (hrs ▸ mem_append_left _ hx)) (heq ▸ lt_irrefl _)

theorem emplace (h : Inv ixs c ks) (hok : c.emplace ixs v = .ok c') : Inv ixs c' ks := by
  obtain ⟨k, hk, hc'⟩ := bind_ok_iff.mp hok
  obtain rfl := pure_ok_iff.mp hc'
  obtain ⟨x, hx, rfl⟩ := Container.emplace_eq_ok hk
  obtain ⟨hvalid, hbyId, hnew⟩ := h.valid.insert hx
  refine ⟨hvalid, ?_, ?_, h.removed_nodup, ?_, ?_, ?_, h.addr_nodup, h.addr_lt, ?_⟩
  · intro id hid
    rw [hbyId, mem_keys_insert] at hid
    rcases hid with rfl | hid
    · exact Nat.lt_succ_self _
    · exact Nat.lt_succ_of_lt (h.keys_lt id hid)
  · intro r hr
    exact Nat.lt_succ_of_lt (h.removed_lt r hr)
  · intro r hr hmem
    rw [hbyId, mem_keys_insert] at hmem
    rcases hmem with heq | hmem
    · exact absurd (h.removed_lt r hr) (heq ▸ lt_irrefl _)
    · exact h.removed_notMem r hr hmem
  · intro id hid
    rw [hbyId, nodeAt_insert] at hid
    by_cases heq : id = c.nextId
    · grind
    · show update c.mtime _ _ _ ≤ _
      rw [update_of_ne heq] at hid ⊢
      exact h.mtime_le id hid
  · intro st hst
    exact ⟨(h.stack_le st hst).1, (h.stack_le st hst).2.trans (Nat.le_succ _)⟩
  · show Sessions ixs x.byId (update c.mtime c.nextId _) c.undoStack ks [] _ [] _
    rw [hbyId]
    refine Sessions.push [] [] h.sessions ?_
    intro st hst es' rs' qs' k hqs hlevel
    refine ⟨hlevel.valid, hlevel.nextId, hlevel.removed, ?_⟩
    rw [nodeAt_insert, if_neg (ne_nil_of_mem hst)]
    exact hlevel.shows.create (h.nodeAt_nextId hqs) (not_lt.mpr (h.stack_le st hst).2)
      (h.stack_le st hst).1

theorem modify_eq_none (hok : (c.modify ixs id f).2 = none) :
    ∃ v, c.indices.byId.find? id = some v ∧ (c.indices.set ixs true id (f v)).1 = true ∧
      (c.modify ixs id f).1 =
        { (c.onModify id v).2 with indices := (c.indices.set ixs true id (f v)).2 } := by
  cases hfind : c.indices.byId.find? id with
  | none => simp [UndoIndex.modify, hfind] at hok
  | some v =>
    simp only [UndoIndex.modify, UndoIndex.onModify_toContainer] at hok ⊢
    cases hset : c.indices.set ixs true id (f v) with
    | mk success indices => grind

theorem set_value {w : V} (h : Inv ixs c ks) (hv : c.indices.byId.find? id = some v)
    (hset : (c.indices.set ixs true id w).1 = true) (old : List (OldNode V)) {mtime : ℕ → ℕ}
    {nextAddr : ℕ} (hmtime : ∀ id', mtime id' = c.mtime id' ∨ mtime id' = c.monotonicRevision)
    (hnodup : ((old ++ c.oldValues).map (·.addr)).Nodup)
    (hlt : ∀ e ∈ old ++ c.oldValues, e.addr < nextAddr) (hlevel : ∀ st ∈ c.undoStack, ∀ es' rs' k,
      Shows st.ctime (· < st.oldNextId) (nodeAt c.indices.byId rs') c.mtime
        (es'.map OldNode.toVersion) k →
      Shows st.ctime (· < st.oldNextId) (update (nodeAt c.indices.byId rs') id (some w)) mtime
        ((old ++ es').map OldNode.toVersion) k) : Inv ixs { c with
        indices := (c.indices.set ixs true id w).2
        oldValues := old ++ c.oldValues
        mtime
        nextAddr } ks := by
  have hid : id ∈ c.indices.byId.keys := mem_keys_iff.mpr ⟨v, hv⟩
  have hkeys : (c.indices.set ixs true id w).2.byId.keys = c.indices.byId.keys := by
    rw [Indices.set_byId, keys_insert_of_mem hid]
  refine ⟨h.valid.set hid hset, ?_, h.removed_lt, h.removed_nodup, ?_, ?_, h.stack_le, hnodup, hlt,
    ?_⟩
  · rw [hkeys]
    exact h.keys_lt
  · rw [hkeys]
    exact h.removed_notMem
  · intro id' hid'
    rw [nodeAt_ne_none_iff, hkeys, ← nodeAt_ne_none_iff] at hid'
    show mtime id' ≤ c.monotonicRevision
    rcases hmtime id' with heq | heq
    · rw [heq]
      exact h.mtime_le id' hid'
    · exact heq.le
  · refine Sessions.push old [] h.sessions ?_
    intro st hst es' rs' qs' k _ hst'
    refine ⟨hst'.valid, hst'.nextId, hst'.removed, ?_⟩
    rw [Indices.set_byId, nodeAt_insert]
    exact hlevel st hst es' rs' _ hst'.shows

theorem modify (h : Inv ixs c ks) (hok : (c.modify ixs id f).2 = none) :
    Inv ixs (c.modify ixs id f).1 ks := by
  obtain ⟨v, hv, hset, heq⟩ := modify_eq_none hok
  have hnode : ∀ rs, nodeAt c.indices.byId rs id = some v := by
    intro rs
    rw [nodeAt, hv, some_or]
  rw [heq]
  unfold UndoIndex.onModify
  split
  next hstack =>
    refine h.set_value hv hset [] (fun _ => .inl rfl) h.addr_nodup h.addr_lt ?_
    rw [hstack]
    exact forall_mem_nil _
  next st sts hstack =>
    have hle : ∀ st' ∈ c.undoStack, st'.ctime ≤ st.ctime := by
      intro st' hst'
      have hsessions := h.sessions
      rw [hstack] at hst' hsessions
      exact (hsessions.le_head hst').1
    split_ifs with hstamp
    · refine h.set_value hv hset [] (fun _ => .inl rfl) h.addr_nodup h.addr_lt ?_
      intro st' hst' es' rs' k hshows
      exact hshows.overwrite (hnode rs' ▸ some_ne_none v) ((hle st' hst').trans hstamp)
    refine h.set_value hv hset [⟨⟨id, v, c.mtime id⟩, c.nextAddr⟩] ?_ ?_ ?_ ?_
    · grind
    · refine h.addr_nodup.cons fun hmem => ?_
      obtain ⟨e, he, haddr⟩ := mem_map.mp hmem
      exact absurd (h.addr_lt e he) (haddr ▸ lt_irrefl _)
    · intro e he
      rcases mem_cons.mp he with rfl | he
      · exact Nat.lt_succ_self _
      · exact Nat.lt_succ_of_lt (h.addr_lt e he)
    · intro st' hst' es' rs' k hshows
      exact hshows.write (hnode rs') (h.stack_le st' hst').1

theorem erase_node (h : Inv ixs c ks) (hv : c.indices.byId.find? id = some v)
    (removed : List (ℕ × V)) (hremoved : (removed.map Prod.fst).Sublist [id])
    (hlevel : ∀ st ∈ c.undoStack, ∀ rs' es' k, id ∉ rs'.map Prod.fst →
      Shows st.ctime (· < st.oldNextId) (nodeAt c.indices.byId rs') c.mtime es' k →
      Shows st.ctime (· < st.oldNextId) (nodeAt (c.indices.byId.erase id) (removed ++ rs')) c.mtime
        es' k) : Inv ixs
      { c with indices := c.indices.erase id, removedValues := removed ++ c.removedValues } ks := by
  have hid : id ∈ c.indices.byId.keys := mem_keys_iff.mpr ⟨v, hv⟩
  have hkeys : ∀ {id'}, id' ∈ (c.indices.erase id).byId.keys ↔
      id' ≠ id ∧ id' ∈ c.indices.byId.keys := mem_keys_erase
  have hnot : id ∉ c.removedValues.map Prod.fst := by
    intro hmem
    obtain ⟨x, hx, rfl⟩ := mem_map.mp hmem
    exact h.removed_notMem x hx hid
  have hfst : ∀ x ∈ removed, x.1 = id := fun x hx =>
    mem_singleton.mp (hremoved.subset (mem_map_of_mem hx))
  refine ⟨h.valid.erase id, ?_, ?_, ?_, ?_, ?_, h.stack_le, h.addr_nodup, h.addr_lt, ?_⟩
  · intro id' hid'
    exact h.keys_lt id' (hkeys.mp hid').2
  · intro x hx
    rcases mem_append.mp hx with hx | hx
    · exact hfst x hx ▸ h.keys_lt id hid
    · exact h.removed_lt x hx
  · show ((removed ++ c.removedValues).map Prod.fst).Nodup
    rw [map_append]
    exact (h.removed_nodup.cons hnot).sublist (hremoved.append (List.Sublist.refl _))
  · intro x hx hmem
    obtain ⟨hne, hmem⟩ := hkeys.mp hmem
    rcases mem_append.mp hx with hx | hx
    · exact hne (hfst x hx)
    · exact h.removed_notMem x hx hmem
  · intro id' hid'
    refine h.mtime_le id' (nodeAt_ne_none_iff.mpr ?_)
    rw [nodeAt_ne_none_iff, map_append, mem_append] at hid'
    rcases hid' with hmem | hmem | hmem
    · exact .inl (hkeys.mp hmem).2
    · grind
    · exact .inr hmem
  · refine Sessions.push [] removed h.sessions ?_
    intro st hst es' rs' qs' k hqs hst'
    refine ⟨hst'.valid, hst'.nextId, hst'.removed, hlevel st hst rs' _ _ ?_ hst'.shows⟩
    intro hmem
    rw [hqs, map_append] at hnot
    exact hnot (mem_append_left _ hmem)

/-- A node that the newest session knows moves to the removed ones; another one disappears.  Its
value matters only where the session has no copy of an older one. -/
theorem removeNode {w : V} (h : Inv ixs c ks) (hv : c.indices.byId.find? id = some v)
    (hw : w = v ∨ ∀ st ∈ c.undoStack, st.ctime ≤ c.mtime id) : Inv ixs (c.removeNode id w) ks := by
  unfold UndoIndex.removeNode
  dsimp only
  split
  next hstack =>
    refine h.erase_node hv [] (nil_sublist _) ?_
    rw [hstack]
    exact forall_mem_nil _
  next st sts hstack =>
    split_ifs with hnew
    · refine h.erase_node hv [] (nil_sublist _) ?_
      intro st' hst' rs' es' k hnot hshows
      have hsessions := h.sessions
      rw [hstack] at hst' hsessions
      rw [nil_append, nodeAt_erase hnot]
      refine hshows.discard ?_ ?_
      · intro id' hid'
        have hne : id' ≠ id := (hid'.trans_le ((hsessions.le_head hst').2.trans hnew)).ne
        rw [update_of_ne hne]
      · grind
    · refine h.erase_node hv [(id, w)] (List.Sublist.refl _) ?_
      intro st' hst' rs' es' k _ hshows
      have hnode : nodeAt c.indices.byId rs' id = some v := by
        rw [nodeAt, hv, some_or]
      rw [singleton_append, nodeAt_erase_cons]
      rcases hw with rfl | hstamp
      · rwa [← hnode, update_eq_self]
      · exact hshows.overwrite (hnode ▸ some_ne_none v) (hstamp st' hst')

theorem remove (h : Inv ixs c ks) (hok : c.remove id = .ok c') : Inv ixs c' ks := by
  unfold UndoIndex.remove at hok
  split at hok
  next => cases hok
  next v hv =>
    obtain rfl := Except.ok.inj hok
    exact h.removeNode hv (.inl rfl)

end Inv

end DcdProtocol.Chainbase
