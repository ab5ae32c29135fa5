import DcdProtocol.Chainbase.UndoSessions

/-!
# Undo

`undo` restores the container at the start of the newest session in three steps: the nodes created
since then are erased, the old values are put back one after the other, and the removed nodes are
inserted again.  The second step is `putBack` on the nodes and their time stamps, so the nodes get
the values that the session shows.  Some of them are then still missing from the table.  As the
objects in it are among those of a container with unique keys, the trees are in order, and every
missing node finds its place.
-/

namespace DcdProtocol.Chainbase

open Library Function List FlatMap UndoIndex

variable {V : Type*} {ixs : List (OrderedIndex V)} {c c' : UndoIndex V} {ks : List (Container V)}
  {k : Container V} {m : FlatMap ℕ V} {rs q qs : List (ℕ × V)} {id T : ℕ} {v : V}
  {es : List (OldNode V)}

/-! ## Removed nodes -/

theorem map_fst_setRemoved : (setRemoved id v rs).map Prod.fst = rs.map Prod.fst := by
  rw [setRemoved, map_map]
  refine map_congr_left fun x _ => ?_
  by_cases hx : x.1 = id
  · simp [hx]
  · simp [hx]

theorem setRemoved_append (hid : id ∉ qs.map Prod.fst) :
    setRemoved id v (rs ++ qs) = setRemoved id v rs ++ qs := by
  have hqs : setRemoved id v qs = qs := by
    nth_rewrite 2 [← map_id qs]
    refine map_congr_left fun x hx => if_neg ?_
    rintro rfl
    exact hid (mem_map_of_mem hx)
  nth_rewrite 2 [← hqs]
  rw [setRemoved, map_append, setRemoved, setRemoved]

theorem lookup_setRemoved {id' : ℕ} : (setRemoved id v rs).lookup id' =
    if id' = id then (rs.lookup id).map fun _ => v else rs.lookup id' := by
  induction rs with
  | nil => simp [setRemoved]
  | cons x rs ih =>
    rw [setRemoved, map_cons, ← setRemoved]
    obtain ⟨a, w⟩ := x
    by_cases hx : a = id
    · grind
    · grind

theorem nodeAt_setRemoved (hid : id ∉ m.keys) (hmem : id ∈ rs.map Prod.fst) :
    nodeAt m (setRemoved id v rs) = update (nodeAt m rs) id (some v) := by
  funext id'
  by_cases hid' : id' = id
  · obtain ⟨w, hw⟩ := Option.ne_none_iff_exists'.mp (lookup_ne_none_iff.mpr hmem)
    rw [hid', update_self, nodeAt, find?_eq_none_iff.mpr hid, Option.none_or,
      lookup_setRemoved, if_pos rfl, hw, Option.map_some]
  · rw [update_of_ne hid', nodeAt, lookup_setRemoved, if_neg hid', nodeAt]

theorem lookup_of_mem {r : ℕ × V} (hnodup : (rs.map Prod.fst).Nodup) (hr : r ∈ rs) :
    rs.lookup r.1 = some r.2 := by
  induction rs with
  | nil => exact absurd hr not_mem_nil
  | cons x rs ih => grind

/-! ## Old values -/

theorem restoreOld_eq_some {e : OldNode V} (hweak : c.indices.WeaklyValid ixs)
    (hremoved : c.removedValues = q ++ qs) (hnode : e.stamp < T →
      (e.key ∈ c.indices.byId.keys ∨ e.key ∈ q.map Prod.fst) ∧ e.key ∉ qs.map Prod.fst) :
    ∃ x q' mtime, restoreOld ixs T c e =
        some { c with indices := x, removedValues := q' ++ qs, mtime } ∧
      x.WeaklyValid ixs ∧ x.byId.keys = c.indices.byId.keys ∧ q'.map Prod.fst = q.map Prod.fst ∧
      (nodeAt x.byId q', mtime) =
        Shows.putBack T (nodeAt c.indices.byId q, c.mtime) e.toVersion := by
  unfold restoreOld Shows.putBack
  by_cases hlt : e.stamp < T
  · obtain ⟨hmem, hqs⟩ := hnode hlt
    rw [if_pos hlt, if_pos hlt]
    by_cases hkey : e.key ∈ c.indices.byId.keys
    · refine ⟨_, q, update c.mtime e.key e.stamp, ?_, hweak.set hkey e.value, ?_, rfl, ?_⟩
      · dsimp only
        rw [if_pos (FlatMap.contains_iff.mpr hkey), ← hremoved]
      · rw [Indices.set_byId, keys_insert_of_mem hkey]
      · rw [Indices.set_byId, nodeAt_insert]
    · have hq := hmem.resolve_left hkey
      refine ⟨c.indices, setRemoved e.key e.value q, update c.mtime e.key e.stamp, ?_, hweak, rfl,
        map_fst_setRemoved, ?_⟩
      · dsimp only
        rw [if_neg (FlatMap.contains_iff.not.mpr hkey), if_pos ?_, hremoved, setRemoved_append hqs]
        rw [hremoved, map_append]
        exact mem_append_left _ hq
      · rw [nodeAt_setRemoved hkey hq]
  · rw [if_neg hlt, if_neg hlt]
    refine ⟨c.indices, q, c.mtime, ?_, hweak, rfl, rfl, rfl⟩
    rw [← hremoved]

theorem foldlM_restoreOld (hweak : c.indices.WeaklyValid ixs) (hremoved : c.removedValues = q ++ qs)
    (hnode : ∀ e ∈ es, e.stamp < T →
      (e.key ∈ c.indices.byId.keys ∨ e.key ∈ q.map Prod.fst) ∧ e.key ∉ qs.map Prod.fst) :
    ∃ x q' mtime, es.foldlM (restoreOld ixs T) c =
        some { c with indices := x, removedValues := q' ++ qs, mtime } ∧
      x.WeaklyValid ixs ∧ x.byId.keys = c.indices.byId.keys ∧ q'.map Prod.fst = q.map Prod.fst ∧
      (nodeAt x.byId q', mtime) =
        (es.map OldNode.toVersion).foldl (Shows.putBack T) (nodeAt c.indices.byId q, c.mtime) := by
  induction es generalizing c q with
  | nil =>
    refine ⟨c.indices, q, c.mtime, ?_, hweak, rfl, rfl, rfl⟩
    rw [← hremoved]
    rfl
  | cons e es ih =>
    obtain ⟨he, hrest⟩ := forall_mem_cons.mp hnode
    obtain ⟨x, q₁, mtime, heq, hx, hkeys, hq₁, hput⟩ := restoreOld_eq_some hweak hremoved he
    obtain ⟨y, q₂, mtime', heq', hy, hkeys', hq₂, hput'⟩ :=
      ih (c := { c with indices := x, removedValues := q₁ ++ qs, mtime }) (q := q₁) hx rfl (by
        intro e' he'
        rw [hkeys, hq₁]
        exact hrest e' he')
    refine ⟨y, q₂, mtime', ?_, hy, hkeys'.trans hkeys, hq₂.trans hq₁, ?_⟩
    · rw [foldlM_cons, heq]
      exact heq'
    · grind

/-! ## Insertion of the removed nodes -/

variable {x : Indices V} {n : ℕ}

theorem foldl_reinsert {l : List (ℕ × V)} (hx : x.Valid ixs)
    (hsub : Submap x.byId m) (hunique : Unique ixs m) (hnodup : (l.map Prod.fst).Nodup)
    (hl : ∀ r ∈ l, r.1 < n → m.find? r.1 = some r.2 ∧ r.1 ∉ x.byId.keys) :
    (l.foldl (reinsert ixs n) x).Valid ixs ∧
      Submap (l.foldl (reinsert ixs n) x).byId m ∧
      ∀ id, id ∈ x.byId.keys ∨ id < n ∧ id ∈ l.map Prod.fst →
        id ∈ (l.foldl (reinsert ixs n) x).byId.keys := by
  induction l generalizing x with
  | nil => grind
  | cons r l ih =>
    obtain ⟨hr, hrest⟩ := forall_mem_cons.mp hl
    obtain ⟨hnot, hnodup⟩ := nodup_cons.mp hnodup
    rw [foldl_cons]
    by_cases hlt : r.1 < n
    · obtain ⟨hfind, hnew⟩ := hr hlt
      have hsub' : Submap (x.byId.insert r.1 r.2) m := by
        intro id v hv
        rw [find?_insert] at hv
        split_ifs at hv with hid
        · rw [hid, hfind, hv]
        · exact hsub id v hv
      obtain ⟨y, hy⟩ := hx.insert_isSome hnew (hunique.of_submap hsub')
      obtain ⟨hvalid, hbyId, -⟩ := hx.insert hy
      have hstep : reinsert ixs n x r = y := by
        rw [reinsert, if_pos hlt, hy, Option.getD_some]
      obtain ⟨hvalid', hsub'', hkeys⟩ := ih (x := y) hvalid (hbyId ▸ hsub') hnodup (by
        intro r' hr' hlt'
        rw [hbyId, mem_keys_insert]
        refine ⟨(hrest r' hr' hlt').1, ?_⟩
        rintro (heq | hmem)
        · grind
        · exact (hrest r' hr' hlt').2 hmem)
      rw [hstep]
      refine ⟨hvalid', hsub'', ?_⟩
      intro id hid
      apply hkeys
      rw [hbyId, mem_keys_insert]
      rw [map_cons, mem_cons] at hid
      rcases hid with hid | ⟨hlt', rfl | hid⟩
      · exact .inl (.inr hid)
      · exact .inl (.inl rfl)
      · exact .inr ⟨hlt', hid⟩
    · rw [reinsert, if_neg hlt]
      obtain ⟨hvalid, hsub', hkeys⟩ := ih hx hsub hnodup hrest
      refine ⟨hvalid, hsub', ?_⟩
      intro id hid
      apply hkeys
      rw [map_cons, mem_cons] at hid
      rcases hid with hid | ⟨hlt', rfl | hid⟩
      · exact .inl hid
      · exact absurd hlt' hlt
      · exact .inr ⟨hlt', hid⟩

/-- With all removed nodes inserted, the table is that of `y`, whose objects the nodes hold. -/
theorem foldl_reinsert_eq {y : Indices V} (hx : x.WeaklyValid ixs) (hy : y.Valid ixs)
    (hx_lt : ∀ id ∈ x.byId.keys, id < n) (hy_lt : ∀ id ∈ y.byId.keys, id < n)
    (hnodup : (q.map Prod.fst).Nodup) (hnew : ∀ r ∈ q, r.1 ∉ x.byId.keys)
    (hnode : ∀ id < n, nodeAt x.byId q id = y.byId.find? id) :
    q.foldl (reinsert ixs n) x = y := by
  have hsub : Submap x.byId y.byId := by
    intro id v hv
    have hid : id ∈ x.byId.keys := mem_keys_iff.mpr ⟨v, hv⟩
    rw [← hnode id (hx_lt id hid), nodeAt, hv, Option.some_or]
  obtain ⟨hvalid, hsub', hkeys⟩ := foldl_reinsert (n := n) (l := q)
    (hx.valid (hy.unique.of_submap hsub)) hsub hy.unique hnodup (by
      intro r hr hlt
      refine ⟨?_, hnew r hr⟩
      rw [← hnode r.1 hlt, nodeAt, find?_eq_none_iff.mpr (hnew r hr), Option.none_or,
        lookup_of_mem hnodup hr])
  refine hvalid.eq_of_byId hy (ext_find? fun id v => ⟨hsub' id v, fun hv => ?_⟩)
  have hid : id ∈ y.byId.keys := mem_keys_iff.mpr ⟨v, hv⟩
  have hmem : nodeAt x.byId q id ≠ none := by grind
  rw [← hv]
  refine hsub'.find?_eq (hkeys id ?_)
  exact (nodeAt_ne_none_iff.mp hmem).imp_right fun hid' => ⟨hy_lt id hid, hid'⟩

/-! ## The whole of `undo` -/

theorem Indices.Valid.foldl_erase (hx : x.Valid ixs) (ids : List ℕ) :
    (ids.foldl Indices.erase x).Valid ixs := by
  induction ids generalizing x with
  | nil => exact hx
  | cons id ids ih => exact ih (hx.erase id)

theorem Indices.byId_foldl_erase (x : Indices V) (ids : List ℕ) :
    (ids.foldl Indices.erase x).byId = ids.foldl FlatMap.erase x.byId := by
  induction ids generalizing x with
  | nil => rfl
  | cons id ids ih => exact ih (x.erase id)

theorem Indices.find?_eraseNew :
    (x.eraseNew n).byId.find? id = some v ↔ id < n ∧ x.byId.find? id = some v := by
  rw [eraseNew, byId_foldl_erase, find?_foldl_erase_eq_some, mem_filter, decide_eq_true_iff]
  constructor
  · rintro ⟨hnot, hfind⟩
    refine ⟨?_, hfind⟩
    by_contra hge
    exact hnot ⟨mem_keys_iff.mpr ⟨v, hfind⟩, not_lt.mp hge⟩
  · grind

theorem Level.eraseNew {mtime : ℕ → ℕ} {st : UndoState} (h : Level ixs x.byId mtime st es rs qs k) :
    Level ixs (x.eraseNew st.oldNextId).byId mtime st es rs qs k := by
  refine ⟨h.valid, h.nextId, h.removed, h.shows.discard ?_ ?_⟩
  · intro id hid
    have hfind : (x.eraseNew st.oldNextId).byId.find? id = x.byId.find? id := by
      refine Option.ext fun v => ?_
      rw [Indices.find?_eraseNew]
      exact and_iff_right hid
    rw [nodeAt, hfind, nodeAt]
  · intro id hid
    rw [nodeAt_ne_none_iff, mem_keys_iff] at hid ⊢
    rcases hid with ⟨v, hv⟩ | hid
    · exact .inl ⟨v, (Indices.find?_eraseNew.mp hv).2⟩
    · exact .inr hid

namespace Inv

/-- The nodes that are in the table, or were removed by the newest sessions, were not removed
before. -/
theorem nodeAt_notMem (h : Inv ixs c ks) (hremoved : c.removedValues = q ++ qs)
    (hnode : nodeAt c.indices.byId q id ≠ none) : id ∉ qs.map Prod.fst := by
  intro hmem
  rcases nodeAt_ne_none_iff.mp hnode with hid | hid
  · obtain ⟨x, hx, rfl⟩ := mem_map.mp hmem
    exact h.removed_notMem x (hremoved ▸ mem_append_right _ hx) hid
  · have hnodup := h.removed_nodup
    rw [hremoved, map_append, nodup_append] at hnodup
    exact hnodup.2.2 _ hid _ hmem rfl

theorem undo_eq_some {st : UndoState} {sts : List UndoState} {b fs : List (OldNode V)}
    (h : Inv ixs c ks) (hstack : c.undoStack = st :: sts) (hold : c.oldValues = b ++ fs)
    (hremoved : c.removedValues = q ++ qs) (hoend : st.oldValuesEnd = fs.head?.map (·.addr))
    (hrend : st.removedValuesEnd = qs.head?.map Prod.fst)
    (hlevel : Level ixs c.indices.byId c.mtime st b q qs k) :
    ∃ mtime, c.undo ixs = some
        { c with
          toContainer := k
          mtime
          undoStack := sts
          oldValues := fs
          removedValues := qs
          revision := c.revision - 1 } ∧
      Shows.Restamps st.ctime (b.map OldNode.toVersion) c.mtime mtime := by
  have hnew := hlevel.eraseNew
  have hkeys_lt : ∀ id ∈ (c.indices.eraseNew st.oldNextId).byId.keys, id < st.oldNextId := by
    intro id hid
    obtain ⟨v, hv⟩ := mem_keys_iff.mp hid
    exact (Indices.find?_eraseNew.mp hv).1
  have hsub_keys : ∀ id ∈ (c.indices.eraseNew st.oldNextId).byId.keys, id ∈ c.indices.byId.keys := by
    intro id hid
    obtain ⟨v, hv⟩ := mem_keys_iff.mp hid
    exact mem_keys_iff.mpr ⟨v, (Indices.find?_eraseNew.mp hv).2⟩
  have hbacked : ∀ e ∈ b, e.stamp < st.ctime →
      (e.key ∈ (c.indices.eraseNew st.oldNextId).byId.keys ∨ e.key ∈ q.map Prod.fst) ∧
        e.key ∉ qs.map Prod.fst := by
    intro e he hlt
    obtain ⟨-, hnode, -⟩ := hnew.shows.shadowed e.toVersion (mem_map_of_mem he) hlt
    refine ⟨nodeAt_ne_none_iff.mp hnode, h.nodeAt_notMem hremoved ?_⟩
    rw [nodeAt_ne_none_iff] at hnode ⊢
    exact hnode.imp_left (hsub_keys _)
  -- The old values are put back.
  obtain ⟨x, q', mtime, hrestore, hx, hkeys, hq', hput⟩ :=
    foldlM_restoreOld (c := { c with indices := c.indices.eraseNew st.oldNextId, oldValues := fs })
      (h.valid.foldl_erase _).weaklyValid hremoved hbacked
  have hnode : ∀ id < st.oldNextId, nodeAt x.byId q' id = k.indices.byId.find? id := by
    intro id hid
    rw [← hnew.shows.foldl_putBack hid, ← hput]
  have hnodup : ((q' ++ qs).map Prod.fst).Nodup := by
    rw [map_append, hq', ← map_append, ← hremoved]
    exact h.removed_nodup
  have hreinsert : q'.foldl (reinsert ixs st.oldNextId) x = k.indices := by
    refine foldl_reinsert_eq hx hlevel.valid (hkeys ▸ hkeys_lt) ?_ ?_ ?_ hnode
    · intro id hid
      exact (hlevel.shows.content_ne_none_iff.mp (find?_eq_none_iff.not_left.mpr hid)).1
    · grind
    intro r hr hmem
    have hr' : r.1 ∈ q.map Prod.fst := hq' ▸ mem_map_of_mem hr
    obtain ⟨r', hr', heq⟩ := mem_map.mp hr'
    refine h.removed_notMem r' (hremoved ▸ mem_append_left _ hr') ?_
    rw [heq]
    exact hsub_keys r.1 (hkeys ▸ hmem)
  have hmtime : mtime = ((b.map OldNode.toVersion).foldl (Shows.putBack st.ctime)
      (nodeAt (c.indices.eraseNew st.oldNextId).byId q, c.mtime)).2 := congrArg Prod.snd hput
  refine ⟨mtime, ?_, hmtime ▸ hnew.shows.restamps⟩
  have hsplit : c.splitOldValues st = some (b, fs) := by
    rw [splitOldValues, hoend, hold]
    exact splitAtPointer_append (hold ▸ h.addr_nodup)
  have hsplit' : splitAtPointer Prod.fst st.removedValuesEnd (q' ++ qs) = some (q', qs) := by
    rw [hrend]
    exact splitAtPointer_append hnodup
  unfold undo
  split
  next hnil => rw [hstack] at hnil; cases hnil
  next st' sts' hcons =>
    rw [hstack] at hcons
    obtain ⟨rfl, rfl⟩ := cons.inj hcons
    refine Option.bind_eq_some_iff.mpr ⟨_, hsplit, Option.bind_eq_some_iff.mpr ⟨_, hrestore,
      Option.bind_eq_some_iff.mpr ⟨_, hsplit', ?_⟩⟩⟩
    dsimp only
    rw [hreinsert, ← hlevel.nextId]

/-- `undo` restores the container at the start of the session, and keeps the older sessions. -/
theorem undo (h : Inv ixs c (k :: ks)) : ∃ c', c.undo ixs = some c' ∧ c'.toContainer = k ∧
    c'.revision = c.revision - 1 ∧ Inv ixs c' ks := by
  cases hstack : c.undoStack with
  | nil =>
    have hsessions := h.sessions
    rw [hstack] at hsessions
    exact hsessions.elim
  | cons st sts =>
    have hsessions := h.sessions
    rw [hstack] at hsessions
    obtain ⟨b, fs, q, qs, hold, hremoved, hoend, hrend, hlevel, horder, hrest⟩ := hsessions
    obtain ⟨mtime, hundo, hrestamps⟩ := h.undo_eq_some hstack hold hremoved hoend hrend hlevel
    refine ⟨_, hundo, rfl, rfl, ?_⟩
    have hnode : ∀ id ∈ k.indices.byId.keys,
        id < st.oldNextId ∧ nodeAt c.indices.byId q id ≠ none := by
      intro id hid
      exact hlevel.shows.content_ne_none_iff.mp (find?_eq_none_iff.not_left.mpr hid)
    have hqs : qs.Sublist c.removedValues := hremoved ▸ sublist_append_right q qs
    have hfs : fs.Sublist c.oldValues := hold ▸ sublist_append_right b fs
    refine ⟨hlevel.valid, ?_, ?_, h.removed_nodup.sublist (hqs.map Prod.fst), ?_, ?_, ?_,
      h.addr_nodup.sublist (hfs.map _), fun e he => h.addr_lt e (hfs.subset he), ?_⟩
    · intro id hid
      exact hlevel.nextId ▸ (hnode id hid).1
    · exact hlevel.nextId ▸ hlevel.removed
    · intro x hx hid
      exact h.nodeAt_notMem hremoved (hnode x.1 hid).2 (mem_map_of_mem hx)
    · intro id hid
      by_cases hex : ∃ e ∈ b.map OldNode.toVersion, e.key = id ∧ e.stamp < st.ctime
      · obtain ⟨e, he, rfl, hlt⟩ := hex
        show mtime e.key ≤ c.monotonicRevision
        rw [hrestamps.logged e he hlt]
        exact hlt.le.trans (h.stack_le st (hstack ▸ mem_cons_self)).1
      · show mtime id ≤ c.monotonicRevision
        rw [hrestamps.kept id (by grind)]
        refine h.mtime_le id (nodeAt_ne_none_iff.mpr ?_)
        rw [hremoved, map_append, mem_append]
        rcases nodeAt_ne_none_iff.mp hid with hmem | hmem
        · exact (nodeAt_ne_none_iff.mp (hnode id hmem).2).imp_right .inl
        · exact .inr (.inr hmem)
    · intro st' hst'
      refine ⟨(h.stack_le st' (hstack ▸ mem_cons_of_mem _ hst')).1, ?_⟩
      exact hlevel.nextId ▸ (horder st' hst').2
    · refine hrest.map ?_
      intro st' hst' es' rs' qs' k' hqs h'
      refine ⟨h'.valid, h'.nextId, h'.removed, ?_⟩
      have hshows := h'.shows
      rw [nodeAt_append, map_append] at hshows
      refine hlevel.shows.rollback (horder st' hst').1.le hshows ?_ ?_ hrestamps
      · intro id hid
        by_contra hne
        refine h.nodeAt_notMem hremoved hne ?_
        rw [hqs, map_append]
        exact mem_append_left _ (lookup_ne_none_iff.mp hid)
      · grind

end Inv

end DcdProtocol.Chainbase
