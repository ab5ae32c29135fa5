import DcdProtocol.Chainbase.UndoRestore

/-!
# Merging and forgetting sessions

`squash` and `last_undo_session` compress the entries of the newest session, the one before as it
sees its start: copies of values that are younger are dropped, and the value and the time stamp of a
node that was removed go back into the node.  Each of these steps is a rule of `Shows`, for the
session itself and for the older ones.  `commit` forgets the oldest sessions; from the lists it cuts
off what follows the last entries that a session still points to.
-/

namespace DcdProtocol.Chainbase

open Library Function List Prod

variable {V : Type*} {ixs : List (OrderedIndex V)} {c c' : UndoIndex V} {ks ks' : List (Container V)}
  {k : Container V} {rs q qs : List (ℕ × V)} {id start : ℕ} {sts : List UndoState} {mtime : ℕ → ℕ}
  {m : FlatMap ℕ V}

/-! ## The loop over the old values -/

/-- What compressing entries `es`, with the removed nodes `q`, into `es'` and `q'` keeps, for the
entries `l` that were treated before: the snapshots up to the time `start`. -/
def Compresses (m : FlatMap ℕ V) (start : ℕ) (qs : List (ℕ × V)) (l es es' : List (OldNode V))
    (q q' : List (ℕ × V)) (mtime mtime' : ℕ → ℕ) : Prop :=
  ∀ t old content fs rs, t ≤ start → rs <+: qs →
    Shows t old (nodeAt m (q ++ rs)) mtime ((l ++ es ++ fs).map OldNode.toVersion) content →
    Shows t old (nodeAt m (q' ++ rs)) mtime' ((l ++ es' ++ fs).map OldNode.toVersion) content

namespace Compresses

variable {m : FlatMap ℕ V} {l es es' es₂ : List (OldNode V)} {e : OldNode V} {q' q₂ : List (ℕ × V)}
  {mtime mtime' mtime₂ : ℕ → ℕ}

theorem trans (h : Compresses m start qs l es es' q q' mtime mtime')
    (h₂ : Compresses m start qs l es' es₂ q' q₂ mtime' mtime₂) :
    Compresses m start qs l es es₂ q q₂ mtime mtime₂ :=
  fun t old content fs rs ht hrs hshows =>
    h₂ t old content fs rs ht hrs (h t old content fs rs ht hrs hshows)

theorem drop (hstamp : start ≤ e.stamp) : Compresses m start qs l (e :: es) es q q mtime mtime := by
  intro t old content fs rs ht _ hshows
  refine hshows.forget ?_ ?_
  · simp
  · grind

theorem keep (h : Compresses m start qs (l ++ [e]) es es' q q' mtime mtime') :
    Compresses m start qs l (e :: es) (e :: es') q q' mtime mtime' := by
  intro t old content fs rs ht hrs hshows
  have happend : ∀ es : List (OldNode V), l ++ [e] ++ es = l ++ e :: es := by simp
  rw [← happend] at hshows ⊢
  exact h t old content fs rs ht hrs hshows

theorem putBack (hkey : e.key ∉ m.keys) (hq : e.key ∈ q.map fst)
    (hqs : e.key ∉ qs.map fst) (hge : start ≤ mtime e.key) :
    Compresses m start qs l (e :: es) es q (setRemoved e.key e.value q) mtime
      (update mtime e.key e.stamp) := by
  intro t old content fs rs ht hrs hshows
  have hrs' : e.key ∉ rs.map fst := by grind
  have hmem : e.key ∈ (q ++ rs).map fst := by grind
  rw [← setRemoved_append hrs', nodeAt_setRemoved hkey hmem]
  rw [append_assoc, cons_append, map_append, map_cons] at hshows
  have habsorb := hshows.absorb (nodeAt_ne_none_iff.mpr (.inr hmem)) (ht.trans hge)
  rwa [← map_append, ← append_assoc] at habsorb

end Compresses

theorem compressOld_eq_some {es l fs : List (OldNode V)} {old : ℕ → Prop} {content : ℕ → Option V}
    (hremoved : c.removedValues = q ++ qs) (hnode : ∀ e ∈ es, e.stamp < start →
      (e.key ∈ c.indices.byId.keys ∨ e.key ∈ q.map fst) ∧ e.key ∉ qs.map fst)
    (hrs : rs <+: qs) (hshows : Shows start old (nodeAt c.indices.byId (q ++ rs)) c.mtime
      ((l ++ es ++ fs).map OldNode.toVersion) content) :
    ∃ es' q' mtime, UndoIndex.compressOld start c es =
        some ({ c with removedValues := q' ++ qs, mtime }, es') ∧
      es'.Sublist es ∧ q'.map fst = q.map fst ∧
      (∀ id, mtime id = c.mtime id ∨ mtime id < start) ∧
      Compresses c.indices.byId start qs l es es' q q' c.mtime mtime := by
  induction es generalizing c q l with
  | nil =>
    refine ⟨[], q, c.mtime, ?_, List.Sublist.refl _, rfl, fun _ => .inl rfl,
      fun _ _ _ _ _ _ _ h => h⟩
    rw [UndoIndex.compressOld, ← hremoved]
  | cons e es ih =>
    obtain ⟨he, hrest⟩ := forall_mem_cons.mp hnode
    rw [UndoIndex.compressOld]
    by_cases hstamp : start ≤ e.stamp
    · have hdrop : Compresses c.indices.byId start qs l (e :: es) es q q c.mtime c.mtime :=
        Compresses.drop hstamp
      obtain ⟨es', q', mtime, heq, hsub, hq', hmtime, hcomp⟩ :=
        ih hremoved hrest (hdrop _ _ _ _ _ le_rfl hrs hshows)
      rw [if_pos hstamp]
      exact ⟨es', q', mtime, heq, hsub.cons e, hq', hmtime, hdrop.trans hcomp⟩
    rw [if_neg hstamp]
    obtain ⟨hmem, hqs⟩ := he (not_le.mp hstamp)
    by_cases hkey : e.key ∈ c.indices.byId.keys
    · obtain ⟨es', q', mtime, heq, hsub, hq', hmtime, hcomp⟩ :=
        ih (l := l ++ [e]) hremoved hrest (by rwa [append_assoc l, singleton_append])
      rw [if_pos (FlatMap.contains_iff.mpr hkey), heq]
      exact ⟨e :: es', q', mtime, rfl, hsub.cons_cons e, hq', hmtime, hcomp.keep⟩
    have hq := hmem.resolve_left hkey
    have hshadowed := hshows.shadowed e.toVersion (mem_map_of_mem (by simp)) (not_le.mp hstamp)
    have hput : Compresses c.indices.byId start qs l (e :: es) es q
        (setRemoved e.key e.value q) c.mtime (update c.mtime e.key e.stamp) :=
      Compresses.putBack hkey hq hqs hshadowed.2.2
    obtain ⟨es', q', mtime, heq, hsub, hq', hmtime, hcomp⟩ :=
      ih (c := { c with
          removedValues := setRemoved e.key e.value q ++ qs
          mtime := update c.mtime e.key e.stamp })
        rfl (by rwa [map_fst_setRemoved]) (hput _ _ _ _ _ le_rfl hrs hshows)
    rw [if_neg (FlatMap.contains_iff.not.mpr hkey), if_pos ?_, hremoved, setRemoved_append hqs]
    · refine ⟨es', q', mtime, heq, hsub.cons e, hq'.trans map_fst_setRemoved, ?_, hput.trans hcomp⟩
      intro id
      rcases hmtime id with hid | hid
      · by_cases heq' : id = e.key
        · rw [hid, heq']
          refine .inr ?_
          show update c.mtime e.key e.stamp e.key < start
          rw [update_self]
          exact not_le.mp hstamp
        · grind
      · exact .inr hid
    · grind

/-! ## Fewer entries -/

theorem Sessions.exists_cons {st : UndoState} {fs : List (OldNode V)}
    (h : Sessions ixs m mtime (st :: sts) ks [] fs [] qs) :
    ∃ k ks' b fs' q qs', ks = k :: ks' ∧ fs = b ++ fs' ∧ qs = q ++ qs' ∧
      st.oldValuesEnd = fs'.head?.map (·.addr) ∧ st.removedValuesEnd = qs'.head?.map fst ∧
      Level ixs m mtime st b q qs' k ∧ Sessions ixs m mtime sts ks' b fs' q qs' ∧
      Sessions ixs m mtime (st :: sts) (k :: ks') b fs' q qs' := by
  cases ks with
  | nil => exact h.elim
  | cons k ks =>
    obtain ⟨b, fs', q, qs', rfl, rfl, hoend, hrend, hlevel, horder, hrest⟩ := h
    refine ⟨k, ks, b, fs', q, qs', rfl, rfl, rfl, hoend, hrend, hlevel, hrest, [], fs', [], qs',
      rfl, rfl, hoend, hrend, ?_, horder, ?_⟩
    · grind
    · grind

theorem lookup_filter {n : ℕ} (hid : id < n) : (q.filter (·.1 < n)).lookup id = q.lookup id := by
  induction q with
  | nil => rfl
  | cons x q ih => grind

namespace Inv

theorem shrink {old : List (OldNode V)} {removed : List (ℕ × V)} {mtime : ℕ → ℕ}
    {stack : List UndoState} (h : Inv ixs c ks) (hold : old.Sublist c.oldValues)
    (hremoved : (removed.map fst).Sublist (c.removedValues.map fst))
    (hstack : stack ⊆ c.undoStack)
    (hmtime : ∀ id, mtime id = c.mtime id ∨ mtime id ≤ c.monotonicRevision)
    (hsessions : Sessions ixs c.indices.byId mtime stack ks' [] old [] removed) (revision : ℤ) :
    Inv ixs
      { c with mtime, undoStack := stack, oldValues := old, removedValues := removed, revision }
      ks' := by
  have hmem : ∀ x ∈ removed, ∃ y ∈ c.removedValues, y.1 = x.1 := by
    intro x hx
    exact mem_map.mp (hremoved.subset (mem_map_of_mem hx))
  refine ⟨h.valid, h.keys_lt, ?_, h.removed_nodup.sublist hremoved, ?_, ?_,
    fun st hst => h.stack_le st (hstack hst), h.addr_nodup.sublist (hold.map _),
    fun e he => h.addr_lt e (hold.subset he), hsessions⟩
  · intro x hx
    obtain ⟨y, hy, heq⟩ := hmem x hx
    exact heq ▸ h.removed_lt y hy
  · intro x hx
    obtain ⟨y, hy, heq⟩ := hmem x hx
    exact heq ▸ h.removed_notMem y hy
  · intro id hid
    show mtime id ≤ c.monotonicRevision
    rcases hmtime id with heq | hle
    · rw [heq]
      refine h.mtime_le id (nodeAt_ne_none_iff.mpr ?_)
      exact (nodeAt_ne_none_iff.mp hid).imp_right (hremoved.subset ·)
    · exact hle

theorem clear (h : Inv ixs c ks) (revision : ℤ) :
    Inv ixs { c with undoStack := [], oldValues := [], removedValues := [], revision } [] := by
  have hnil : (([] : List (ℕ × V)).map fst).Sublist (c.removedValues.map fst) := nil_sublist _
  have hsessions : Sessions ixs c.indices.byId c.mtime [] [] [] [] [] [] := trivial
  exact h.shrink (nil_sublist _) hnil (nil_subset _) (fun _ => .inl rfl) hsessions revision

/-- The entries of the newest session, `back`, are compressed, as seen from the start of
`session`. -/
theorem compressImpl {back session : UndoState} {sts : List UndoState} {b fs : List (OldNode V)}
    (h : Inv ixs c ks') (hold : c.oldValues = b ++ fs) (hremoved : c.removedValues = q ++ qs)
    (hoend : back.oldValuesEnd = fs.head?.map (·.addr))
    (hrend : back.removedValuesEnd = qs.head?.map fst)
    (hback : Level ixs c.indices.byId c.mtime back b q qs k) (hle : session.ctime ≤ back.ctime)
    (hstack : session :: sts ⊆ c.undoStack)
    (hsessions : Sessions ixs c.indices.byId c.mtime (session :: sts) ks b fs q qs) :
    ∃ old removed mtime, c.compressImpl back session =
        some { c with oldValues := old, removedValues := removed, mtime } ∧
      ∀ revision, Inv ixs { c with
          oldValues := old
          removedValues := removed
          mtime
          undoStack := session :: sts
          revision } ks := by
  cases ks with
  | nil => exact hsessions.elim
  | cons k' ks =>
    obtain ⟨b₀, fs₀, q₀, qs₀, rfl, rfl, -, -, hsession, -, -⟩ := id hsessions
    obtain ⟨b', q', mtime, hloop, hb', hq', hmtime, hcomp⟩ :=
      compressOld_eq_some (l := []) hremoved (by
        intro e he hlt
        obtain ⟨-, hnode, -⟩ := hback.shows.shadowed e.toVersion (mem_map_of_mem he)
          (hlt.trans_le hle)
        exact ⟨nodeAt_ne_none_iff.mp hnode, h.nodeAt_notMem hremoved hnode⟩)
        (prefix_append q₀ qs₀) hsession.shows
    have hnodup : ((q' ++ (q₀ ++ qs₀)).map fst).Nodup := by
      rw [map_append, hq', ← map_append, ← hremoved]
      exact h.removed_nodup
    refine ⟨b' ++ (b₀ ++ fs₀), q'.filter (·.1 < session.oldNextId) ++ (q₀ ++ qs₀), mtime, ?_,
      h.shrink ?_ ?_ hstack ?_ ?_⟩
    · have hsplit : c.splitOldValues back = some (b, b₀ ++ fs₀) := by
        rw [UndoIndex.splitOldValues, hoend, hold]
        exact splitAtPointer_append (hold ▸ h.addr_nodup)
      have hsplit' : splitAtPointer fst back.removedValuesEnd (q' ++ (q₀ ++ qs₀)) =
          some (q', q₀ ++ qs₀) := by
        rw [hrend]
        exact splitAtPointer_append hnodup
      exact Option.bind_eq_some_iff.mpr ⟨_, hsplit, Option.bind_eq_some_iff.mpr ⟨_, hloop,
        Option.bind_eq_some_iff.mpr ⟨_, hsplit', rfl⟩⟩⟩
    · grind
    · have hids : c.removedValues.map fst = (q' ++ (q₀ ++ qs₀)).map fst := by
        rw [map_append, hq', ← map_append, ← hremoved]
      rw [hids]
      exact (filter_sublist.append (List.Sublist.refl _)).map _
    · intro id
      refine (hmtime id).imp_right fun hlt => ?_
      exact hlt.le.trans (h.stack_le session (hstack mem_cons_self)).1
    · refine (hsessions.map ?_).absorb
      intro st hst es' rs' qs' k hqs hst'
      have hhead := hsessions.le_head hst
      refine ⟨hst'.valid, hst'.nextId, hst'.removed, ?_⟩
      refine (hcomp _ _ _ _ _ hhead.1 ⟨qs', hqs.symm⟩ hst'.shows).discard ?_ ?_
      · intro id hid
        rw [nodeAt, nodeAt, lookup_append, lookup_append, lookup_filter (hid.trans_le hhead.2)]
      intro id hid
      rw [nodeAt_ne_none_iff] at hid ⊢
      refine hid.imp_right fun hmem => ?_
      exact ((filter_sublist.append (List.Sublist.refl rs')).map fst).subset hmem

end Inv

/-! ## Forgetting the oldest sessions -/

theorem head?_append_take_one {β : Type*} (l₁ l₂ : List β) :
    (l₁ ++ l₂.take 1).head? = (l₁ ++ l₂).head? := by
  rw [head?_append, head?_append, head?_take, if_neg Nat.one_ne_zero]

theorem Sessions.take
    {es fs : List (OldNode V)} (h : Sessions ixs m mtime sts ks es fs rs qs) {n : ℕ} (hn : n ≠ 0)
    (hlength : n < sts.length) :
    ∃ iter fs₁ fs₂ qs₁ qs₂, (sts.take n).getLast? = some iter ∧ fs = fs₁ ++ fs₂ ∧ qs = qs₁ ++ qs₂ ∧
      iter.oldValuesEnd = fs₂.head?.map (·.addr) ∧ iter.removedValuesEnd = qs₂.head?.map fst ∧
      Sessions ixs m mtime (sts.take n) (ks.take n) es (fs₁ ++ fs₂.take 1) rs
        (qs₁ ++ qs₂.take 1) := by
  induction n generalizing sts ks es fs rs qs with
  | zero => exact absurd rfl hn
  | succ n ih =>
    cases sts with
    | nil => exact absurd hlength (Nat.not_lt_zero _)
    | cons st sts =>
      cases ks with
      | nil => exact h.elim
      | cons k ks =>
        obtain ⟨b, fs', q, qs', rfl, rfl, hoend, hrend, hlevel, horder, hrest⟩ := h
        rcases Nat.eq_zero_or_pos n with rfl | hpos
        · refine ⟨st, b, fs', q, qs', rfl, rfl, rfl, hoend, hrend, b, fs'.take 1, q,
            qs'.take 1, rfl, rfl, ?_, ?_, ?_, ?_, ?_⟩
          · rw [hoend, head?_take, if_neg Nat.one_ne_zero]
          · rw [hrend, head?_take, if_neg Nat.one_ne_zero]
          · exact ⟨hlevel.valid, hlevel.nextId,
              fun x hx => hlevel.removed x (mem_of_mem_take hx), hlevel.shows⟩
          · rw [take_zero]
            exact forall_mem_nil _
          · rw [take_zero, take_zero]
            trivial
        · obtain ⟨iter, fs₁, fs₂, qs₁, qs₂, hlast, rfl, rfl, hoend', hrend', hsessions⟩ :=
            ih hrest hpos.ne' (Nat.lt_of_succ_lt_succ hlength)
          refine ⟨iter, b ++ fs₁, fs₂, q ++ qs₁, qs₂, ?_, by rw [append_assoc],
            by rw [append_assoc], hoend', hrend', b, fs₁ ++ fs₂.take 1, q,
            qs₁ ++ qs₂.take 1, by rw [append_assoc], by rw [append_assoc], ?_, ?_,
            ?_, ?_, hsessions⟩
          · grind
          · rw [hoend, head?_append_take_one]
          · rw [hrend, head?_append_take_one]
          · refine ⟨hlevel.valid, hlevel.nextId, fun x hx => hlevel.removed x ?_, hlevel.shows⟩
            exact ((List.Sublist.refl qs₁).append (take_sublist 1 qs₂)).subset hx
          · grind

end DcdProtocol.Chainbase
