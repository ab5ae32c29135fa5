import DcdProtocol.KeyValue.NestedOrder
import DcdProtocol.KeyValue.StackRefinement

/-!
# Iterating over a stack of sessions

The iterators of the newest session go over the content of the whole stack in order, as long as no
session was pushed onto one that is not anchored.

`Proper` holds of a stack in which the caches are in order; every session below the newest one is
anchored as well (`Sturdy`), as it is what the sessions above rely on.  Writing and erasing may leave
the newest session without an anchor, and this stays without consequences until a session is pushed
onto it: the new session caches the first and the last key that it is told of, and takes them for the
ends of the parent.
-/

namespace DcdProtocol.KeyValue

open Library List FlatMap Layer SessionStack

variable {κ ν : Type*} [LinearOrder κ]

namespace Layers

/-- A stack that a session may be pushed onto. -/
def Sturdy : (n : ℕ) → Layers κ ν n → Prop
  | 0, _ => True
  | n + 1, s => Layer.Sturdy (Sturdy n) (content n) s

def Proper : (n : ℕ) → Layers κ ν n → Prop
  | 0, _ => True
  | n + 1, s => Layer.Proper (Sturdy n) (content n) s

/-- The keys at which the newest session may have an iterator. -/
def At : (n : ℕ) → Layers κ ν n → κ → Prop
  | 0, root, k => k ∈ root.keys
  | _ + 1, s, k => Layer.Positioned s (some k)

/-- Some cached entry of the newest session is not deleted, or the stack is empty.  Nothing is asked
of the root. -/
def anchored : (n : ℕ) → Layers κ ν n → Bool
  | 0, _ => true
  | n + 1, s => s.cache.entries.any (fun e => !e.2.deleted) || (content (n + 1) s).entries.isEmpty

theorem Sturdy.proper {n : ℕ} {s : Layers κ ν n} (h : Sturdy n s) : Proper n s := by
  cases n with
  | zero => trivial
  | succ n => exact h.1

end Layers

theorem exact_layerStore (κ ν : Type*) [LinearOrder κ] (n : ℕ) :
    (layerStore κ ν n).Exact (Layers.Sturdy n) (Layers.content n) (Layers.At n) := by
  induction n with
  | zero => exact exact_rootStore κ ν
  | succ n ih => exact exact_sessionStore ih

namespace Layers

variable {n : ℕ} {s : Layers κ ν n}

theorem anchored_iff {s : Layers κ ν (n + 1)} (h : Proper (n + 1) s) :
    anchored (n + 1) s = true ↔ (onMap (content n) s).Anchored := by
  rw [anchored, Bool.or_eq_true, any_eq_true, Session.Anchored]
  refine or_congr ⟨?_, ?_⟩ ⟨?_, ?_⟩
  · rintro ⟨⟨k, e⟩, he, hdeleted⟩
    have hfind : s.cache.find? k = some e := mem_entries_iff.mp he
    refine ⟨k, mem_keys_iff.mpr ⟨e, hfind⟩, ?_⟩
    show (s.cache.find? k).elim false (·.deleted) = false
    rw [hfind]
    simpa using hdeleted
  · rintro ⟨k, hk, hdeleted⟩
    obtain ⟨e, he⟩ := mem_keys_iff.mp hk
    change (s.cache.find? k).elim false (·.deleted) = false at hdeleted
    rw [show s.cache.find? k = some e from he] at hdeleted
    exact ⟨(k, e), mem_entries_iff.mpr he, by simpa using hdeleted⟩
  · intro hempty k hk
    obtain ⟨v, hv⟩ := mem_keys_iff.mp (h.2.mem_keys_content.mpr hk)
    have hmem : (k, v) ∈ (content (n + 1) s).entries := mem_entries_iff.mpr hv
    rw [isEmpty_iff.mp hempty] at hmem
    exact absurd hmem not_mem_nil
  · intro hempty
    refine isEmpty_iff.mpr (eq_nil_iff_forall_not_mem.mpr ?_)
    rintro ⟨k, v⟩ he
    have hmem : k ∈ (content (n + 1) s).keys := mem_keys_iff.mpr ⟨v, mem_entries_iff.mp he⟩
    exact hempty k (h.2.mem_keys_content.mp hmem)

theorem Proper.sturdy (h : Proper n s) (hanchored : anchored n s = true) : Sturdy n s := by
  cases n with
  | zero => trivial
  | succ n => exact ⟨h, (anchored_iff h).mp hanchored⟩

/-! ## What the calls keep -/

theorem Proper.write (h : Proper n s) (k : κ) (v : ν) :
    Proper n ((layerStore κ ν n).write k v s) := by
  cases n with
  | zero => trivial
  | succ n =>
    obtain ⟨hgood, honMap⟩ := write_follows (exact_layerStore κ ν n) h.1 k v
    refine ⟨hgood, ?_⟩
    show (onMap (content n) (write (layerStore κ ν n) s k v)).Coherent
    rw [honMap]
    exact (Session.write_spec h.2 k v).1

theorem Proper.erase (h : Proper n s) (k : κ) : Proper n ((layerStore κ ν n).erase k s) := by
  cases n with
  | zero => trivial
  | succ n =>
    obtain ⟨hgood, honMap⟩ := erase_follows (exact_layerStore κ ν n) h.1 k
    refine ⟨hgood, ?_⟩
    show (onMap (content n) (erase (layerStore κ ν n) s k)).Coherent
    rw [honMap]
    exact (Session.erase_spec h.2 k).1

theorem Proper.commit {s : Layers κ ν (n + 1)} (h : Proper (n + 1) s) :
    Proper n (commit (layerStore κ ν n) s) := by
  have hdeletes : ∀ (es : List (κ × ValueState ν)) (p : Layers κ ν n), Proper n p →
      Proper n (es.foldl (fun p e => (layerStore κ ν n).erase e.1 p) p) := by
    intro es
    induction es with
    | nil => exact fun p hp => hp
    | cons e es ih => exact fun p hp => ih _ (hp.erase e.1)
  have hupdates : ∀ (es : List (κ × ValueState ν)) (p : Layers κ ν n), Proper n p →
      Proper n (es.foldl
        (fun p e => e.2.value.elim p fun v => (layerStore κ ν n).write e.1 v p) p) := by
    intro es
    induction es with
    | nil => exact fun p hp => hp
    | cons e es ih =>
      intro p hp
      refine ih _ ?_
      show Proper n (e.2.value.elim p fun v => (layerStore κ ν n).write e.1 v p)
      cases e.2.value with
      | none => exact hp
      | some v => exact hp.write e.1 v
  exact hupdates _ _ (hdeletes _ _ h.1.proper)

theorem Proper.prime {s : Layers κ ν (n + 1)} (h : Proper (n + 1) s) :
    (onMap (content n) s).Extends
      (onMap (content n) (primeCache (layerStore κ ν n) s)) ∧
      Proper (n + 1) (primeCache (layerStore κ ν n) s) := by
  obtain ⟨hgood, honMap⟩ := primeCache_follows (exact_layerStore κ ν n) h.1
  have hext : (onMap (content n) s).Extends
      (onMap (content n) (primeCache (layerStore κ ν n) s)) := by
    rw [honMap]
    split
    next first last hfirst hlast =>
      have hext := h.2.extends_emplaceParent (mem_keys_of_firstKey? hfirst)
      exact hext.trans (hext.ordered.extends_emplaceParent (mem_keys_of_lastKey? hlast))
    next => exact .refl h.2.toOrdered
  exact ⟨hext, Layer.Proper.of_extends h hgood hext⟩

theorem Sturdy.push (h : Sturdy n s) :
    Proper (n + 1) (primeCache (layerStore κ ν n) { parent := s }) := by
  obtain ⟨hgood, honMap⟩ := primeCache_follows (exact_layerStore κ ν n) (s := { parent := s }) h
  exact ⟨hgood, honMap ▸ (Session.primeCache_spec (content n s)).1⟩

/-- The sessions that remain keep their caches, and the oldest one gets the ends of the root. -/
theorem commitBelow_proper (kept n : ℕ) {s : Layers κ ν n} (hs : Sound n s) :
    (Proper n s → Proper (commitBelow kept n s).1 (commitBelow kept n s).2) ∧
      (Sturdy n s → Sturdy (commitBelow kept n s).1 (commitBelow kept n s).2) := by
  induction kept generalizing n with
  | zero => exact ⟨fun _ => trivial, fun _ => trivial⟩
  | succ kept ih =>
    cases n with
    | zero => exact ⟨fun _ => trivial, fun _ => trivial⟩
    | succ n =>
      obtain ⟨-, hsturdy⟩ := ih n hs.1
      obtain ⟨-, hcontents⟩ := commitBelow_contents kept n hs.1
      rw [commitBelow]
      generalize commitBelow kept n s.parent = below at hsturdy hcontents ⊢
      obtain ⟨m, parent⟩ := below
      have hcontent : content m parent = content n s.parent := by
        rw [contents_eq_cons m, contents_eq_cons n, take_succ_cons, cons.injEq] at hcontents
        exact hcontents.1
      have honMap : onMap (content m) { parent, cache := s.cache } = onMap (content n) s := by
        rw [onMap, hcontent]
        rfl
      have hattach : Proper (n + 1) s → Proper (m + 1) { parent, cache := s.cache } :=
        fun h => ⟨hsturdy h.1, honMap ▸ h.2⟩
      cases m with
      | zero =>
        refine ⟨fun h => (hattach h).prime.2, fun h => ?_⟩
        obtain ⟨hext, hproper⟩ := (hattach h.1).prime
        exact ⟨hproper, Session.Anchored.mono (honMap ▸ h.2) hext.toGrows⟩
      | succ m => exact ⟨hattach, fun h => ⟨hattach h.1, honMap ▸ h.2⟩⟩

end Layers

namespace SessionStack

variable {s s' : SessionStack κ ν} {a : UndoStack (FlatMap κ ν)}

def Proper (s : SessionStack κ ν) : Prop := Layers.Proper s.depth s.sessions

def anchored (s : SessionStack κ ν) : Bool := Layers.anchored s.depth s.sessions

/-- A session is pushed onto an anchored one. -/
def pushesAnchored (t : Transition (SessionStack κ ν) (SessionCall κ ν)) : Bool :=
  match t.label with
  | .push => t.before.anchored
  | _ => true

namespace Proper

variable {revision : ℤ} {pos : Option κ} {k : κ}

theorem of_extends {n : ℕ} {sessions sessions' : Layers κ ν (n + 1)}
    (h : Proper ⟨n + 1, sessions, revision⟩) (hgood : Layers.Sturdy n sessions'.parent)
    (hext : (onMap (Layers.content n) sessions).Extends
      (onMap (Layers.content n) sessions')) : Proper ⟨n + 1, sessions', revision⟩ :=
  Layer.Proper.of_extends h hgood hext

theorem read (h : s.Proper) (k : κ) : (s.read k).2.Proper := by
  obtain ⟨n, sessions, revision⟩ := s
  cases n with
  | zero => trivial
  | succ n =>
    obtain ⟨-, hgood, hext⟩ := read_extends (exact_layerStore κ ν n) h.1 h.2 k
    exact h.of_extends hgood hext

theorem contains (h : s.Proper) {r : Bool × SessionStack κ ν} (hr : s.contains k = .ok r) :
    r.2.Proper := by
  obtain ⟨n, sessions, revision⟩ := s
  cases n with
  | zero => cases hr
  | succ n =>
    have hresult : r.2 = ⟨n + 1, (Layer.contains (layerStore κ ν n) sessions k).2, revision⟩ :=
      congrArg Prod.snd (Except.ok.inj hr).symm
    have hread : (Layer.contains (layerStore κ ν n) sessions k).2 =
        (Layer.read (layerStore κ ν n) sessions k).2 :=
      congrArg Prod.snd (contains_eq sessions k)
    obtain ⟨-, hgood, hext⟩ := read_extends (exact_layerStore κ ν n) h.1 h.2 k
    rw [← hread] at hgood hext
    rw [hresult]
    exact h.of_extends hgood hext

theorem find (h : s.Proper) (k : κ) : (s.find k).2.Proper := by
  obtain ⟨n, sessions, revision⟩ := s
  cases n with
  | zero => trivial
  | succ n =>
    obtain ⟨hgood, hmoved, -⟩ := find_moved (exact_layerStore κ ν n) h.1 h.2 k
    exact h.of_extends hgood hmoved.toExtends

theorem lowerBound (h : s.Proper) (k : κ) :
    (s.lowerBound k).2.Proper ∧
      IsFirst {q | q ∈ (Layers.content s.depth s.sessions).keys ∧ k ≤ q} (s.lowerBound k).1 := by
  obtain ⟨n, sessions, revision⟩ := s
  cases n with
  | zero => exact ⟨trivial, isFirst_firstKey?_decide _ (k ≤ ·)⟩
  | succ n =>
    obtain ⟨hgood, hmoved, hfirst⟩ := lowerBound_follows (exact_layerStore κ ν n) h.1 h.2 k
    refine ⟨h.of_extends hgood hmoved.toExtends, ?_⟩
    simp only [← h.2.mem_keys_content] at hfirst
    exact hfirst

theorem begin (h : s.Proper) :
    s.begin.2.Proper ∧ (IsFirst {q | q ∈ (Layers.content s.depth s.sessions).keys} s.begin.1 ↔
      s.anchored = true) := by
  obtain ⟨n, sessions, revision⟩ := s
  cases n with
  | zero => exact ⟨trivial, iff_of_true (isFirst_firstKey?_true _) rfl⟩
  | succ n =>
    obtain ⟨hgood, hmoved, hfirst⟩ := begin_follows (exact_layerStore κ ν n) h.1 h.2
    refine ⟨h.of_extends hgood hmoved.toExtends, ?_⟩
    refine Iff.trans ?_ (hfirst.trans (Layers.anchored_iff h).symm)
    have hset : {q | q ∈ (Layers.content (n + 1) sessions).keys} =
        (onMap (Layers.content n) sessions).liveKeys := by
      ext q
      exact h.2.mem_keys_content
    rw [hset]
    exact .rfl

theorem cached_of_hasIterator {n : ℕ} {sessions : Layers κ ν (n + 1)}
    (hpos : hasIterator ⟨n + 1, sessions, revision⟩ pos = true)
    (hk : pos = some k) : k ∈ sessions.cache.keys := by
  subst hk
  exact contains_iff.mp hpos

theorem next (h : s.Proper) (hk : s.hasIterator (some k) = true) : (s.next (some k)).2.Proper ∧
      IsFirst {q | q ∈ (Layers.content s.depth s.sessions).keys ∧ k < q} (s.next (some k)).1 := by
  obtain ⟨n, sessions, revision⟩ := s
  cases n with
  | zero => exact ⟨trivial, isFirst_firstKey?_decide _ (k < ·)⟩
  | succ n =>
    obtain ⟨hgood, hmoved, hfirst⟩ := next_moved (exact_layerStore κ ν n) h.1 h.2
      (cached_of_hasIterator hk rfl)
    refine ⟨h.of_extends hgood hmoved.toExtends, ?_⟩
    simp only [← h.2.mem_keys_content] at hfirst
    exact hfirst

theorem previous (h : s.Proper) (hpos : s.hasIterator pos = true) : (s.previous pos).2.Proper ∧
      IsLast {q | q ∈ (Layers.content s.depth s.sessions).keys ∧ Precedes q pos}
        (s.previous pos).1 := by
  obtain ⟨n, sessions, revision⟩ := s
  cases n with
  | zero =>
    have hlast := isLast_lastKey?_decide sessions (Precedes · pos)
    cases pos with
    | none => exact ⟨trivial, hlast⟩
    | some k => exact ⟨trivial, hlast⟩
  | succ n =>
    obtain ⟨hgood, hmoved, hlast⟩ := previous_moved (exact_layerStore κ ν n) h.1 h.2
      fun k => cached_of_hasIterator hpos
    refine ⟨h.of_extends hgood hmoved.toExtends, ?_⟩
    simp only [← h.2.mem_keys_content] at hlast
    exact hlast

/-! ## Runs -/

theorem squash (h : s.Proper) : s.squash.Proper := by
  obtain ⟨n, sessions, revision⟩ := s
  cases n with
  | zero => trivial
  | succ n => exact Layers.Proper.commit h

theorem undo (h : s.Proper) : s.undo.Proper := by
  obtain ⟨n, sessions, revision⟩ := s
  cases n with
  | zero => trivial
  | succ n => exact h.1.proper

theorem commit (h : s.Proper) (hs : s.Refines a) (revision : ℤ) : (s.commit revision).Proper := by
  rw [SessionStack.commit]
  dsimp only
  split_ifs
  · exact h
  · exact h
  · exact (Layers.commitBelow_proper _ s.depth hs.sound).1 h

theorem step (h : s.Proper) (hs : s.Refines a) {call : SessionCall κ ν}
    (hstep : s.step call = .ok s') (hpush : pushesAnchored ⟨s, call, s'⟩ = true) : s'.Proper := by
  cases call with
  | push => exact Except.ok.inj hstep ▸ (Layers.Proper.sturdy h hpush).push
  | squash => exact Except.ok.inj hstep ▸ h.squash
  | undo => exact Except.ok.inj hstep ▸ h.undo
  | commit revision => exact Except.ok.inj hstep ▸ h.commit hs revision
  | write k v => exact Except.ok.inj hstep ▸ Layers.Proper.write h k v
  | erase k => exact Except.ok.inj hstep ▸ Layers.Proper.erase h k
  | read k => exact Except.ok.inj hstep ▸ h.read k
  | contains k =>
    cases hr : s.contains k with
    | error e => simp [SessionStack.step, hr, Except.map] at hstep
    | ok r =>
      rw [SessionStack.step, hr] at hstep
      exact Except.ok.inj hstep ▸ h.contains hr
  | find k => exact Except.ok.inj hstep ▸ h.find k
  | lowerBound k => exact Except.ok.inj hstep ▸ (h.lowerBound k).1
  | begin => exact Except.ok.inj hstep ▸ h.begin.1
  | next pos =>
    rw [SessionStack.step] at hstep
    split_ifs at hstep with hpos
    obtain rfl := Except.ok.inj hstep
    cases pos with
    | none =>
      obtain ⟨n, sessions, revision⟩ := s
      cases n with
      | zero => trivial
      | succ n => exact h
    | some k => exact (h.next hpos).1
  | previous pos =>
    rw [SessionStack.step] at hstep
    split_ifs at hstep with hpos
    exact Except.ok.inj hstep ▸ (h.previous hpos).1

theorem run {root : FlatMap κ ν} {ts : List (Transition (SessionStack κ ν) (SessionCall κ ν))}
    (hrun : Run (fun s call s' => s.step call = .ok s') ⟨0, root, revision⟩ ts s)
    (hpushes : ∀ t ∈ ts, pushesAnchored t = true) : s.Proper := by
  refine hrun.invariant_of_forall (I := fun _ s => s.Proper) hpushes trivial ?_
  intro ts s call s' hrun h hstep hpush
  exact h.step (Refines.run hrun) hstep hpush

end Proper

end SessionStack

def SessionCall.isLookup : SessionCall κ ν → Bool
  | .push | .squash | .undo | .commit _ | .write _ _ | .erase _ => false
  | _ => true

theorem abstractSession_of_isLookup {call : SessionCall κ ν} (h : call.isLookup = true)
    (a : UndoStack (FlatMap κ ν)) : abstractSession a call = a := by
  cases call <;> first | rfl | cases h

namespace SessionStack

/-- The map that the calls of a run lead to, on a stack of maps. -/
def mapOf (root : FlatMap κ ν) (revision : ℤ)
    (ts : List (Transition (SessionStack κ ν) (SessionCall κ ν))) : FlatMap κ ν :=
  ((ts.map (·.label)).foldl abstractSession ⟨revision, root, []⟩).current

/-- In every run that pushes sessions onto anchored ones only, the newest session answers as the map
that results from its layers, forwards; and looking something up changes no session. -/
theorem lookups_eq_map (root : FlatMap κ ν) (revision : ℤ)
    {ts : List (Transition (SessionStack κ ν) (SessionCall κ ν))} {s : SessionStack κ ν}
    (hrun : Run (fun s call s' => s.step call = .ok s') ⟨0, root, revision⟩ ts s)
    (hpushes : ∀ t ∈ ts, pushesAnchored t = true) :
    let m := Layers.content s.depth s.sessions
    m = mapOf root revision ts ∧ (∀ k, (s.read k).1 = m.find? k) ∧
      (∀ k, 0 < s.depth → ∃ s', s.contains k = .ok (m.contains k, s')) ∧
      (∀ k, (s.find k).1 = if m.contains k then some k else none) ∧
      (∀ k, IsFirst {q | q ∈ m.keys ∧ k ≤ q} (s.lowerBound k).1) ∧
      (∀ k, s.hasIterator (some k) = true → IsFirst {q | q ∈ m.keys ∧ k < q} (s.next (some k)).1) ∧
      ∀ call s', SessionCall.isLookup call = true → s.step call = .ok s' →
        s'.contents = s.contents := by
  intro m
  have hproper : s.Proper := .run hrun hpushes
  have hrefines := Refines.run hrun
  have hm : m = mapOf root revision ts := hrefines.content
  refine ⟨hm, fun k => ?_, fun k hdepth => ?_, fun k => ?_, fun k => (hproper.lowerBound k).2,
    fun k hk => (hproper.next hk).2, fun call s' hlookup hstep => ?_⟩
  · rw [hm]
    exact (hrefines.read k).1
  · cases hr : s.contains k with
    | error e =>
      obtain ⟨n, sessions, revision⟩ := s
      cases n with
      | zero => exact absurd hdepth (Nat.lt_irrefl 0)
      | succ n => cases hr
    | ok r =>
      refine ⟨r.2, ?_⟩
      rw [hm, ← show r.1 = (mapOf root revision ts).contains k from (hrefines.contains hr).1]
  · rw [hm]
    exact (hrefines.find k).1
  · have hafter := hrefines.step hstep
    rw [abstractSession_of_isLookup hlookup] at hafter
    exact hafter.contents.trans hrefines.contents.symm

/-- The second session is pushed onto one that has an anchor. -/
def anchoredCalls : List (SessionCall ℕ ℕ) :=
  [.push, .erase 1, .write 4 40, .push, .find 2, .write 3 30]

theorem lookups_eq_map_anchoredCalls :
    ∃ ts s, Run (fun s call s' => SessionStack.step s call = .ok s')
        (⟨0, (FlatMap.empty.insert 1 10).insert 2 20, 0⟩ : SessionStack ℕ ℕ) ts s ∧
      s.depth = 2 ∧ (∀ t ∈ ts, pushesAnchored t = true) ∧
      IsFirst {q | q ∈ (Layers.content s.depth s.sessions).keys ∧ 2 < q} (s.next (some 2)).1 := by
  obtain ⟨ts, s, hrun, hsample⟩ := exists_run_of_exec step
    (⟨0, (empty.insert 1 10).insert 2 20, 0⟩ : SessionStack ℕ ℕ) anchoredCalls
    (fun ts s => decide (s.depth = 2 ∧ s.hasIterator (some 2) = true) && ts.all pushesAnchored)
    (by decide +kernel)
  obtain ⟨hsample, hpushes⟩ := Bool.and_eq_true_iff.mp hsample
  obtain ⟨hdepth, hiterator⟩ := decide_eq_true_eq.mp hsample
  rw [all_eq_true] at hpushes
  obtain ⟨-, -, -, -, -, hnext, -⟩ := lookups_eq_map _ _ hrun hpushes
  exact ⟨ts, s, hrun, hdepth, hpushes, hnext 2 hiterator⟩

/-- The second session is pushed when all cached keys of the first one are deleted: it takes the key
it looks up first for the last one of its parent, and so does the third. -/
def unanchoredCalls : List (SessionCall ℕ ℕ) :=
  [.push, .erase 1, .erase 5, .push, .find 2, .push, .write 4 40]

/-- The key 3 of the root is skipped. -/
theorem lowerBound_skips_unanchoredCalls :
    ∃ ts s, Run (fun s call s' => SessionStack.step s call = .ok s')
        (⟨0, (((FlatMap.empty.insert 1 10).insert 2 20).insert 3 30).insert 5 50, 0⟩ :
          SessionStack ℕ ℕ) ts s ∧
      3 ∈ (Layers.content s.depth s.sessions).keys ∧ (s.lowerBound 3).1 = some 4 ∧
      s.hasIterator (some 2) = true ∧ (s.next (some 2)).1 = some 4 := by
  obtain ⟨ts, s, hrun, hsample⟩ := exists_run_of_exec step
    (⟨0, (((empty.insert 1 10).insert 2 20).insert 3 30).insert 5 50, 0⟩ :
      SessionStack ℕ ℕ) unanchoredCalls
    (fun _ s => decide (3 ∈ (Layers.content s.depth s.sessions).keys ∧
      (s.lowerBound 3).1 = some 4 ∧ s.hasIterator (some 2) = true ∧ (s.next (some 2)).1 = some 4))
    (by decide +kernel)
  exact ⟨ts, s, hrun, decide_eq_true_eq.mp hsample⟩

/-- In every run that pushes sessions onto anchored ones only, the newest session goes backwards over
the map that results from its layers; and it knows its first key if and only if it is anchored. -/
theorem begin_previous_eq_map (root : FlatMap κ ν) (revision : ℤ)
    {ts : List (Transition (SessionStack κ ν) (SessionCall κ ν))} {s : SessionStack κ ν}
    (hrun : Run (fun s call s' => s.step call = .ok s') ⟨0, root, revision⟩ ts s)
    (hpushes : ∀ t ∈ ts, pushesAnchored t = true) :
    let m := Layers.content s.depth s.sessions
    m = mapOf root revision ts ∧ (IsFirst {q | q ∈ m.keys} s.begin.1 ↔ s.anchored = true) ∧
      ∀ pos, s.hasIterator pos = true →
        IsLast {q | q ∈ m.keys ∧ Precedes q pos} (s.previous pos).1 := by
  have hproper : s.Proper := .run hrun hpushes
  exact ⟨(Refines.run hrun).content, hproper.begin.2, fun pos hpos => (hproper.previous hpos).2⟩

theorem begin_previous_eq_map_anchoredCalls :
    ∃ ts s, Run (fun s call s' => SessionStack.step s call = .ok s')
        (⟨0, (FlatMap.empty.insert 1 10).insert 2 20, 0⟩ : SessionStack ℕ ℕ) ts s ∧
      s.depth = 2 ∧ (∀ t ∈ ts, pushesAnchored t = true) ∧
      IsFirst {q | q ∈ (Layers.content s.depth s.sessions).keys} s.begin.1 := by
  obtain ⟨ts, s, hrun, hsample⟩ := exists_run_of_exec step
    (⟨0, (empty.insert 1 10).insert 2 20, 0⟩ : SessionStack ℕ ℕ) anchoredCalls
    (fun ts s => decide (s.depth = 2 ∧ s.anchored = true) && ts.all pushesAnchored)
    (by decide +kernel)
  obtain ⟨hsample, hpushes⟩ := Bool.and_eq_true_iff.mp hsample
  obtain ⟨hdepth, hanchored⟩ := decide_eq_true_eq.mp hsample
  rw [all_eq_true] at hpushes
  obtain ⟨-, hbegin, -⟩ := begin_previous_eq_map _ _ hrun hpushes
  exact ⟨ts, s, hrun, hdepth, hpushes, hbegin.mpr hanchored⟩

/-- Both ends of the cache are erased; the key in between is there, but `begin` is the end. -/
theorem begin_misses_key :
    ∃ ts s, Run (fun s call s' => SessionStack.step s call = .ok s')
        (⟨0, ((FlatMap.empty.insert 1 10).insert 2 20).insert 3 30, 0⟩ : SessionStack ℕ ℕ) ts s ∧
      2 ∈ (Layers.content s.depth s.sessions).keys ∧ s.begin.1 = none := by
  obtain ⟨ts, s, hrun, hsample⟩ := exists_run_of_exec step
    (⟨0, ((empty.insert 1 10).insert 2 20).insert 3 30, 0⟩ : SessionStack ℕ ℕ)
    [.push, .erase 1, .erase 3]
    (fun _ s => decide (2 ∈ (Layers.content s.depth s.sessions).keys ∧ s.begin.1 = none))
    (by decide +kernel)
  exact ⟨ts, s, hrun, decide_eq_true_eq.mp hsample⟩

end SessionStack

end DcdProtocol.KeyValue
