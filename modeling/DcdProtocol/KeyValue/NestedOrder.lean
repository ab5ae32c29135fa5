import DcdProtocol.KeyValue.SessionContent

/-!
# The order of nested sessions

A session over a parent whose iterators go where they should does what a session directly over the
content of the parent does: each operation of `Layer` follows the one of `Session`, and the facts
about its cache carry over.  `Exact` says of a store that its iterators go where they should.

A session hands this on to its children as long as it is `Anchored`: `begin` never asks the parent
when all cached entries are deleted, so it finds the first key only if some entry is not, or if there
is no key at all.  Looking something up keeps a session anchored; erasing may not.
-/

namespace DcdProtocol.KeyValue

open Library FlatMap Option Session Layer

variable {σ κ ν : Type*} [LinearOrder κ]

/-! ## Anchored sessions -/

namespace Session

variable {s s' : Session κ ν} {k q : κ}

theorem parent_pullParent (s : Session κ ν) (pos : Option κ) :
    (s.pullParent pos).parent = s.parent := by
  cases pos <;> rfl

theorem parent_nextKey (s : Session κ ν) (k : κ) : (s.nextKey k).parent = s.parent := by
  rw [nextKey]
  split
  · rw [link, parent_modify, parent_modify, parent_pullParent]
  · exact parent_pullParent s _

theorem Coherent.value_ne_none (h : s.Coherent) {e : ValueState ν} (he : s.cache.find? k = some e)
    (hdeleted : e.deleted = false) : e.value ≠ none := by
  have hvalued := h.valued k (mem_keys_iff.mpr ⟨e, he⟩)
  rw [record_of_cached he] at hvalued
  exact hvalued hdeleted

theorem Coherent.find?_content_eq (h : s.Coherent) (k : κ) : s.content.find? k = s.live k :=
  find?_content_of_valued fun _ => h.value_ne_none

theorem Coherent.mem_keys_content (h : s.Coherent) : k ∈ s.content.keys ↔ k ∈ s.liveKeys := by
  rw [mem_keys_iff, h.find?_content_eq, ← isSome_iff_exists]
  rfl

theorem Coherent.content_of_extends (h : s.Coherent) (hext : Extends s s') :
    s'.content = s.content := by
  refine ext_find? fun k v => ?_
  rw [(h.of_extends hext).find?_content_eq, h.find?_content_eq, hext.live]

/-- Some cached entry is not deleted, or the session is empty. -/
def Anchored (s : Session κ ν) : Prop :=
  (∃ k ∈ s.cache.keys, s.isDeleted k = false) ∨ ∀ k, k ∉ s.liveKeys

theorem Anchored.mono (h : s.Anchored) (hgrows : Grows s s') : s'.Anchored := by
  rcases h with ⟨k, hk, hdeleted⟩ | hempty
  · exact .inl ⟨k, hgrows.keys k hk, (hgrows.isDeleted k).trans hdeleted⟩
  · rw [Anchored, hgrows.liveKeys]
    exact .inr hempty

end Session

/-! ## Exact stores -/

namespace Store

/-- A use of a store that leaves its content and its iterators. -/
structure Stays (Good : σ → Prop) (view : σ → FlatMap κ ν) (At : σ → κ → Prop) (p p' : σ) :
    Prop where
  good : Good p'
  view_eq : view p' = view p
  keeps : ∀ k, At p k → At p' k

/-- A use of a store that also makes an iterator. -/
structure Lands (Good : σ → Prop) (view : σ → FlatMap κ ν) (At : σ → κ → Prop) (p : σ)
    (r : Option κ × σ) : Prop extends Stays Good view At p r.2 where
  lands : ∀ k, r.1 = some k → At r.2 k

/-- A store whose iterators go where they should, from the positions `At` which there are iterators. -/
structure Exact (P : Store σ κ ν) (Good : σ → Prop) (view : σ → FlatMap κ ν)
    (At : σ → κ → Prop) : Prop where
  mem : ∀ p k, Good p → At p k → k ∈ (view p).keys
  value : ∀ p k, Good p → At p k → P.valueAt (some k) p = (view p).find? k
  begin : ∀ p, Good p → Lands Good view At p (P.begin p) ∧
    (P.begin p).1 = (view p).firstKey? fun _ => true
  lowerBound : ∀ p k, Good p → Lands Good view At p (P.lowerBound k p) ∧
    (P.lowerBound k p).1 = (view p).firstKey? (k ≤ ·)
  find : ∀ p k, Good p → Lands Good view At p (P.find k p) ∧
    (P.find k p).1 = if (view p).contains k then some k else none
  next : ∀ p k, Good p → At p k → Lands Good view At p (P.next (some k) p) ∧
    (P.next (some k) p).1 = (view p).firstKey? (k < ·)
  next_end : ∀ p, Good p → Stays Good view At p (P.next none p).2
  previous : ∀ p pos, Good p → (∀ k, pos = some k → At p k) →
    Lands Good view At p (P.previous pos p) ∧
      (P.previous pos p).1 = (view p).lastKey? fun q => decide (Precedes q pos)
  read : ∀ p k, Good p → Stays Good view At p (P.read k p).2 ∧ (P.read k p).1 = (view p).find? k
  size : ∀ p, Good p → (view p).keys.length ≤ P.size p

end Store

theorem exact_rootStore (κ ν : Type*) [LinearOrder κ] :
    (rootStore κ ν).Exact (fun _ => True) id fun m k => k ∈ m.keys where
  mem _ _ _ hk := hk
  value _ _ _ _ := rfl
  begin m _ := ⟨⟨⟨trivial, rfl, fun _ h => h⟩, fun _ => mem_keys_of_firstKey?⟩, rfl⟩
  lowerBound m k _ := ⟨⟨⟨trivial, rfl, fun _ h => h⟩, fun _ => mem_keys_of_firstKey?⟩, rfl⟩
  find m k _ := by
    refine ⟨⟨⟨trivial, rfl, fun _ h => h⟩, ?_⟩, rfl⟩
    exact ((faithful_rootStore κ ν).find m k trivial).1.visible
  next m k _ _ := ⟨⟨⟨trivial, rfl, fun _ h => h⟩, fun _ => mem_keys_of_firstKey?⟩, rfl⟩
  next_end m _ := ⟨trivial, rfl, fun _ h => h⟩
  previous m pos _ _ := by
    cases pos with
    | none => exact ⟨⟨⟨trivial, rfl, fun _ h => h⟩, fun _ => mem_keys_of_lastKey?⟩, rfl⟩
    | some k => exact ⟨⟨⟨trivial, rfl, fun _ h => h⟩, fun _ => mem_keys_of_lastKey?⟩, rfl⟩
  read m k _ := ⟨⟨trivial, rfl, fun _ h => h⟩, rfl⟩
  size m _ := le_rfl

/-! ## A session over an exact store -/

namespace Layer

variable {P : Store σ κ ν} {Good : σ → Prop} {view : σ → FlatMap κ ν} {At : σ → κ → Prop}
  {s s' : Layer σ κ ν} {k q : κ} {pit pos pos' : Option κ} {t : Session κ ν}
  {r : Option κ × Layer σ κ ν} {R : κ → Prop}

/-- The session has become one that does what `t` does, and its parent's iterator is at `pos`. -/
structure Follows (Good : σ → Prop) (view : σ → FlatMap κ ν) (At : σ → κ → Prop)
    (s : Layer σ κ ν) (t : Session κ ν) (pos : Option κ) (r : Option κ × Layer σ κ ν) : Prop where
  position : r.1 = pos
  good : Good r.2.parent
  onMap : r.2.onMap view = t
  lands : ∀ k, pos = some k → At r.2.parent k
  keeps : ∀ k, At s.parent k → At r.2.parent k

theorem onMap_onParent {α : Type*} {f : σ → α × σ} (h : view (f s.parent).2 = view s.parent) :
    (s.onParent f).2.onMap view = s.onMap view := by
  rw [onMap, onMap, onParent, h]

theorem follows_onParent {f : σ → Option κ × σ} {pos : Option κ}
    (h : Store.Lands Good view At s.parent (f s.parent) ∧ (f s.parent).1 = pos) :
    Follows Good view At s (s.onMap view) pos (s.onParent f) :=
  ⟨h.2, h.1.good, onMap_onParent h.1.view_eq, fun k hk => h.1.lands k (h.2.trans hk), h.1.keeps⟩

theorem parent_pull (s : Layer σ κ ν) (pit : Option κ) : (s.pull P pit).parent = s.parent := by
  cases pit <;> rfl

theorem parent_link (s : Layer σ κ ν) (k n : κ) : (s.link k n).parent = s.parent := by
  rw [link, parent_modify, parent_modify]

theorem parent_linkNext (s : Layer σ κ ν) (k : κ) : (s.linkNext k).parent = s.parent := by
  rw [linkNext]
  split
  · exact parent_link s _ _
  · rfl

theorem parent_linkPrevious (s : Layer σ κ ν) (k : κ) : (s.linkPrevious k).parent = s.parent := by
  rw [linkPrevious]
  split
  · exact parent_link s _ _
  · rfl

theorem onMap_linkNext (s : Layer σ κ ν) (k : κ) :
    (s.linkNext k).onMap view = match (s.onMap view).cacheNext k with
      | some n => (s.onMap view).link k n
      | none => s.onMap view := by
  rw [linkNext, show s.cacheNext k = (s.onMap view).cacheNext k from rfl]
  cases (s.onMap view).cacheNext k with
  | none => rfl
  | some n => exact onMap_link s k n

theorem onMap_linkPrevious (s : Layer σ κ ν) (k : κ) :
    (s.linkPrevious k).onMap view = match (s.onMap view).cachePrevious k with
      | some p => (s.onMap view).link p k
      | none => s.onMap view := by
  rw [linkPrevious, show s.cachePrevious k = (s.onMap view).cachePrevious k from rfl]
  cases (s.onMap view).cachePrevious k with
  | none => rfl
  | some p => exact onMap_link s p k

namespace Follows

section

variable (h : Follows Good view At s t pos r) {α : Type*} {f : σ → α × σ}
include h

theorem view_eq : view r.2.parent = t.parent := congrArg Session.parent h.onMap

theorem onParent {f : σ → Option κ × σ}
    (hf : Store.Lands Good view At r.2.parent (f r.2.parent) ∧ (f r.2.parent).1 = pos') :
    Follows Good view At s t pos' (r.2.onParent f) :=
  ⟨hf.2, hf.1.good, (onMap_onParent hf.1.view_eq).trans h.onMap,
    fun k hk => hf.1.lands k (hf.2.trans hk), fun k hk => hf.1.keeps k (h.keeps k hk)⟩

theorem stays (hf : Store.Stays Good view At r.2.parent (f r.2.parent).2) :
    Follows Good view At s t none (none, (r.2.onParent f).2) := by
  refine ⟨rfl, hf.good, (onMap_onParent hf.view_eq).trans h.onMap, ?_, ?_⟩
  · intro k hk
    cases hk
  · exact fun k hk => hf.keeps k (h.keeps k hk)

theorem aside (hf : Store.Stays Good view At r.2.parent (f r.2.parent).2) :
    Follows Good view At s t pos (pos, (r.2.onParent f).2) :=
  ⟨rfl, hf.good, (onMap_onParent hf.view_eq).trans h.onMap, fun k hk => hf.keeps k (h.lands k hk),
    fun k hk => hf.keeps k (h.keeps k hk)⟩

theorem linkNext (k : κ) :
    Follows Good view At s (match t.cacheNext k with
      | some n => t.link k n
      | none => t) pos (r.1, r.2.linkNext k) := by
  refine ⟨h.position, ?_, ?_, ?_, ?_⟩
  · rw [parent_linkNext]
    exact h.good
  · rw [onMap_linkNext, h.onMap]
  · rw [parent_linkNext]
    exact h.lands
  · rw [parent_linkNext]
    exact h.keeps

theorem linkPrevious (k : κ) :
    Follows Good view At s (match t.cachePrevious k with
      | some p => t.link p k
      | none => t) pos (r.1, r.2.linkPrevious k) := by
  refine ⟨h.position, ?_, ?_, ?_, ?_⟩
  · rw [parent_linkPrevious]
    exact h.good
  · rw [onMap_linkPrevious, h.onMap]
  · rw [parent_linkPrevious]
    exact h.lands
  · rw [parent_linkPrevious]
    exact h.keeps

end

end Follows

/-- The layer has pulled a key, as the session over the map has to become `t`. -/
def Pulled (Good : σ → Prop) (view : σ → FlatMap κ ν) (s : Layer σ κ ν) (t : Option (Session κ ν))
    (r : Bool × Layer σ κ ν) : Prop :=
  Good r.2.parent ∧ r.1 = t.isSome ∧ r.2.onMap view = t.getD (s.onMap view)

/-- The result on the layer is that on the session over the map. -/
def Mirrors {α : Type*} (Good : σ → Prop) (view : σ → FlatMap κ ν) (r : α × Layer σ κ ν)
    (t : α × Session κ ν) : Prop := r.1 = t.1 ∧ Good r.2.parent ∧ r.2.onMap view = t.2

/-- A loop on the layer follows the loop on the map, if its pulls do. -/
theorem move_follows {inCache : Session κ ν → κ → Bool} {neighbour : Session κ ν → κ → Option κ}
    {pull : Layer σ κ ν → κ → Bool × Layer σ κ ν} {pull' : Session κ ν → κ → Option (Session κ ν)}
    (move : ℕ → Layer σ κ ν → κ → Option κ × Layer σ κ ν)
    (move' : ℕ → Session κ ν → κ → Option κ × Session κ ν)
    (hmove : Moves (fun s => inCache (s.onMap view)) (fun s => neighbour (s.onMap view)) pull move)
    (hzero' : ∀ s k, move' 0 s k = (none, s)) (hmove' : ∀ rounds s k, move' (rounds + 1) s k =
      match if inCache s k then some s else pull' s k with
      | none => (none, s)
      | some s =>
        match neighbour s k with
        | none => (none, s)
        | some n => if s.isDeleted n then move' rounds s n else (some n, s))
    (hpull : ∀ s k, Good s.parent → Pulled Good view s (pull' (s.onMap view) k) (pull s k))
    (rounds : ℕ) (h : Good s.parent) (k : κ) :
    Mirrors Good view (move rounds s k) (move' rounds (s.onMap view) k) := by
  induction rounds generalizing s k with
  | zero =>
    rw [hmove.zero, hzero']
    exact ⟨rfl, h, rfl⟩
  | succ rounds ih =>
    have hround : Pulled Good view s
        (if inCache (s.onMap view) k then some (s.onMap view) else pull' (s.onMap view) k)
        (if inCache (s.onMap view) k then (true, s) else pull s k) := by
      split_ifs
      · exact ⟨h, rfl, rfl⟩
      · exact hpull s k h
    rw [hmove.succ, hmove']
    generalize (if inCache (s.onMap view) k then (true, s) else pull s k) = r at hround ⊢
    generalize (if inCache (s.onMap view) k then some (s.onMap view)
      else pull' (s.onMap view) k) = prepared at hround ⊢
    obtain ⟨found, s'⟩ := r
    obtain ⟨hgood, hfound, honMap⟩ := hround
    cases prepared with
    | none =>
      obtain rfl : found = false := hfound
      exact ⟨rfl, hgood, honMap⟩
    | some t =>
      obtain rfl : found = true := hfound
      obtain rfl : s'.onMap view = t := honMap
      dsimp only
      rw [if_pos rfl]
      cases neighbour (s'.onMap view) k with
      | none => exact ⟨rfl, hgood, rfl⟩
      | some n =>
        dsimp only
        rw [show (s'.onMap view).isDeleted n = s'.isDeleted n from rfl]
        split_ifs
        · exact ih hgood n
        · exact ⟨rfl, hgood, rfl⟩

section Exact

variable (hP : P.Exact Good view At)
include hP

theorem onMap_pull (h : Good s.parent) (hpit : ∀ k, pit = some k → At s.parent k) :
    (s.pull P pit).onMap view = (s.onMap view).pullParent pit := by
  cases pit with
  | none => rfl
  | some k => exact onMap_emplace (hP.value s.parent k h (hpit k rfl))

theorem Follows.pull (h : Follows Good view At s t pos r) :
    Follows Good view At s (t.pullParent pos) pos (pos, r.2.pull P pos) := by
  refine ⟨rfl, ?_, ?_, ?_, ?_⟩
  · rw [parent_pull]
    exact h.good
  · rw [onMap_pull hP h.good h.lands, h.onMap]
  · rw [parent_pull]
    exact h.lands
  · rw [parent_pull]
    exact h.keeps

theorem Follows.next (h : Follows Good view At s t pos r) :
    Follows Good view At s t none (none, (r.2.onParent (P.next pos)).2) := by
  cases pos with
  | none => exact h.stays (hP.next_end r.2.parent h.good)
  | some k => exact h.stays (hP.next r.2.parent k h.good (h.lands k rfl)).1.toStays

/-! ### Neighbours -/

theorem nextKey_follows (h : Follows Good view At s t (t.parent.firstKey? (k ≤ ·)) r) :
    Follows Good view At s (t.nextKey k) (t.parent.firstKey? (k ≤ ·))
      (r.2.nextKey P k (t.parent.firstKey? (k ≤ ·))) := by
  rw [nextKey, Session.nextKey]
  split_ifs with hk
  · rw [hk] at h ⊢
    have hmove := hP.next r.2.parent k h.good (h.lands k rfl)
    rw [h.view_eq] at hmove
    have hnext := h.onParent hmove
    have hpull := Follows.pull hP hnext
    have hback := hP.previous _ _ hpull.good hpull.lands
    rw [hpull.view_eq, parent_pullParent,
      lastKey?_precedes_next (mem_keys_of_firstKey? hk)] at hback
    dsimp only
    rw [hnext.position]
    exact (hpull.onParent hback).linkNext k
  · rw [firstKey?_le_of_ne hk] at h ⊢
    exact (Follows.pull hP h).linkNext k

theorem previousKey_follows (h : Follows Good view At s t (t.parent.firstKey? (k ≤ ·)) r) :
    Good (r.2.previousKey P k (t.parent.firstKey? (k ≤ ·))
        (t.parent.firstKey? fun _ => true)).parent ∧
      (r.2.previousKey P k (t.parent.firstKey? (k ≤ ·))
        (t.parent.firstKey? fun _ => true)).onMap view = t.previousKey k := by
  rw [previousKey, Session.previousKey]
  split_ifs with hfirst
  · have hback := hP.previous _ _ h.good h.lands
    rw [h.view_eq, lastKey?_precedes_lower] at hback
    have hprevious := h.onParent hback
    have hpull := Follows.pull hP hprevious
    have hlink := (Follows.next hP hpull).linkPrevious k
    dsimp only
    rw [hprevious.position]
    exact ⟨hlink.good, hlink.onMap⟩
  · rw [lastKey?_lt_eq_none (not_not.mp hfirst)]
    have hlink := h.linkPrevious k
    exact ⟨hlink.good, hlink.onMap⟩

theorem neighbours_follow (h : Follows Good view At s t (t.parent.firstKey? (k ≤ ·)) r) :
    Good (((r.2.nextKey P k r.1).2.onParent P.begin).2.previousKey P k (r.2.nextKey P k r.1).1
        ((r.2.nextKey P k r.1).2.onParent P.begin).1).parent ∧
      (((r.2.nextKey P k r.1).2.onParent P.begin).2.previousKey P k (r.2.nextKey P k r.1).1
        ((r.2.nextKey P k r.1).2.onParent P.begin).1).onMap view = (t.nextKey k).previousKey k := by
  have hnext := nextKey_follows hP h
  rw [← h.position] at hnext
  generalize r.2.nextKey P k r.1 = r' at hnext ⊢
  rw [h.position, ← parent_nextKey] at hnext
  have hbegin := hP.begin r'.2.parent hnext.good
  have hprevious := previousKey_follows hP (hnext.aside hbegin.1.toStays)
  rw [hnext.view_eq] at hbegin
  rw [hnext.position, show (r'.2.onParent P.begin).1 = _ from hbegin.2]
  exact hprevious

theorem updateIteratorCache_follows (h : Good s.parent) (k : κ) :
    Good (s.updateIteratorCache P k).parent ∧
      (s.updateIteratorCache P k).onMap view = (s.onMap view).updateIteratorCache k := by
  rw [updateIteratorCache, Session.updateIteratorCache,
    show (s.onMap view).cache.contains k = s.cache.contains k from rfl]
  split_ifs
  · exact ⟨h, rfl⟩
  let s₀ : Layer σ κ ν := { s with cache := s.cache.insert k {} }
  have hknown : (s₀.onMap view).orderKnown k = s₀.orderKnown k := rfl
  show Good (if s₀.orderKnown k then _ else _ : Layer σ κ ν).parent ∧
    (if s₀.orderKnown k then _ else _ : Layer σ κ ν).onMap view =
      if (s₀.onMap view).orderKnown k then _ else _
  rw [hknown]
  split_ifs
  · rw [parent_modify, onMap_modify]
    exact ⟨h, rfl⟩
  · have hlower := follows_onParent (s := s₀) (hP.lowerBound s.parent k h)
    exact neighbours_follow hP hlower

/-! ### Reading and writing -/

theorem write_follows (h : Good s.parent) (k : κ) (v : ν) :
    Good (s.write P k v).parent ∧ (s.write P k v).onMap view = (s.onMap view).write k v := by
  obtain ⟨hgood, honMap⟩ := updateIteratorCache_follows hP h k
  rw [write, Session.write, parent_modify, onMap_modify, honMap]
  exact ⟨hgood, rfl⟩

theorem erase_follows (h : Good s.parent) (k : κ) :
    Good (s.erase P k).parent ∧ (s.erase P k).onMap view = (s.onMap view).erase k := by
  obtain ⟨hgood, honMap⟩ := updateIteratorCache_follows hP h k
  rw [erase, Session.erase, parent_modify, onMap_modify, honMap]
  exact ⟨hgood, rfl⟩

theorem readParent_follows (h : Good s.parent) (k : κ) :
    (s.readParent P k).1 = (view s.parent).find? k ∧ Good (s.readParent P k).2.parent ∧
      (s.readParent P k).2.onMap view = match (view s.parent).find? k with
        | some v => ((s.onMap view).updateIteratorCache k).modify k fun e => { e with value := some v }
        | none => s.onMap view := by
  obtain ⟨hstays, hvalue⟩ := hP.read s.parent k h
  have honMap : (s.onParent (P.read k)).2.onMap view = s.onMap view := onMap_onParent hstays.view_eq
  obtain ⟨hgood, hupdate⟩ :=
    updateIteratorCache_follows hP (s := (s.onParent (P.read k)).2) hstays.good k
  rw [readParent]
  dsimp only
  rw [show (s.onParent (P.read k)).1 = _ from hvalue]
  cases (view s.parent).find? k with
  | none => exact ⟨rfl, hstays.good, honMap⟩
  | some v =>
    refine ⟨rfl, ?_, ?_⟩
    · rw [parent_modify]
      exact hgood
    · rw [onMap_modify, hupdate, honMap]

theorem read_follows (h : Good s.parent) (k : κ) :
    Mirrors Good view (s.read P k) ((s.onMap view).read k) := by
  have hparent := readParent_follows hP h k
  rw [read, Session.read, show (s.onMap view).cache.find? k = s.cache.find? k from rfl,
    show (s.onMap view).parent.find? k = (view s.parent).find? k from rfl]
  cases s.cache.find? k with
  | none => cases hfind : (view s.parent).find? k <;> grind [Mirrors]
  | some e => grind [Mirrors]

/-! ### Iterators -/

/-- The parent's iterator goes on to the first key that this session has not deleted.  It started at
the first key with the property `R`, which all greater keys have. -/
theorem skipDeleted_follows [DecidablePred R] (hR : ∀ x y, R x → x ≤ y → R y) (rounds : ℕ)
    (h : Follows Good view At s t pos r) (hpos : IsFirst {q | q ∈ t.parent.keys ∧ R q} pos)
    (hrounds : (t.parent.keys.toFinset.filter R).card < rounds) :
    ∃ pos', Follows Good view At s t pos' (skipDeleted P rounds r.2 pos) ∧
      IsFirst {q | q ∈ t.parent.keys ∧ R q ∧ t.isDeleted q = false} pos' := by
  -- A round goes from a deleted key to the next one, so `R` becomes what comes after that key.
  induction rounds generalizing R r pos with
  | zero => exact absurd hrounds (Nat.not_lt_zero _)
  | succ rounds ih =>
    cases pos with
    | none =>
      refine ⟨none, ⟨rfl, h.good, h.onMap, h.lands, h.keeps⟩, isFirst_none_iff.mpr ?_⟩
      rintro q ⟨hq, hRq, -⟩
      exact isFirst_none_iff.mp hpos q ⟨hq, hRq⟩
    | some k =>
      have hdeleted : r.2.isDeleted k = t.isDeleted k := congrArg (Session.isDeleted · k) h.onMap
      rw [skipDeleted, hdeleted]
      split_ifs with hk
      · have hmove := hP.next r.2.parent k h.good (h.lands k rfl)
        rw [h.view_eq] at hmove
        have hnext := h.onParent hmove
        have hcard : (t.parent.keys.toFinset.filter (k < ·)).card <
            (t.parent.keys.toFinset.filter R).card :=
          card_filter_lt_of_mem (List.mem_toFinset.mpr hpos.1.1) hpos.1.2 (lt_irrefl k)
            fun q hkq => hR k q hpos.1.2 hkq.le
        obtain ⟨pos', hfollows, hfirst⟩ := ih (R := (k < ·)) (fun x y hx hxy => hx.trans_le hxy)
          hnext (t.parent.isFirst_firstKey?_decide (k < ·))
          (hcard.trans_le (Nat.lt_succ_iff.mp hrounds))
        have hset : {q | q ∈ t.parent.keys ∧ R q ∧ t.isDeleted q = false} =
            {q | q ∈ t.parent.keys ∧ k < q ∧ t.isDeleted q = false} := by
          ext q
          refine and_congr_right fun hq => and_congr_left fun hnot => ⟨fun hRq => ?_, fun hkq => ?_⟩
          · refine lt_of_le_of_ne (hpos.2 ⟨hq, hRq⟩) ?_
            rintro rfl
            rw [hk] at hnot
            exact absurd hnot (by simp)
          · exact hR k q hpos.1.2 hkq.le
        dsimp only
        rw [hnext.position, hset]
        exact ⟨pos', hfollows, hfirst⟩
      · refine ⟨some k, ⟨rfl, h.good, h.onMap, h.lands, h.keeps⟩, ?_⟩
        exact isFirst_some_iff.mpr ⟨⟨hpos.1.1, hpos.1.2, by simpa using hk⟩,
          fun q hq => hpos.2 ⟨hq.1, hq.2.1⟩⟩

theorem firstOfParent_follows {start : σ → Option κ × σ} [DecidablePred R]
    (hR : ∀ x y, R x → x ≤ y → R y)
    (hstart : Store.Lands Good view At s.parent (start s.parent) ∧ (start s.parent).1 = pos)
    (hpos : IsFirst {q | q ∈ (view s.parent).keys ∧ R q} pos) :
    ∃ pos', Follows Good view At s (s.onMap view) pos' (s.firstOfParent P start) ∧
      IsFirst {q | q ∈ (view s.parent).keys ∧ R q ∧ s.isDeleted q = false} pos' := by
  have hfollows := follows_onParent hstart
  have hsize := hP.size _ hfollows.good
  rw [hfollows.view_eq] at hsize
  have hcard := (Finset.card_filter_le (s.onMap view).parent.keys.toFinset R).trans
    (List.toFinset_card_le _)
  rw [firstOfParent]
  dsimp only
  rw [hfollows.position]
  exact skipDeleted_follows hP hR _ hfollows hpos (by omega)

theorem lowerBound_eq (h : Good s.parent) (k : κ) :
    ∃ s' : Layer σ κ ν, s.lowerBound P k = (s'.notDeleted ((s.onMap view).searchFrom k).1, s') ∧
      Good s'.parent ∧ s'.onMap view = ((s.onMap view).searchFrom k).2 := by
  obtain ⟨pos, hfollows, hparent⟩ := firstOfParent_follows hP (s := s) (R := (k ≤ ·))
    (fun x y hx hxy => hx.trans hxy) (hP.lowerBound s.parent k h)
    ((view s.parent).isFirst_firstKey?_decide (k ≤ ·))
  obtain rfl : pos = (s.onMap view).parent.firstKey?
      fun q => decide (k ≤ q) && !(s.onMap view).isDeleted q :=
    hparent.unique (isFirst_parent (s.onMap view) k)
  rw [lowerBound, searchFrom, show (s.onMap view).entriesFrom k = s.entriesFrom k from rfl]
  cases firstNotDeleted (s.entriesFrom k) true with
  | mk it previousKnown =>
  dsimp only
  split_ifs
  · rw [hfollows.position]
    cases hq : (s.onMap view).parent.firstKey? fun q =>
        decide (k ≤ q) && !(s.onMap view).isDeleted q with
    | none => exact ⟨_, rfl, hfollows.good, hfollows.onMap⟩
    | some q =>
      rw [hq] at hfollows
      have hpull := Follows.pull hP hfollows
      dsimp only
      split_ifs
      · exact ⟨_, rfl, hpull.good, hpull.onMap⟩
      · exact ⟨_, rfl, hfollows.good, hfollows.onMap⟩
  · exact ⟨s, rfl, h, rfl⟩

theorem lowerBound_follows (h : Good s.parent) (hs : (s.onMap view).Coherent) (k : κ) :
    Good (s.lowerBound P k).2.parent ∧
      (s.onMap view).Moved ((s.lowerBound P k).2.onMap view) (s.lowerBound P k).1 ∧
      IsFirst {q | q ∈ (s.onMap view).liveKeys ∧ k ≤ q} (s.lowerBound P k).1 := by
  obtain ⟨s', heq, hgood, honMap⟩ := lowerBound_eq hP h k
  obtain ⟨hmoved, hfirst⟩ := searchFrom_spec hs k
  have hnot : s'.notDeleted ((s.onMap view).searchFrom k).1 = ((s.onMap view).searchFrom k).1 := by
    cases hpos : ((s.onMap view).searchFrom k).1 with
    | none => rfl
    | some q =>
      rw [hpos] at hfirst
      have hdeleted : s'.isDeleted q = false := by
        rw [show s'.isDeleted q = (s'.onMap view).isDeleted q from rfl, honMap, hmoved.isDeleted]
        exact isDeleted_of_mem_liveKeys hfirst.1.1
      rw [notDeleted, filter_some, hdeleted]
      rfl
  rw [heq, hnot, honMap]
  exact ⟨hgood, hmoved, hfirst⟩

omit hP in
theorem entriesFrom_first {f : κ} (hf : s.cache.firstKey? (fun _ => true) = some f) :
    s.entriesFrom f = s.cache.entries := by
  have hfirst := s.cache.isFirst_firstKey?_true
  rw [hf] at hfirst
  rw [entriesFrom]
  cases hentries : s.cache.entries with
  | nil => rfl
  | cons e es =>
    have hmem : e.1 ∈ s.cache.keys := by
      rw [keys, hentries]
      exact List.mem_cons_self
    have hle := hfirst.2 hmem
    exact List.dropWhile_cons_of_neg (by simpa using hle)

/-- As long as an entry is not deleted, `begin` is the lower bound of the first cached key. -/
theorem begin_eq {f : κ} (h : Good s.parent) (hs : (s.onMap view).Ordered)
    (hf : s.cache.firstKey? (fun _ => true) = some f)
    (hit : (firstNotDeleted s.cache.entries true).1 ≠ none) :
    Mirrors Good view (s.begin P) ((s.onMap view).searchFrom f) := by
  have hleast := s.cache.isFirst_firstKey?_true
  rw [hf] at hleast
  have hset : {q | q ∈ (view s.parent).keys ∧ True ∧ s.isDeleted q = false} =
      {q | q ∈ (s.onMap view).parent.keys ∧ f ≤ q ∧ (s.onMap view).isDeleted q = false} := by
    ext q
    refine and_congr_right fun hq => and_congr_left fun _ => iff_of_true trivial ?_
    obtain ⟨k, hk, hkq⟩ := hs.lower q hq
    exact (hleast.2 hk).trans hkq
  obtain ⟨pos, hfollows, hparent⟩ := firstOfParent_follows hP (s := s) (R := fun _ => True)
    (fun _ _ _ _ => trivial) (hP.begin s.parent h)
    ((view s.parent).isFirst_firstKey?_decide fun _ => True)
  rw [hset] at hparent
  obtain rfl := hparent.unique (isFirst_parent (s.onMap view) f)
  rw [begin, searchFrom, show (s.onMap view).entriesFrom f = s.entriesFrom f from rfl,
    entriesFrom_first hf, hf]
  cases hfound : firstNotDeleted s.cache.entries true with
  | mk it previousKnown =>
  rw [hfound] at hit
  obtain ⟨c, hc⟩ := ne_none_iff_exists'.mp hit
  dsimp only at hc ⊢
  split_ifs
  · rw [hfollows.position, hc]
    cases hq : (s.onMap view).parent.firstKey? fun q =>
        decide (f ≤ q) && !(s.onMap view).isDeleted q with
    | none => exact ⟨rfl, hfollows.good, hfollows.onMap⟩
    | some q =>
      rw [hq] at hfollows
      have hpull := Follows.pull hP hfollows
      dsimp only
      by_cases hqc : q < c
      · rw [if_pos hqc, if_pos (show (some c).elim true (q < ·) = true from decide_eq_true hqc)]
        exact ⟨rfl, hpull.good, hpull.onMap⟩
      · rw [if_neg hqc, if_neg (show ¬(some c).elim true (q < ·) = true by simpa using hqc)]
        exact ⟨rfl, hfollows.good, hfollows.onMap⟩
  · exact ⟨rfl, h, rfl⟩

theorem begin_follows (h : Good s.parent) (hs : (s.onMap view).Coherent) :
    Good (s.begin P).2.parent ∧ (s.onMap view).Moved ((s.begin P).2.onMap view) (s.begin P).1 ∧
      (IsFirst (s.onMap view).liveKeys (s.begin P).1 ↔ (s.onMap view).Anchored) := by
  cases hit : (firstNotDeleted s.cache.entries true).1 with
  | none =>
    obtain ⟨pos, hfollows, -⟩ := firstOfParent_follows hP (s := s) (R := fun _ => True)
      (fun _ _ _ _ => trivial) (hP.begin s.parent h)
      ((view s.parent).isFirst_firstKey?_decide fun _ => True)
    have hbegin : s.begin P = (none, (s.firstOfParent P P.begin).2) := by
      rw [begin]
      cases hfound : firstNotDeleted s.cache.entries true with
      | mk it previousKnown =>
      obtain rfl : it = none := (congrArg Prod.fst hfound).symm.trans hit
      exact if_pos (.inl rfl)
    rw [hbegin, hfollows.onMap]
    refine ⟨hfollows.good, .end hs.toOrdered, isFirst_none_iff.trans (or_iff_right ?_).symm⟩
    rintro ⟨k, hk, hdeleted⟩
    obtain ⟨e, he⟩ := mem_keys_iff.mp hk
    have hall := firstNotDeleted_eq_none hit (k, e) (mem_entries_iff.mpr he)
    rw [Session.isDeleted, he] at hdeleted
    exact absurd (hall.symm.trans hdeleted) (by simp)
  | some c =>
    obtain ⟨hcached, hdeleted⟩ :=
      positioned_firstNotDeleted (s := s) true (List.Sublist.refl _) c hit
    cases hf : s.cache.firstKey? fun _ => true with
    | none =>
      have hempty := s.cache.isFirst_firstKey?_true
      rw [hf] at hempty
      exact absurd hcached (isFirst_none_iff.mp hempty c)
    | some f =>
      obtain ⟨hpos, hgood, honMap⟩ := begin_eq hP h hs.toOrdered hf (hit ▸ some_ne_none c)
      obtain ⟨hmoved, hfirst⟩ := searchFrom_spec hs f
      have hleast := s.cache.isFirst_firstKey?_true
      rw [hf] at hleast
      have hset : {q | q ∈ (s.onMap view).liveKeys ∧ f ≤ q} = (s.onMap view).liveKeys := by
        ext q
        exact and_iff_left_of_imp fun hq => hs.cacheFirst_le hleast hq
      rw [hset] at hfirst
      rw [hpos, honMap]
      exact ⟨hgood, hmoved, iff_of_true hfirst (.inl ⟨c, hcached, hdeleted⟩)⟩

theorem Follows.emplace {n : κ}
    (h : Follows Good view At s t pos r) (hn : n ∈ t.cache.keys ∨ pos = some n) :
    (r.2.emplace n (P.valueAt pos r.2.parent)).onMap view = t.emplaceParent n := by
  rcases hn with hn | rfl
  · rw [emplaceParent_of_mem hn, emplace_of_mem, h.onMap]
    rw [← h.onMap] at hn
    exact hn
  · rw [← h.onMap]
    exact onMap_emplace (hP.value _ n h.good (h.lands n rfl))

theorem pullNext_follows (h : Good s.parent) (k : κ) :
    Pulled Good view s ((s.onMap view).pullNext k) (s.pullNext P k) := by
  have hlower := follows_onParent (hP.lowerBound s.parent k h)
  rw [pullNext, Session.pullNext]
  dsimp only
  generalize s.onParent (P.lowerBound k) = r at hlower ⊢
  have hmove : Follows Good view At s (s.onMap view) ((view s.parent).firstKey? (k < ·))
      (if r.1 = some k then r.2.onParent (P.next r.1) else r) := by
    rw [hlower.position]
    split_ifs with hk
    · rw [hk] at hlower ⊢
      have hnext := hP.next r.2.parent k hlower.good (hlower.lands k rfl)
      rw [hlower.view_eq] at hnext
      exact hlower.onParent hnext
    · rw [firstKey?_le_of_ne hk] at hlower
      exact hlower
  rw [hmove.position, show (s.onMap view).cacheNext k = s.cacheNext k from rfl,
    show (s.onMap view).parent = view s.parent from rfl]
  cases hn : minKey (s.cacheNext k) ((view s.parent).firstKey? (k < ·)) with
  | none => exact ⟨hmove.good, rfl, hmove.onMap⟩
  | some n =>
    have hcase := (minKey_eq_some hn).1.imp_left mem_keys_of_firstKey?
    refine ⟨?_, rfl, ?_⟩
    · rw [parent_link]
      exact hmove.good
    · rw [onMap_link, hmove.emplace hP hcase]
      rfl

theorem pullPrevious_follows (h : Good s.parent) (k : κ) :
    Pulled Good view s ((s.onMap view).pullPrevious k) (s.pullPrevious P k) := by
  have hlower := follows_onParent (hP.lowerBound s.parent k h)
  rw [pullPrevious, Session.pullPrevious]
  dsimp only
  generalize s.onParent (P.lowerBound k) = r at hlower ⊢
  have hbegin := hP.begin r.2.parent hlower.good
  have haside := hlower.aside hbegin.1.toStays
  rw [hlower.view_eq] at hbegin
  have hpbegin : (r.2.onParent P.begin).1 = _ := hbegin.2
  rw [hlower.position, hpbegin]
  generalize hr : (if (view s.parent).firstKey? (k ≤ ·) ≠ (s.onMap view).parent.firstKey? (fun _ => true) then
      (r.2.onParent P.begin).2.onParent (P.previous ((view s.parent).firstKey? (k ≤ ·)))
    else (none, (r.2.onParent P.begin).2)) = r'
  have hmove : Follows Good view At s (s.onMap view) ((view s.parent).lastKey? (· < k)) r' := by
    rw [← hr]
    split_ifs with hfirst
    · have hback := hP.previous _ _ haside.good haside.lands
      rw [haside.view_eq, show (s.onMap view).parent = view s.parent from rfl,
        lastKey?_precedes_lower] at hback
      exact haside.onParent hback
    · rw [lastKey?_lt_eq_none (not_not.mp hfirst)]
      refine ⟨rfl, haside.good, haside.onMap, ?_, haside.keeps⟩
      intro q hq
      cases hq
  rw [hmove.position, show (s.onMap view).cachePrevious k = s.cachePrevious k from rfl,
    show (s.onMap view).parent = view s.parent from rfl]
  cases hp : maxKey (s.cachePrevious k) ((view s.parent).lastKey? (· < k)) with
  | none => exact ⟨hmove.good, rfl, hmove.onMap⟩
  | some p =>
    have hcase := (maxKey_eq_some hp).1.imp_left mem_keys_of_lastKey?
    refine ⟨?_, rfl, ?_⟩
    · rw [parent_link]
      exact hmove.good
    · rw [onMap_link, hmove.emplace hP hcase]
      rfl

theorem moveNext_follows (rounds : ℕ) (h : Good s.parent) (k : κ) :
    Mirrors Good view (moveNext P rounds s k) (Session.moveNext rounds (s.onMap view) k) :=
  move_follows (moveNext P) Session.moveNext ⟨fun _ _ => rfl, fun _ _ _ => rfl⟩ (fun _ _ => rfl)
    (fun _ _ _ => rfl) (fun _ k h => pullNext_follows hP h k) rounds h k

theorem movePrevious_follows (rounds : ℕ) (h : Good s.parent) (k : κ) :
    Mirrors Good view (movePrevious P rounds s k) (Session.movePrevious rounds (s.onMap view) k) :=
  move_follows (movePrevious P) Session.movePrevious ⟨fun _ _ => rfl, fun _ _ _ => rfl⟩
    (fun _ _ => rfl) (fun _ _ _ => rfl) (fun _ k h => pullPrevious_follows hP h k) rounds h k

theorem previous_follows (h : Good s.parent) (pos : Option κ) :
    Mirrors Good view (s.previous P pos)
      (previousPosition (s.size P + 1) (s.onMap view) pos) := by
  unfold previous previousPosition
  rw [show (s.onMap view).cache = s.cache from rfl]
  split_ifs
  · exact ⟨rfl, h, rfl⟩
  cases pos with
  | some k => exact movePrevious_follows hP _ h k
  | none =>
    cases s.cache.lastKey? fun _ => true with
    | none => exact ⟨rfl, h, rfl⟩
    | some k =>
      dsimp only
      rw [show (s.onMap view).isDeleted k = s.isDeleted k from rfl]
      split_ifs
      · exact movePrevious_follows hP _ h k
      · exact ⟨rfl, h, rfl⟩

theorem primeCache_follows (h : Good s.parent) :
    Good (s.primeCache P).parent ∧
      (s.primeCache P).onMap view =
        match (view s.parent).firstKey? (fun _ => true), (view s.parent).lastKey? (fun _ => true) with
        | some first, some last => ((s.onMap view).emplaceParent first).emplaceParent last
        | _, _ => s.onMap view := by
  have hbegin := follows_onParent (hP.begin s.parent h)
  rw [primeCache]
  dsimp only
  rw [hbegin.position]
  cases hfirst : (view s.parent).firstKey? fun _ => true with
  | none => exact ⟨hbegin.good, hbegin.onMap⟩
  | some first =>
    rw [hfirst] at hbegin
    have hpull := Follows.pull hP hbegin
    have hback := hP.previous _ none hpull.good fun k hk => by cases hk
    rw [hpull.view_eq, parent_pullParent,
      show (s.onMap view).parent.lastKey? (fun q => decide (Precedes q none)) =
        (view s.parent).lastKey? fun _ => true from
        congrArg _ (funext fun _ => decide_eq_true trivial)] at hback
    have hlast := hpull.onParent hback
    dsimp only at hlast ⊢
    rw [hlast.position]
    cases hend : (view s.parent).lastKey? fun _ => true with
    | none =>
      have hempty := (view s.parent).isLast_lastKey? fun _ => true
      rw [hend] at hempty
      exact absurd ⟨mem_keys_of_firstKey? hfirst, rfl⟩ (isLast_none_iff.mp hempty first)
    | some last =>
      rw [hend] at hlast
      have hpull' := Follows.pull hP hlast
      exact ⟨hpull'.good, hpull'.onMap⟩

theorem rounds_le (h : Good s.parent) : (s.onMap view).rounds ≤ s.size P + 1 := by
  have hsize := hP.size s.parent h
  show s.cache.keys.length + (view s.parent).keys.length + 1 ≤ _
  rw [size]
  omega

section

variable (h : Good s.parent) (hs : (s.onMap view).Coherent)
include h hs

theorem next_moved (hk : k ∈ s.cache.keys) :
    Good (s.next P (some k)).2.parent ∧
      (s.onMap view).Moved ((s.next P (some k)).2.onMap view) (s.next P (some k)).1 ∧
      IsFirst {q | q ∈ (s.onMap view).liveKeys ∧ k < q} (s.next P (some k)).1 := by
  obtain ⟨hpos, hgood, honMap⟩ := moveNext_follows hP (s.size P + 1) h k
  obtain ⟨hmoved, hfirst⟩ := moveNext_spec (s.size P + 1) hs hk
    (((s.onMap view).keySet_card_lt (k < ·)).trans_le (rounds_le hP h))
  rw [next, hpos, honMap]
  exact ⟨hgood, hmoved, hfirst⟩

theorem previous_moved {pos : Option κ} (hpos : ∀ k, pos = some k → k ∈ s.cache.keys) :
    Good (s.previous P pos).2.parent ∧
      (s.onMap view).Moved ((s.previous P pos).2.onMap view) (s.previous P pos).1 ∧
      IsLast {q | q ∈ (s.onMap view).liveKeys ∧ Precedes q pos} (s.previous P pos).1 := by
  obtain ⟨hposition, hgood, honMap⟩ := previous_follows hP h pos
  obtain ⟨hmoved, hlast⟩ := previousPosition_spec (rounds_le hP h) hs hpos
  rw [hposition, honMap]
  exact ⟨hgood, hmoved, hlast⟩

theorem read_extends (k : κ) :
    (s.read P k).1 = (s.onMap view).content.find? k ∧ Good (s.read P k).2.parent ∧
      (s.onMap view).Extends ((s.read P k).2.onMap view) := by
  obtain ⟨hvalue, hgood, honMap⟩ := read_follows hP h k
  obtain ⟨hlive, hext⟩ := read_spec hs k
  rw [hvalue, honMap, hs.find?_content_eq]
  exact ⟨hlive, hgood, hext⟩

theorem find_moved (k : κ) :
    Good (s.find P k).2.parent ∧
      (s.onMap view).Moved ((s.find P k).2.onMap view) (s.find P k).1 ∧
      (s.find P k).1 = if (s.onMap view).content.contains k then some k else none := by
  have hposition := find_position (hP.find s.parent k h).2 fun e => hs.value_ne_none
  have hkey : ∀ q, (s.find P k).1 = some q → q = k := by grind
  obtain ⟨hlands, hfind⟩ := hP.find s.parent k h
  have hfollows := follows_onParent ⟨hlands, hfind⟩
  refine and_assoc.mp ⟨?_, hposition⟩
  rw [find] at hkey ⊢
  split_ifs at hkey ⊢ with hcached
  · refine ⟨h, .refl hs.toOrdered, fun q hq => ?_⟩
    rw [hkey q hq]
    exact contains_iff.mp hcached
  dsimp only at hkey ⊢
  rw [hfollows.position] at hkey ⊢
  split_ifs at hfollows hkey ⊢ with hk
  · have honMap : ((s.onParent (P.find k)).2.emplace k
        (P.valueAt (some k) (s.onParent (P.find k)).2.parent)).onMap view =
        (s.onMap view).emplaceParent k := hfollows.emplace hP (.inr rfl)
    refine ⟨hfollows.good, ?_⟩
    rw [honMap]
    refine ⟨hs.extends_emplaceParent (contains_iff.mp hk), fun q hq => ?_⟩
    exact hkey q hq ▸ mem_keys_emplaceParent.mpr (.inl rfl)
  · refine ⟨hfollows.good, ?_⟩
    rw [hfollows.onMap]
    exact .end hs.toOrdered

end

end Exact

/-! ### The session as a parent -/

/-- The session is in order, and its parent is. -/
def Proper (Good : σ → Prop) (view : σ → FlatMap κ ν) (s : Layer σ κ ν) : Prop :=
  Good s.parent ∧ (s.onMap view).Coherent

/-- The session can be a parent: its `begin` can be relied on. -/
def Sturdy (Good : σ → Prop) (view : σ → FlatMap κ ν) (s : Layer σ κ ν) : Prop :=
  s.Proper Good view ∧ (s.onMap view).Anchored

theorem Proper.of_extends (h : s.Proper Good view) (hgood : Good s'.parent)
    (hext : (s.onMap view).Extends (s'.onMap view)) : s'.Proper Good view :=
  ⟨hgood, h.2.of_extends hext⟩

theorem stays_of_extends (h : s.Sturdy Good view) (hgood : Good s'.parent)
    (hext : (s.onMap view).Extends (s'.onMap view)) :
    Store.Stays (Sturdy Good view) (fun s => (s.onMap view).content)
      (fun s k => s.Positioned (some k)) s s' where
  good := ⟨h.1.of_extends hgood hext, h.2.mono hext.toGrows⟩
  view_eq := h.1.2.content_of_extends hext
  keeps k hk := by
    rintro _ ⟨⟩
    obtain ⟨hcached, hdeleted⟩ := hk k rfl
    exact ⟨hext.keys k hcached, (hext.isDeleted k).trans hdeleted⟩

theorem lands_of_moved {r : Option κ × Layer σ κ ν} (h : s.Sturdy Good view)
    (hgood : Good r.2.parent) (hmoved : (s.onMap view).Moved (r.2.onMap view) r.1)
    (hlive : ∀ k, r.1 = some k → k ∈ (s.onMap view).liveKeys) :
    Store.Lands (Sturdy Good view) (fun s => (s.onMap view).content)
      (fun s k => s.Positioned (some k)) s r where
  toStays := stays_of_extends h hgood hmoved.toExtends
  lands k hk := by
    rintro _ ⟨⟩
    refine ⟨hmoved.cached k hk, ?_⟩
    exact (hmoved.isDeleted k).trans (isDeleted_of_mem_liveKeys (hlive k hk))

section

variable (h : (s.onMap view).Coherent)
include h

theorem firstKey?_content [DecidablePred R]
    (hpos : IsFirst {q | q ∈ (s.onMap view).liveKeys ∧ R q} pos) :
    pos = (s.onMap view).content.firstKey? fun q => decide (R q) := by
  refine hpos.unique ?_
  have hset : {q | q ∈ (s.onMap view).liveKeys ∧ R q} =
      {q | q ∈ (s.onMap view).content.keys ∧ R q} := by
    ext q
    exact and_congr_left fun _ => h.mem_keys_content.symm
  rw [hset]
  exact isFirst_firstKey?_decide _ R

theorem lastKey?_content [DecidablePred R]
    (hpos : IsLast {q | q ∈ (s.onMap view).liveKeys ∧ R q} pos) :
    pos = (s.onMap view).content.lastKey? fun q => decide (R q) := by
  refine hpos.unique ?_
  have hset : {q | q ∈ (s.onMap view).liveKeys ∧ R q} =
      {q | q ∈ (s.onMap view).content.keys ∧ R q} := by
    ext q
    exact and_congr_left fun _ => h.mem_keys_content.symm
  rw [hset]
  exact isLast_lastKey?_decide _ R

theorem valueAt_positioned (hk : s.Positioned (some k)) :
    s.valueAt (some k) = (s.onMap view).content.find? k := by
  obtain ⟨e, he⟩ := mem_keys_iff.mp (hk k rfl).1
  have hdeleted := (hk k rfl).2
  rw [isDeleted, he] at hdeleted
  have hlive : (s.onMap view).live k = e.value := by
    rw [live, record_of_cached he]
    exact if_neg (by simpa using hdeleted)
  rw [h.find?_content_eq, hlive, valueAt, bind_some, he]
  rfl

theorem length_keys_content :
    (s.onMap view).content.keys.length ≤ s.cache.keys.length + (view s.parent).keys.length := by
  rw [← List.length_append]
  refine (List.subperm_of_subset (keys_nodup _) fun k hk => ?_).length_le
  exact List.mem_append.mpr (mem_keys_of_mem_liveKeys (h.mem_keys_content.mp hk))

end

end Layer

theorem exact_sessionStore {P : Store σ κ ν} {Good : σ → Prop} {view : σ → FlatMap κ ν}
    {At : σ → κ → Prop} (hP : P.Exact Good view At) :
    (sessionStore P).Exact (Layer.Sturdy Good view) (fun s => (s.onMap view).content)
      fun s k => s.Positioned (some k) where
  mem s k hs hk := hs.1.2.mem_keys_content.mpr 
    ((hs.1.2.mem_liveKeys_of_cached (hk k rfl).1).mpr (hk k rfl).2)
  value s k hs hk := valueAt_positioned hs.1.2 hk
  begin s hs := by
    obtain ⟨hgood, hmoved, hfirst⟩ := begin_follows hP hs.1.1 hs.1.2
    have hfirst : IsFirst {q | q ∈ (s.onMap view).liveKeys ∧ True} (s.begin P).1 := by
      simpa using hfirst.mpr hs.2
    exact ⟨lands_of_moved hs hgood hmoved fun k hk => (hfirst.mem hk).1,
      (firstKey?_content hs.1.2 hfirst).trans (by simp only [decide_true])⟩
  lowerBound s k hs := by
    obtain ⟨hgood, hmoved, hfirst⟩ := lowerBound_follows hP hs.1.1 hs.1.2 k
    exact ⟨lands_of_moved hs hgood hmoved fun k hk => (hfirst.mem hk).1,
      firstKey?_content hs.1.2 hfirst⟩
  find s k hs := by
    obtain ⟨hgood, hmoved, hpos⟩ := find_moved hP hs.1.1 hs.1.2 k
    refine ⟨lands_of_moved hs hgood hmoved fun q hq => ?_, hpos⟩
    rw [show ((sessionStore P).find k s).1 = _ from hpos] at hq
    split_ifs at hq with hk
    obtain rfl := some.inj hq
    exact hs.1.2.mem_keys_content.mp (contains_iff.mp hk)
  next s k hs hk := by
    obtain ⟨hgood, hmoved, hfirst⟩ := next_moved hP hs.1.1 hs.1.2 (hk k rfl).1
    exact ⟨lands_of_moved hs hgood hmoved fun k hk => (hfirst.mem hk).1,
      firstKey?_content hs.1.2 hfirst⟩
  next_end s hs := stays_of_extends hs hs.1.1 (.refl hs.1.2.toOrdered)
  previous s pos hs hpos := by
    obtain ⟨hgood, hmoved, hlast⟩ := previous_moved hP hs.1.1 hs.1.2 fun k hk => (hpos k hk k rfl).1
    exact ⟨lands_of_moved hs hgood hmoved fun k hk => (hlast.mem hk).1,
      lastKey?_content hs.1.2 hlast⟩
  read s k hs := by
    obtain ⟨hvalue, hgood, hext⟩ := read_extends hP hs.1.1 hs.1.2 k
    exact ⟨stays_of_extends hs hgood hext, hvalue⟩
  size s hs := (length_keys_content hs.1.2).trans (Nat.add_le_add_left (hP.size s.parent hs.1.1) _)

end DcdProtocol.KeyValue
