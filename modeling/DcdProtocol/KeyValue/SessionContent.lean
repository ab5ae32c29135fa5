import DcdProtocol.KeyValue.NestedSession
import DcdProtocol.KeyValue.SessionIteration

/-!
# What a stack of sessions holds

The content of a session is that of its parent with the entries of the cache put over it.  Whatever
the flags of the cache say, reading and moving iterators does not change the content of any session
of a stack: an iterator is at a key that the session has, and its value is what the session has for
it, so a child caches nothing else (`Looks`).  Writing and erasing change the content of the session
they are called on, and of no other.

`Reads` says the first of a store, and `Faithful` both.  They hold of the root.  A session only reads
from its parent, so a session over a store that `Reads` is `Faithful`.
-/

namespace DcdProtocol.KeyValue

open Library List FlatMap Option Session Layer

variable {σ κ ν : Type*} [LinearOrder κ] {view : σ → FlatMap κ ν} {P : Store σ κ ν} {Inv : σ → Prop}

/-! ## The content of a session -/

namespace Session

variable {s s' s'' : Session κ ν} {k : κ}

def overlay (m : FlatMap κ ν) (e : κ × ValueState ν) : FlatMap κ ν :=
  if e.2.deleted then m.erase e.1 else e.2.value.elim m (m.insert e.1)

def content (s : Session κ ν) : FlatMap κ ν := s.cache.entries.foldl overlay s.parent

theorem find?_overlay (m : FlatMap κ ν) (e : κ × ValueState ν) (k : κ) :
    (overlay m e).find? k =
      if k = e.1 then if e.2.deleted then none else e.2.value.or (m.find? k) else m.find? k := by
  rw [overlay]
  split_ifs with hdeleted hk hk
  · rw [find?_erase, if_pos hk]
  · rw [find?_erase, if_neg hk]
  · cases e.2.value with
    | none => simp
    | some v => simp [hk]
  · cases e.2.value with
    | none => simp
    | some v => simp [find?_insert, hk]

variable {m : FlatMap κ ν} {es : List (κ × ValueState ν)} {q : κ}

theorem find?_foldl_overlay (hes : es.Pairwise fun a b => a.1 < b.1) :
    (es.foldl overlay m).find? k =
      ((es.find? fun e => e.1 = k).map Prod.snd).elim (m.find? k) fun e =>
        if e.deleted then none else e.value.or (m.find? k) := by
  induction es generalizing m with
  | nil => rfl
  | cons d es ih =>
    rw [foldl_cons, ih hes.of_cons, find?_overlay]
    by_cases hk : k = d.1
    · have hnone : es.find? (fun e => e.1 = k) = none := by
        rw [find?_eq_none]
        intro e he heq
        exact (rel_of_pairwise_cons hes he).ne' ((decide_eq_true_eq.mp heq).trans hk)
      rw [hnone, find?_cons_of_pos (by simpa using hk.symm), if_pos hk]
      rfl
    · rw [find?_cons_of_neg (by simpa using Ne.symm hk), if_neg hk]

theorem find?_content (s : Session κ ν) (k : κ) :
    s.content.find? k = (s.cache.find? k).elim (s.parent.find? k) fun e =>
      if e.deleted then none else e.value.or (s.parent.find? k) :=
  find?_foldl_overlay s.cache.sorted

theorem find?_foldl_overlay_of_mem
    {e : ValueState ν} (hes : es.Pairwise fun a b => a.1 < b.1) (he : (k, e) ∈ es) :
    (es.foldl overlay m).find? k = if e.deleted then none else e.value.or (m.find? k) := by
  have hfind : (es.find? fun d => d.1 = k).map Prod.snd = some e :=
    (mem_entries_iff (m := ⟨es, hes⟩)).mp he
  rw [find?_foldl_overlay hes, hfind]
  rfl

theorem find?_foldl_overlay_of_notMem
    (hes : es.Pairwise fun a b => a.1 < b.1) (hk : ∀ e ∈ es, e.1 ≠ k) :
    (es.foldl overlay m).find? k = m.find? k := by
  have hfind : es.find? (fun d => d.1 = k) = none := by grind
  rw [find?_foldl_overlay hes, hfind]
  rfl

/-- If a key is cached and not deleted, it has a value, which is that of the parent unless it was
written. -/
def BackedAt (s : Session κ ν) (k : κ) : Prop :=
  ∀ e, s.cache.find? k = some e → e.deleted = false →
    e.value ≠ none ∧ (e.updated = false → e.value = s.parent.find? k)

def Backed (s : Session κ ν) : Prop := ∀ k, s.BackedAt k

theorem find?_content_of_valued
    (h : ∀ e, s.cache.find? k = some e → e.deleted = false → e.value ≠ none) :
    s.content.find? k = s.live k := by
  rw [find?_content, live]
  cases hk : s.cache.find? k with
  | none => rw [record_of_not_cached hk]; rfl
  | some e =>
    rw [record_of_cached hk]
    cases hdeleted : e.deleted with
    | true => simp [hdeleted]
    | false =>
      obtain ⟨v, hv⟩ := ne_none_iff_exists'.mp (h e hk hdeleted)
      simp [hdeleted, hv]

theorem find?_content_eq_live (h : s.BackedAt k) : s.content.find? k = s.live k :=
  find?_content_of_valued fun e he hdeleted => (h e he hdeleted).1

theorem foldl_updates_foldl_deletes (h : s.Backed) :
    (s.cache.entries.filter fun e => !e.2.deleted && e.2.updated).foldl overlay
      ((s.cache.entries.filter (·.2.deleted)).foldl overlay s.parent) = s.content := by
  refine ext_find? fun k v => ?_
  have hsorted : ∀ p : κ × ValueState ν → Bool,
      (s.cache.entries.filter p).Pairwise fun a b => a.1 < b.1 :=
    fun p => s.cache.sorted.sublist filter_sublist
  have hmem : ∀ e, e ∈ s.cache.entries → e.1 = k → s.cache.find? k = some e.2 := by
    rintro e he rfl
    exact mem_entries_iff.mp he
  have hskip : ∀ (p : κ × ValueState ν → Bool) (m : FlatMap κ ν),
      (∀ e, s.cache.find? k = some e → p (k, e) = false) →
      ((s.cache.entries.filter p).foldl overlay m).find? k = m.find? k := by
    intro p m hp
    refine find?_foldl_overlay_of_notMem (hsorted p) ?_
    rintro ⟨q, e⟩ he rfl
    obtain ⟨he, hpe⟩ := mem_filter.mp he
    rw [hp e (hmem _ he rfl)] at hpe
    exact absurd hpe Bool.false_ne_true
  rw [find?_content]
  cases hk : s.cache.find? k with
  | none => grind
  | some e =>
    have he := mem_entries_iff.mpr hk
    cases hdeleted : e.deleted with
    | true =>
      rw [hskip _ _ (by simp [hk, hdeleted]),
        find?_foldl_overlay_of_mem (hsorted _) (mem_filter.mpr ⟨he, hdeleted⟩)]
      simp
    | false =>
      cases hupdated : e.updated with
      | true =>
        rw [find?_foldl_overlay_of_mem (hsorted _)
          (mem_filter.mpr ⟨he, by simp [hdeleted, hupdated]⟩),
          hskip _ _ (by simp [hk, hdeleted])]
        simp
      | false =>
        rw [hskip _ _ (by simp [hk, hdeleted, hupdated]), hskip _ _ (by simp [hk, hdeleted])]
        simp [hdeleted, (h k e hk hdeleted).2 hupdated]

def isUpdated (s : Session κ ν) (k : κ) : Bool := (s.cache.find? k).elim false (·.updated)

/-- A change that caches keys of the parent and sets flags, and forgets no update. -/
structure Settles (s s' : Session κ ν) : Prop extends Grows s s' where
  updated : ∀ k, s.isUpdated k = true → s'.isUpdated k = true

theorem Settles.refl (s : Session κ ν) : Settles s s := ⟨.refl s, fun _ h => h⟩

theorem Settles.trans (h : Settles s s') (h' : Settles s' s'') : Settles s s'' :=
  ⟨h.toGrows.trans h'.toGrows, fun k hk => h'.updated k (h.updated k hk)⟩

theorem BackedAt.mono (h : s.BackedAt k) (hparent : s'.parent = s.parent)
    (hrecord : s'.record k = s.record k)
    (hpulled : k ∈ s'.cache.keys → k ∈ s.cache.keys ∨ k ∈ s.parent.keys)
    (hupdated : s.isUpdated k = true → s'.isUpdated k = true) : s'.BackedAt k := by
  intro e he hdeleted
  rw [record_of_cached he, hdeleted] at hrecord
  cases hk : s.cache.find? k with
  | none =>
    rw [record_of_not_cached hk] at hrecord
    simp only [Prod.mk.injEq] at hrecord
    obtain ⟨-, -, hvalue⟩ := hrecord
    have hmem : k ∈ s.parent.keys :=
      (hpulled (mem_keys_iff.mpr ⟨e, he⟩)).resolve_left (find?_eq_none_iff.mp hk)
    rw [hvalue, hparent]
    exact ⟨fun hnone => find?_eq_none_iff.mp hnone hmem, fun _ => rfl⟩
  | some d =>
    rw [record_of_cached hk] at hrecord
    simp only [Prod.mk.injEq] at hrecord
    obtain ⟨hd, -, hvalue⟩ := hrecord
    obtain ⟨hsome, hsame⟩ := h d hk hd.symm
    rw [hvalue, hparent]
    refine ⟨hsome, fun hnot => hsame ?_⟩
    by_contra hne
    have hflag := hupdated (by rw [isUpdated, hk]; simpa using hne)
    rw [isUpdated, he] at hflag
    exact absurd hflag (by simpa using hnot)

theorem BackedAt.of_settles (h : s.BackedAt k) (hsettles : Settles s s') : s'.BackedAt k :=
  h.mono hsettles.parent (congrFun hsettles.record k) (hsettles.pulled k) (hsettles.updated k)

theorem content_of_settles (h : s.Backed) (hsettles : Settles s s') : s'.content = s.content := by
  refine ext_find? fun k v => ?_
  rw [find?_content_eq_live ((h k).of_settles hsettles), find?_content_eq_live (h k), hsettles.live]

/-- A change that does this to all keys but one. -/
structure SettlesOff (k : κ) (s s' : Session κ ν) : Prop where
  parent : s'.parent = s.parent
  record : ∀ q, q ≠ k → s'.record q = s.record q
  pulled : ∀ q, q ≠ k → q ∈ s'.cache.keys → q ∈ s.cache.keys ∨ q ∈ s.parent.keys
  updated : ∀ q, q ≠ k → s.isUpdated q = true → s'.isUpdated q = true

theorem Settles.off (h : Settles s s') (k : κ) : SettlesOff k s s' :=
  ⟨h.parent, fun q _ => congrFun h.record q, fun q _ => h.pulled q, fun q _ => h.updated q⟩

section

variable (h : SettlesOff k s s')
include h

theorem SettlesOff.trans (h' : SettlesOff k s' s'') : SettlesOff k s s'' where
  parent := h'.parent.trans h.parent
  record q hq := (h'.record q hq).trans (h.record q hq)
  pulled q hq hmem := by
    rcases h'.pulled q hq hmem with hmem | hmem
    · exact h.pulled q hq hmem
    · exact .inr (h.parent ▸ hmem)
  updated q hq hu := h'.updated q hq (h.updated q hq hu)

theorem SettlesOff.backedAt (hq : q ≠ k) (hs : s.BackedAt q) : s'.BackedAt q :=
  hs.mono h.parent (h.record q hq) (h.pulled q hq) (h.updated q hq)

theorem SettlesOff.live (hq : q ≠ k) : s'.live q = s.live q := by
  rw [Session.live, Session.live, h.record q hq]

theorem SettlesOff.backed (hs : s.Backed) (hk : s'.BackedAt k) : s'.Backed := by
  intro q
  by_cases hq : q = k
  · exact hq ▸ hk
  · exact h.backedAt hq (hs q)

theorem SettlesOff.find?_content (hs : s.Backed) (hq : q ≠ k) :
    s'.content.find? q = s.content.find? q := by
  rw [find?_content_eq_live (h.backedAt hq (hs q)), find?_content_eq_live (hs q), h.live hq]

end

theorem settlesOff_insert (s : Session κ ν) (k : κ) (e : ValueState ν) :
    SettlesOff k s { s with cache := s.cache.insert k e } where
  parent := rfl
  record q hq := by rw [record, record, find?_insert_of_ne _ _ hq]
  pulled q hq hmem := .inl ((mem_keys_insert.mp hmem).resolve_left hq)
  updated q hq hu := by
    rw [isUpdated, find?_insert_of_ne _ _ hq]
    exact hu

theorem settlesOff_modify (s : Session κ ν) (k : κ) (f : ValueState ν → ValueState ν) :
    SettlesOff k s (s.modify k f) where
  parent := parent_modify s k f
  record _ hq := record_modify_of_ne hq
  pulled q _ hmem := .inl (mem_keys_modify.mp hmem)
  updated q hq hu := by
    rw [isUpdated, find?_modify, if_neg hq]
    exact hu

/-! ### Primitive updates -/

theorem settles_modify {f : ValueState ν → ValueState ν}
    (hf : ∀ e, ((f e).deleted, (f e).version, (f e).value) = (e.deleted, e.version, e.value))
    (hupdated : ∀ e, (f e).updated = e.updated) : Settles s (s.modify k f) := by
  refine ⟨grows_modify hf, fun q hq => ?_⟩
  rw [isUpdated] at hq ⊢
  rw [find?_modify]
  split_ifs with hqk
  · rw [hqk] at hq
    cases hk : s.cache.find? k with
    | none => simp [hk] at hq
    | some e => simpa [hk, hupdated] using hq
  · exact hq

theorem settles_link (s : Session κ ν) (k n : κ) : Settles s (s.link k n) := by
  refine (settles_modify ?_ ?_).trans (settles_modify ?_ ?_)
  · exact fun e => rfl
  · exact fun e => rfl
  · exact fun e => rfl
  · exact fun e => rfl

theorem settles_emplaceParent (hk : k ∈ s.parent.keys) : Settles s (s.emplaceParent k) := by
  refine ⟨grows_emplaceParent hk, fun q hq => ?_⟩
  show ((s.cache.emplace k _).find? q).elim false _ = true
  rw [find?_emplace]
  split_ifs with hqk
  · rw [isUpdated, hqk.1, hqk.2] at hq
    exact absurd hq (by simp)
  · exact hq

end Session

/-! ## Stores -/

/-- A use of a store that leaves its content, and an iterator at a key of the store. -/
structure Store.Looks (P : Store σ κ ν) (Inv : σ → Prop) (view : σ → FlatMap κ ν) (p : σ)
    (r : Option κ × σ) : Prop where
  inv : Inv r.2
  view_eq : view r.2 = view p
  visible : ∀ k, r.1 = some k → k ∈ (view p).keys
  value : ∀ k, r.1 = some k → P.valueAt (some k) r.2 = (view p).find? k

/-- A store with the content `view`: reading and moving iterators does not change it. -/
structure Store.Reads (P : Store σ κ ν) (Inv : σ → Prop) (view : σ → FlatMap κ ν) : Prop where
  begin : ∀ p, Inv p → P.Looks Inv view p (P.begin p)
  lowerBound : ∀ p k, Inv p → P.Looks Inv view p (P.lowerBound k p)
  find : ∀ p k, Inv p → P.Looks Inv view p (P.find k p) ∧
    (P.find k p).1 = if (view p).contains k then some k else none
  next : ∀ p k, Inv p → P.Looks Inv view p (P.next (some k) p)
  next_end : ∀ p, Inv p → Inv (P.next none p).2 ∧ view (P.next none p).2 = view p
  previous : ∀ p pos, Inv p → P.Looks Inv view p (P.previous pos p)
  read : ∀ p k, Inv p → (P.read k p).1 = (view p).find? k ∧ Inv (P.read k p).2 ∧
    view (P.read k p).2 = view p

/-- A store in which writing and erasing change the content as they should. -/
structure Store.Faithful (P : Store σ κ ν) (Inv : σ → Prop) (view : σ → FlatMap κ ν) : Prop
    extends P.Reads Inv view where
  write : ∀ p k v, Inv p → Inv (P.write k v p) ∧ view (P.write k v p) = (view p).insert k v
  erase : ∀ p k, Inv p → Inv (P.erase k p) ∧ view (P.erase k p) = (view p).erase k

theorem Store.Looks.of_eq {p : σ}
    {r : Option κ × σ} {m : FlatMap κ ν} (h : P.Looks Inv view p r) (hm : view p = m) :
    P.Looks (fun p => Inv p ∧ view p = m) view p r :=
  ⟨⟨h.inv, h.view_eq.trans hm⟩, h.view_eq, h.visible, h.value⟩

theorem Store.Reads.of_eq
    (hP : P.Reads Inv view) (m : FlatMap κ ν) : P.Reads (fun p => Inv p ∧ view p = m) view where
  begin p h := (hP.begin p h.1).of_eq h.2
  lowerBound p k h := (hP.lowerBound p k h.1).of_eq h.2
  find p k h := ⟨(hP.find p k h.1).1.of_eq h.2, (hP.find p k h.1).2⟩
  next p k h := (hP.next p k h.1).of_eq h.2
  next_end p h := by
    obtain ⟨hinv, hview⟩ := hP.next_end p h.1
    exact ⟨⟨hinv, hview.trans h.2⟩, hview⟩
  previous p pos h := (hP.previous p pos h.1).of_eq h.2
  read p k h := by
    obtain ⟨hvalue, hinv, hview⟩ := hP.read p k h.1
    exact ⟨hvalue, ⟨hinv, hview.trans h.2⟩, hview⟩

theorem faithful_rootStore (κ ν : Type*) [LinearOrder κ] :
    (rootStore κ ν).Faithful (fun _ => True) id where
  begin m _ := ⟨trivial, rfl, fun k hk => mem_keys_of_firstKey? hk, fun _ _ => rfl⟩
  lowerBound m k _ := ⟨trivial, rfl, fun k hk => mem_keys_of_firstKey? hk, fun _ _ => rfl⟩
  find m k _ := by
    refine ⟨⟨trivial, rfl, ?_, fun _ _ => rfl⟩, rfl⟩
    intro q hq
    change (if m.contains k then some k else none) = some q at hq
    split_ifs at hq with hk
    obtain rfl := some.inj hq
    exact contains_iff.mp hk
  next m k _ := ⟨trivial, rfl, fun k hk => mem_keys_of_firstKey? hk, fun _ _ => rfl⟩
  next_end m _ := ⟨trivial, rfl⟩
  previous m pos _ := by
    cases pos with
    | none => exact ⟨trivial, rfl, fun k hk => mem_keys_of_lastKey? hk, fun _ _ => rfl⟩
    | some k => exact ⟨trivial, rfl, fun k hk => mem_keys_of_lastKey? hk, fun _ _ => rfl⟩
  read m k _ := ⟨rfl, trivial, rfl⟩
  write m k v _ := ⟨trivial, rfl⟩
  erase m k _ := ⟨trivial, rfl⟩

/-! ## A session over a store -/

namespace Layer

variable {s s' s'' : Layer σ κ ν} {k q : κ} {pit : Option κ} {f : σ → Option κ × σ} {v : Option ν}

/-- The session, with the content of its parent as a map. -/
def onMap (view : σ → FlatMap κ ν) (s : Layer σ κ ν) : Session κ ν := ⟨view s.parent, s.cache⟩

/-- A change that leaves what the session and its parents hold. -/
structure Quiet (Inv : σ → Prop) (view : σ → FlatMap κ ν) (s s' : Layer σ κ ν) : Prop where
  inv : Inv s'.parent
  settles : (s.onMap view).Settles (s'.onMap view)

theorem Quiet.refl (h : Inv s.parent) : Quiet Inv view s s := ⟨h, .refl _⟩

theorem Quiet.trans (h : Quiet Inv view s s') (h' : Quiet Inv view s' s'') : Quiet Inv view s s'' :=
  ⟨h'.inv, h.settles.trans h'.settles⟩

/-! ### Primitive updates -/

theorem quiet_onParent {α : Type*} {f : σ → α × σ}
    (hf : Inv (f s.parent).2 ∧ view (f s.parent).2 = view s.parent) :
    Quiet Inv view s (s.onParent f).2 := by
  refine ⟨hf.1, ?_⟩
  have honMap : (s.onParent f).2.onMap view = s.onMap view := by
    rw [onMap, onMap, onParent, hf.2]
  rw [honMap]
  exact .refl _

theorem quiet_onParent_of_looks
    (hf : P.Looks Inv view s.parent (f s.parent)) : Quiet Inv view s (s.onParent f).2 :=
  quiet_onParent ⟨hf.inv, hf.view_eq⟩

theorem onMap_modify (s : Layer σ κ ν) (k : κ) (f : ValueState ν → ValueState ν) :
    (s.modify k f).onMap view = (s.onMap view).modify k f := by
  rw [modify, Session.modify]
  dsimp only [onMap]
  cases s.cache.find? k <;> rfl

theorem find?_onMap_modify (view : σ → FlatMap κ ν) {f : ValueState ν → ValueState ν}
    (hk : k ∈ s.cache.keys) :
    ∃ e, s.cache.find? k = some e ∧ ((s.modify k f).onMap view).cache.find? k = some (f e) := by
  obtain ⟨e, he⟩ := mem_keys_iff.mp hk
  refine ⟨e, he, ?_⟩
  rw [onMap_modify, find?_modify, if_pos rfl]
  exact congrArg (Option.map f) he

theorem parent_modify (s : Layer σ κ ν) (k : κ) (f : ValueState ν → ValueState ν) :
    (s.modify k f).parent = s.parent := by
  rw [modify]
  cases s.cache.find? k <;> rfl

theorem onMap_link (s : Layer σ κ ν) (k n : κ) :
    (s.link k n).onMap view = (s.onMap view).link k n := by
  rw [link, onMap_modify, onMap_modify, Session.link]

theorem quiet_link (h : Inv s.parent) (k n : κ) : Quiet Inv view s (s.link k n) := by
  refine ⟨?_, ?_⟩
  · rw [link, parent_modify, parent_modify]
    exact h
  · rw [onMap_link]
    exact settles_link _ k n

theorem quiet_linkNext (h : Inv s.parent) (k : κ) : Quiet Inv view s (s.linkNext k) := by
  rw [linkNext]
  split
  · exact quiet_link h _ _
  · exact .refl h

theorem quiet_linkPrevious (h : Inv s.parent) (k : κ) : Quiet Inv view s (s.linkPrevious k) := by
  rw [linkPrevious]
  split
  · exact quiet_link h _ _
  · exact .refl h

theorem onMap_emplace (hv : v = (view s.parent).find? k) :
    (s.emplace k v).onMap view = (s.onMap view).emplaceParent k := by
  rw [hv]
  rfl

theorem quiet_emplace (h : Inv s.parent) (hk : k ∈ (view s.parent).keys)
    (hv : v = (view s.parent).find? k) : Quiet Inv view s (s.emplace k v) := by
  refine ⟨h, ?_⟩
  rw [onMap_emplace hv]
  exact settles_emplaceParent hk

/-- The parent's iterator is at a key of the parent, and its value is that of the parent. -/
def Shown (P : Store σ κ ν) (view : σ → FlatMap κ ν) (p : σ) (pit : Option κ) : Prop :=
  ∀ k, pit = some k → k ∈ (view p).keys ∧ P.valueAt (some k) p = (view p).find? k

theorem shown_onParent (hf : P.Looks Inv view s.parent (f s.parent)) :
    Shown P view (s.onParent f).2.parent (s.onParent f).1 := by
  intro k hk
  show k ∈ (view (f s.parent).2).keys ∧ P.valueAt (some k) (f s.parent).2 = (view (f s.parent).2).find? k
  rw [hf.view_eq]
  exact ⟨hf.visible k hk, hf.value k hk⟩

theorem quiet_pull (h : Inv s.parent) (hpit : Shown P view s.parent pit) :
    Quiet Inv view s (s.pull P pit) := by
  cases pit with
  | none => exact .refl h
  | some k => exact quiet_emplace h (hpit k rfl).1 (hpit k rfl).2

/-- An iterator of the session is at a cached key that is not deleted, or at the end. -/
def Positioned (s : Layer σ κ ν) (pos : Option κ) : Prop :=
  ∀ k, pos = some k → k ∈ s.cache.keys ∧ s.isDeleted k = false

/-- A use of the session that only looks ends at an iterator of it. -/
def Arrives (Inv : σ → Prop) (view : σ → FlatMap κ ν) (s : Layer σ κ ν)
    (r : Option κ × Layer σ κ ν) : Prop := Quiet Inv view s r.2 ∧ r.2.Positioned r.1

theorem positioned_none (s : Layer σ κ ν) : s.Positioned none := by
  intro k hk
  cases hk

theorem Quiet.isDeleted (h : Quiet Inv view s s') (k : κ) : s'.isDeleted k = s.isDeleted k :=
  h.settles.toGrows.isDeleted k

theorem Quiet.positioned (h : Quiet Inv view s s') {pos : Option κ} (hpos : s.Positioned pos) :
    s'.Positioned pos := by
  intro k hk
  rw [h.isDeleted]
  exact ⟨h.settles.keys k (hpos k hk).1, (hpos k hk).2⟩

theorem emplace_of_mem (hk : k ∈ s.cache.keys) (v : Option ν) : s.emplace k v = s := by
  rw [emplace, FlatMap.emplace, if_pos (FlatMap.contains_iff.mpr hk)]

theorem find?_emplace_self (s : Layer σ κ ν) (k : κ) (v : Option ν) :
    (s.emplace k v).cache.find? k = some ((s.cache.find? k).getD { value := v }) := by
  refine (find?_emplace s.cache k k _).trans ?_
  cases s.cache.find? k <;> simp

theorem mem_keys_emplace (s : Layer σ κ ν) (k : κ) (v : Option ν) :
    k ∈ (s.emplace k v).cache.keys :=
  mem_keys_iff.mpr ⟨_, s.find?_emplace_self k v⟩

theorem isDeleted_emplace (v : Option ν) : (s.emplace k v).isDeleted k = s.isDeleted k := by
  rw [isDeleted, isDeleted, find?_emplace_self]
  cases s.cache.find? k <;> rfl

theorem positioned_emplace (v : Option ν) (hnot : s.isDeleted k = false) :
    (s.emplace k v).Positioned (some k) := by
  rintro _ ⟨⟩
  rw [isDeleted_emplace]
  exact ⟨mem_keys_emplace s k v, hnot⟩

theorem positioned_notDeleted {it : Option κ} (hit : ∀ k, it = some k → k ∈ s.cache.keys) :
    s.Positioned (s.notDeleted it) := by
  intro k hk
  rw [notDeleted, filter_eq_some_iff] at hk
  exact ⟨hit k hk.1, by simpa using hk.2⟩

variable {es : List (κ × ValueState ν)} {r : Option κ × Layer σ κ ν}

theorem positioned_firstNotDeleted (known : Bool) (hes : es.Sublist s.cache.entries) :
    s.Positioned (firstNotDeleted es known).1 := by
  intro k hk
  obtain ⟨⟨e, he, hdeleted⟩, -, -⟩ := firstNotDeleted_eq_some (s.cache.sorted.sublist hes) hk
  have hfind : s.cache.find? k = some e := mem_entries_iff.mp (hes.subset he)
  refine ⟨mem_keys_iff.mpr ⟨e, hfind⟩, ?_⟩
  rw [isDeleted, hfind]
  exact hdeleted

theorem shown_none (p : σ) : Shown P view p none := by
  intro k hk
  cases hk

theorem quiet_neighbour (hr : Quiet Inv view s r.2)
    (hshown : Shown P view r.2.parent r.1) (hk : k ∈ s.cache.keys ∨ r.1 = some k) (a b : κ) :
    Quiet Inv view s ((r.2.emplace k (P.valueAt r.1 r.2.parent)).link a b) := by
  have hemplace : Quiet Inv view r.2 (r.2.emplace k (P.valueAt r.1 r.2.parent)) := by
    rcases hk with hk | hk
    · rw [emplace_of_mem (hr.settles.keys k hk)]
      exact .refl hr.inv
    · rw [hk]
      exact quiet_emplace hr.inv (hshown k hk).1 (hshown k hk).2
  exact (hr.trans hemplace).trans (quiet_link hemplace.inv a b)

/-- A loop like `moveNext` and `movePrevious`. -/
structure Moves (inCache : Layer σ κ ν → κ → Bool) (neighbour : Layer σ κ ν → κ → Option κ)
    (pull : Layer σ κ ν → κ → Bool × Layer σ κ ν)
    (move : ℕ → Layer σ κ ν → κ → Option κ × Layer σ κ ν) : Prop where
  zero : ∀ s k, move 0 s k = (none, s)
  succ : ∀ rounds s k, move (rounds + 1) s k =
    let r := if inCache s k then (true, s) else pull s k
    if r.1 then
      match neighbour r.2 k with
      | none => (none, r.2)
      | some n => if r.2.isDeleted n then move rounds r.2 n else (some n, r.2)
    else (none, r.2)

/-! ### Neighbours -/

section Reads

variable (hP : P.Reads Inv view)
include hP

theorem quiet_nextKey (h : Inv s.parent) (hpit : Shown P view s.parent pit) :
    Quiet Inv view s (s.nextKey P k pit).2 := by
  rw [nextKey]
  split_ifs with hk
  · rw [hk]
    have hnext := hP.next s.parent k h
    have hquiet : Quiet Inv view s _ := quiet_onParent_of_looks hnext
    have hpull := quiet_pull hquiet.inv (shown_onParent hnext)
    have hback := quiet_onParent_of_looks (hP.previous _ (s.onParent (P.next (some k))).1 hpull.inv)
    exact ((hquiet.trans hpull).trans hback).trans (quiet_linkNext hback.inv k)
  · have hpull := quiet_pull h hpit
    exact hpull.trans (quiet_linkNext hpull.inv k)

theorem quiet_next (h : Inv s.parent) (pos : Option κ) :
    Quiet Inv view s (s.onParent (P.next pos)).2 := by
  cases pos with
  | none => exact quiet_onParent (hP.next_end s.parent h)
  | some k => exact quiet_onParent_of_looks (hP.next s.parent k h)

theorem quiet_previousKey (h : Inv s.parent) (pbegin : Option κ) :
    Quiet Inv view s (s.previousKey P k pit pbegin) := by
  rw [previousKey]
  split_ifs
  · have hprevious := hP.previous s.parent pit h
    have hquiet : Quiet Inv view s _ := quiet_onParent_of_looks hprevious
    have hpull := quiet_pull hquiet.inv (shown_onParent hprevious)
    have hback := quiet_next hP hpull.inv (s.onParent (P.previous pit)).1
    exact ((hquiet.trans hpull).trans hback).trans (quiet_linkPrevious hback.inv k)
  · exact quiet_linkPrevious h k

theorem quiet_updateIteratorCache (h : Inv s.parent) (hk : k ∉ s.cache.keys) :
    Quiet Inv view { s with cache := s.cache.insert k {} } (s.updateIteratorCache P k) := by
  rw [updateIteratorCache, if_neg (fun hc => hk (FlatMap.contains_iff.mp hc))]
  dsimp only
  split_ifs
  · refine ⟨?_, ?_⟩
    · rw [parent_modify]
      exact h
    · rw [onMap_modify]
      exact settles_modify (fun _ => rfl) (fun _ => rfl)
  · have hlower := hP.lowerBound s.parent k h
    have hquiet := quiet_onParent_of_looks (s := { s with cache := s.cache.insert k {} }) hlower
    have hnext : Quiet Inv view _ _ := quiet_nextKey hP (k := k) hquiet.inv (shown_onParent hlower)
    have hbegin := quiet_onParent_of_looks (hP.begin _ hnext.inv)
    exact ((hquiet.trans hnext).trans hbegin).trans (quiet_previousKey hP hbegin.inv _)

/-! ### Reading and writing -/

section

variable (h : Inv s.parent)
include h

theorem update_modify (k : κ) (f : ValueState ν → ValueState ν) :
    Inv ((s.updateIteratorCache P k).modify k f).parent ∧
      k ∈ (s.updateIteratorCache P k).cache.keys ∧
      (s.onMap view).SettlesOff k (((s.updateIteratorCache P k).modify k f).onMap view) := by
  rw [parent_modify, onMap_modify]
  by_cases hk : k ∈ s.cache.keys
  · rw [updateIteratorCache, if_pos (FlatMap.contains_iff.mpr hk)]
    exact ⟨h, hk, settlesOff_modify _ k f⟩
  have hquiet := quiet_updateIteratorCache hP h hk
  refine ⟨hquiet.inv, hquiet.settles.keys k (mem_keys_insert.mpr (.inl rfl)), ?_⟩
  have hinsert := settlesOff_insert (s.onMap view) k {}
  exact (hinsert.trans (hquiet.settles.off k)).trans (settlesOff_modify _ k f)

theorem update_content (hs : (s.onMap view).Backed) (k : κ)
    {f : ValueState ν → ValueState ν} {v : Option ν}
    (hv : ∀ e, (if (f e).deleted then none else (f e).value) = v)
    (hf : ∀ e, (f e).deleted = false → (f e).value ≠ none ∧ (f e).updated = true) :
    Inv ((s.updateIteratorCache P k).modify k f).parent ∧
      (((s.updateIteratorCache P k).modify k f).onMap view).Backed ∧
      ∀ q, (((s.updateIteratorCache P k).modify k f).onMap view).content.find? q =
        if q = k then v else (s.onMap view).content.find? q := by
  obtain ⟨hinv, hk, hoff⟩ := update_modify hP h k f
  obtain ⟨e, -, he⟩ := find?_onMap_modify view (f := f) hk
  have hbacked : (((s.updateIteratorCache P k).modify k f).onMap view).BackedAt k := by
    intro d hd hdeleted
    obtain rfl := some.inj (he.symm.trans hd)
    refine ⟨(hf e hdeleted).1, fun hnot => ?_⟩
    rw [(hf e hdeleted).2] at hnot
    exact absurd hnot (by simp)
  refine ⟨hinv, hoff.backed hs hbacked, fun q => ?_⟩
  split_ifs with hq
  · rw [hq, find?_content_eq_live hbacked, live, record_of_cached he]
    exact hv e
  · exact hoff.find?_content hs hq

theorem write_content (hs : (s.onMap view).Backed) (k : κ) (v : ν) :
    Inv (s.write P k v).parent ∧ ((s.write P k v).onMap view).Backed ∧
      ((s.write P k v).onMap view).content = (s.onMap view).content.insert k v := by
  obtain ⟨hinv, hbacked, hfind⟩ := update_content hP h hs k
    (f := fun e => { e with value := some v, deleted := false, updated := true })
    (fun _ => rfl) (fun _ _ => ⟨some_ne_none v, rfl⟩)
  refine ⟨hinv, hbacked, ext_find? fun q w => ?_⟩
  rw [write, hfind, find?_insert]

theorem erase_content (hs : (s.onMap view).Backed) (k : κ) :
    Inv (s.erase P k).parent ∧ ((s.erase P k).onMap view).Backed ∧
      ((s.erase P k).onMap view).content = (s.onMap view).content.erase k := by
  obtain ⟨hinv, hbacked, hfind⟩ := update_content hP h hs k
    (f := fun e => { e with deleted := true, updated := false, version := e.version + 1 })
    (fun _ => rfl) (fun _ hdeleted => absurd hdeleted (by simp))
  refine ⟨hinv, hbacked, ext_find? fun q w => ?_⟩
  rw [erase, hfind, find?_erase]

theorem quiet_fill {v : ν} (hk : k ∉ s.cache.keys) (hv : (view s.parent).find? k = some v) :
    Quiet Inv view s ((s.updateIteratorCache P k).modify k fun e => { e with value := some v }) := by
  have hquiet := quiet_updateIteratorCache hP h hk
  obtain ⟨hinv, hmem, hoff⟩ := update_modify hP h k fun e => { e with value := some v }
  obtain ⟨e, he, he'⟩ := find?_onMap_modify view (f := fun e => { e with value := some v }) hmem
  have hfind : (s.onMap view).cache.find? k = none := find?_eq_none_iff.mpr hk
  have hempty : ((s.updateIteratorCache P k).onMap view).record k = (false, 0, none) := by
    rw [hquiet.settles.record, record_of_cached (find?_insert_self s.cache k _)]
  have hrecord : e.deleted = false ∧ e.version = 0 := by
    rw [record_of_cached he] at hempty
    simp only [Prod.mk.injEq] at hempty
    exact ⟨hempty.1, hempty.2.1⟩
  refine ⟨hinv, ⟨hoff.parent, ?_, ?_, ?_⟩, ?_⟩
  · funext q
    by_cases hq : q = k
    · rw [hq, record_of_cached he', record_of_not_cached hfind, hrecord.1, hrecord.2]
      exact congrArg (fun o => (false, 0, o)) hv.symm
    · exact hoff.record q hq
  · intro q hq
    rw [onMap_modify, mem_keys_modify]
    exact hquiet.settles.keys q (mem_keys_insert.mpr (.inr hq))
  · intro q hq
    by_cases hqk : q = k
    · exact .inr (hqk ▸ mem_keys_iff.mpr ⟨v, hv⟩)
    · exact hoff.pulled q hqk hq
  · intro q hq
    by_cases hqk : q = k
    · rw [hqk, isUpdated, hfind] at hq
      exact absurd hq (by simp)
    · exact hoff.updated q hqk hq

theorem quiet_readParent (hk : k ∉ s.cache.keys) :
    (s.readParent P k).1 = (view s.parent).find? k ∧ Quiet Inv view s (s.readParent P k).2 := by
  obtain ⟨hvalue, hinv, hview⟩ := hP.read s.parent k h
  have hquiet : Quiet Inv view s (s.onParent (P.read k)).2 := quiet_onParent ⟨hinv, hview⟩
  rw [readParent]
  dsimp only [onParent] at hquiet ⊢
  rw [hvalue]
  cases hfind : (view s.parent).find? k with
  | none => exact ⟨rfl, hquiet⟩
  | some v => exact ⟨rfl, hquiet.trans (quiet_fill hP hinv hk (hview ▸ hfind))⟩

theorem read_content (hs : (s.onMap view).Backed) (k : κ) :
    (s.read P k).1 = (s.onMap view).content.find? k ∧ Quiet Inv view s (s.read P k).2 := by
  rw [find?_content_eq_live (hs k), live, read]
  cases hk : s.cache.find? k with
  | none =>
    rw [record_of_not_cached hk]
    exact quiet_readParent hP h (find?_eq_none_iff.mp hk)
  | some e =>
    rw [record_of_cached hk]
    dsimp only
    split_ifs with hdeleted
    · exact ⟨rfl, .refl h⟩
    · obtain ⟨v, hv⟩ := ne_none_iff_exists'.mp (hs k e hk (by simpa using hdeleted)).1
      rw [hv]
      exact ⟨rfl, .refl h⟩

omit hP h in
theorem contains_eq (s : Layer σ κ ν) (k : κ) :
    s.contains P k = ((s.read P k).1.isSome, (s.read P k).2) := by
  rw [contains, read]
  cases s.cache.find? k with
  | none => rfl
  | some e => grind

theorem contains_content (hs : (s.onMap view).Backed) (k : κ) :
    (s.contains P k).1 = (s.onMap view).content.contains k ∧
      Quiet Inv view s (s.contains P k).2 := by
  obtain ⟨hvalue, hquiet⟩ := read_content hP h hs k
  rw [contains_eq, FlatMap.contains, hvalue]
  exact ⟨rfl, hquiet⟩

end

/-! ### Iterators -/

/-- The parent's iterator goes on to a key that is not deleted in this session, or to the end. -/
theorem skipDeleted_looks (rounds : ℕ) (h : Inv s.parent) (hpit : Shown P view s.parent pit) :
    Quiet Inv view s (skipDeleted P rounds s pit).2 ∧
      Shown P view (skipDeleted P rounds s pit).2.parent (skipDeleted P rounds s pit).1 ∧
      ∀ k, (skipDeleted P rounds s pit).1 = some k →
        (skipDeleted P rounds s pit).2.isDeleted k = false := by
  induction rounds generalizing s pit with
  | zero =>
    refine ⟨.refl h, ?_, ?_⟩
    · intro k hk
      cases hk
    · intro k hk
      cases hk
  | succ rounds ih =>
    cases pit with
    | none =>
      refine ⟨.refl h, hpit, ?_⟩
      intro k hk
      cases hk
    | some k =>
      rw [skipDeleted]
      split_ifs with hdeleted
      · have hnext := hP.next s.parent k h
        have hquiet : Quiet Inv view s _ := quiet_onParent_of_looks hnext
        obtain ⟨hloop, hshown, hnot⟩ := ih hquiet.inv (shown_onParent hnext)
        exact ⟨hquiet.trans hloop, hshown, hnot⟩
      · refine ⟨.refl h, hpit, ?_⟩
        intro q hq
        obtain rfl := some.inj hq
        simpa using hdeleted

theorem firstOfParent_looks {start : σ → Option κ × σ} (hstart : P.Looks Inv view s.parent (start s.parent)) :
    Quiet Inv view s (s.firstOfParent P start).2 ∧
      Shown P view (s.firstOfParent P start).2.parent (s.firstOfParent P start).1 ∧
      ∀ k, (s.firstOfParent P start).1 = some k →
        (s.firstOfParent P start).2.isDeleted k = false := by
  have hquiet : Quiet Inv view s _ := quiet_onParent_of_looks hstart
  obtain ⟨hloop, hshown, hnot⟩ := skipDeleted_looks hP
    (P.size (s.onParent start).2.parent + 1) hquiet.inv (shown_onParent hstart)
  exact ⟨hquiet.trans hloop, hshown, hnot⟩

theorem begin_looks (h : Inv s.parent) :
    Arrives Inv view s (s.begin P) := by
  have hit := positioned_firstNotDeleted (s := s) true (List.Sublist.refl s.cache.entries)
  obtain ⟨hquiet, hshown, hnot⟩ := firstOfParent_looks hP (s := s) (hP.begin s.parent h)
  rw [begin]
  cases hfound : firstNotDeleted s.cache.entries true with
  | mk it previousKnown =>
  rw [hfound] at hit
  dsimp only
  split_ifs
  · split
    next pending q hq _ =>
      split_ifs
      · rw [hq] at hshown
        exact ⟨hquiet.trans (quiet_pull hquiet.inv hshown), positioned_emplace _ (hnot q hq)⟩
      · exact ⟨hquiet, hquiet.positioned hit⟩
    next => exact ⟨hquiet, hquiet.positioned hit⟩
  · exact ⟨.refl h, hit⟩

theorem lowerBound_looks (h : Inv s.parent) (k : κ) : Arrives Inv view s (s.lowerBound P k) := by
  have hfrom : (s.entriesFrom k).Sublist s.cache.entries := dropWhile_sublist _
  have hit := positioned_firstNotDeleted true hfrom
  obtain ⟨hquiet, hshown, hnot⟩ := firstOfParent_looks hP (s := s) (hP.lowerBound s.parent k h)
  rw [lowerBound]
  cases hfound : firstNotDeleted (s.entriesFrom k) true with
  | mk it previousKnown =>
  rw [hfound] at hit
  have hstay : ∀ s', Quiet Inv view s s' → s'.Positioned (s'.notDeleted it) := by
    intro s' hs'
    exact positioned_notDeleted fun q hq => hs'.settles.keys q (hit q hq).1
  dsimp only
  split_ifs
  · split
    next q hq =>
      split_ifs
      · rw [hq] at hshown
        refine ⟨hquiet.trans (quiet_pull hquiet.inv hshown), ?_⟩
        dsimp only
        apply positioned_notDeleted
        rintro _ ⟨⟩
        exact mem_keys_emplace _ q _
      · exact ⟨hquiet, hstay _ hquiet⟩
    next => exact ⟨hquiet, hstay _ hquiet⟩
  · exact ⟨.refl h, hstay _ (.refl h)⟩

theorem find_looks (h : Inv s.parent) (k : κ) : Arrives Inv view s (s.find P k) := by
  obtain ⟨hlooks, hkey⟩ := hP.find s.parent k h
  have hquiet : Quiet Inv view s _ := quiet_onParent_of_looks hlooks
  have hshown := shown_onParent hlooks
  rw [find]
  split_ifs with hk
  · refine ⟨.refl h, ?_⟩
    dsimp only
    apply positioned_notDeleted
    rintro _ ⟨⟩
    exact contains_iff.mp hk
  dsimp only
  split
  next => exact ⟨hquiet, positioned_none _⟩
  next q hq =>
    obtain rfl : q = k := by
      rw [show (s.onParent (P.find k)).1 = _ from hkey] at hq
      split_ifs at hq
      exact (some.inj hq).symm
    rw [hq]
    have hemplace := quiet_emplace hquiet.inv (hshown q hq).1 (hshown q hq).2
    refine ⟨hquiet.trans hemplace, ?_⟩
    dsimp only
    apply positioned_notDeleted
    rintro _ ⟨⟩
    exact mem_keys_emplace _ _ _

omit hP in
theorem find_position
    (hfind : (P.find k s.parent).1 = if (view s.parent).contains k then some k else none)
    (hs : ∀ e, s.cache.find? k = some e → e.deleted = false → e.value ≠ none) :
    (s.find P k).1 = if (s.onMap view).content.contains k then some k else none := by
  have hkey : (s.onParent (P.find k)).1 = if (view s.parent).contains k then some k else none := hfind
  rw [FlatMap.contains, find?_content_of_valued hs, live, find]
  cases hk : s.cache.find? k with
  | none =>
    have hnot : s.isDeleted k = false := by rw [isDeleted, hk]; rfl
    rw [record_of_not_cached hk, FlatMap.contains, hk, if_neg (by simp)]
    dsimp only
    rw [hkey]
    show _ = if (view s.parent).contains k then some k else none
    split_ifs
    · show notDeleted _ (some k) = some k
      rw [notDeleted, filter_some, isDeleted_emplace]
      exact if_pos (by rw [show (s.onParent (P.find k)).2.isDeleted k = _ from hnot]; rfl)
    · rfl
  | some e =>
    have hdeleted : s.isDeleted k = e.deleted := by rw [isDeleted, hk]; rfl
    rw [record_of_cached hk, FlatMap.contains, hk]
    dsimp only [isSome_some]
    rw [if_pos rfl, notDeleted, filter_some, hdeleted]
    cases he : e.deleted with
    | true => rfl
    | false => simp_all

theorem find_content (h : Inv s.parent) (hs : (s.onMap view).Backed) (k : κ) :
    (s.find P k).1 = if (s.onMap view).content.contains k then some k else none :=
  find_position (hP.find s.parent k h).2 fun e he hdeleted => (hs k e he hdeleted).1

theorem quiet_pullNext (h : Inv s.parent) (k : κ) : Quiet Inv view s (s.pullNext P k).2 := by
  have hlower := hP.lowerBound s.parent k h
  have hquiet : Quiet Inv view s _ := quiet_onParent_of_looks hlower
  have hshown := shown_onParent hlower
  rw [pullNext]
  dsimp only
  generalize s.onParent (P.lowerBound k) = r at hquiet hshown ⊢
  have hmove : Quiet Inv view s (if r.1 = some k then r.2.onParent (P.next r.1) else r).2 ∧
      Shown P view (if r.1 = some k then r.2.onParent (P.next r.1) else r).2.parent
        (if r.1 = some k then r.2.onParent (P.next r.1) else r).1 := by
    split_ifs with hk
    · rw [hk]
      have hnext := hP.next r.2.parent k hquiet.inv
      exact ⟨hquiet.trans (quiet_onParent_of_looks hnext), shown_onParent hnext⟩
    · exact ⟨hquiet, hshown⟩
  split
  next n hn =>
    refine quiet_neighbour hmove.1 hmove.2 ?_ k n
    exact (minKey_eq_some hn).1.imp_left mem_keys_of_firstKey?
  next => exact hmove.1

theorem quiet_pullPrevious (h : Inv s.parent) (k : κ) :
    Quiet Inv view s (s.pullPrevious P k).2 := by
  have hquiet : Quiet Inv view s _ := quiet_onParent_of_looks (hP.lowerBound s.parent k h)
  have hbegin := hquiet.trans (quiet_onParent_of_looks (hP.begin _ hquiet.inv))
  rw [pullPrevious]
  dsimp only
  generalize (s.onParent (P.lowerBound k)).1 = pit
  generalize (s.onParent (P.lowerBound k)).2.onParent P.begin = r at hbegin ⊢
  have hmove : Quiet Inv view s
        (if pit ≠ r.1 then r.2.onParent (P.previous pit) else (none, r.2)).2 ∧
      Shown P view (if pit ≠ r.1 then r.2.onParent (P.previous pit) else (none, r.2)).2.parent
        (if pit ≠ r.1 then r.2.onParent (P.previous pit) else (none, r.2)).1 := by
    split_ifs
    · have hprevious := hP.previous r.2.parent pit hbegin.inv
      exact ⟨hbegin.trans (quiet_onParent_of_looks hprevious), shown_onParent hprevious⟩
    · exact ⟨hbegin, shown_none _⟩
  split
  next p hp =>
    refine quiet_neighbour hmove.1 hmove.2 ?_ p k
    exact (maxKey_eq_some hp).1.imp_left mem_keys_of_lastKey?
  next => exact hmove.1

omit hP in
theorem move_looks {inCache : Layer σ κ ν → κ → Bool} {neighbour : Layer σ κ ν → κ → Option κ}
    {pull : Layer σ κ ν → κ → Bool × Layer σ κ ν}
    {move : ℕ → Layer σ κ ν → κ → Option κ × Layer σ κ ν}
    (hmove : Moves inCache neighbour pull move)
    (hneighbour : ∀ {s k n}, neighbour s k = some n → n ∈ s.cache.keys)
    (hpull : ∀ {s} k, Inv s.parent → Quiet Inv view s (pull s k).2)
    (rounds : ℕ) (h : Inv s.parent) (k : κ) : Arrives Inv view s (move rounds s k) := by
  induction rounds generalizing s k with
  | zero =>
    rw [hmove.zero]
    exact ⟨.refl h, positioned_none _⟩
  | succ rounds ih =>
    rw [hmove.succ]
    have hquiet : Quiet Inv view s (if inCache s k then (true, s) else pull s k).2 := by
      split_ifs
      · exact .refl h
      · exact hpull k h
    generalize (if inCache s k then (true, s) else pull s k) = r at hquiet ⊢
    dsimp only
    split_ifs
    · split
      next => exact ⟨hquiet, positioned_none _⟩
      next n hn =>
        split_ifs with hdeleted
        · obtain ⟨hrest, hpos⟩ := ih hquiet.inv n
          exact ⟨hquiet.trans hrest, hpos⟩
        · refine ⟨hquiet, ?_⟩
          rintro _ ⟨⟩
          exact ⟨hneighbour hn, by simpa using hdeleted⟩
    · exact ⟨hquiet, positioned_none _⟩

theorem moveNext_looks (rounds : ℕ) (h : Inv s.parent) (k : κ) :
    Arrives Inv view s (moveNext P rounds s k) :=
  have hmove : Moves nextInCache cacheNext (pullNext P) (moveNext P) :=
    ⟨fun _ _ => rfl, fun _ _ _ => rfl⟩
  move_looks hmove mem_keys_of_firstKey? (fun k h => quiet_pullNext hP h k) rounds h k

theorem movePrevious_looks (rounds : ℕ) (h : Inv s.parent) (k : κ) :
    Arrives Inv view s (movePrevious P rounds s k) :=
  have hmove : Moves previousInCache cachePrevious (pullPrevious P) (movePrevious P) :=
    ⟨fun _ _ => rfl, fun _ _ _ => rfl⟩
  move_looks hmove mem_keys_of_lastKey? (fun k h => quiet_pullPrevious hP h k) rounds h k

theorem previous_looks (h : Inv s.parent) (pos : Option κ) :
    Arrives Inv view s (s.previous P pos) := by
  unfold previous
  split_ifs
  · exact ⟨.refl h, positioned_none _⟩
  cases pos with
  | some k => exact movePrevious_looks hP _ h k
  | none =>
    dsimp only
    split
    next => exact ⟨.refl h, positioned_none _⟩
    next k hk =>
      split_ifs with hdeleted
      · exact movePrevious_looks hP _ h k
      · refine ⟨.refl h, ?_⟩
        rintro _ ⟨⟩
        exact ⟨mem_keys_of_lastKey? hk, by simpa using hdeleted⟩

theorem quiet_primeCache (h : Inv s.parent) : Quiet Inv view s (s.primeCache P) := by
  have hbegin := hP.begin s.parent h
  have hquiet : Quiet Inv view s _ := quiet_onParent_of_looks hbegin
  have hshown := shown_onParent hbegin
  rw [primeCache]
  dsimp only
  split
  next => exact hquiet
  next first hfirst =>
    have hpull := hquiet.trans (quiet_pull hquiet.inv (hfirst ▸ hshown))
    have hprevious := hP.previous _ none hpull.inv
    have hlast := hpull.trans (quiet_onParent_of_looks hprevious)
    exact hlast.trans (quiet_pull hlast.inv (shown_onParent hprevious))

end Reads

/-! ### The session as a store -/

theorem foldl_erase_content (hP : P.Faithful Inv view) {p : σ}
    (hp : Inv p) (hes : ∀ e ∈ es, e.2.deleted = true) :
    Inv (es.foldl (fun p e => P.erase e.1 p) p) ∧
      view (es.foldl (fun p e => P.erase e.1 p) p) = es.foldl overlay (view p) := by
  induction es generalizing p with
  | nil => exact ⟨hp, rfl⟩
  | cons e es ih =>
    obtain ⟨hinv, hview⟩ := hP.erase p e.1 hp
    rw [forall_mem_cons] at hes
    rw [foldl_cons, foldl_cons, overlay, if_pos hes.1, ← hview]
    exact ih hinv hes.2

theorem foldl_write_content (hP : P.Faithful Inv view) {p : σ}
    (hp : Inv p) (hes : ∀ e ∈ es, e.2.deleted = false) :
    Inv (es.foldl (fun p e => e.2.value.elim p fun v => P.write e.1 v p) p) ∧
      view (es.foldl (fun p e => e.2.value.elim p fun v => P.write e.1 v p) p) =
        es.foldl overlay (view p) := by
  induction es generalizing p with
  | nil => exact ⟨hp, rfl⟩
  | cons e es ih =>
    rw [forall_mem_cons] at hes
    have hstep : Inv (e.2.value.elim p fun v => P.write e.1 v p) ∧
        view (e.2.value.elim p fun v => P.write e.1 v p) = overlay (view p) e := by
      rw [overlay, hes.1, if_neg Bool.false_ne_true]
      cases e.2.value with
      | none => exact ⟨hp, rfl⟩
      | some v => exact hP.write p e.1 v hp
    rw [foldl_cons, foldl_cons, ← hstep.2]
    exact ih hstep.1 hes.2

def Sound (Inv : σ → Prop) (view : σ → FlatMap κ ν) (s : Layer σ κ ν) : Prop :=
  Inv s.parent ∧ (s.onMap view).Backed

theorem Quiet.sound (h : Quiet Inv view s s') (hs : s.Sound Inv view) : s'.Sound Inv view :=
  ⟨h.inv, fun k => (hs.2 k).of_settles h.settles⟩

theorem Quiet.content (h : Quiet Inv view s s') (hs : s.Sound Inv view) :
    (s'.onMap view).content = (s.onMap view).content :=
  content_of_settles hs.2 h.settles

theorem Sound.valueAt (hs : s.Sound Inv view) (hk : s.Positioned (some k)) :
    k ∈ (s.onMap view).content.keys ∧ s.valueAt (some k) = (s.onMap view).content.find? k := by
  obtain ⟨hcached, hnot⟩ := hk k rfl
  obtain ⟨e, he⟩ := mem_keys_iff.mp hcached
  have hdeleted : e.deleted = false := by
    rw [isDeleted, he] at hnot
    exact hnot
  obtain ⟨v, hv⟩ := ne_none_iff_exists'.mp (hs.2 k e he hdeleted).1
  have hfind : (s.onMap view).content.find? k = some v := by
    rw [find?_content_eq_live (hs.2 k), live, record_of_cached he, hdeleted]
    exact hv
  refine ⟨mem_keys_iff.mpr ⟨v, hfind⟩, ?_⟩
  rw [hfind, Layer.valueAt, bind_some, he]
  exact hv

theorem commit_content (hP : P.Faithful Inv view) (hs : s.Sound Inv view) :
    Inv (s.commit P) ∧ view (s.commit P) = (s.onMap view).content := by
  have hdeletes : ∀ e ∈ s.cache.entries.filter (·.2.deleted), e.2.deleted = true :=
    fun e he => (mem_filter.mp he).2
  have hupdates : ∀ e ∈ s.cache.entries.filter fun e => !e.2.deleted && e.2.updated,
      e.2.deleted = false := by grind
  obtain ⟨herase, hview⟩ := foldl_erase_content hP hs.1 hdeletes
  obtain ⟨hwrite, hview'⟩ := foldl_write_content hP herase hupdates
  refine ⟨hwrite, ?_⟩
  rw [commit, hview', hview]
  exact foldl_updates_foldl_deletes hs.2

theorem looks_of_quiet (hs : s.Sound Inv view) (hr : Arrives Inv view s r) :
    (sessionStore P).Looks (Sound Inv view) (fun s => (s.onMap view).content) s r := by
  obtain ⟨hquiet, hpos⟩ := hr
  refine ⟨hquiet.sound hs, hquiet.content hs, ?_, ?_⟩
  · intro k hk
    rw [hk] at hpos
    exact hquiet.content hs ▸ ((hquiet.sound hs).valueAt hpos).1
  · intro k hk
    rw [hk] at hpos
    exact hquiet.content hs ▸ ((hquiet.sound hs).valueAt hpos).2

end Layer

theorem faithful_sessionStore (hP : P.Reads Inv view) :
    (sessionStore P).Faithful (Layer.Sound Inv view) fun s => (s.onMap view).content where
  begin s hs := looks_of_quiet hs (begin_looks hP hs.1)
  lowerBound s k hs := looks_of_quiet hs (lowerBound_looks hP hs.1 k)
  find s k hs := ⟨looks_of_quiet hs (find_looks hP hs.1 k), find_content hP hs.1 hs.2 k⟩
  next s k hs := looks_of_quiet hs (moveNext_looks hP _ hs.1 k)
  next_end s hs := ⟨hs, rfl⟩
  previous s pos hs := looks_of_quiet hs (previous_looks hP hs.1 pos)
  read s k hs := by
    obtain ⟨hvalue, hquiet⟩ := read_content hP hs.1 hs.2 k
    exact ⟨hvalue, hquiet.sound hs, hquiet.content hs⟩
  write s k v hs := by
    obtain ⟨hinv, hbacked, hcontent⟩ := write_content hP hs.1 hs.2 k v
    exact ⟨⟨hinv, hbacked⟩, hcontent⟩
  erase s k hs := by
    obtain ⟨hinv, hbacked, hcontent⟩ := erase_content hP hs.1 hs.2 k
    exact ⟨⟨hinv, hbacked⟩, hcontent⟩

/-! ## A stack of sessions -/

namespace Layers

/-- What the session at the top of a stack holds. -/
def content : (n : ℕ) → Layers κ ν n → FlatMap κ ν
  | 0, m => m
  | n + 1, s => (onMap (content n) s).content

/-- What the sessions of a stack hold, and the root, newest first. -/
def contents : (n : ℕ) → Layers κ ν n → List (FlatMap κ ν)
  | 0, m => [m]
  | n + 1, s => content (n + 1) s :: contents n s.parent

/-- Every cached value of the stack is backed by the session below. -/
def Sound : (n : ℕ) → Layers κ ν n → Prop
  | 0, _ => True
  | n + 1, s => Layer.Sound (Sound n) (content n) s

theorem contents_eq_cons (n : ℕ) (s : Layers κ ν n) :
    contents n s = content n s :: (contents n s).tail := by
  cases n <;> rfl

/-- The state belongs to a stack that differs from `s₀` at the top at most. -/
def Below (n : ℕ) (s₀ s : Layers κ ν n) : Prop :=
  Sound n s ∧ (contents n s).tail = (contents n s₀).tail

/-- The state belongs to a stack with the contents of `s₀`. -/
def Same (n : ℕ) (s₀ s : Layers κ ν n) : Prop := Sound n s ∧ contents n s = contents n s₀

theorem same_iff {n : ℕ} {s₀ s : Layers κ ν n} :
    Same n s₀ s ↔ Below n s₀ s ∧ content n s = content n s₀ := by
  rw [Same, Below, contents_eq_cons n s, contents_eq_cons n s₀, cons.injEq, tail_cons, tail_cons]
  tauto

end Layers

theorem faithful_layerStore (n : ℕ) (s₀ : Layers κ ν n) :
    (layerStore κ ν n).Faithful (Layers.Below n s₀) (Layers.content n) := by
  induction n with
  | zero =>
    have hbelow : Layers.Below 0 s₀ = fun _ => True := by
      funext s
      exact eq_true ⟨trivial, rfl⟩
    rw [hbelow]
    exact faithful_rootStore κ ν
  | succ n ih =>
    have hsame : Layers.Same n s₀.parent =
        fun p => Layers.Below n s₀.parent p ∧ Layers.content n p = Layers.content n s₀.parent :=
      funext fun p => propext Layers.same_iff
    have hbelow : Layers.Below (n + 1) s₀ =
        Layer.Sound (Layers.Same n s₀.parent) (Layers.content n) :=
      funext fun s => propext and_right_comm
    rw [hbelow, hsame]
    exact faithful_sessionStore ((ih s₀.parent).toReads.of_eq _)

theorem reads_layerStore (n : ℕ) (s₀ : Layers κ ν n) :
    (layerStore κ ν n).Reads (Layers.Same n s₀) (Layers.content n) := by
  have hsame : Layers.Same n s₀ =
      fun s => Layers.Below n s₀ s ∧ Layers.content n s = Layers.content n s₀ :=
    funext fun s => propext Layers.same_iff
  rw [hsame]
  exact (faithful_layerStore n s₀).toReads.of_eq _

end DcdProtocol.KeyValue
