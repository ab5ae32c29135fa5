import DcdProtocol.KeyValue.Session

/-!
# A session iterates over its live keys in order

What a session holds is `record`: whether a key is deleted, its version and its value, where a key
that is not cached counts as an untouched key of the parent.  Reading, positioning and moving an
iterator only pull keys of the parent into the cache (`Grows`), so the record of every key stays.

The flags of the cache are sound in the following sense (`Ordered`).  A key that claims to know its
successor is followed by a cached key such that all keys of the parent in between are cached as
well; the same for predecessors; and the cache encloses all keys of the parent.  Stated this way the
claims survive every insertion into the cache, and only the places that set a flag have something to
prove.  They give that `lowerBound`, `next` and `previous` find the first live key from a key on, the
one after it and the one before it.
-/

namespace DcdProtocol.KeyValue.Session

open Library FlatMap

variable {κ ν : Type*} [LinearOrder κ] {s s' s'' : Session κ ν} {k n p q : κ} {e : ValueState ν}

/-! ## Records -/

/-- What the session knows of a key: whether it is deleted, its version and its value. -/
def record (s : Session κ ν) (k : κ) : Bool × ℕ × Option ν :=
  match s.cache.find? k with
  | some e => (e.deleted, e.version, e.value)
  | none => (false, 0, s.parent.find? k)

/-- The value of a key, if it has one in the session. -/
def live (s : Session κ ν) (k : κ) : Option ν :=
  if (s.record k).1 then none else (s.record k).2.2

def liveKeys (s : Session κ ν) : Set κ := {k | (s.live k).isSome = true}

theorem record_of_cached (hk : s.cache.find? k = some e) :
    s.record k = (e.deleted, e.version, e.value) := by
  rw [record, hk]

theorem record_of_not_cached (hk : s.cache.find? k = none) :
    s.record k = (false, 0, s.parent.find? k) := by
  rw [record, hk]

theorem isDeleted_eq (s : Session κ ν) (k : κ) : s.isDeleted k = (s.record k).1 := by
  rw [isDeleted, record]
  cases s.cache.find? k <;> rfl

theorem version_eq (s : Session κ ν) (k : κ) : s.version k = (s.record k).2.1 := by
  rw [version, record]
  cases s.cache.find? k <;> rfl

theorem live_of_deleted (hk : s.isDeleted k = true) : s.live k = none := by
  rw [isDeleted_eq] at hk
  rw [live, if_pos hk]

theorem live_of_not_cached (hk : k ∉ s.cache.keys) : s.live k = s.parent.find? k := by
  rw [live, record_of_not_cached (find?_eq_none_iff.mpr hk)]
  rfl

/-- Change of a session that only caches keys of the parent and sets flags. -/
structure Grows (s s' : Session κ ν) : Prop where
  parent : s'.parent = s.parent
  record : s'.record = s.record
  keys : ∀ k ∈ s.cache.keys, k ∈ s'.cache.keys
  pulled : ∀ k ∈ s'.cache.keys, k ∈ s.cache.keys ∨ k ∈ s.parent.keys

namespace Grows

theorem refl (s : Session κ ν) : Grows s s := ⟨rfl, rfl, fun _ h => h, fun _ h => .inl h⟩

theorem trans (h : Grows s s') (h' : Grows s' s'') : Grows s s'' where
  parent := h'.parent.trans h.parent
  record := h'.record.trans h.record
  keys k hk := h'.keys k (h.keys k hk)
  pulled k hk := by
    rcases h'.pulled k hk with hk | hk
    · exact h.pulled k hk
    · exact .inr (h.parent ▸ hk)

theorem live (h : Grows s s') : s'.live = s.live := by
  funext k
  rw [Session.live, Session.live, h.record]

theorem liveKeys (h : Grows s s') : s'.liveKeys = s.liveKeys := by
  rw [Session.liveKeys, Session.liveKeys, h.live]

theorem isDeleted (h : Grows s s') (k : κ) : s'.isDeleted k = s.isDeleted k := by
  rw [isDeleted_eq, isDeleted_eq, h.record]

theorem version (h : Grows s s') (k : κ) : s'.version k = s.version k := by
  rw [version_eq, version_eq, h.record]

end Grows

/-! ## The primitive updates of the cache -/

theorem find?_modify (s : Session κ ν) (k q : κ) (f : ValueState ν → ValueState ν) :
    (s.modify k f).cache.find? q = if q = k then (s.cache.find? k).map f else s.cache.find? q := by
  rw [modify]
  cases hk : s.cache.find? k with
  | none => grind
  | some e => exact find?_insert s.cache k q (f e)

@[simp] theorem parent_modify (s : Session κ ν) (k : κ) (f : ValueState ν → ValueState ν) :
    (s.modify k f).parent = s.parent := by
  rw [modify]
  cases s.cache.find? k <;> rfl

variable {f : ValueState ν → ValueState ν} {P : κ → Bool}

@[simp] theorem mem_keys_modify : q ∈ (s.modify k f).cache.keys ↔ q ∈ s.cache.keys := by
  rw [mem_keys_iff, mem_keys_iff, find?_modify]
  by_cases hq : q = k
  · rw [if_pos hq, hq]
    simp
  · rw [if_neg hq]

theorem record_modify_of_ne (hq : q ≠ k) : (s.modify k f).record q = s.record q := by
  rw [record, record, find?_modify, if_neg hq, parent_modify]

theorem record_modify_self (hk : s.cache.find? k = some e) :
    (s.modify k f).record k = ((f e).deleted, (f e).version, (f e).value) := by
  apply record_of_cached
  rw [find?_modify, if_pos rfl, hk]
  rfl

theorem grows_modify
    (hf : ∀ e, ((f e).deleted, (f e).version, (f e).value) = (e.deleted, e.version, e.value)) :
    Grows s (s.modify k f) where
  parent := parent_modify s k f
  record := by
    funext q
    by_cases hq : q = k
    · subst hq
      cases hk : s.cache.find? q with
      | none => rw [modify, hk]
      | some e => rw [record_modify_self hk, hf e, record_of_cached hk]
    · exact record_modify_of_ne hq
  keys q hq := mem_keys_modify.mpr hq
  pulled q hq := .inl (mem_keys_modify.mp hq)

theorem grows_link (s : Session κ ν) (k n : κ) : Grows s (s.link k n) := by
  refine Grows.trans (grows_modify ?_) (grows_modify ?_)
  · intro e
    rfl
  · intro e
    rfl

theorem nextInCache_modify :
    (s.modify k f).nextInCache q =
      if q = k then (s.cache.find? k).elim false fun e => (f e).nextInCache
      else s.nextInCache q := by
  rw [nextInCache, find?_modify]
  by_cases hq : q = k
  · rw [if_pos hq, if_pos hq]
    cases s.cache.find? k <;> rfl
  · rw [if_neg hq, if_neg hq, nextInCache]

theorem previousInCache_modify :
    (s.modify k f).previousInCache q =
      if q = k then (s.cache.find? k).elim false fun e => (f e).previousInCache
      else s.previousInCache q := by
  rw [previousInCache, find?_modify]
  by_cases hq : q = k
  · rw [if_pos hq, if_pos hq]
    cases s.cache.find? k <;> rfl
  · rw [if_neg hq, if_neg hq, previousInCache]

theorem nextInCache_link (h : (s.link k n).nextInCache q = true) :
    s.nextInCache q = true ∨ q = k := by
  rw [link, nextInCache_modify] at h
  split_ifs at h with hq
  · exact .inr hq
  rw [nextInCache_modify] at h
  split_ifs at h with hqn
  · left
    rw [nextInCache, hqn]
    exact h
  · exact .inl h

theorem previousInCache_link (h : (s.link k n).previousInCache q = true) :
    s.previousInCache q = true ∨ q = n := by
  by_cases hqn : q = n
  · exact .inr hqn
  left
  rw [link, previousInCache_modify] at h
  split_ifs at h with hq
  · rw [find?_modify, if_neg (hq ▸ hqn)] at h
    rw [previousInCache, hq]
    exact h
  · rwa [previousInCache_modify, if_neg hqn] at h

theorem emplaceParent_of_mem (hk : k ∈ s.cache.keys) : s.emplaceParent k = s := by
  rw [emplaceParent, emplace, if_pos (contains_iff.mpr hk)]

theorem mem_keys_emplaceParent : q ∈ (s.emplaceParent k).cache.keys ↔ q = k ∨ q ∈ s.cache.keys := by
  rw [mem_keys_iff, mem_keys_iff]
  show (∃ v, (s.cache.emplace k _).find? q = some v) ↔ _
  rw [find?_emplace]
  by_cases hq : q = k
  · subst hq
    cases s.cache.find? q <;> simp
  · simp [hq]

theorem grows_emplaceParent (hk : k ∈ s.parent.keys) : Grows s (s.emplaceParent k) where
  parent := rfl
  record := by
    funext q
    show (match (s.cache.emplace k _).find? q with
      | some e => _
      | none => _) = _
    rw [find?_emplace]
    split_ifs with hq
    · obtain ⟨rfl, hq⟩ := hq
      rw [record_of_not_cached hq]
    · rfl
  keys q hq := mem_keys_emplaceParent.mpr (.inr hq)
  pulled q hq := by
    rcases mem_keys_emplaceParent.mp hq with rfl | hq
    · exact .inr hk
    · exact .inl hq

theorem nextInCache_emplaceParent (h : (s.emplaceParent k).nextInCache q = true) :
    s.nextInCache q = true := by
  change ((s.cache.emplace k _).find? q).elim false _ = true at h
  rw [find?_emplace] at h
  split_ifs at h with hq
  · simp at h
  · exact h

theorem previousInCache_emplaceParent (h : (s.emplaceParent k).previousInCache q = true) :
    s.previousInCache q = true := by
  change ((s.cache.emplace k _).find? q).elim false _ = true at h
  rw [find?_emplace] at h
  split_ifs at h with hq
  · simp at h
  · exact h

theorem mem_keys_of_nextInCache (h : s.nextInCache k = true) : k ∈ s.cache.keys := by
  rw [nextInCache] at h
  cases hk : s.cache.find? k with
  | none => simp [hk] at h
  | some e => exact mem_keys_iff.mpr ⟨e, hk⟩

theorem isFirst_cacheNext (s : Session κ ν) (k : κ) :
    IsFirst {q | q ∈ s.cache.keys ∧ k < q} (s.cacheNext k) :=
  s.cache.isFirst_firstKey?_decide (k < ·)

theorem isLast_cachePrevious (s : Session κ ν) (k : κ) :
    IsLast {q | q ∈ s.cache.keys ∧ q < k} (s.cachePrevious k) :=
  s.cache.isLast_lastKey?_decide (· < k)

/-! ## Sound flags -/

/-- Every key of the parent between the two keys is cached. -/
def Filled (s : Session κ ν) (k n : κ) : Prop :=
  ∀ q ∈ s.parent.keys, k < q → q < n → q ∈ s.cache.keys

/-- What a key claims that knows its successor. -/
def KnowsNext (s : Session κ ν) (k : κ) : Prop :=
  ∃ n ∈ s.cache.keys, k < n ∧ s.Filled k n

/-- What a key claims that knows its predecessor. -/
def KnowsPrevious (s : Session κ ν) (n : κ) : Prop :=
  ∃ k ∈ s.cache.keys, k < n ∧ s.Filled k n

/-- The flags of the cache are right and the cache encloses the keys of the parent. -/
structure Ordered (s : Session κ ν) : Prop where
  next : ∀ k, s.nextInCache k = true → s.KnowsNext k
  previous : ∀ k, s.previousInCache k = true → s.KnowsPrevious k
  lower : ∀ q ∈ s.parent.keys, ∃ k ∈ s.cache.keys, k ≤ q
  upper : ∀ q ∈ s.parent.keys, ∃ k ∈ s.cache.keys, q ≤ k

theorem Filled.mono (h : s.Filled k n) (hparent : s'.parent = s.parent)
    (hkeys : ∀ q ∈ s.cache.keys, q ∈ s'.cache.keys) : s'.Filled k n := by
  intro q hq hkq hqn
  exact hkeys q (h q (hparent ▸ hq) hkq hqn)

theorem KnowsNext.mono (h : s.KnowsNext k) (hparent : s'.parent = s.parent)
    (hkeys : ∀ q ∈ s.cache.keys, q ∈ s'.cache.keys) : s'.KnowsNext k := by
  obtain ⟨n, hn, hkn, hfilled⟩ := h
  exact ⟨n, hkeys n hn, hkn, hfilled.mono hparent hkeys⟩

theorem KnowsPrevious.mono (h : s.KnowsPrevious k) (hparent : s'.parent = s.parent)
    (hkeys : ∀ q ∈ s.cache.keys, q ∈ s'.cache.keys) : s'.KnowsPrevious k := by
  obtain ⟨p, hp, hpk, hfilled⟩ := h
  exact ⟨p, hkeys p hp, hpk, hfilled.mono hparent hkeys⟩

theorem Ordered.mono (h : s.Ordered) (hparent : s'.parent = s.parent)
    (hkeys : ∀ q ∈ s.cache.keys, q ∈ s'.cache.keys)
    (hnext : ∀ k, s'.nextInCache k = true → s.nextInCache k = true ∨ s'.KnowsNext k)
    (hprevious : ∀ k, s'.previousInCache k = true →
      s.previousInCache k = true ∨ s'.KnowsPrevious k) : s'.Ordered where
  next k hk := by
    rcases hnext k hk with hk | hk
    · exact (h.next k hk).mono hparent hkeys
    · exact hk
  previous k hk := by
    rcases hprevious k hk with hk | hk
    · exact (h.previous k hk).mono hparent hkeys
    · exact hk
  lower q hq := by
    obtain ⟨k, hk, hkq⟩ := h.lower q (hparent ▸ hq)
    exact ⟨k, hkeys k hk, hkq⟩
  upper q hq := by
    obtain ⟨k, hk, hqk⟩ := h.upper q (hparent ▸ hq)
    exact ⟨k, hkeys k hk, hqk⟩

theorem Ordered.emplaceParent (h : s.Ordered) (k : κ) : (s.emplaceParent k).Ordered := by
  refine h.mono rfl (fun q hq => mem_keys_emplaceParent.mpr (.inr hq)) ?_ ?_
  · intro q hq
    exact .inl (nextInCache_emplaceParent hq)
  · intro q hq
    exact .inl (previousInCache_emplaceParent hq)

theorem Ordered.link (h : s.Ordered) (hk : k ∈ s.cache.keys) (hn : n ∈ s.cache.keys) (hkn : k < n)
    (hfilled : s.Filled k n) : (s.link k n).Ordered := by
  have hgrows := grows_link s k n
  have hfilled' := hfilled.mono hgrows.parent hgrows.keys
  refine h.mono hgrows.parent hgrows.keys ?_ ?_
  · intro q hq
    rcases nextInCache_link hq with hq | rfl
    · exact .inl hq
    · exact .inr ⟨n, hgrows.keys n hn, hkn, hfilled'⟩
  · intro q hq
    rcases previousInCache_link hq with hq | rfl
    · exact .inl hq
    · exact .inr ⟨k, hgrows.keys k hk, hkn, hfilled'⟩

/-! ## Neighbours -/

/-- Between a key and its successor in the cache there is no key of the parent, if the parent's own
successor of the key is cached. -/
theorem filled_of_cacheNext (hn : s.cacheNext k = some n)
    (hcached : ∀ q, s.parent.firstKey? (k < ·) = some q → q ∈ s.cache.keys) : s.Filled k n := by
  intro q hq hkq hqn
  have hfirst := s.parent.isFirst_firstKey?_decide (k < ·)
  cases hm : s.parent.firstKey? (k < ·) with
  | none =>
    rw [hm] at hfirst
    exact absurd ⟨hq, hkq⟩ (isFirst_none_iff.mp hfirst q)
  | some m =>
    rw [hm] at hfirst
    have hmq : m ≤ q := hfirst.2 ⟨hq, hkq⟩
    have hleast := isFirst_cacheNext s k
    rw [hn] at hleast
    have hnm : n ≤ m := hleast.2 ⟨hcached m hm, hfirst.1.2⟩
    exact absurd hqn (hnm.trans hmq).not_gt

theorem filled_of_cachePrevious (hp : s.cachePrevious k = some p)
    (hcached : ∀ q, s.parent.lastKey? (· < k) = some q → q ∈ s.cache.keys) : s.Filled p k := by
  intro q hq hpq hqk
  have hlast := s.parent.isLast_lastKey?_decide (· < k)
  cases hm : s.parent.lastKey? (· < k) with
  | none =>
    rw [hm] at hlast
    exact absurd ⟨hq, hqk⟩ (isLast_none_iff.mp hlast q)
  | some m =>
    rw [hm] at hlast
    have hqm : q ≤ m := hlast.2 ⟨hq, hqk⟩
    have hgreatest := isLast_cachePrevious s k
    rw [hp] at hgreatest
    have hmp : m ≤ p := hgreatest.2 ⟨hcached m hm, hlast.1.2⟩
    exact absurd hpq (hqm.trans hmp).not_gt

structure Extends (s s' : Session κ ν) : Prop extends Grows s s' where
  ordered : s'.Ordered

theorem Extends.refl (h : s.Ordered) : Extends s s := ⟨.refl s, h⟩

theorem Extends.trans (h : Extends s s') (h' : Extends s' s'') : Extends s s'' :=
  ⟨h.toGrows.trans h'.toGrows, h'.ordered⟩

theorem Ordered.extends_emplaceParent (h : s.Ordered) (hk : k ∈ s.parent.keys) :
    Extends s (s.emplaceParent k) :=
  ⟨grows_emplaceParent hk, h.emplaceParent k⟩

theorem Ordered.extends_link (h : s.Ordered) (hk : k ∈ s.cache.keys) (hn : n ∈ s.cache.keys)
    (hkn : k < n) (hfilled : s.Filled k n) : Extends s (s.link k n) :=
  ⟨grows_link s k n, h.link hk hn hkn hfilled⟩

theorem mem_of_cacheNext (h : s.cacheNext k = some n) : n ∈ s.cache.keys ∧ k < n := by
  have hfirst := isFirst_cacheNext s k
  rw [h] at hfirst
  exact hfirst.1

theorem mem_of_cachePrevious (h : s.cachePrevious k = some p) : p ∈ s.cache.keys ∧ p < k := by
  have hlast := isLast_cachePrevious s k
  rw [h] at hlast
  exact hlast.1

theorem extends_pullParent (h : s.Ordered) (pos : Option κ)
    (hpos : ∀ q, pos = some q → q ∈ s.parent.keys) :
    Extends s (s.pullParent pos) ∧ ∀ q, pos = some q → q ∈ (s.pullParent pos).cache.keys := by
  cases pos with
  | none => exact ⟨.refl h, fun q hq => by simp at hq⟩
  | some n =>
    refine ⟨h.extends_emplaceParent (hpos n rfl), ?_⟩
    rintro q ⟨⟩
    exact mem_keys_emplaceParent.mpr (.inl rfl)

theorem extends_nextKey (h : s.Ordered) (hk : k ∈ s.cache.keys) : Extends s (s.nextKey k) := by
  obtain ⟨hext, hcached⟩ := extends_pullParent h (s.parent.firstKey? (k < ·))
    fun q => mem_keys_of_firstKey?
  rw [nextKey]
  generalize s.pullParent (s.parent.firstKey? (k < ·)) = s₁ at hext hcached ⊢
  rw [← hext.parent] at hcached
  cases hn : s₁.cacheNext k with
  | none => exact hext
  | some n =>
    obtain ⟨hmem, hkn⟩ := mem_of_cacheNext hn
    exact hext.trans (hext.ordered.extends_link (hext.keys k hk) hmem hkn
      (filled_of_cacheNext hn hcached))

theorem extends_previousKey (h : s.Ordered) (hk : k ∈ s.cache.keys) :
    Extends s (s.previousKey k) := by
  obtain ⟨hext, hcached⟩ := extends_pullParent h (s.parent.lastKey? (· < k))
    fun q => mem_keys_of_lastKey?
  rw [previousKey]
  generalize s.pullParent (s.parent.lastKey? (· < k)) = s₁ at hext hcached ⊢
  rw [← hext.parent] at hcached
  cases hp : s₁.cachePrevious k with
  | none => exact hext
  | some p =>
    obtain ⟨hmem, hpk⟩ := mem_of_cachePrevious hp
    exact hext.trans (hext.ordered.extends_link hmem (hext.keys k hk) hpk
      (filled_of_cachePrevious hp hcached))

/-! ## Reading, writing and erasing -/

/-- An ordered cache in which every key that is not deleted has a value. -/
structure Coherent (s : Session κ ν) : Prop extends Ordered s where
  valued : ∀ k ∈ s.cache.keys, (s.record k).1 = false → (s.record k).2.2 ≠ none

/-- A change of the record of one key, which is cached. -/
structure Touches (s : Session κ ν) (k : κ) (s' : Session κ ν) : Prop where
  ordered : s'.Ordered
  parent : s'.parent = s.parent
  record : ∀ q, q ≠ k → s'.record q = s.record q
  keys : ∀ q ∈ s.cache.keys, q ∈ s'.cache.keys
  cached : k ∈ s'.cache.keys
  pulled : ∀ q ∈ s'.cache.keys, q = k ∨ q ∈ s.cache.keys ∨ q ∈ s.parent.keys

theorem Coherent.record_ne (h : s.Coherent) (hk : k ∈ s.cache.keys ∨ k ∈ s.parent.keys)
    (hdeleted : (s.record k).1 = false) : (s.record k).2.2 ≠ none := by
  by_cases hcached : k ∈ s.cache.keys
  · exact h.valued k hcached hdeleted
  · rw [record_of_not_cached (find?_eq_none_iff.mpr hcached)]
    intro hnone
    exact find?_eq_none_iff.mp hnone (hk.resolve_left hcached)

theorem Coherent.of_extends (h : s.Coherent) (hext : Extends s s') : s'.Coherent where
  toOrdered := hext.ordered
  valued q hq := by
    rw [hext.record]
    exact h.record_ne (hext.pulled q hq)

theorem Coherent.of_touches (h : s.Coherent) (ht : Touches s k s')
    (hk : (s'.record k).1 = false → (s'.record k).2.2 ≠ none) : s'.Coherent where
  toOrdered := ht.ordered
  valued q hq := by
    by_cases hqk : q = k
    · rw [hqk]
      exact hk
    · rw [ht.record q hqk]
      exact h.record_ne ((ht.pulled q hq).resolve_left hqk)

theorem knows_of_orderKnown (h : s.Ordered) (hk : k ∉ s.cache.keys)
    (hknown : ({ s with cache := s.cache.insert k {} } : Session κ ν).orderKnown k = true) :
    (∃ p ∈ s.cache.keys, p < k ∧ s.Filled p k) ∧ ∃ n ∈ s.cache.keys, k < n ∧ s.Filled k n := by
  let s₁ : Session κ ν := { s with cache := s.cache.insert k {} }
  have hkeys : ∀ q, q ∈ s₁.cache.keys ↔ q = k ∨ q ∈ s.cache.keys := fun q =>
    mem_keys_insert
  have hfind : ∀ q, q ≠ k → s₁.cache.find? q = s.cache.find? q := fun q hq =>
    find?_insert_of_ne s.cache {} hq
  change s₁.orderKnown k = true at hknown
  rw [orderKnown] at hknown
  have hlast := isLast_cachePrevious s₁ k
  cases hp : s₁.cachePrevious k with
  | some p =>
    rw [hp] at hknown hlast
    have hpk : p < k := hlast.1.2
    have hnext : s.nextInCache p = true := by
      rwa [nextInCache, ← hfind p hpk.ne]
    obtain ⟨n, hn, hpn, hfilled⟩ := h.next p hnext
    -- The successor of `p` was cached before `k` came, and no cached key lies between them.
    have hkn : k < n := by
      rcases lt_trichotomy n k with hlt | rfl | hgt
      · exact absurd (hlast.2 ⟨(hkeys n).mpr (.inr hn), hlt⟩) hpn.not_ge
      · exact absurd hn hk
      · exact hgt
    refine ⟨⟨p, mem_keys_of_nextInCache hnext, hpk, ?_⟩, n, hn, hkn, ?_⟩
    · intro q hq hpq hqk
      exact hfilled q hq hpq (hqk.trans hkn)
    · intro q hq hkq hqn
      exact hfilled q hq (hpk.trans hkq) hqn
  | none =>
    rw [hp] at hknown hlast
    cases hn : s₁.cacheNext k with
    | none => grind
    | some n =>
      rw [hn] at hknown
      have hfirst := isFirst_cacheNext s₁ k
      rw [hn] at hfirst
      have hprevious : s.previousInCache n = true := by
        rwa [previousInCache, ← hfind n hfirst.1.2.ne']
      -- A key without a predecessor in the cache cannot stand before one that has one.
      obtain ⟨p, hp', hpn, -⟩ := h.previous n hprevious
      rcases lt_trichotomy p k with hlt | rfl | hgt
      · exact absurd ⟨(hkeys p).mpr (.inr hp'), hlt⟩ (isLast_none_iff.mp hlast p)
      · exact absurd hp' hk
      · exact absurd (hfirst.2 ⟨(hkeys p).mpr (.inr hp'), hgt⟩) hpn.not_ge

theorem touches_insert (h : s.Ordered) (k : κ) :
    Touches s k { s with cache := s.cache.insert k {} } where
  ordered := by
    refine h.mono rfl (fun q hq => mem_keys_insert.mpr (.inr hq)) ?_ ?_
    · intro q hq
      rw [nextInCache, find?_insert] at hq
      split_ifs at hq with hqk
      · simp at hq
      · exact .inl hq
    · intro q hq
      rw [previousInCache, find?_insert] at hq
      split_ifs at hq with hqk
      · simp at hq
      · exact .inl hq
  parent := rfl
  record q hq := by rw [record, record, find?_insert_of_ne _ _ hq]
  keys q hq := mem_keys_insert.mpr (.inr hq)
  cached := mem_keys_insert.mpr (.inl rfl)
  pulled q hq := by
    rcases mem_keys_insert.mp hq with hq | hq
    · exact .inl hq
    · exact .inr (.inl hq)

theorem Touches.extends (ht : Touches s k s') (hext : Extends s' s'') : Touches s k s'' where
  ordered := hext.ordered
  parent := hext.parent.trans ht.parent
  record q hq := by rw [hext.record, ht.record q hq]
  keys q hq := hext.keys q (ht.keys q hq)
  cached := hext.keys k ht.cached
  pulled q hq := by
    rcases hext.pulled q hq with hq | hq
    · exact ht.pulled q hq
    · exact .inr (.inr (ht.parent ▸ hq))

theorem extends_both (h : s.Ordered) (hnext : s.KnowsNext k) (hprevious : s.KnowsPrevious k) :
    Extends s (s.modify k fun e => { e with nextInCache := true, previousInCache := true }) := by
  have hgrows : Grows s
      (s.modify k fun e => { e with nextInCache := true, previousInCache := true }) := by
    apply grows_modify
    intro e
    rfl
  refine ⟨hgrows, h.mono hgrows.parent hgrows.keys ?_ ?_⟩
  · intro q hq
    rw [nextInCache_modify] at hq
    split_ifs at hq with hqk
    · exact .inr (hqk ▸ hnext.mono hgrows.parent hgrows.keys)
    · exact .inl hq
  · intro q hq
    rw [previousInCache_modify] at hq
    split_ifs at hq with hqk
    · exact .inr (hqk ▸ hprevious.mono hgrows.parent hgrows.keys)
    · exact .inl hq

theorem updateIteratorCache_of_not_mem (h : s.Ordered) (hk : k ∉ s.cache.keys) :
    Touches s k (s.updateIteratorCache k) ∧
      (s.updateIteratorCache k).record k = (false, 0, none) := by
  have hinsert := touches_insert h k
  have hrecord : ({ s with cache := s.cache.insert k {} } : Session κ ν).record k =
      (false, 0, none) := by
    rw [record, find?_insert_self]
  have hext : Extends { s with cache := s.cache.insert k {} } (s.updateIteratorCache k) := by
    rw [updateIteratorCache, if_neg (fun hc => hk (contains_iff.mp hc))]
    dsimp only
    split_ifs with hknown
    · obtain ⟨⟨p, hp, hpk, hprevious⟩, n, hn, hkn, hnext⟩ := knows_of_orderKnown h hk hknown
      apply extends_both hinsert.ordered
      · exact KnowsNext.mono ⟨n, hn, hkn, hnext⟩ rfl hinsert.keys
      · exact KnowsPrevious.mono ⟨p, hp, hpk, hprevious⟩ rfl hinsert.keys
    · have hnext := extends_nextKey hinsert.ordered hinsert.cached
      exact hnext.trans (extends_previousKey hnext.ordered (hnext.keys k hinsert.cached))
  exact ⟨hinsert.extends hext, by rw [hext.record, hrecord]⟩

theorem Touches.refl (h : s.Ordered) (hk : k ∈ s.cache.keys) : Touches s k s where
  ordered := h
  parent := rfl
  record _ _ := rfl
  keys _ hq := hq
  cached := hk
  pulled _ hq := .inr (.inl hq)

theorem touches_updateIteratorCache (h : s.Ordered) (k : κ) :
    Touches s k (s.updateIteratorCache k) ∧
      ((s.updateIteratorCache k).record k).2.1 = (s.record k).2.1 := by
  by_cases hk : k ∈ s.cache.keys
  · rw [updateIteratorCache, if_pos (contains_iff.mpr hk)]
    exact ⟨.refl h hk, rfl⟩
  · obtain ⟨ht, hrecord⟩ := updateIteratorCache_of_not_mem h hk
    rw [hrecord, record_of_not_cached (find?_eq_none_iff.mpr hk)]
    exact ⟨ht, rfl⟩

theorem Touches.modify (ht : Touches s k s')
    (hf : ∀ e, (f e).nextInCache = e.nextInCache ∧ (f e).previousInCache = e.previousInCache) :
    Touches s k (s'.modify k f) where
  ordered := by
    refine ht.ordered.mono (parent_modify s' k f) (fun q hq => mem_keys_modify.mpr hq) ?_ ?_
    · intro q hq
      left
      rw [nextInCache_modify] at hq
      split_ifs at hq with hqk
      · simpa only [hqk, nextInCache, hf] using hq
      · exact hq
    · intro q hq
      left
      rw [previousInCache_modify] at hq
      split_ifs at hq with hqk
      · simpa only [hqk, previousInCache, hf] using hq
      · exact hq
  parent := (parent_modify s' k f).trans ht.parent
  record q hq := (record_modify_of_ne hq).trans (ht.record q hq)
  keys q hq := mem_keys_modify.mpr (ht.keys q hq)
  cached := mem_keys_modify.mpr ht.cached
  pulled q hq := ht.pulled q (mem_keys_modify.mp hq)

theorem record_update_modify (h : s.Ordered) (k : κ) (f : ValueState ν → ValueState ν) :
    ∃ e : ValueState ν, ((s.updateIteratorCache k).modify k f).record k =
      ((f e).deleted, (f e).version, (f e).value) ∧ e.version = (s.record k).2.1 := by
  obtain ⟨ht, hversion⟩ := touches_updateIteratorCache h k
  obtain ⟨e, he⟩ := mem_keys_iff.mp ht.cached
  refine ⟨e, record_modify_self he, ?_⟩
  rw [← hversion, record_of_cached he]

theorem write_spec (h : s.Coherent) (k : κ) (v : ν) :
    (s.write k v).Coherent ∧ Touches s k (s.write k v) ∧
      (s.write k v).record k = (false, s.version k, some v) := by
  have ht : Touches s k (s.write k v) := by
    apply (touches_updateIteratorCache h.toOrdered k).1.modify
    intro e
    exact ⟨rfl, rfl⟩
  obtain ⟨e, hrecord, hversion⟩ := record_update_modify h.toOrdered k
    fun e => { e with value := some v, deleted := false, updated := true }
  have hrecord' : (s.write k v).record k = (false, s.version k, some v) := by
    rw [version_eq, ← hversion]
    exact hrecord
  refine ⟨h.of_touches ht ?_, ht, hrecord'⟩
  intro _
  rw [hrecord']
  exact Option.some_ne_none v

theorem erase_spec (h : s.Coherent) (k : κ) :
    (s.erase k).Coherent ∧ Touches s k (s.erase k) ∧ (s.erase k).isDeleted k = true ∧
      (s.erase k).version k = s.version k + 1 := by
  have ht : Touches s k (s.erase k) := by
    apply (touches_updateIteratorCache h.toOrdered k).1.modify
    intro e
    exact ⟨rfl, rfl⟩
  obtain ⟨e, hrecord, hversion⟩ := record_update_modify h.toOrdered k
    fun e => { e with deleted := true, updated := false, version := e.version + 1 }
  have hrecord' : (s.erase k).record k = (true, s.version k + 1, e.value) := by
    rw [version_eq, ← hversion]
    exact hrecord
  refine ⟨h.of_touches ht ?_, ht, ?_, ?_⟩
  · grind
  · rw [isDeleted_eq, hrecord']
  · rw [version_eq, hrecord']

theorem read_spec (h : s.Coherent) (k : κ) : (s.read k).1 = s.live k ∧ Extends s (s.read k).2 := by
  cases hk : s.cache.find? k with
  | some e =>
    have hrecord := record_of_cached hk
    rw [read, hk]
    dsimp only
    split_ifs with hdeleted
    · rw [live, hrecord, if_pos hdeleted]
      exact ⟨rfl, .refl h.toOrdered⟩
    cases hv : e.value with
    | some v =>
      rw [live, hrecord, if_neg hdeleted, hv]
      exact ⟨rfl, .refl h.toOrdered⟩
    | none =>
      have hvalued := h.valued k (mem_keys_iff.mpr ⟨e, hk⟩)
      rw [hrecord] at hvalued
      exact absurd hv (hvalued (by simpa using hdeleted))
  | none =>
    have hmem : k ∉ s.cache.keys := find?_eq_none_iff.mp hk
    rw [read, hk, live_of_not_cached hmem]
    cases hv : s.parent.find? k with
    | none => exact ⟨rfl, .refl h.toOrdered⟩
    | some v =>
      refine ⟨rfl, ?_⟩
      obtain ⟨ht, hrecord⟩ := updateIteratorCache_of_not_mem h.toOrdered hmem
      have ht' : Touches s k
          ((s.updateIteratorCache k).modify k fun e => { e with value := some v }) := by
        apply ht.modify
        intro e
        exact ⟨rfl, rfl⟩
      obtain ⟨e, he⟩ := mem_keys_iff.mp ht.cached
      rw [record_of_cached he] at hrecord
      refine ⟨⟨ht'.parent, ?_, ht'.keys, ?_⟩, ht'.ordered⟩
      · funext q
        by_cases hq : q = k
        · -- The empty entry is filled with the value of the parent.
          rw [hq, record_modify_self he, record_of_not_cached hk, hv]
          simp only [Prod.mk.injEq] at hrecord ⊢
          exact ⟨hrecord.1, hrecord.2.1, trivial⟩
        · exact ht'.record q hq
      · intro q hq
        rcases ht'.pulled q hq with rfl | hq
        · exact .inr (mem_keys_iff.mpr ⟨v, hv⟩)
        · exact hq

end DcdProtocol.KeyValue.Session
