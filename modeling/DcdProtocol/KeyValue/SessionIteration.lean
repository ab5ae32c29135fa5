import DcdProtocol.KeyValue.SessionOrder

/-!
# Positions of session iterators

`searchFrom`, `moveNext` and `movePrevious` skip the keys deleted in the session and pull the keys
they need from the parent.  Here they are shown to stop at the first live key from a key on, at the
one after it and at the one before it, whatever has been cached so far.  The loops of `moveNext` and
`movePrevious` are followed by induction on the rounds: a round moves to a neighbour in the cache,
there is no live key in between, and the keys still ahead become fewer.
-/

namespace DcdProtocol.KeyValue.Session

open Library List FlatMap

variable {κ ν : Type*} [LinearOrder κ] {s s' : Session κ ν} {k n p q : κ}

/-! ## Live keys -/

theorem Coherent.mem_liveKeys_of_cached (h : s.Coherent) (hk : k ∈ s.cache.keys) :
    k ∈ s.liveKeys ↔ s.isDeleted k = false := by
  show (s.live k).isSome = true ↔ _
  cases hdeleted : s.isDeleted k with
  | true => simp [live_of_deleted hdeleted]
  | false =>
    have hvalued := h.valued k hk ((isDeleted_eq s k).symm.trans hdeleted)
    rw [live, if_neg (by simp [← isDeleted_eq, hdeleted])]
    simp [Option.isSome_iff_ne_none, hvalued]

theorem mem_liveKeys_of_not_cached (hk : k ∉ s.cache.keys) :
    k ∈ s.liveKeys ↔ k ∈ s.parent.keys := by
  show (s.live k).isSome = true ↔ _
  rw [live_of_not_cached hk, Option.isSome_iff_exists, mem_keys_iff]

theorem mem_keys_of_mem_liveKeys (hk : k ∈ s.liveKeys) : k ∈ s.cache.keys ∨ k ∈ s.parent.keys := by
  by_cases hcached : k ∈ s.cache.keys
  · exact .inl hcached
  · exact .inr ((mem_liveKeys_of_not_cached hcached).mp hk)

theorem KnowsNext.neighbour (h : s.KnowsNext k) : ∃ n ∈ s.cache.keys, s.cacheNext k = some n ∧
    k < n ∧ ∀ q ∈ s.liveKeys, k < q → q = n ∨ n < q := by
  obtain ⟨m, hm, hkm, hfilled⟩ := h
  have hfirst := isFirst_cacheNext s k
  cases hn : s.cacheNext k with
  | none =>
    rw [hn] at hfirst
    exact absurd ⟨hm, hkm⟩ (isFirst_none_iff.mp hfirst m)
  | some n =>
    rw [hn] at hfirst
    have hle : ∀ q ∈ s.cache.keys, k < q → n ≤ q := fun q hq hkq => hfirst.2 ⟨hq, hkq⟩
    refine ⟨n, hfirst.1.1, rfl, hfirst.1.2, fun q hq hkq => ?_⟩
    have hnq : n ≤ q := by
      by_contra hqn
      have hqm := (not_le.mp hqn).trans_le (hle m hm hkm)
      exact hqn (hle q ((mem_keys_of_mem_liveKeys hq).elim id (hfilled q · hkq hqm)) hkq)
    exact hnq.eq_or_lt.imp_left Eq.symm

theorem KnowsPrevious.neighbour (h : s.KnowsPrevious k) : ∃ p ∈ s.cache.keys,
    s.cachePrevious k = some p ∧ p < k ∧ ∀ q ∈ s.liveKeys, q < k → q = p ∨ q < p := by
  obtain ⟨m, hm, hmk, hfilled⟩ := h
  have hlast := isLast_cachePrevious s k
  cases hp : s.cachePrevious k with
  | none =>
    rw [hp] at hlast
    exact absurd ⟨hm, hmk⟩ (isLast_none_iff.mp hlast m)
  | some p =>
    rw [hp] at hlast
    have hle : ∀ q ∈ s.cache.keys, q < k → q ≤ p := fun q hq hqk => hlast.2 ⟨hq, hqk⟩
    refine ⟨p, hlast.1.1, rfl, hlast.1.2, fun q hq hqk => LE.le.eq_or_lt ?_⟩
    by_contra hqp
    have hmq := (hle m hm hmk).trans_lt (not_le.mp hqp)
    exact hqp (hle q ((mem_keys_of_mem_liveKeys hq).elim id (hfilled q · hmq hqk)) hqk)

/-! ## Moving to the next key -/

variable {known : Bool} {a b pos : Option κ} {α : Type*}

theorem minKey_eq_none (h : minKey a b = none) : a = none ∧ b = none := by
  cases a with
  | none => exact ⟨rfl, h⟩
  | some p =>
    cases b with
    | none => exact absurd h (by simp [minKey])
    | some q =>
      rw [minKey] at h
      split_ifs at h

theorem minKey_eq_some (h : minKey a b = some n) :
    (a = some n ∨ b = some n) ∧ (∀ p, a = some p → n ≤ p) ∧ ∀ q, b = some q → n ≤ q := by
  cases a with
  | none =>
    obtain rfl : b = some n := h
    simp
  | some p =>
    cases b with
    | none =>
      obtain rfl : p = n := by simpa [minKey] using h
      simp
    | some q =>
      rw [minKey] at h
      split_ifs at h with hpq
      · grind
      · grind

theorem maxKey_eq_some (h : maxKey a b = some n) :
    (a = some n ∨ b = some n) ∧ (∀ p, a = some p → p ≤ n) ∧ ∀ q, b = some q → q ≤ n :=
  minKey_eq_some (κ := κᵒᵈ) h

theorem pullNext_eq_none (h : s.pullNext k = none) : ∀ q ∈ s.liveKeys, ¬k < q := by
  rw [pullNext] at h
  cases hm : minKey (s.cacheNext k) (s.parent.firstKey? (k < ·)) with
  | some n => simp [hm] at h
  | none =>
    obtain ⟨hcache, hparent⟩ := minKey_eq_none hm
    have hcache' := isFirst_cacheNext s k
    have hparent' := s.parent.isFirst_firstKey?_decide (k < ·)
    rw [hcache] at hcache'
    rw [hparent] at hparent'
    intro q hq hkq
    rcases mem_keys_of_mem_liveKeys hq with hq | hq
    · exact isFirst_none_iff.mp hcache' q ⟨hq, hkq⟩
    · exact isFirst_none_iff.mp hparent' q ⟨hq, hkq⟩

theorem pullPrevious_eq_none (h : s.pullPrevious k = none) : ∀ q ∈ s.liveKeys, ¬q < k := by
  rw [pullPrevious] at h
  cases hm : maxKey (s.cachePrevious k) (s.parent.lastKey? (· < k)) with
  | some n => simp [hm] at h
  | none =>
    obtain ⟨hcache, hparent⟩ := minKey_eq_none (κ := κᵒᵈ) hm
    have hcache' := isLast_cachePrevious s k
    have hparent' := s.parent.isLast_lastKey?_decide (· < k)
    rw [hcache] at hcache'
    rw [hparent] at hparent'
    intro q hq hqk
    rcases mem_keys_of_mem_liveKeys hq with hq | hq
    · exact isLast_none_iff.mp hcache' q ⟨hq, hqk⟩
    · exact isLast_none_iff.mp hparent' q ⟨hq, hqk⟩

theorem pullNext_eq_some (h : s.Ordered) (hk : k ∈ s.cache.keys) (hpull : s.pullNext k = some s') :
    Extends s s' ∧ s'.KnowsNext k := by
  rw [pullNext] at hpull
  cases hm : minKey (s.cacheNext k) (s.parent.firstKey? (k < ·)) with
  | none => simp [hm] at hpull
  | some n =>
    rw [hm] at hpull
    obtain rfl : (s.emplaceParent n).link k n = s' := by simpa using hpull
    obtain ⟨hcase, -, hparent⟩ := minKey_eq_some hm
    have hfirst := s.parent.isFirst_firstKey?_decide (k < ·)
    have hstep : Extends s (s.emplaceParent n) ∧ k < n := by
      rcases hcase with hn | hn
      · obtain ⟨hmem, hkn⟩ := mem_of_cacheNext hn
        rw [emplaceParent_of_mem hmem]
        exact ⟨.refl h, hkn⟩
      · rw [hn] at hfirst
        exact ⟨h.extends_emplaceParent hfirst.1.1, hfirst.1.2⟩
    have hfilled : (s.emplaceParent n).Filled k n := by
      intro q hq hkq hqn
      cases hb : s.parent.firstKey? (k < ·) with
      | none =>
        rw [hb] at hfirst
        exact absurd ⟨hq, hkq⟩ (isFirst_none_iff.mp hfirst q)
      | some m =>
        rw [hb] at hfirst
        exact absurd hqn ((hparent m hb).trans (hfirst.2 ⟨hq, hkq⟩)).not_gt
    have hn : n ∈ (s.emplaceParent n).cache.keys := mem_keys_emplaceParent.mpr (.inl rfl)
    have hlink := hstep.1.ordered.extends_link (hstep.1.keys k hk) hn hstep.2 hfilled
    exact ⟨hstep.1.trans hlink, n, hlink.keys n hn, hstep.2, hfilled.mono hlink.parent hlink.keys⟩

theorem pullPrevious_eq_some (h : s.Ordered) (hk : k ∈ s.cache.keys)
    (hpull : s.pullPrevious k = some s') : Extends s s' ∧ s'.KnowsPrevious k := by
  rw [pullPrevious] at hpull
  cases hm : maxKey (s.cachePrevious k) (s.parent.lastKey? (· < k)) with
  | none => simp [hm] at hpull
  | some p =>
    rw [hm] at hpull
    obtain rfl : (s.emplaceParent p).link p k = s' := by simpa using hpull
    obtain ⟨hcase, -, hparent⟩ := maxKey_eq_some hm
    have hlast := s.parent.isLast_lastKey?_decide (· < k)
    have hstep : Extends s (s.emplaceParent p) ∧ p < k := by
      rcases hcase with hp | hp
      · obtain ⟨hmem, hpk⟩ := mem_of_cachePrevious hp
        rw [emplaceParent_of_mem hmem]
        exact ⟨.refl h, hpk⟩
      · rw [hp] at hlast
        exact ⟨h.extends_emplaceParent hlast.1.1, hlast.1.2⟩
    have hfilled : (s.emplaceParent p).Filled p k := by
      intro q hq hpq hqk
      cases hb : s.parent.lastKey? (· < k) with
      | none =>
        rw [hb] at hlast
        exact absurd ⟨hq, hqk⟩ (isLast_none_iff.mp hlast q)
      | some m =>
        rw [hb] at hlast
        have hqm : q ≤ m := hlast.2 ⟨hq, hqk⟩
        exact absurd hpq (hqm.trans (hparent m hb)).not_gt
    have hp : p ∈ (s.emplaceParent p).cache.keys := mem_keys_emplaceParent.mpr (.inl rfl)
    have hlink := hstep.1.ordered.extends_link hp (hstep.1.keys k hk) hstep.2 hfilled
    exact ⟨hstep.1.trans hlink, p, hlink.keys p hp, hstep.2, hfilled.mono hlink.parent hlink.keys⟩

/-! ## The loops -/

def keySet (s : Session κ ν) : Finset κ := (s.cache.keys ++ s.parent.keys).toFinset

theorem keySet_card_lt (s : Session κ ν) (P : κ → Prop) [DecidablePred P] :
    (s.keySet.filter P).card < s.rounds := by
  have hcard := (Finset.card_filter_le s.keySet P).trans (toFinset_card_le _)
  rw [length_append] at hcard
  rw [rounds]
  omega

theorem Grows.keySet (h : Grows s s') : s'.keySet = s.keySet := by
  ext k
  simp only [Session.keySet, mem_toFinset, mem_append, h.parent]
  constructor
  · rintro (hk | hk)
    · exact h.pulled k hk
    · exact .inr hk
  · rintro (hk | hk)
    · exact .inl (h.keys k hk)
    · exact .inr hk

theorem card_filter_lt_of_mem {S : Finset α} {P Q : α → Prop} [DecidablePred P]
    [DecidablePred Q] {n : α} (hmem : n ∈ S) (hPn : P n) (hQn : ¬Q n) (hQP : ∀ q, Q q → P q) :
    (S.filter Q).card < (S.filter P).card := by
  apply Finset.card_lt_card
  refine ⟨fun q hq => ?_, fun hsub => ?_⟩
  · grind
  · exact hQn (Finset.mem_filter.mp (hsub (Finset.mem_filter.mpr ⟨hmem, hPn⟩))).2

/-- What a move has to deliver: the position is the right one and cached. -/
structure Moved (s s' : Session κ ν) (pos : Option κ) : Prop extends Extends s s' where
  cached : ∀ n, pos = some n → n ∈ s'.cache.keys

theorem Moved.end (h : s.Ordered) : Moved s s none := ⟨.refl h, fun _ hn => by simp at hn⟩

/-- A loop like `moveNext` and `movePrevious` stops at the nearest live key ahead.  A round goes to a
neighbour in the cache; no live key is passed over on the way, and fewer keys are still ahead. -/
theorem move_spec {R : κ → κ → Prop} [DecidableRel R] [IsStrictOrder κ R]
    (move : ℕ → Session κ ν → κ → Option κ × Session κ ν) {inCache : Session κ ν → κ → Bool}
    {pull : Session κ ν → κ → Option (Session κ ν)} {neighbour : Session κ ν → κ → Option κ}
    (hmove : ∀ rounds s k, move (rounds + 1) s k =
      match if inCache s k then some s else pull s k with
      | none => (none, s)
      | some s =>
        match neighbour s k with
        | none => (none, s)
        | some n => if s.isDeleted n then move rounds s n else (some n, s))
    (hnone : ∀ {s k}, pull s k = none → ∀ q ∈ s.liveKeys, ¬R k q)
    {Knows : Session κ ν → κ → Prop}
    (hknows : ∀ {s k}, Knows s k → ∃ n ∈ s.cache.keys, neighbour s k = some n ∧ R k n ∧
      ∀ q ∈ s.liveKeys, R k q → q = n ∨ R n q)
    (hcache : ∀ {s k}, s.Ordered → inCache s k = true → Knows s k)
    (hpull : ∀ {s k s₁}, s.Ordered → k ∈ s.cache.keys → pull s k = some s₁ →
      Extends s s₁ ∧ Knows s₁ k)
    (rounds : ℕ) (h : s.Coherent) (hk : k ∈ s.cache.keys)
    (hrounds : (s.keySet.filter (R k)).card < rounds) :
    Moved s (move rounds s k).2 (move rounds s k).1 ∧
      (∀ n, (move rounds s k).1 = some n → n ∈ s.liveKeys ∧ R k n) ∧
      ∀ q ∈ s.liveKeys, R k q → ∃ n, (move rounds s k).1 = some n ∧ (q = n ∨ R n q) := by
  induction rounds generalizing s k with
  | zero => exact absurd hrounds (Nat.not_lt_zero _)
  | succ rounds ih =>
    rw [hmove]
    cases hround : (if inCache s k then some s else pull s k) with
    | none =>
      split_ifs at hround
      exact ⟨.end h.toOrdered, by simp, fun q hq hkq => absurd hkq (hnone hround q hq)⟩
    | some s₁ =>
      have hstep : Extends s s₁ ∧ Knows s₁ k := by
        split_ifs at hround with hflag
        · obtain rfl : s = s₁ := by simpa using hround
          exact ⟨.refl h.toOrdered, hcache h.toOrdered hflag⟩
        · exact hpull h.toOrdered hk hround
      obtain ⟨hext, hknown⟩ := hstep
      obtain ⟨n, hmem, hn, hkn, hle⟩ := hknows hknown
      have h₁ := h.of_extends hext
      have hlive := h₁.mem_liveKeys_of_cached hmem
      rw [← hext.liveKeys]
      dsimp only
      rw [hn]
      dsimp only
      split_ifs with hdeleted
      · have hfewer : (s₁.keySet.filter (R n)).card < rounds := by
          have hlt : (s₁.keySet.filter (R n)).card < (s₁.keySet.filter (R k)).card :=
            card_filter_lt_of_mem (mem_toFinset.mpr (mem_append_left _ hmem)) hkn (irrefl n)
              fun q => IsTrans.trans k n q hkn
          rw [hext.keySet] at hlt ⊢
          omega
        obtain ⟨hmoved, hpos, hnearest⟩ := ih h₁ hmem hfewer
        refine ⟨⟨hext.trans hmoved.toExtends, hmoved.cached⟩, fun m hm => ?_, fun q hq hkq => ?_⟩
        · exact ⟨(hpos m hm).1, IsTrans.trans k n m hkn (hpos m hm).2⟩
        · rcases hle q hq hkq with rfl | hnq
          · exact absurd (hlive.mp hq) (by simp [hdeleted])
          · exact hnearest q hq hnq
      · refine ⟨⟨hext, ?_⟩, ?_, fun q hq hkq => ⟨n, rfl, hle q hq hkq⟩⟩
        · rintro m ⟨⟩
          exact hmem
        · rintro m ⟨⟩
          exact ⟨hlive.mpr (by simpa using hdeleted), hkn⟩

theorem isFirst_of_nearest {S : Set κ} (hpos : ∀ n, pos = some n → n ∈ S ∧ k < n)
    (hnearest : ∀ q ∈ S, k < q → ∃ n, pos = some n ∧ (q = n ∨ n < q)) :
    IsFirst {q | q ∈ S ∧ k < q} pos := by
  cases pos with
  | none => exact isFirst_none_iff.mpr fun q hq => by simpa using hnearest q hq.1 hq.2
  | some n => exact ⟨hpos n rfl, fun q hq => by grind [hnearest q hq.1 hq.2]⟩

theorem moveNext_spec (rounds : ℕ) (h : s.Coherent) (hk : k ∈ s.cache.keys)
    (hrounds : (s.keySet.filter (k < ·)).card < rounds) :
    Moved s (moveNext rounds s k).2 (moveNext rounds s k).1 ∧
      IsFirst {q | q ∈ s.liveKeys ∧ k < q} (moveNext rounds s k).1 := by
  obtain ⟨hmoved, hpos, hnearest⟩ := move_spec (R := (· < ·)) moveNext (fun _ _ _ => rfl)
    pullNext_eq_none KnowsNext.neighbour (fun h => h.next _) pullNext_eq_some rounds h hk hrounds
  exact ⟨hmoved, isFirst_of_nearest hpos hnearest⟩

theorem movePrevious_spec (rounds : ℕ) (h : s.Coherent) (hk : k ∈ s.cache.keys)
    (hrounds : (s.keySet.filter (· < k)).card < rounds) :
    Moved s (movePrevious rounds s k).2 (movePrevious rounds s k).1 ∧
      IsLast {q | q ∈ s.liveKeys ∧ q < k} (movePrevious rounds s k).1 := by
  obtain ⟨hmoved, hpos, hnearest⟩ := move_spec (R := (· > ·)) movePrevious (fun _ _ _ => rfl)
    pullPrevious_eq_none KnowsPrevious.neighbour (fun h => h.previous _) pullPrevious_eq_some rounds h
    hk hrounds
  exact ⟨hmoved, isFirst_of_nearest (κ := κᵒᵈ) hpos hnearest⟩

/-! ## Iterators -/

theorem isLast_cacheLast (s : Session κ ν) :
    IsLast {q | q ∈ s.cache.keys} (s.cache.lastKey? fun _ => true) := by
  have hlast := s.cache.isLast_lastKey? fun _ => true
  simp only [and_true] at hlast
  exact hlast

theorem Ordered.cacheFirst_le (h : s.Ordered) (hk : IsFirst {q | q ∈ s.cache.keys} (some k))
    (hq : q ∈ s.liveKeys) : k ≤ q := by
  rcases mem_keys_of_mem_liveKeys hq with hq | hq
  · exact hk.2 hq
  · obtain ⟨m, hm, hmq⟩ := h.lower q hq
    exact le_trans (hk.2 hm) hmq

theorem Ordered.le_cacheLast (h : s.Ordered) (hk : IsLast {q | q ∈ s.cache.keys} (some k))
    (hq : q ∈ s.liveKeys) : q ≤ k := by
  rcases mem_keys_of_mem_liveKeys hq with hq | hq
  · exact hk.2 hq
  · obtain ⟨m, hm, hqm⟩ := h.upper q hq
    exact le_trans hqm (hk.2 hm)

theorem Ordered.not_live_of_empty (h : s.Ordered) (hempty : ∀ q, q ∉ s.cache.keys) :
    q ∉ s.liveKeys := by
  intro hq
  rcases mem_keys_of_mem_liveKeys hq with hq | hq
  · exact hempty q hq
  · obtain ⟨m, hm, -⟩ := h.lower q hq
    exact hempty m hm

/-- `operator--` on positions, for any number of rounds. -/
def previousPosition (rounds : ℕ) (s : Session κ ν) (pos : Option κ) : Option κ × Session κ ν :=
  if pos = s.cache.firstKey? (fun _ => true) then (none, s)
  else
    match pos with
    | some k => movePrevious rounds s k
    | none =>
      match s.cache.lastKey? fun _ => true with
      | none => (none, s)
      | some k => if s.isDeleted k then movePrevious rounds s k else (some k, s)

theorem previousPosition_spec {rounds : ℕ} (hrounds : s.rounds ≤ rounds) (h : s.Coherent) (hcached : ∀ k, pos = some k → k ∈ s.cache.keys) :
    Moved s (previousPosition rounds s pos).2 (previousPosition rounds s pos).1 ∧
      IsLast {q | q ∈ s.liveKeys ∧ Precedes q pos} (previousPosition rounds s pos).1 := by
  have hmove : ∀ k ∈ s.cache.keys, _ := fun k hk =>
    movePrevious_spec rounds h hk ((s.keySet_card_lt (· < k)).trans_le hrounds)
  have hfirst := s.cache.isFirst_firstKey?_true
  unfold previousPosition
  split_ifs with hbegin
  · -- Before the first key of the cache there is nothing.
    refine ⟨.end h.toOrdered, isLast_none_iff.mpr ?_⟩
    rintro q ⟨hq, hbefore⟩
    rw [← hbegin] at hfirst
    cases pos with
    | none => exact h.not_live_of_empty (isFirst_none_iff.mp hfirst) hq
    | some k => exact absurd hbefore (h.cacheFirst_le hfirst hq).not_gt
  cases pos with
  | some k => exact hmove k (hcached k rfl)
  | none =>
    have hlast := isLast_cacheLast s
    cases hk : s.cache.lastKey? fun _ => true with
    | none =>
      rw [hk] at hlast
      refine ⟨.end h.toOrdered, isLast_none_iff.mpr ?_⟩
      rintro q ⟨hq, -⟩
      exact h.not_live_of_empty (isLast_none_iff.mp hlast) hq
    | some k =>
      rw [hk] at hlast
      dsimp only
      split_ifs with hdeleted
      · obtain ⟨hmoved, hpos⟩ := hmove k hlast.1
        refine ⟨hmoved, ?_⟩
        have hset : {q | q ∈ s.liveKeys ∧ Precedes q none} = {q | q ∈ s.liveKeys ∧ q < k} := by
          ext q
          refine and_congr_right fun hq => ⟨fun _ => ?_, fun _ => trivial⟩
          refine lt_of_le_of_ne (h.le_cacheLast hlast hq) ?_
          rintro rfl
          rw [h.mem_liveKeys_of_cached hlast.1, hdeleted] at hq
          simp at hq
        rw [hset]
        exact hpos
      · have hlive : k ∈ s.liveKeys := by
          rw [h.mem_liveKeys_of_cached hlast.1]
          simpa using hdeleted
        refine ⟨⟨.refl h.toOrdered, ?_⟩, ⟨hlive, trivial⟩, ?_⟩
        · rintro m ⟨⟩
          exact hlast.1
        · rintro q ⟨hq, -⟩
          exact h.le_cacheLast hlast hq

/-! ## Lower bounds -/

theorem firstNotDeleted_eq_none {es : List (α × ValueState ν)}
    (hnone : (firstNotDeleted es known).1 = none) : ∀ e ∈ es, e.2.deleted = true := by
  induction es generalizing known with
  | nil => simp
  | cons e es ih =>
    rw [firstNotDeleted] at hnone
    split_ifs at hnone with hdeleted
    rw [forall_mem_cons]
    exact ⟨hdeleted, ih hnone⟩

theorem firstNotDeleted_known {es : List (α × ValueState ν)}
    (hknown : (firstNotDeleted es known).2 = true) : known = true := by
  induction es generalizing known with
  | nil => exact hknown
  | cons e es ih =>
    rw [firstNotDeleted] at hknown
    split_ifs at hknown
    · grind
    · grind

theorem firstNotDeleted_eq_some {es : List (κ × ValueState ν)}
    (hes : es.Pairwise fun a b => a.1 < b.1) (hsome : (firstNotDeleted es known).1 = some k) :
    (∃ e, (k, e) ∈ es ∧ e.deleted = false) ∧
      (∀ e ∈ es, e.1 < k → e.2.deleted = true) ∧
      ((firstNotDeleted es known).2 = true → ∀ e ∈ es, e.1 ≤ k → e.2.previousInCache = true) := by
  induction es generalizing known with
  | nil => simp [firstNotDeleted] at hsome
  | cons d es ih =>
    have hd : ∀ e ∈ es, d.1 < e.1 := fun e => rel_of_pairwise_cons hes
    rw [firstNotDeleted] at hsome ⊢
    split_ifs at hsome ⊢ with hdeleted
    · obtain ⟨⟨e, he, hlive⟩, hbefore, hflags⟩ := ih hes.of_cons hsome
      refine ⟨⟨e, mem_cons_of_mem d he, hlive⟩, ?_, ?_⟩
      · rw [forall_mem_cons]
        exact ⟨fun _ => hdeleted, hbefore⟩
      · intro hknown
        rw [forall_mem_cons]
        exact ⟨fun _ => (Bool.and_eq_true_iff.mp (firstNotDeleted_known hknown)).2, hflags hknown⟩
    · grind

private theorem mem_dropWhile_lt {es : List (κ × ValueState ν)} {e : κ × ValueState ν}
    (hes : es.Pairwise fun a b => a.1 < b.1) :
    e ∈ es.dropWhile (fun e => decide (e.1 < k)) ↔ e ∈ es ∧ k ≤ e.1 := by
  induction es with
  | nil => simp
  | cons d es ih =>
    have hd : ∀ e ∈ es, d.1 < e.1 := fun e => rel_of_pairwise_cons hes
    by_cases hlt : d.1 < k
    · rw [dropWhile_cons_of_pos (by simpa using hlt), ih hes.of_cons, mem_cons]
      constructor
      · grind
      · grind
    · rw [dropWhile_cons_of_neg (by simpa using hlt), iff_self_and]
      intro he
      rcases mem_cons.mp he with rfl | he
      · exact not_lt.mp hlt
      · grind

theorem mem_entriesFrom {e : ValueState ν} :
    (q, e) ∈ s.entriesFrom k ↔ s.cache.find? q = some e ∧ k ≤ q := by
  rw [entriesFrom, mem_dropWhile_lt s.cache.sorted, mem_entries_iff]

theorem isFirst_firstNotDeleted (h : s.Coherent) (k : κ) :
    IsFirst {q | q ∈ s.cache.keys ∧ q ∈ s.liveKeys ∧ k ≤ q}
      (firstNotDeleted (s.entriesFrom k) true).1 := by
  have hdeleted : ∀ {q : κ} {e : ValueState ν}, s.cache.find? q = some e →
      s.isDeleted q = e.deleted := by
    intro q e he
    rw [isDeleted, he]
    rfl
  have hsorted : (s.entriesFrom k).Pairwise fun a b => a.1 < b.1 :=
    s.cache.sorted.sublist (dropWhile_sublist _)
  cases hfound : (firstNotDeleted (s.entriesFrom k) true).1 with
  | none =>
    refine isFirst_none_iff.mpr ?_
    rintro q ⟨hq, hlive, hkq⟩
    obtain ⟨e, he⟩ := mem_keys_iff.mp hq
    have hall := firstNotDeleted_eq_none hfound (q, e) (mem_entriesFrom.mpr ⟨he, hkq⟩)
    rw [h.mem_liveKeys_of_cached hq, hdeleted he, hall] at hlive
    simp at hlive
  | some m =>
    obtain ⟨⟨e, he, hlive⟩, hbefore, -⟩ := firstNotDeleted_eq_some hsorted hfound
    obtain ⟨hfind, hkm⟩ := mem_entriesFrom.mp he
    have hm : m ∈ s.cache.keys := mem_keys_iff.mpr ⟨e, hfind⟩
    refine isFirst_some_iff.mpr ⟨⟨hm, ?_, hkm⟩, ?_⟩
    · rw [h.mem_liveKeys_of_cached hm, hdeleted hfind, hlive]
    rintro q ⟨hq, hlive, hkq⟩
    by_contra hqm
    obtain ⟨d, hd⟩ := mem_keys_iff.mp hq
    have hall := hbefore (q, d) (mem_entriesFrom.mpr ⟨hd, hkq⟩) (not_le.mp hqm)
    rw [h.mem_liveKeys_of_cached hq, hdeleted hd, hall] at hlive
    simp at hlive

/-- If all entries up to the one found know their predecessors, the parent has no key before it
that is not cached. -/
theorem cached_of_previousKnown (h : s.Ordered) {m : κ}
    (hfound : (firstNotDeleted (s.entriesFrom k) true).1 = some m)
    (hknown : (firstNotDeleted (s.entriesFrom k) true).2 = true) (hq : q ∈ s.parent.keys)
    (hkq : k ≤ q) (hqm : q < m) : q ∈ s.cache.keys := by
  have hsorted : (s.entriesFrom k).Pairwise fun a b => a.1 < b.1 :=
    s.cache.sorted.sublist (dropWhile_sublist _)
  obtain ⟨⟨e, he, -⟩, -, hflags⟩ := firstNotDeleted_eq_some hsorted hfound
  by_contra hcached
  -- Look at the first cached key `c` after `q`: its predecessor is known, hence before `q`.
  have hfirst := isFirst_cacheNext s q
  have hm : m ∈ s.cache.keys := mem_keys_iff.mpr ⟨e, (mem_entriesFrom.mp he).1⟩
  cases hc : s.cacheNext q with
  | none =>
    rw [hc] at hfirst
    exact isFirst_none_iff.mp hfirst m ⟨hm, hqm⟩
  | some c =>
    rw [hc] at hfirst
    obtain ⟨hcmem, hqc⟩ := hfirst.1
    have hcm : c ≤ m := hfirst.2 ⟨hm, hqm⟩
    obtain ⟨d, hd⟩ := mem_keys_iff.mp hcmem
    have hflag := hflags hknown (c, d) (mem_entriesFrom.mpr ⟨hd, hkq.trans hqc.le⟩) hcm
    have hprevious : s.previousInCache c = true := by
      rw [previousInCache, hd]
      exact hflag
    obtain ⟨p, hp, hpc, hfilled⟩ := h.previous c hprevious
    rcases lt_trichotomy p q with hpq | rfl | hqp
    · exact hcached (hfilled q hq hpq hqc)
    · exact hcached hp
    · exact absurd (hfirst.2 ⟨hp, hqp⟩) hpc.not_ge

theorem isFirst_parent (s : Session κ ν) (k : κ) :
    IsFirst {q | q ∈ s.parent.keys ∧ k ≤ q ∧ s.isDeleted q = false}
      (s.parent.firstKey? fun q => decide (k ≤ q) && !s.isDeleted q) := by
  have hfirst := s.parent.isFirst_firstKey? fun q => decide (k ≤ q) && !s.isDeleted q
  simp only [Bool.and_eq_true, decide_eq_true_eq, Bool.not_eq_true'] at hfirst
  exact hfirst

theorem Coherent.mem_liveKeys_of_parent (h : s.Coherent) (hk : k ∈ s.parent.keys)
    (hdeleted : s.isDeleted k = false) : k ∈ s.liveKeys := by
  by_cases hcached : k ∈ s.cache.keys
  · exact (h.mem_liveKeys_of_cached hcached).mpr hdeleted
  · exact (mem_liveKeys_of_not_cached hcached).mpr hk

theorem isDeleted_of_mem_liveKeys (hk : k ∈ s.liveKeys) : s.isDeleted k = false := by
  by_contra hdeleted
  have hsome : (s.live k).isSome = true := hk
  rw [live_of_deleted (by simpa using hdeleted)] at hsome
  simp at hsome

theorem searchFrom_spec (h : s.Coherent) (k : κ) :
    Moved s (s.searchFrom k).2 (s.searchFrom k).1 ∧
      IsFirst {q | q ∈ s.liveKeys ∧ k ≤ q} (s.searchFrom k).1 := by
  have hcache := isFirst_firstNotDeleted h k
  have hparent := isFirst_parent s k
  have hstay : ∀ it : Option κ, IsFirst {q | q ∈ s.cache.keys ∧ q ∈ s.liveKeys ∧ k ≤ q} it →
      Moved s s it := by
    rintro it hit
    refine ⟨.refl h.toOrdered, ?_⟩
    rintro m rfl
    exact hit.1.1
  rw [searchFrom]
  cases hfound : firstNotDeleted (s.entriesFrom k) true with
  | mk it previousKnown =>
  rw [hfound] at hcache
  dsimp only
  split_ifs with hask
  · cases hpit : s.parent.firstKey? fun q => decide (k ≤ q) && !s.isDeleted q with
    | none =>
      rw [hpit] at hparent
      refine ⟨hstay it hcache, ?_⟩
      -- The parent adds nothing, so the live keys from `k` on are the cached ones.
      have hset : {q | q ∈ s.liveKeys ∧ k ≤ q} =
          {q | q ∈ s.cache.keys ∧ q ∈ s.liveKeys ∧ k ≤ q} := by
        ext q
        refine ⟨fun ⟨hq, hkq⟩ => ⟨?_, hq, hkq⟩, fun hq => hq.2⟩
        rcases mem_keys_of_mem_liveKeys hq with hcached | hq'
        · exact hcached
        · exact absurd ⟨hq', hkq, isDeleted_of_mem_liveKeys hq⟩ (isFirst_none_iff.mp hparent q)
      rw [hset]
      exact hcache
    | some q =>
      rw [hpit] at hparent
      obtain ⟨⟨hq, hkq, hdeleted⟩, hleast⟩ := isFirst_some_iff.mp hparent
      have hqlive := h.mem_liveKeys_of_parent hq hdeleted
      dsimp only
      split_ifs with hlt
      · refine ⟨⟨h.toOrdered.extends_emplaceParent hq, ?_⟩, ⟨hqlive, hkq⟩, ?_⟩
        · rintro m ⟨⟩
          exact mem_keys_emplaceParent.mpr (.inl rfl)
        rintro m ⟨hm, hkm⟩
        rcases mem_keys_of_mem_liveKeys hm with hcached | hm'
        · cases it with
          | none => exact absurd ⟨hcached, hm, hkm⟩ (isFirst_none_iff.mp hcache m)
          | some c =>
            have hqc : q < c := by simpa using hlt
            exact (hqc.trans_le (hcache.2 ⟨hcached, hm, hkm⟩)).le
        · exact hleast m ⟨hm', hkm, isDeleted_of_mem_liveKeys hm⟩
      · cases it with
        | none => simp at hlt
        | some c =>
          have hcq : c ≤ q := by simpa using hlt
          refine ⟨hstay _ hcache, hcache.1.2, ?_⟩
          rintro m ⟨hm, hkm⟩
          rcases mem_keys_of_mem_liveKeys hm with hcached | hm'
          · exact hcache.2 ⟨hcached, hm, hkm⟩
          · exact hcq.trans (hleast m ⟨hm', hkm, isDeleted_of_mem_liveKeys hm⟩)
  · -- The entry found is `k` itself, or the cache is complete up to it.
    cases it with
    | none => exact absurd (.inl rfl) hask
    | some c =>
      refine ⟨hstay _ hcache, hcache.1.2, ?_⟩
      rintro m ⟨hm, hkm⟩
      by_cases hck : c = k
      · exact hck ▸ hkm
      have hknown : previousKnown = true := by
        by_contra hfalse
        exact hask (.inr ⟨by simpa using hck, by simpa using hfalse⟩)
      by_contra hcm
      have hcached : m ∈ s.cache.keys := by
        rcases mem_keys_of_mem_liveKeys hm with hcached | hm'
        · exact hcached
        · exact cached_of_previousKnown h.toOrdered (by rw [hfound])
            (by rw [hfound]; exact hknown) hm' hkm (not_le.mp hcm)
      exact hcm (hcache.2 ⟨hcached, hm, hkm⟩)

/-! ## New sessions -/

/-- A new session caches keys of its parent only, and as many as it takes to enclose the rest. -/
theorem primeCache_extends (parent : FlatMap κ ν) :
    Extends ({ parent } : Session κ ν) (primeCache parent) := by
  let s₀ : Session κ ν := { parent }
  have hfirst := parent.isFirst_firstKey? fun _ => true
  have hlast := parent.isLast_lastKey? fun _ => true
  rw [primeCache]
  cases hf : parent.firstKey? fun _ => true with
  | none =>
    rw [hf] at hfirst
    have hempty : ∀ q, q ∉ parent.keys := fun q hq => isFirst_none_iff.mp hfirst q ⟨hq, rfl⟩
    refine .refl ⟨fun k hk => ?_, fun k hk => ?_, fun q hq => ?_, fun q hq => ?_⟩
    · exact absurd hk (by simp [nextInCache])
    · exact absurd hk (by simp [previousInCache])
    · exact absurd hq (hempty q)
    · exact absurd hq (hempty q)
  | some first =>
    rw [hf] at hfirst
    cases hl : parent.lastKey? fun _ => true with
    | none =>
      rw [hl] at hlast
      exact absurd hfirst.1 (isLast_none_iff.mp hlast first)
    | some last =>
      rw [hl] at hlast
      have hgrows₁ : Grows s₀ (s₀.emplaceParent first) := grows_emplaceParent hfirst.1.1
      have hgrows₂ := grows_emplaceParent (s := s₀.emplaceParent first) (k := last) hlast.1.1
      refine ⟨hgrows₁.trans hgrows₂, ⟨fun k hk => ?_, fun k hk => ?_, fun q hq => ?_,
        fun q hq => ?_⟩⟩
      · have hnone := nextInCache_emplaceParent (nextInCache_emplaceParent hk)
        exact absurd hnone (by simp [nextInCache])
      · have hnone := previousInCache_emplaceParent (previousInCache_emplaceParent hk)
        exact absurd hnone (by simp [previousInCache])
      · exact ⟨first, mem_keys_emplaceParent.mpr
          (.inr (mem_keys_emplaceParent.mpr (.inl rfl))), hfirst.2 ⟨hq, rfl⟩⟩
      · exact ⟨last, mem_keys_emplaceParent.mpr (.inl rfl), hlast.2 ⟨hq, rfl⟩⟩

theorem primeCache_spec (parent : FlatMap κ ν) :
    (primeCache parent).Coherent ∧ (primeCache parent).live = parent.find? ∧
      ∀ k, (primeCache parent).isDeleted k = false ∧ (primeCache parent).version k = 0 := by
  have hext := primeCache_extends parent
  have hnot : ∀ k, k ∉ ({ parent } : Session κ ν).cache.keys := by
    intro k hk
    simp [mem_keys_iff] at hk
  refine ⟨⟨hext.ordered, ?_⟩, ?_, ?_⟩
  · intro k hk _
    rw [hext.record, record_of_not_cached rfl]
    intro hnone
    exact find?_eq_none_iff.mp hnone ((hext.pulled k hk).resolve_left (hnot k))
  · funext k
    rw [hext.live, live_of_not_cached (hnot k)]
  · intro k
    rw [hext.isDeleted, hext.version]
    exact ⟨rfl, rfl⟩

end DcdProtocol.KeyValue.Session
