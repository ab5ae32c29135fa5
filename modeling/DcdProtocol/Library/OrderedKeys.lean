import DcdProtocol.Library.FlatMap

/-!
# Positions in ordered containers

An iterator of an ordered container is at a key or at the end.  Where it stands is described by the
set of the keys it may stop at: `IsFirst S pos` says that `pos` is the least element of `S`, or the
end if there is none, and `IsLast` the same for the greatest.  A position is determined by its set,
so two containers with the same keys agree on it, however they find it.
-/

namespace DcdProtocol.Library

variable {κ ν : Type*} [LinearOrder κ] {S T : Set κ} {k k' : κ} {pos pos' : Option κ}

/-- The position is the least element of the set, or the end if the set is empty. -/
def IsFirst (S : Set κ) : Option κ → Prop
  | none => S = ∅
  | some k => IsLeast S k

/-- The position is the greatest element of the set, or the end if the set is empty. -/
def IsLast (S : Set κ) : Option κ → Prop
  | none => S = ∅
  | some k => IsGreatest S k

/-- The key comes before the position; every key comes before the end. -/
def Precedes (k : κ) : Option κ → Prop
  | none => True
  | some k' => k < k'

instance (k : κ) (pos : Option κ) : Decidable (Precedes k pos) :=
  match pos with
  | none => isTrue trivial
  | some k' => inferInstanceAs (Decidable (k < k'))

theorem isFirst_some_iff : IsFirst S (some k) ↔ k ∈ S ∧ ∀ k' ∈ S, k ≤ k' := .rfl

theorem isLast_some_iff : IsLast S (some k) ↔ k ∈ S ∧ ∀ k' ∈ S, k' ≤ k := .rfl

theorem isFirst_none_iff : IsFirst S none ↔ ∀ k, k ∉ S := Set.eq_empty_iff_forall_notMem

theorem isLast_none_iff : IsLast S none ↔ ∀ k, k ∉ S := Set.eq_empty_iff_forall_notMem

theorem IsFirst.mem (hpos : IsFirst S pos) (hk : pos = some k) : k ∈ S := by
  subst hk
  exact hpos.1

theorem IsLast.mem (hpos : IsLast S pos) (hk : pos = some k) : k ∈ S := by
  subst hk
  exact hpos.1

theorem IsFirst.unique (hpos : IsFirst S pos) (hpos' : IsFirst S pos') : pos = pos' := by
  cases pos with
  | none =>
    cases pos' with
    | none => rfl
    | some k' => exact absurd hpos'.1 (isFirst_none_iff.mp hpos k')
  | some k =>
    cases pos' with
    | none => exact absurd hpos.1 (isFirst_none_iff.mp hpos' k)
    | some k' => exact congrArg some (IsLeast.unique hpos hpos')

theorem IsLast.unique (hpos : IsLast S pos) (hpos' : IsLast S pos') : pos = pos' :=
  IsFirst.unique (κ := κᵒᵈ) hpos hpos'

namespace FlatMap

variable (m : FlatMap κ ν) (p : κ → Bool) {ks : List κ}

def firstKey? : Option κ := m.keys.find? p

def lastKey? : Option κ := m.keys.reverse.find? p

theorem keys_sorted : m.keys.Pairwise (· < ·) := by
  rw [keys, List.pairwise_map]
  exact m.sorted

private theorem isFirst_find? (hks : ks.Pairwise (· < ·)) :
    IsFirst {k | k ∈ ks ∧ p k = true} (ks.find? p) := by
  induction ks with
  | nil => exact isFirst_none_iff.mpr (by simp)
  | cons a ks ih =>
    have ha : ∀ k ∈ ks, a < k := fun k => List.rel_of_pairwise_cons hks
    by_cases hp : p a = true
    · rw [List.find?_cons_of_pos hp]
      refine isFirst_some_iff.mpr ⟨⟨List.mem_cons_self, hp⟩, ?_⟩
      rintro k ⟨hk, -⟩
      rcases List.mem_cons.mp hk with rfl | hk
      · exact le_rfl
      · exact (ha k hk).le
    · grind

theorem isFirst_firstKey? : IsFirst {k | k ∈ m.keys ∧ p k = true} (m.firstKey? p) :=
  isFirst_find? p m.keys_sorted

theorem isLast_lastKey? : IsLast {k | k ∈ m.keys ∧ p k = true} (m.lastKey? p) := by
  -- The greatest key is the least one of the reversed order.
  have hlast : IsLast {k | k ∈ m.keys.reverse ∧ p k = true} (m.lastKey? p) :=
    isFirst_find? (κ := κᵒᵈ) p (List.pairwise_reverse.mpr m.keys_sorted)
  simpa only [List.mem_reverse] using hlast

theorem isFirst_firstKey?_decide (P : κ → Prop) [DecidablePred P] :
    IsFirst {k | k ∈ m.keys ∧ P k} (m.firstKey? fun k => decide (P k)) := by
  have hfirst := m.isFirst_firstKey? fun k => decide (P k)
  simp only [decide_eq_true_eq] at hfirst
  exact hfirst

theorem isLast_lastKey?_decide (P : κ → Prop) [DecidablePred P] :
    IsLast {k | k ∈ m.keys ∧ P k} (m.lastKey? fun k => decide (P k)) := by
  have hlast := m.isLast_lastKey? fun k => decide (P k)
  simp only [decide_eq_true_eq] at hlast
  exact hlast

theorem mem_keys_of_firstKey? {m : FlatMap κ ν} {p : κ → Bool} {k : κ}
    (h : m.firstKey? p = some k) : k ∈ m.keys := by
  have hfirst := m.isFirst_firstKey? p
  rw [h] at hfirst
  exact hfirst.1.1

theorem mem_keys_of_lastKey? {m : FlatMap κ ν} {p : κ → Bool} {k : κ}
    (h : m.lastKey? p = some k) : k ∈ m.keys := by
  have hlast := m.isLast_lastKey? p
  rw [h] at hlast
  exact hlast.1.1

theorem isFirst_firstKey?_true : IsFirst {q | q ∈ m.keys} (m.firstKey? fun _ => true) := by
  have hfirst := m.isFirst_firstKey? fun _ => true
  simp only [and_true] at hfirst
  exact hfirst

/-! ### Neighbours -/

variable {m} {k : κ}

/-- A lower bound that is another key comes after the key. -/
theorem firstKey?_le_of_ne (hk : m.firstKey? (k ≤ ·) ≠ some k) :
    m.firstKey? (k ≤ ·) = m.firstKey? (k < ·) := by
  have hfirst := m.isFirst_firstKey?_decide (k ≤ ·)
  have hset : {q | q ∈ m.keys ∧ k ≤ q} = {q | q ∈ m.keys ∧ k < q} := by
    ext q
    refine and_congr_right fun hq => ⟨fun hkq => lt_of_le_of_ne hkq ?_, le_of_lt⟩
    rintro rfl
    exact hk (hfirst.unique (isFirst_some_iff.mpr ⟨⟨hq, le_rfl⟩, fun _ hq' => hq'.2⟩))
  rw [hset] at hfirst
  exact hfirst.unique (m.isFirst_firstKey?_decide (k < ·))

/-- The key before the next one is the key itself. -/
theorem lastKey?_precedes_next (hk : k ∈ m.keys) :
    m.lastKey? (fun q => decide (Precedes q (m.firstKey? (k < ·)))) = some k := by
  have hfirst := m.isFirst_firstKey?_decide (k < ·)
  refine (m.isLast_lastKey?_decide fun q => Precedes q (m.firstKey? (k < ·))).unique ?_
  cases hpos : m.firstKey? (k < ·) with
  | none =>
    rw [hpos] at hfirst
    refine isLast_some_iff.mpr ⟨⟨hk, trivial⟩, fun q hq => not_lt.mp fun hkq => ?_⟩
    exact isFirst_none_iff.mp hfirst q ⟨hq.1, hkq⟩
  | some n =>
    rw [hpos] at hfirst
    refine isLast_some_iff.mpr ⟨⟨hk, hfirst.1.2⟩, fun q hq => not_lt.mp fun hkq => ?_⟩
    exact absurd hq.2 (not_lt.mpr (hfirst.2 ⟨hq.1, hkq⟩))

/-- The keys before a lower bound are those before the key. -/
theorem lastKey?_precedes_lower :
    m.lastKey? (fun q => decide (Precedes q (m.firstKey? (k ≤ ·)))) = m.lastKey? (· < k) := by
  have hfirst := m.isFirst_firstKey?_decide (k ≤ ·)
  have hset : {q | q ∈ m.keys ∧ Precedes q (m.firstKey? (k ≤ ·))} = {q | q ∈ m.keys ∧ q < k} := by
    ext q
    refine and_congr_right fun hq => ?_
    cases hpos : m.firstKey? (k ≤ ·) with
    | none =>
      rw [hpos] at hfirst
      refine iff_of_true trivial (not_le.mp fun hkq => ?_)
      exact isFirst_none_iff.mp hfirst q ⟨hq, hkq⟩
    | some n =>
      rw [hpos] at hfirst
      refine ⟨fun hqn => not_le.mp fun hkq => ?_, fun hqk => lt_of_lt_of_le hqk hfirst.1.2⟩
      exact absurd hqn (not_lt.mpr (hfirst.2 ⟨hq, hkq⟩))
  have hlast := m.isLast_lastKey?_decide fun q => Precedes q (m.firstKey? (k ≤ ·))
  rw [hset] at hlast
  exact hlast.unique (m.isLast_lastKey?_decide (· < k))

/-- There is no key before a lower bound that is the first key. -/
theorem lastKey?_lt_eq_none (h : m.firstKey? (k ≤ ·) = m.firstKey? fun _ => true) :
    m.lastKey? (· < k) = none := by
  have hfirst := m.isFirst_firstKey?_decide (k ≤ ·)
  have hall := m.isFirst_firstKey?_true
  rw [← h] at hall
  refine (m.isLast_lastKey?_decide (· < k)).unique (isLast_none_iff.mpr ?_)
  rintro q ⟨hq, hqk⟩
  cases hpos : m.firstKey? (k ≤ ·) with
  | none =>
    rw [hpos] at hall
    exact isFirst_none_iff.mp hall q hq
  | some n =>
    rw [hpos] at hfirst hall
    exact absurd (hfirst.1.2.trans (hall.2 hq)) (not_le.mpr hqk)

end FlatMap

end DcdProtocol.Library
