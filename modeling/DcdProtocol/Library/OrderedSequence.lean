import Mathlib

/-!
# Sequences ordered by a comparison

An ordered tree, read from left to right, is a sequence in the order of its comparison.  Where keys
are unique it is `Strict`; while some elements are changed in place, equal keys may be there for a
moment and it is only `Weak`.  `insertUnique` and `insertEqual` insert an element at its position,
and `refit` moves one whose key has changed, if its neighbours show that it is out of place.

A strict sequence is determined by its elements (`Strict.eq_of_perm`).
-/

namespace DcdProtocol.Library

open List Option

variable {α : Type*}

/-- A comparison by keys: incomparable elements have equal keys. -/
structure StrictWeak (lt : α → α → Bool) : Prop where
  irrefl : ∀ a, lt a a = false
  trans : ∀ {a b c}, lt a b = true → lt b c = true → lt a c = true
  negTrans : ∀ {a c} b, lt a c = true → lt a b = true ∨ lt b c = true

theorem StrictWeak.asymm {lt : α → α → Bool} (h : StrictWeak lt) {a b : α} (hab : lt a b = true) :
    lt b a = false := by
  by_contra hba
  have hself := h.trans hab (Bool.of_not_eq_false hba)
  rw [h.irrefl a] at hself
  cases hself

def Weak (lt : α → α → Bool) (xs : List α) : Prop := xs.Pairwise fun a b => lt b a = false

def Strict (lt : α → α → Bool) (xs : List α) : Prop := xs.Pairwise fun a b => lt a b = true

variable (lt : α → α → Bool) (p : α)

/-- `insert_unique`: whether there is no element with an equal key, and the sequence with `p` before
the first one that is not before it. -/
def insertUnique (xs : List α) : Bool × List α :=
  ((xs.dropWhile (lt · p)).head?.all (lt p ·), xs.takeWhile (lt · p) ++ p :: xs.dropWhile (lt · p))

/-- `insert_equal`: `p` goes after the elements with an equal key. -/
def insertEqual (xs : List α) : List α :=
  xs.takeWhile (!lt p ·) ++ p :: xs.dropWhile (!lt p ·)

variable [DecidableEq α]

/-- The neighbours of `p` show that it is out of place. -/
def misplaced (xs : List α) : Bool :=
  (xs.takeWhile (· ≠ p)).getLast?.any (!lt · p) || (xs.dropWhile (· ≠ p)).tail.head?.any (!lt p ·)

/-- Move `p` to its place.  If keys are `unique` the result says whether they still are. -/
def refit (unique : Bool) (xs : List α) : Bool × List α :=
  if misplaced lt p xs then
    if unique then insertUnique lt p (xs.erase p) else (true, insertEqual lt p (xs.erase p))
  else (true, xs)

section Order

omit [DecidableEq α]

variable {lt p} {xs ys : List α}

theorem Strict.weak (h : StrictWeak lt) (hxs : Strict lt xs) : Weak lt xs :=
  hxs.imp fun hab => h.asymm hab

theorem Weak.strict (hxs : Weak lt xs) (hnodup : xs.Nodup)
    (hunique : ∀ a ∈ xs, ∀ b ∈ xs, a ≠ b → lt a b = true ∨ lt b a = true) : Strict lt xs := by
  refine (List.Pairwise.and hxs hnodup).imp_of_mem ?_
  rintro a b ha hb ⟨hba, hne⟩
  exact (hunique a ha b hb hne).resolve_right (by rw [hba]; decide)

theorem Strict.eq_of_perm (h : StrictWeak lt) (hxs : Strict lt xs) (hys : Strict lt ys)
    (hperm : xs.Perm ys) : xs = ys := by
  refine hperm.eq_of_pairwise ?_ hxs hys
  intro a b _ _ hab hba
  rw [h.asymm hab] at hba
  cases hba

theorem Strict.comparable (hxs : Strict lt xs) {a b : α} (ha : a ∈ xs) (hb : b ∈ xs)
    (hne : a ≠ b) : lt a b = true ∨ lt b a = true := by
  have hsymm : Std.Symm fun a b => lt a b = true ∨ lt b a = true := ⟨fun _ _ => Or.symm⟩
  exact (hxs.imp .inl : xs.Pairwise fun a b => lt a b = true ∨ lt b a = true).forall ha hb hne

theorem perm_insertUnique (lt : α → α → Bool) (p : α) (xs : List α) :
    (insertUnique lt p xs).2.Perm (p :: xs) := by
  refine perm_middle.trans (List.Perm.cons p ?_)
  rw [takeWhile_append_dropWhile]

theorem perm_insertEqual (lt : α → α → Bool) (p : α) (xs : List α) :
    (insertEqual lt p xs).Perm (p :: xs) := by
  refine perm_middle.trans (List.Perm.cons p ?_)
  rw [takeWhile_append_dropWhile]

/-- If `p` is before the first element, it is before all. -/
theorem Weak.lt_of_head? (h : StrictWeak lt) (hxs : Weak lt xs)
    (hhead : ∀ a ∈ xs.head?, lt p a = true) {b : α} (hb : b ∈ xs) : lt p b = true := by
  cases xs with
  | nil => cases hb
  | cons x xs =>
    have hpx := hhead x rfl
    rcases mem_cons.mp hb with rfl | hb
    · exact hpx
    rcases h.negTrans b hpx with hpb | hbx
    · exact hpb
    · rw [rel_of_pairwise_cons hxs hb] at hbx
      cases hbx

theorem not_of_mem_head?_dropWhile {q : α → Bool} {a : α} (ha : a ∈ (xs.dropWhile q).head?) :
    q a = false := by
  have hnot := head?_dropWhile_not q xs
  rw [mem_def.mp ha] at hnot
  exact hnot

theorem weak_insertEqual (h : StrictWeak lt) (hxs : Weak lt xs) : Weak lt (insertEqual lt p xs) := by
  rw [Weak, ← takeWhile_append_dropWhile (p := (!lt p ·)) (l := xs), pairwise_append] at hxs
  obtain ⟨hbefore, hafter, hcross⟩ := hxs
  refine pairwise_append.mpr ⟨hbefore, hafter.cons ?_, ?_⟩
  · intro b hb
    apply h.asymm
    refine Weak.lt_of_head? h hafter (fun a ha => ?_) hb
    simpa using not_of_mem_head?_dropWhile ha
  · intro a ha b hb
    rcases mem_cons.mp hb with rfl | hb
    · simpa using mem_takeWhile_imp ha
    · exact hcross a ha b hb

theorem strict_insertUnique (h : StrictWeak lt) (hxs : Strict lt xs)
    (hinserted : (insertUnique lt p xs).1 = true) : Strict lt (insertUnique lt p xs).2 := by
  rw [Strict, ← takeWhile_append_dropWhile (p := (lt · p)) (l := xs), pairwise_append] at hxs
  obtain ⟨hbefore, hafter, hcross⟩ := hxs
  refine pairwise_append.mpr ⟨hbefore, hafter.cons ?_, ?_⟩
  · intro b hb
    refine Weak.lt_of_head? h (Strict.weak h hafter) (fun a ha => ?_) hb
    exact (all_eq_true _ _).mp hinserted a ha
  · intro a ha b hb
    rcases mem_cons.mp hb with rfl | hb
    · exact mem_takeWhile_imp (p := (lt · b)) ha
    · exact hcross a ha b hb

/-- The insertion succeeds where all keys differ from that of `p`. -/
theorem insertUnique_of_unique (hunique : ∀ a ∈ xs, lt p a = true ∨ lt a p = true) :
    (insertUnique lt p xs).1 = true := by
  rw [insertUnique, Option.all_eq_true]
  intro a ha
  have hmem : a ∈ xs.dropWhile (lt · p) := mem_of_mem_head? ha
  have hap : lt a p = false := not_of_mem_head?_dropWhile (q := (lt · p)) ha
  exact (hunique a ((dropWhile_sublist _).subset hmem)).resolve_right (by rw [hap]; decide)

end Order

/-! ## Moving an element -/

variable {lt p} {xs : List α}

/-- The parts of the sequence on both sides of `p`. -/
theorem exists_split_of_mem (lt : α → α → Bool) (hp : p ∈ xs) :
    ∃ before after, xs = before ++ p :: after ∧ xs.erase p = before ++ after ∧
      (misplaced lt p xs = false ↔ (∀ a ∈ before.getLast?, lt a p = true) ∧
        ∀ b ∈ after.head?, lt p b = true) := by
  obtain ⟨before, after, hnot, hxs, herase⟩ := exists_erase_eq hp
  refine ⟨before, after, hxs, herase, ?_⟩
  have hbefore : ∀ a ∈ before, decide (a ≠ p) = true := by grind
  have htake : xs.takeWhile (· ≠ p) = before := by simp_all
  have hdrop : xs.dropWhile (· ≠ p) = p :: after := by simp_all
  rw [misplaced, htake, hdrop, tail_cons, Bool.or_eq_false_iff]
  simp only [Option.any_eq_false, Bool.not_eq_false', Option.mem_def]

theorem perm_refit (hp : p ∈ xs) (unique : Bool) : (refit lt p unique xs).2.Perm xs := by
  unfold refit
  split_ifs
  · exact (perm_insertUnique lt p _).trans (perm_cons_erase hp).symm
  · exact (perm_insertEqual lt p _).trans (perm_cons_erase hp).symm
  · exact List.Perm.refl xs

omit [DecidableEq α] in
/-- If the last element is before `p`, all are. -/
theorem Weak.lt_of_getLast? (h : StrictWeak lt) (hxs : Weak lt xs)
    (hlast : ∀ a ∈ xs.getLast?, lt a p = true) {b : α} (hb : b ∈ xs) : lt b p = true := by
  obtain ⟨init, last, rfl⟩ := (eq_nil_or_concat' xs).resolve_left (ne_nil_of_mem hb)
  have hlt := hlast last getLast?_concat
  rcases mem_append.mp hb with hb | hb
  · rcases h.negTrans b hlt with hlb | hbp
    · rw [(pairwise_append.mp hxs).2.2 b hb last (mem_singleton_self last)] at hlb
      cases hlb
    · exact hbp
  · rwa [mem_singleton.mp hb]

omit [DecidableEq α] in
/-- An element between two ordered parts whose neighbours are on the right sides. -/
theorem pairwise_between {R : α → α → Prop} {before after : List α}
    (hrest : (before ++ after).Pairwise R) (hbefore : ∀ a ∈ before, R a p)
    (hafter : ∀ b ∈ after, R p b) : (before ++ p :: after).Pairwise R := by
  obtain ⟨hb, ha, hcross⟩ := pairwise_append.mp hrest
  refine pairwise_append.mpr ⟨hb, ha.cons hafter, fun a ha b hb => ?_⟩
  rcases mem_cons.mp hb with rfl | hb
  · exact hbefore a ha
  · exact hcross a ha b hb

/-- An element that is in place is between those before and those after it. -/
theorem exists_sides_of_placed (h : StrictWeak lt) (hp : p ∈ xs) (hxs : Weak lt (xs.erase p))
    (hplaced : misplaced lt p xs = false) :
    ∃ before after, xs = before ++ p :: after ∧ xs.erase p = before ++ after ∧
      (∀ a ∈ before, lt a p = true) ∧ ∀ b ∈ after, lt p b = true := by
  obtain ⟨before, after, hsplit, herase, hiff⟩ := exists_split_of_mem lt hp
  obtain ⟨hbefore, hafter⟩ := hiff.mp hplaced
  rw [herase] at hxs
  obtain ⟨hb, ha, -⟩ := pairwise_append.mp hxs
  exact ⟨before, after, hsplit, herase, fun a => Weak.lt_of_getLast? h hb hbefore,
    fun b => Weak.lt_of_head? h ha hafter⟩

theorem refit_fst_of_equal (lt : α → α → Bool) (p : α) (xs : List α) :
    (refit lt p false xs).1 = true := by
  rw [refit]
  by_cases hplaced : misplaced lt p xs = true
  · grind
  · rw [if_neg hplaced]

theorem weak_refit (h : StrictWeak lt) (hp : p ∈ xs) (hxs : Weak lt (xs.erase p)) :
    Weak lt (refit lt p false xs).2 := by
  rw [refit]
  by_cases hplaced : misplaced lt p xs = true
  · rw [if_pos hplaced, if_neg Bool.false_ne_true]
    exact weak_insertEqual h hxs
  rw [if_neg hplaced]
  obtain ⟨before, after, hsplit, herase, hbefore, hafter⟩ :=
    exists_sides_of_placed h hp hxs (Bool.of_not_eq_true hplaced)
  rw [herase] at hxs
  rw [hsplit]
  exact pairwise_between hxs (fun a ha => h.asymm (hbefore a ha)) fun b hb => h.asymm (hafter b hb)

/-- An element is moved, and no other one has an equal key. -/
theorem strict_refit (h : StrictWeak lt) (hp : p ∈ xs) (hxs : Strict lt (xs.erase p))
    (hunique : (refit lt p true xs).1 = true) : Strict lt (refit lt p true xs).2 := by
  rw [refit] at hunique ⊢
  by_cases hplaced : misplaced lt p xs = true
  · rw [if_pos hplaced, if_pos rfl] at hunique ⊢
    exact strict_insertUnique h hxs hunique
  rw [if_neg hplaced]
  obtain ⟨before, after, hsplit, herase, hbefore, hafter⟩ :=
    exists_sides_of_placed h hp (hxs.weak h) (Bool.of_not_eq_true hplaced)
  rw [herase] at hxs
  rw [hsplit]
  exact pairwise_between hxs hbefore hafter

theorem erase_refit (hxs : xs.Nodup) (unique : Bool) :
    (refit lt p unique xs).2.erase p = xs.erase p := by
  have hnot : p ∉ xs.erase p := hxs.not_mem_erase
  have hparts : ∀ q : α → Bool,
      ((xs.erase p).takeWhile q ++ p :: (xs.erase p).dropWhile q).erase p = xs.erase p := by
    intro q
    have hpart : p ∉ (xs.erase p).takeWhile q := fun hmem =>
      hnot ((takeWhile_sublist q).subset hmem)
    rw [erase_append_right _ hpart, erase_cons_head, takeWhile_append_dropWhile]
  unfold refit
  split_ifs
  · exact hparts _
  · exact hparts _
  · rfl

theorem refit_fst_of_unique (hunique : ∀ a ∈ xs.erase p, lt p a = true ∨ lt a p = true) :
    (refit lt p true xs).1 = true := by
  rw [refit]
  by_cases hplaced : misplaced lt p xs = true
  · rw [if_pos hplaced, if_pos rfl]
    exact insertUnique_of_unique hunique
  · rw [if_neg hplaced]

end DcdProtocol.Library
