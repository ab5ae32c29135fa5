import Mathlib

/-!
# Order statistics of a list

`nthElement xs n` is the value `std::nth_element` puts at index `n`: the element at that index
of the sorted list.  A lower bound on it is a statement about counting, `le_nthElement_iff`:
the element at index `n` is at least `v` exactly when at most `n` elements are below `v`.
Replacing, raising or dropping elements then only has to be followed through a `countP`.
-/

namespace DcdProtocol.Library

open List

variable {α : Type*} [LinearOrder α]

/-- The element at index `n` of `xs` in sorted order. -/
def nthElement (xs : List α) (n : ℕ) : Option α :=
  (xs.insertionSort (· ≤ ·))[n]?

variable {xs : List α} {x : α} {n : ℕ}

/-- In a sorted list the entries below `v` form a prefix. -/
private theorem le_getElem_iff_countP (hxs : xs.Pairwise (· ≤ ·))
    (hx : xs[n]? = some x) (v : α) : v ≤ x ↔ xs.countP (· < v) ≤ n := by
  induction xs generalizing n with
  | nil => simp at hx
  | cons y ys ih =>
    have hy : ∀ z ∈ ys, y ≤ z := fun z => rel_of_pairwise_cons hxs
    cases n with
    | zero =>
      obtain rfl : y = x := by simpa using hx
      simp only [Nat.le_zero, countP_eq_zero, mem_cons, forall_eq_or_imp, decide_eq_true_eq, not_lt]
      exact ⟨fun hv => ⟨hv, fun z hz => hv.trans (hy z hz)⟩, fun h => h.1⟩
    | succ n =>
      have hx' : ys[n]? = some x := by simpa using hx
      have hyx : y ≤ x := hy x (mem_of_getElem? hx')
      by_cases hlt : y < v
      · grind
      have hnone : ys.countP (· < v) = 0 := by
        simp only [countP_eq_zero, decide_eq_true_eq, not_lt]
        exact fun z hz => (not_lt.mp hlt).trans (hy z hz)
      rw [countP_cons_of_neg (by simpa using hlt), hnone]
      exact ⟨fun _ => Nat.zero_le _, fun _ => (not_lt.mp hlt).trans hyx⟩

/-- The `n`-th element is at least `v` exactly when at most `n` elements are below `v`. -/
theorem le_nthElement_iff (hx : nthElement xs n = some x) (v : α) :
    v ≤ x ↔ xs.countP (· < v) ≤ n := by
  rw [le_getElem_iff_countP (pairwise_insertionSort (· ≤ ·) xs) hx v,
    (perm_insertionSort (· ≤ ·) xs).countP_eq]

theorem nthElement_mem (hx : nthElement xs n = some x) : x ∈ xs :=
  (mem_insertionSort (· ≤ ·)).mp (mem_of_getElem? hx)

theorem exists_nthElement (hn : n < xs.length) : ∃ x, nthElement xs n = some x := by
  have hlen : n < (xs.insertionSort (· ≤ ·)).length := by simp_all
  exact ⟨_, getElem?_eq_getElem hlen⟩

end DcdProtocol.Library
