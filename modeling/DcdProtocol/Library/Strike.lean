import Mathlib

/-!
# Names struck off a list

Someone goes through a sequence of names with a list in hand.  A name that is on the list is marked
and struck off, once.  If every name is on the list as often as it is in the sequence, or not at all,
then the marked names are those on the list, and what is left of the list are the names that are not
in the sequence.
-/

namespace DcdProtocol.Library

open List

variable {α : Type} [DecidableEq α]

/-- Which of the names `xs` are marked, and what is left of the list. -/
def strike : List α → List α → List Bool × List α
  | [], names => ([], names)
  | x :: xs, names =>
    if x ∈ names then (true :: (strike xs (names.erase x)).1, (strike xs (names.erase x)).2)
    else (false :: (strike xs names).1, (strike xs names).2)

/-- Every name that is on the list is there as often as in the sequence. -/
def ListedOnce (xs names : List α) : Prop := ∀ x ∈ xs, x ∈ names → names.count x = xs.count x

instance (xs names : List α) : Decidable (ListedOnce xs names) :=
  inferInstanceAs (Decidable (∀ x ∈ xs, x ∈ names → names.count x = xs.count x))

variable {x : α} {xs names : List α}

theorem filter_erase_of_not {p : α → Bool} (hx : p x = false) :
    (names.erase x).filter p = names.filter p := by
  induction names with
  | nil => rfl
  | cons y ys ih => grind

theorem erase_eq_filter (hx : names.count x = 1) : names.erase x = names.filter fun y => y ≠ x := by
  induction names with
  | nil => simp at hx
  | cons y ys ih =>
    by_cases hy : y = x
    · subst hy
      rw [count_cons_self, Nat.succ_inj, count_eq_zero] at hx
      rw [erase_cons_head, filter_cons_of_neg (by simp), eq_comm, filter_eq_self]
      rintro z hz
      simpa using fun h : z = y => hx (h ▸ hz)
    · grind

namespace ListedOnce

section

variable (h : ListedOnce (x :: xs) names)
include h

/-- If the first name is on the list, the rest of the sequence is compared with the list without
it. -/
theorem erase (hx : x ∈ names) : ListedOnce xs (names.erase x) := by
  intro y hy hmem
  have hcount := h y (mem_cons_of_mem x hy) (mem_of_mem_erase hmem)
  by_cases hyx : y = x
  · grind
  · grind

theorem tail (hx : x ∉ names) : ListedOnce xs names := by
  intro y hy hmem
  have hyx : x ≠ y := fun h => hx (h ▸ hmem)
  rw [h y (mem_cons_of_mem x hy) hmem, count_cons_of_ne hyx]

/-- A name that was struck off is still on the list if it comes again. -/
theorem mem_erase_iff (hx : x ∈ names) {y : α} (hy : y ∈ xs) : y ∈ names.erase x ↔ y ∈ names := by
  by_cases hyx : y = x
  · subst hyx
    have hcount := h y mem_cons_self hx
    rw [count_cons_self] at hcount
    have hpos : 0 < xs.count y := count_pos_iff.mpr hy
    refine ⟨fun _ => hx, fun _ => count_pos_iff.mp ?_⟩
    rw [count_erase_self]
    omega
  · exact mem_erase_of_ne hyx

theorem filter_erase (hx : x ∈ names) :
    (names.erase x).filter (fun y => y ∉ xs) = names.filter fun y => y ∉ x :: xs := by
  by_cases hmem : x ∈ xs
  · rw [filter_erase_of_not (by simpa using hmem)]
    apply filter_congr
    intro y _
    by_cases hyx : y = x
    · subst hyx
      simp [hmem]
    · simp [hyx]
  · have hcount := h x mem_cons_self hx
    rw [count_cons_self, count_eq_zero.mpr hmem] at hcount
    rw [erase_eq_filter hcount, filter_filter]
    simp [Bool.and_comm]

end

end ListedOnce

theorem strike_eq (h : ListedOnce xs names) :
    strike xs names = (xs.map fun x => decide (x ∈ names), names.filter fun y => y ∉ xs) := by
  induction xs generalizing names with
  | nil =>
    have hrest : (names.filter fun y => y ∉ ([] : List α)) = names := by simp
    rw [strike, hrest, map_nil]
  | cons x xs ih =>
    by_cases hx : x ∈ names
    · have hmarks : (xs.map fun y => decide (y ∈ names.erase x)) =
          xs.map fun y => decide (y ∈ names) :=
        map_congr_left fun y hy => decide_eq_decide.mpr (h.mem_erase_iff hx hy)
      rw [strike, if_pos hx, ih (h.erase hx), hmarks, h.filter_erase hx, map_cons,
        decide_eq_true hx]
    · have hrest : (names.filter fun y => y ∉ x :: xs) = names.filter fun y => y ∉ xs := by
        apply filter_congr
        intro y hy
        have hyx : y ≠ x := fun h => hx (h ▸ hy)
        simp [hyx]
      rw [strike, if_neg hx, ih (h.tail hx), hrest, map_cons, decide_eq_false hx]

end DcdProtocol.Library
