import Mathlib

/-!
# Consecutive intervals

Pieces of a sequence, each of which covers the numbers from `first` up to, but not including, `next`.
`Consecutive first next a xs b` says that the pieces `xs` cover the numbers from `a` up to `b` one
after another, none of them being empty.  The piece with a given number is the last one that starts
at or before it (`exists_interval`), which is how a sorted map of the starts finds it.
-/

namespace DcdProtocol.Library

/-- The pieces cover the numbers from one up to another. -/
inductive Consecutive {α : Type*} (first next : α → ℕ) : ℕ → List α → ℕ → Prop
  | nil (n : ℕ) : Consecutive first next n [] n
  | cons {x : α} {xs : List α} {m : ℕ} (hlt : first x < next x)
      (hrest : Consecutive first next (next x) xs m) : Consecutive first next (first x) (x :: xs) m

namespace Consecutive

variable {α : Type*} {first next : α → ℕ} {a b n : ℕ} {x : α} {xs ys : List α}

theorem le (h : Consecutive first next a xs b) : a ≤ b := by
  induction h with
  | nil n => exact le_rfl
  | cons hlt _ ih => exact hlt.le.trans ih

theorem concat (h : Consecutive first next a xs b) (hfirst : first x = b) (hlt : first x < next x) :
    Consecutive first next a (xs ++ [x]) (next x) := by
  induction h with
  | nil n => exact hfirst ▸ .cons hlt (.nil _)
  | cons hlt' _ ih => exact .cons hlt' (ih hfirst)

theorem mem (h : Consecutive first next a xs b) (hx : x ∈ xs) :
    first x < next x ∧ a ≤ first x ∧ next x ≤ b := by
  induction h with
  | nil n => simp at hx
  | cons hlt hrest ih =>
    rcases List.mem_cons.mp hx with rfl | hmem
    · exact ⟨hlt, le_rfl, hrest.le⟩
    · grind

theorem split (h : Consecutive first next a (xs ++ ys) b) :
    ∃ m, Consecutive first next a xs m ∧ Consecutive first next m ys b := by
  induction xs generalizing a with
  | nil => exact ⟨a, .nil a, h⟩
  | cons x xs ih =>
    cases h with
    | cons hlt hrest =>
      obtain ⟨m, hxs, hys⟩ := ih hrest
      exact ⟨m, .cons hlt hxs, hys⟩

theorem eq_of_nil (h : Consecutive first next a [] b) : a = b := by
  cases h with
  | nil => rfl

/-- A run of pieces starts with its first one. -/
theorem eq_first (h : Consecutive first next a (x :: xs) b) : a = first x := by
  cases h with
  | cons => rfl

section

variable (h : Consecutive first next a xs b)
include h

/-- The first `k` pieces and the others. -/
theorem take_drop (k : ℕ) :
    ∃ m, Consecutive first next a (xs.take k) m ∧ Consecutive first next m (xs.drop k) b := by
  rw [← List.take_append_drop k xs] at h
  exact h.split

/-- The pieces that start at or before `n`, if the run starts after `n`. -/
theorem takeWhile_eq_nil (hlt : n < a) : xs.takeWhile (fun x => first x ≤ n) = [] := by
  cases h with
  | nil => rfl
  | cons => rw [List.takeWhile_cons, if_neg (by simpa using hlt)]

/-- The pieces that start at or before `n`, if the run ends there. -/
theorem takeWhile_eq_self (hle : b ≤ n) : xs.takeWhile (fun x => first x ≤ n) = xs := by
  rw [List.takeWhile_eq_self_iff]
  intro x hx
  obtain ⟨hlt, -, hnext⟩ := h.mem hx
  exact decide_eq_true (by omega)

/-- The piece of a number is the last one that starts at or before it. -/
theorem exists_interval (hn : a ≤ n) (hlt : n < b) :
    ∃ pre x post, xs = pre ++ x :: post ∧ first x ≤ n ∧ n < next x ∧
      xs.takeWhile (fun x => first x ≤ n) = pre ++ [x] := by
  induction h with
  | nil m => omega
  | @cons x xs m hx hrest ih =>
    rcases Nat.lt_or_ge n (next x) with hin | hout
    · refine ⟨[], x, xs, rfl, hn, hin, ?_⟩
      rw [List.takeWhile_cons, if_pos (decide_eq_true hn), hrest.takeWhile_eq_nil hin]
      rfl
    · obtain ⟨pre, y, post, rfl, hfirst, hnext, htake⟩ := ih hout hlt
      refine ⟨x :: pre, y, post, rfl, hfirst, hnext, ?_⟩
      rw [List.takeWhile_cons, if_pos (decide_eq_true hn), htake]
      rfl

end

end Consecutive

end DcdProtocol.Library
