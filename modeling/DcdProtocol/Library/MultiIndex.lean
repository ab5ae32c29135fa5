import Mathlib

/-!
# Containers with a key and an order

A container with a unique key that is also kept in the order of a rank: elements of the same rank are
in the order in which they got it.  `replaceKey` changes an element in place if it still fits there,
and moves it to the end of its rank otherwise.

All operations are determined up to the order by what they do to the multiset of the elements; the
lemmas here say so.
-/

namespace DcdProtocol.Library.MultiIndex

open List

variable {α κ : Type*} [DecidableEq κ] (key : α → κ) (rank : α → ℕ)

def findKey (k : κ) (l : List α) : Option α := l.find? fun a => key a = k

def eraseKey (k : κ) (l : List α) : List α := l.eraseP fun a => key a = k

def afterKey (k : κ) (l : List α) : Option α := ((l.dropWhile fun a => key a ≠ k).drop 1).head?

def insertByRank (a : α) : List α → List α
  | [] => [a]
  | b :: l => if rank a < rank b then a :: b :: l else b :: insertByRank a l

def replaceKey (k : κ) (a : α) (l : List α) : List α :=
  let before := l.takeWhile fun a => key a ≠ k
  let after := (l.dropWhile fun a => key a ≠ k).drop 1
  if (∀ b ∈ before.getLast?, rank b ≤ rank a) ∧ ∀ b ∈ after.head?, rank a ≤ rank b then
    before ++ a :: after
  else insertByRank rank a (before ++ after)

variable {key rank} {k : κ} {a : α} {l : List α}

theorem key_of_findKey (h : findKey key k l = some a) : key a = k := by
  simpa using find?_some h

theorem findKey_eq_none_iff : findKey key k l = none ↔ k ∉ l.map key := by
  simp [findKey]

theorem findKey_of_mem (hnodup : (l.map key).Nodup) (h : a ∈ l) : findKey key (key a) l = some a := by
  induction l with
  | nil => simp at h
  | cons b l ih =>
    rw [map_cons, nodup_cons] at hnodup
    rcases mem_cons.mp h with rfl | hmem
    · exact find?_cons_of_pos (by simp)
    · have hne : key b ≠ key a := fun heq => hnodup.1 (heq ▸ mem_map_of_mem hmem)
      exact (find?_cons_of_neg (by simpa using hne)).trans (ih hnodup.2 hmem)

theorem perm_insertByRank (a : α) (l : List α) : (insertByRank rank a l).Perm (a :: l) := by
  induction l with
  | nil => exact .refl _
  | cons b l ih =>
    rw [insertByRank]
    split_ifs
    · exact .refl _
    · exact (ih.cons b).trans (.swap a b l)

section

variable (h : findKey key k l = some a)
include h

/-- The elements before, at and after the one with a key. -/
theorem eq_append_of_findKey :
    l = (l.takeWhile fun a => key a ≠ k) ++ a :: (l.dropWhile fun a => key a ≠ k).drop 1 ∧
      eraseKey key k l =
        (l.takeWhile fun a => key a ≠ k) ++ (l.dropWhile fun a => key a ≠ k).drop 1 := by
  induction l with
  | nil => cases h
  | cons b l ih =>
    by_cases hb : key b = k
    · have hfound : findKey key k (b :: l) = some b := find?_cons_of_pos (by simpa using hb)
      rw [hfound, Option.some.injEq] at h
      subst h
      simp [eraseKey, hb]
    have hrest : findKey key k l = some a := by
      rw [← h]
      exact (find?_cons_of_neg (by simpa using hb)).symm
    obtain ⟨hl, herase⟩ := ih hrest
    have herase' : eraseKey key k (b :: l) = b :: eraseKey key k l := by
      rw [eraseKey, eraseP_cons_of_neg (by simpa using hb)]
      rfl
    rw [takeWhile_cons_of_pos (by simpa using hb),
      dropWhile_cons_of_pos (by simpa using hb), herase', herase]
    exact ⟨congrArg (b :: ·) hl, rfl⟩

theorem perm_eraseKey : l.Perm (a :: eraseKey key k l) := by
  obtain ⟨hl, herase⟩ := eq_append_of_findKey h
  rw [herase]
  nth_rewrite 1 [hl]
  exact perm_middle

theorem mem_eraseKey_of_ne {b : α} (hb : b ∈ l) (hne : b ≠ a) : b ∈ eraseKey key k l :=
  mem_of_ne_of_mem hne ((perm_eraseKey h).mem_iff.mp hb)

theorem perm_replaceKey (a' : α) : (replaceKey key rank k a' l).Perm (a' :: eraseKey key k l) := by
  obtain ⟨-, herase⟩ := eq_append_of_findKey h
  rw [herase, replaceKey]
  split_ifs
  · exact perm_middle
  · exact perm_insertByRank a' _

end

end DcdProtocol.Library.MultiIndex
