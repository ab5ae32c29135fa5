import Mathlib

/-!
# Worklists

A loop takes the first element of a worklist, puts it on a list of results and appends the
successors of the element to the worklist, until that is empty.  Elements are not compared with
those seen before.

What the loop collects contains the elements it started with and is closed under successors, and
whatever holds of the start and is inherited by successors holds of all of it.  It ends, after at
most as many rounds as there are elements, if the successors form a forest: `rank` increases from an
element to its successors, and no element is the successor of two (`IsForest`).
-/

namespace DcdProtocol.Library

open List Option

namespace Worklist

variable {α : Type*} (next : α → List α)

/-- The loop, for at most `fuel` rounds. -/
def collect : ℕ → List α → List α → Option (List α)
  | _, [], done => some done
  | 0, _ :: _, _ => none
  | fuel + 1, a :: todo, done => collect fuel (todo ++ next a) (done ++ [a])

variable {next} {fuel : ℕ} {todo done result : List α}

section

variable (hok : collect next fuel todo done = some result)
include hok

/-- What a round keeps holds at the end of the loop. -/
theorem collect_invariant {I : List α → List α → Prop} (hstart : I todo done)
    (hround : ∀ a todo done, I (a :: todo) done → I (todo ++ next a) (done ++ [a])) :
    I [] result := by
  induction fuel generalizing todo done with
  | zero =>
    cases todo with
    | nil => exact some.inj hok ▸ hstart
    | cons b todo => cases hok
  | succ fuel ih =>
    cases todo with
    | nil => exact some.inj hok ▸ hstart
    | cons b todo => exact ih hok (hround b todo done hstart)

theorem mem_of_collect : ∀ a ∈ done ++ todo, a ∈ result := by
  intro a ha
  have hmem := collect_invariant hok (I := fun todo done => a ∈ done ++ todo) ha
  simpa using hmem (by simp; tauto)

/-- A property of the start that successors inherit holds of the result. -/
theorem forall_of_collect {P : α → Prop}
    (hstart : ∀ a ∈ done ++ todo, P a) (hnext : ∀ a, P a → ∀ b ∈ next a, P b) :
    ∀ a ∈ result, P a := by
  have hall := collect_invariant hok (I := fun todo done => ∀ a ∈ done ++ todo, P a) hstart ?_
  · simpa using hall
  · intro b todo done h a ha
    have hb : P b := h b (by simp)
    grind

theorem closed_of_collect (hdone : ∀ a ∈ done, ∀ b ∈ next a, b ∈ done ++ todo) :
    ∀ a ∈ result, ∀ b ∈ next a, b ∈ result := by
  have hclosed := collect_invariant hok
    (I := fun todo done => ∀ a ∈ done, ∀ b ∈ next a, b ∈ done ++ todo) hdone ?_
  · simpa using hclosed
  · grind

end

/-! ## Termination -/

structure IsForest (next : α → List α) (rank : α → ℕ) : Prop where
  rank_lt : ∀ a, ∀ b ∈ next a, rank a < rank b
  unique : ∀ a a' b, b ∈ next a → b ∈ next a' → a = a'
  nodup : ∀ a, (next a).Nodup

/-- The state of a search from `start` in a forest: nothing is on the lists twice, and whatever is
on them is the start or a successor of what has been taken. -/
structure Progress (next : α → List α) (rank : α → ℕ) (univ : List α) (start : α)
    (todo done : List α) : Prop where
  nodup : (done ++ todo).Nodup
  mem_univ : ∀ a ∈ done ++ todo, a ∈ univ
  rank_le : ∀ a ∈ done ++ todo, rank start ≤ rank a
  origin : ∀ a ∈ done ++ todo, a = start ∨ ∃ p ∈ done, a ∈ next p

variable {rank : α → ℕ} {univ : List α} {start a : α}

section

variable (hforest : IsForest next rank)
include hforest

theorem Progress.fresh (hprogress : Progress next rank univ start (a :: todo) done) :
    ∀ b ∈ next a, b ∉ done ++ a :: todo := by
  intro b hb hmem
  rcases hprogress.origin b hmem with rfl | ⟨p, hp, hbp⟩
  · have hlt := hforest.rank_lt a b hb
    have hle := hprogress.rank_le a (by simp)
    omega
  · obtain rfl := hforest.unique a p b hb hbp
    exact (nodup_append.mp hprogress.nodup).2.2 a hp a (by simp) rfl

theorem Progress.step (hclosed : ∀ a ∈ univ, ∀ b ∈ next a, b ∈ univ)
    (hprogress : Progress next rank univ start (a :: todo) done) :
    Progress next rank univ start (todo ++ next a) (done ++ [a]) := by
  have happend : (done ++ [a]) ++ (todo ++ next a) = (done ++ a :: todo) ++ next a := by simp
  have hmem : a ∈ done ++ a :: todo := by simp
  constructor
  · rw [happend]
    refine nodup_append.mpr ⟨hprogress.nodup, hforest.nodup a, ?_⟩
    rintro b hb c hc rfl
    exact hprogress.fresh hforest b hc hb
  · rw [happend]
    intro b hb
    rcases mem_append.mp hb with hb | hb
    · exact hprogress.mem_univ b hb
    · exact hclosed a (hprogress.mem_univ a hmem) b hb
  · rw [happend]
    intro b hb
    rcases mem_append.mp hb with hb | hb
    · exact hprogress.rank_le b hb
    · exact Nat.le_trans (hprogress.rank_le a hmem) (Nat.le_of_lt (hforest.rank_lt a b hb))
  · rw [happend]
    intro b hb
    rcases mem_append.mp hb with hb | hb
    · rcases hprogress.origin b hb with rfl | ⟨p, hp, hbp⟩
      · exact .inl rfl
      · grind
    · exact .inr ⟨a, by simp, hb⟩

theorem Progress.exists_collect (hclosed : ∀ a ∈ univ, ∀ b ∈ next a, b ∈ univ)
    (hprogress : Progress next rank univ start todo done)
    (hfuel : univ.length ≤ fuel + done.length) :
    ∃ result, collect next fuel todo done = some result := by
  induction fuel generalizing todo done with
  | zero =>
    cases todo with
    | nil => exact ⟨done, rfl⟩
    | cons a todo =>
      -- there would be more distinct elements than the universe has
      have hle := (subperm_of_subset hprogress.nodup hprogress.mem_univ).length_le
      simp only [length_append, length_cons] at hle
      omega
  | succ fuel ih =>
    cases todo with
    | nil => exact ⟨done, rfl⟩
    | cons a todo =>
      apply ih (hprogress.step hforest hclosed)
      rw [length_append, length_singleton]
      omega

/-- In a forest, a search from one element visits no element twice, and so it ends. -/
theorem exists_collect (hstart : start ∈ univ)
    (hclosed : ∀ a ∈ univ, ∀ b ∈ next a, b ∈ univ) (hfuel : univ.length ≤ fuel) :
    ∃ result, collect next fuel [start] [] = some result := by
  have hinit : Progress next rank univ start [start] [] := by
    constructor <;> simp [hstart]
  exact hinit.exists_collect hforest hclosed (by simpa using hfuel)

end

end Worklist

end DcdProtocol.Library
