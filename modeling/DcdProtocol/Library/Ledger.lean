import DcdProtocol.Library.FlatMap

/-!
# Sums over the rows of a table

What a table adds up to: `sumOf f` is the sum of `f` over the entries of a map.  An update changes
it by the new row minus the one it replaces (`amountAt`), whatever else the table holds.
-/

namespace DcdProtocol.Library.FlatMap

open List

variable {κ ν M : Type*} [LinearOrder κ] {m : FlatMap κ ν}

theorem entries_nodup (m : FlatMap κ ν) : m.entries.Nodup :=
  m.sorted.imp fun hlt heq => hlt.ne (congrArg Prod.fst heq)

/-- The rows of a table, with the one of `k` first. -/
theorem entries_perm {k : κ} {v : ν} (hk : m.find? k = some v) :
    m.entries.Perm ((k, v) :: (m.erase k).entries) := by
  have hnew : (k, v) ∉ (m.erase k).entries := by
    rw [mem_entries_iff, find?_erase, if_pos rfl]
    exact Option.some_ne_none v ∘ Eq.symm
  refine (perm_ext_iff_of_nodup m.entries_nodup ((entries_nodup _).cons hnew)).mpr ?_
  rintro ⟨q, w⟩
  rw [mem_cons, mem_entries_iff, mem_entries_iff, find?_erase, Prod.mk.injEq]
  by_cases hq : q = k
  · simp [hq, hk, eq_comm]
  · simp [hq]

theorem erase_insert (m : FlatMap κ ν) (k : κ) (v : ν) : (m.insert k v).erase k = m.erase k := by
  refine ext_find? fun q w => ?_
  rw [find?_erase, find?_erase, find?_insert]
  by_cases hq : q = k <;> simp [hq]

theorem erase_of_find?_eq_none {k : κ} (hk : m.find? k = none) : m.erase k = m := by
  refine ext_find? fun q w => ?_
  rw [find?_erase]
  by_cases hq : q = k
  · rw [hq, if_pos rfl, hk]
  · rw [if_neg hq]

section Sum

variable [AddCommGroup M] (f : κ → ν → M) (m : FlatMap κ ν) (k : κ)

/-- The sum of `f` over the rows. -/
def sumOf : M := (m.entries.map fun e => f e.1 e.2).sum

/-- What the row of `k` contributes to the sum; nothing if there is none. -/
def amountAt : M := (m.find? k).elim 0 (f k)

@[simp] theorem sumOf_empty : (empty : FlatMap κ ν).sumOf f = 0 := rfl

theorem sumOf_erase : (m.erase k).sumOf f = m.sumOf f - m.amountAt f k := by
  rw [amountAt]
  cases hk : m.find? k with
  | none => rw [erase_of_find?_eq_none hk, Option.elim_none, sub_zero]
  | some v =>
    have hperm := ((entries_perm hk).map fun e => f e.1 e.2).sum_eq
    rw [map_cons, sum_cons] at hperm
    rw [sumOf, sumOf, hperm, Option.elim_some, add_sub_cancel_left]

theorem sumOf_insert (v : ν) : (m.insert k v).sumOf f = m.sumOf f - m.amountAt f k + f k v := by
  have hperm := ((entries_perm (find?_insert_self m k v)).map fun e => f e.1 e.2).sum_eq
  rw [map_cons, sum_cons, erase_insert] at hperm
  rw [← sumOf_erase, add_comm]
  exact hperm

theorem amountAt_insert (q : κ) (v : ν) :
    (m.insert k v).amountAt f q = if q = k then f k v else m.amountAt f q := by
  rw [amountAt, find?_insert]
  by_cases hq : q = k
  · grind
  · rw [if_neg hq, if_neg hq, amountAt]

theorem amountAt_erase (q : κ) :
    (m.erase k).amountAt f q = if q = k then 0 else m.amountAt f q := by
  rw [amountAt, find?_erase]
  by_cases hq : q = k
  · grind
  · rw [if_neg hq, if_neg hq, amountAt]

end Sum

variable {f : κ → ν → ℤ} {m : FlatMap κ ν} {k : κ}

theorem sumOf_nonneg (hf : ∀ k v, m.find? k = some v → 0 ≤ f k v) : 0 ≤ m.sumOf f := by
  refine sum_nonneg ?_
  intro x hx
  obtain ⟨⟨q, w⟩, hmem, rfl⟩ := mem_map.mp hx
  exact hf q w (mem_entries_iff.mp hmem)

/-- A row is at most the sum, if no row is negative. -/
theorem amountAt_le_sumOf (hf : ∀ k v, m.find? k = some v → 0 ≤ f k v) :
    m.amountAt f k ≤ m.sumOf f := by
  have hrest : 0 ≤ (m.erase k).sumOf f := by
    refine sumOf_nonneg fun q w hq => ?_
    rw [find?_erase] at hq
    split_ifs at hq
    exact hf q w hq
  rw [sumOf_erase] at hrest
  omega

end DcdProtocol.Library.FlatMap
