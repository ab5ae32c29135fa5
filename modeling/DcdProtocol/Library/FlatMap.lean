import Mathlib

/-!
# Ordered associative containers

A flat map is a list of key/value pairs with strictly increasing keys: the value of an
ordered associative container (`std::map`, `flat_map`, a table with a unique primary key).
The ordering is a field of the structure, so every flat map has at most one value per key
and iterating over it visits the keys in increasing order.

`insert` is `m[k] = v`, `emplace` is an insertion that keeps an existing value.  The lookup
lemmas below are all that the developments over flat maps use: `find?_insert` for what an
update does to every key, and `mem_entries_iff` to pass between iteration and lookup.
-/

namespace DcdProtocol.Library

open List

/-- A finite map whose entries are kept in strictly increasing key order. -/
structure FlatMap (κ ν : Type*) [LinearOrder κ] where
  /-- The entries, in iteration order. -/
  entries : List (κ × ν)
  /-- The keys are strictly increasing. -/
  sorted : entries.Pairwise fun a b => a.1 < b.1

namespace FlatMap

variable {κ ν : Type*} [LinearOrder κ]

instance [DecidableEq ν] : DecidableEq (FlatMap κ ν) := fun m₁ m₂ =>
  match m₁, m₂ with
  | ⟨e₁, _⟩, ⟨e₂, _⟩ =>
    if h : e₁ = e₂ then isTrue (by subst h; rfl) else isFalse fun heq => h (by cases heq; rfl)

def empty : FlatMap κ ν := ⟨[], List.Pairwise.nil⟩

instance : Inhabited (FlatMap κ ν) := ⟨empty⟩

def keys (m : FlatMap κ ν) : List κ := m.entries.map Prod.fst

def values (m : FlatMap κ ν) : List ν := m.entries.map Prod.snd

/-- The value stored under `k`, if there is one. -/
def find? (m : FlatMap κ ν) (k : κ) : Option ν :=
  (m.entries.find? fun e => e.1 = k).map Prod.snd

/-- Whether a value is stored under `k`. -/
def contains (m : FlatMap κ ν) (k : κ) : Bool := (m.find? k).isSome

/-- Ordered insertion into an entry list, replacing an entry of the same key. -/
def insertEntry (k : κ) (v : ν) : List (κ × ν) → List (κ × ν)
  | [] => [(k, v)]
  | e :: es =>
    if k < e.1 then (k, v) :: e :: es
    else if k = e.1 then (k, v) :: es
    else e :: insertEntry k v es

variable {m : FlatMap κ ν} {es : List (κ × ν)} {k k' : κ} {v : ν}

theorem mem_insertEntry {e : κ × ν} (he : e ∈ insertEntry k v es) : e = (k, v) ∨ e ∈ es := by
  induction es with
  | nil => simpa [insertEntry] using he
  | cons d ds ih =>
    rw [insertEntry] at he
    split_ifs at he <;> grind

theorem insertEntry_sorted (k : κ) (v : ν) (hes : es.Pairwise fun a b => a.1 < b.1) :
    (insertEntry k v es).Pairwise fun a b => a.1 < b.1 := by
  induction es with
  | nil => simp [insertEntry]
  | cons d ds ih =>
    have hd : ∀ e ∈ ds, d.1 < e.1 := fun e => rel_of_pairwise_cons hes
    rw [insertEntry]
    split_ifs with hlt heq
    · grind
    · exact hes.of_cons.cons fun e he => heq ▸ hd e he
    refine (ih hes.of_cons).cons fun e he => ?_
    rcases mem_insertEntry he with rfl | he
    · grind
    · exact hd e he

/-- `m[k] = v`: store `v` under `k`, replacing the previous value. -/
def insert (m : FlatMap κ ν) (k : κ) (v : ν) : FlatMap κ ν :=
  ⟨insertEntry k v m.entries, insertEntry_sorted k v m.sorted⟩

/-- Store `v` under `k` unless the key is taken. -/
def emplace (m : FlatMap κ ν) (k : κ) (v : ν) : FlatMap κ ν :=
  if m.contains k then m else m.insert k v

/-- Remove the entry of key `k`. -/
def erase (m : FlatMap κ ν) (k : κ) : FlatMap κ ν :=
  ⟨m.entries.filter fun e => e.1 ≠ k, m.sorted.sublist filter_sublist⟩

/-! ## Lookup -/

@[simp] theorem find?_empty (k : κ) : (empty : FlatMap κ ν).find? k = none := rfl

theorem keys_nodup (m : FlatMap κ ν) : m.keys.Nodup := by
  rw [keys, List.Nodup, pairwise_map]
  exact m.sorted.imp ne_of_lt

theorem eq_of_mem_of_mem {w : ν} (hv : (k, v) ∈ m.entries) (hw : (k, w) ∈ m.entries) : v = w := by
  have heq := inj_on_of_nodup_map m.keys_nodup hv hw rfl
  exact (Prod.ext_iff.mp heq).2

theorem mem_entries_iff : (k, v) ∈ m.entries ↔ m.find? k = some v := by
  rw [find?, Option.map_eq_some_iff]
  constructor
  · intro hmem
    obtain ⟨e, he⟩ : ∃ e, m.entries.find? (fun e => e.1 = k) = some e := by
      refine Option.isSome_iff_exists.mp (find?_isSome.mpr ⟨(k, v), hmem, by simp⟩)
    have hk : e.1 = k := by simpa using find?_some he
    have hemem : (k, e.2) ∈ m.entries := hk ▸ mem_of_find?_eq_some he
    exact ⟨e, he, eq_of_mem_of_mem hemem hmem⟩
  · grind

/-- A map is determined by what is stored under its keys. -/
theorem ext_find? {m₁ m₂ : FlatMap κ ν}
    (hfind : ∀ k v, m₁.find? k = some v ↔ m₂.find? k = some v) : m₁ = m₂ := by
  have hnodup (m : FlatMap κ ν) : m.entries.Nodup :=
    m.sorted.imp fun hlt heq => hlt.ne (congrArg Prod.fst heq)
  have hperm : m₁.entries.Perm m₂.entries := by
    refine (perm_ext_iff_of_nodup (hnodup m₁) (hnodup m₂)).mpr ?_
    rintro ⟨k, v⟩
    rw [mem_entries_iff, mem_entries_iff]
    exact hfind k v
  have hentries : m₁.entries = m₂.entries :=
    hperm.eq_of_pairwise (fun a b _ _ hab hba => absurd hab hba.not_gt) m₁.sorted m₂.sorted
  cases m₂
  cases hentries
  rfl

theorem mem_keys_iff : k ∈ m.keys ↔ ∃ v, m.find? k = some v := by
  simp only [keys, mem_map, Prod.exists, exists_eq_right, mem_entries_iff, exists_and_right]

theorem mem_values_iff : v ∈ m.values ↔ ∃ k, m.find? k = some v := by
  simp only [values, mem_map, Prod.exists, exists_eq_right, mem_entries_iff]

theorem find?_eq_none_iff : m.find? k = none ↔ k ∉ m.keys := by
  rw [mem_keys_iff, ← Option.ne_none_iff_exists', not_not]

theorem contains_iff : m.contains k = true ↔ k ∈ m.keys := by
  rw [contains, Option.isSome_iff_exists, mem_keys_iff]

/-! ## Entries in order -/

/-- The map without its first `n` entries. -/
def drop (m : FlatMap κ ν) (n : ℕ) : FlatMap κ ν :=
  ⟨m.entries.drop n, m.sorted.sublist (drop_sublist n m.entries)⟩

private theorem insertEntry_of_lt
    (hlt : ∀ e ∈ es, e.1 < k) : insertEntry k v es = es ++ [(k, v)] := by
  induction es with
  | nil => rfl
  | cons d ds ih =>
    have hd : d.1 < k := hlt d (by simp)
    rw [insertEntry, if_neg hd.asymm, if_neg hd.ne', ih fun e he => hlt e (by simp [he])]
    rfl

theorem entries_insert_of_lt
    (hlt : ∀ e ∈ m.entries, e.1 < k) : (m.insert k v).entries = m.entries ++ [(k, v)] :=
  insertEntry_of_lt hlt

theorem find?_eq_none_of_lt (hlt : ∀ e ∈ m.entries, e.1 < k) : m.find? k = none := by
  rw [find?_eq_none_iff]
  intro hk
  obtain ⟨e, he, rfl⟩ := mem_map.mp hk
  exact lt_irrefl _ (hlt e he)

theorem contains_eq_false_of_lt (hlt : ∀ e ∈ m.entries, e.1 < k) : m.contains k = false := by
  rw [contains, find?_eq_none_of_lt hlt]
  rfl

/-- Erasing the keys of the first `n` entries one by one. -/
theorem entries_foldl_erase_take (m : FlatMap κ ν) (n : ℕ) :
    (((m.entries.take n).map Prod.fst).foldl erase m).entries = m.entries.drop n := by
  induction n generalizing m with
  | zero => rfl
  | succ n ih =>
    obtain ⟨es, hsorted⟩ := m
    cases es with
    | nil => rfl
    | cons e es =>
      have hrest : (erase ⟨e :: es, hsorted⟩ e.1).entries = es := by
        have hne : ∀ d ∈ es, d.1 ≠ e.1 := fun d hd =>
          ((pairwise_cons.mp hsorted).1 d hd).ne'
        simp only [erase, filter_cons, ne_eq, not_true_eq_false, decide_false,
          Bool.false_eq_true, if_false]
        exact filter_eq_self.mpr fun d hd => by simpa using hne d hd
      have := ih (erase ⟨e :: es, hsorted⟩ e.1)
      rw [hrest] at this
      exact this

/-! ## Updates -/

private theorem find?_insertEntry (k k' : κ) (v : ν) (es : List (κ × ν)) :
    ((insertEntry k v es).find? fun e => e.1 = k').map Prod.snd =
      if k' = k then some v else (es.find? fun e => e.1 = k').map Prod.snd := by
  induction es with
  | nil => by_cases h : k = k' <;> simp [insertEntry, h, Ne.symm]
  | cons d ds ih =>
    by_cases hk : k' = k
    · subst hk
      rw [if_pos rfl] at ih ⊢
      rw [insertEntry]
      split_ifs with hlt heq
      · simp
      · simp
      · grind
    · rw [if_neg hk] at ih ⊢
      rw [insertEntry]
      split_ifs with hlt heq
      · grind
      · grind
      · grind

theorem find?_insert (m : FlatMap κ ν) (k k' : κ) (v : ν) :
    (m.insert k v).find? k' = if k' = k then some v else m.find? k' :=
  find?_insertEntry k k' v m.entries

@[simp] theorem find?_insert_self (m : FlatMap κ ν) (k : κ) (v : ν) :
    (m.insert k v).find? k = some v := by
  rw [find?_insert, if_pos rfl]

theorem find?_insert_of_ne (m : FlatMap κ ν) (v : ν) (hne : k' ≠ k) :
    (m.insert k v).find? k' = m.find? k' := by
  rw [find?_insert, if_neg hne]

theorem insert_insert (m : FlatMap κ ν) (k : κ) (v w : ν) :
    (m.insert k v).insert k w = m.insert k w := by
  apply ext_find?
  intro k' u
  simp only [find?_insert]
  split_ifs <;> exact .rfl

theorem insert_of_find? (hfind : m.find? k = some v) : m.insert k v = m := by
  apply ext_find?
  intro k' w
  rw [find?_insert]
  split_ifs with heq
  · rw [heq, hfind]
  · exact .rfl

theorem find?_emplace (m : FlatMap κ ν) (k k' : κ) (v : ν) :
    (m.emplace k v).find? k' = if k' = k ∧ m.find? k = none then some v else m.find? k' := by
  rw [emplace]
  cases hk : m.find? k with
  | none => simp [contains, hk, find?_insert]
  | some w => simp [contains, hk]

theorem find?_erase (m : FlatMap κ ν) (k k' : κ) :
    (m.erase k).find? k' = if k' = k then none else m.find? k' := by
  rw [Option.ext_iff]
  intro v
  rw [← mem_entries_iff]
  simp only [erase, mem_filter, mem_entries_iff]
  split_ifs with hk <;> simp [hk]

/-- What is left after the keys of a list are erased. -/
theorem find?_foldl_erase_eq_some {ks : List κ} :
    (ks.foldl erase m).find? k = some v ↔ k ∉ ks ∧ m.find? k = some v := by
  induction ks generalizing m with
  | nil => simp
  | cons a ks ih =>
    rw [foldl_cons, ih, find?_erase]
    by_cases hk : k = a <;> simp [hk]

theorem mem_keys_insert : k' ∈ (m.insert k v).keys ↔ k' = k ∨ k' ∈ m.keys := by
  simp only [mem_keys_iff, find?_insert]
  by_cases hk : k' = k <;> simp [hk]

theorem mem_keys_erase : k' ∈ (m.erase k).keys ↔ k' ≠ k ∧ k' ∈ m.keys := by
  simp only [mem_keys_iff, find?_erase]
  by_cases hk : k' = k <;> simp

theorem perm_keys_insert (hk : k ∉ m.keys) (v : ν) : (m.insert k v).keys.Perm (k :: m.keys) := by
  refine (perm_ext_iff_of_nodup (keys_nodup _) (m.keys_nodup.cons hk)).mpr fun k' => ?_
  rw [mem_keys_insert, mem_cons]

theorem perm_keys_erase (m : FlatMap κ ν) (k : κ) : (m.erase k).keys.Perm (m.keys.erase k) := by
  refine (perm_ext_iff_of_nodup (keys_nodup _) (m.keys_nodup.erase k)).mpr fun k' => ?_
  rw [mem_keys_erase, m.keys_nodup.mem_erase_iff]

private theorem insertEntry_of_mem
    (hes : es.Pairwise fun a b => a.1 < b.1) (hk : ∃ w, (k, w) ∈ es) :
    insertEntry k v es = es.map fun e => if e.1 = k then (k, v) else e := by
  induction es with
  | nil => simp at hk
  | cons d ds ih =>
    obtain ⟨w, hw⟩ := hk
    have hd : ∀ e ∈ ds, d.1 < e.1 := fun e => rel_of_pairwise_cons hes
    rw [insertEntry, map_cons]
    by_cases heq : k = d.1
    · have hrest : ds.map (fun e => if e.1 = k then (k, v) else e) = ds := by
        nth_rewrite 2 [← map_id ds]
        exact map_congr_left fun e he => if_neg (heq ▸ (hd e he).ne')
      rw [if_neg (heq ▸ lt_irrefl _), if_pos heq, if_pos heq.symm, hrest]
    · have hmem : (k, w) ∈ ds := by
        rcases mem_cons.mp hw with hwd | hwd
        · grind
        · exact hwd
      rw [if_neg (hd _ hmem).not_gt, if_neg heq, if_neg (Ne.symm heq), ih hes.of_cons ⟨w, hmem⟩]

/-- Storing under a key that is present replaces its value in place. -/
theorem entries_insert_of_mem (hk : k ∈ m.keys) (v : ν) :
    (m.insert k v).entries = m.entries.map fun e => if e.1 = k then (k, v) else e := by
  obtain ⟨w, hw⟩ := mem_keys_iff.mp hk
  exact insertEntry_of_mem m.sorted ⟨w, mem_entries_iff.mpr hw⟩

theorem keys_insert_of_mem (hk : k ∈ m.keys) (v : ν) : (m.insert k v).keys = m.keys := by
  rw [keys, entries_insert_of_mem hk, map_map, keys]
  refine map_congr_left fun e _ => ?_
  by_cases heq : e.1 = k <;> simp [heq]

end FlatMap

end DcdProtocol.Library
