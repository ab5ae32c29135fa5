import Mathlib

/-!
# Snapshots from a log of versions

A store keeps for each key its present value, with the time of its last change, and a log of the
values that were overwritten, each with the time stamp it had.  A snapshot of time `t` is read off
the newest version of each key from before `t`: the present one if it is older than `t`, and
otherwise one of the log.

`Shows` is the invariant behind this.  A key that was changed since `t` has exactly one version from
before `t` in the log, and a key that was not changed has none.  It is kept by every change of the
store that backs up the old value, at the latest, when its time stamp would otherwise be lost; each
rule below is one such change.  `rollback` makes a snapshot the present state, and keeps the older
snapshots.
-/

namespace DcdProtocol.Library

open Function List Option

/-- An overwritten value, with the time stamp it had. -/
structure Version (κ V : Type*) where
  key : κ
  value : V
  stamp : ℕ

variable {κ V : Type*} {t now T : ℕ} {old oldT : κ → Prop} {node node' nodeT extra : κ → Option V}
  {stamp stamp' : κ → ℕ} {log logT log' : List (Version κ V)} {content contentT : κ → Option V}
  {k : κ} {v w : V}

/-- `content` is the snapshot of time `t`; `old` are the keys that had been created by then. -/
structure Shows (t : ℕ) (old : κ → Prop) (node : κ → Option V) (stamp : κ → ℕ)
    (log : List (Version κ V)) (content : κ → Option V) : Prop where
  single : log.Pairwise fun e e' => e.stamp < t → e'.stamp < t → e.key ≠ e'.key
  backed : ∀ k, old k → node k ≠ none → t ≤ stamp k → ∃ e ∈ log, e.key = k ∧ e.stamp < t
  shadowed : ∀ e ∈ log, e.stamp < t → old e.key ∧ node e.key ≠ none ∧ t ≤ stamp e.key
  fresh : ∀ k, node k ≠ none → ¬old k → t ≤ stamp k
  content_eq : ∀ k v, content k = some v ↔ old k ∧ node k ≠ none ∧
    (stamp k < t ∧ node k = some v ∨ ∃ e ∈ log, e.key = k ∧ e.stamp < t ∧ e.value = v)

namespace Shows

section

variable (h : Shows t old node stamp log content)
include h

/-- Two versions from before `t` of the same key are one. -/
theorem eq_of_key_eq {e e' : Version κ V} (he : e ∈ log)
    (he' : e' ∈ log) (hlt : e.stamp < t) (hlt' : e'.stamp < t) (hkey : e.key = e'.key) : e = e' := by
  by_contra hne
  have hsymm : Std.Symm fun e e' : Version κ V =>
      e.stamp < t → e'.stamp < t → e.key ≠ e'.key := ⟨fun _ _ hab hb ha => (hab ha hb).symm⟩
  exact h.single.forall he he' hne hlt hlt' hkey

theorem content_eq_none_of_node (hk : node k = none) : content k = none := by
  by_contra hne
  obtain ⟨v, hv⟩ := ne_none_iff_exists'.mp hne
  exact ((h.content_eq k v).mp hv).2.1 hk

/-- An old key is in the snapshot as long as it has a node. -/
theorem content_ne_none_iff : content k ≠ none ↔ old k ∧ node k ≠ none := by
  constructor
  · intro hne
    obtain ⟨v, hv⟩ := ne_none_iff_exists'.mp hne
    obtain ⟨hold, hnode, -⟩ := (h.content_eq k v).mp hv
    exact ⟨hold, hnode⟩
  rintro ⟨hold, hnode⟩
  obtain ⟨v, hv⟩ := ne_none_iff_exists'.mp hnode
  rcases Nat.lt_or_ge (stamp k) t with hlt | hge
  · rw [(h.content_eq k v).mpr ⟨hold, hnode, .inl ⟨hlt, hv⟩⟩]
    exact some_ne_none v
  · obtain ⟨e, he, hkey, hlt⟩ := h.backed k hold hnode hge
    rw [(h.content_eq k e.value).mpr ⟨hold, hnode, .inr ⟨e, he, hkey, hlt, rfl⟩⟩]
    exact some_ne_none e.value

/-- The snapshot of a key that was not changed since. -/
theorem content_eq_node (hold : old k)
    (hno : ∀ e ∈ log, e.key = k → t ≤ e.stamp) : content k = node k := by
  cases hk : node k with
  | none => exact h.content_eq_none_of_node hk
  | some v =>
    have hnode : node k ≠ none := hk ▸ some_ne_none v
    refine (h.content_eq k v).mpr ⟨hold, hnode, .inl ⟨?_, hk⟩⟩
    by_contra hge
    obtain ⟨e, he, hkey, hlt⟩ := h.backed k hold hnode (not_lt.mp hge)
    exact absurd (hno e he hkey) (not_le.mpr hlt)

end

/-- What a rollback to time `T` makes of the time stamps. -/
structure Restamps (T : ℕ) (logT : List (Version κ V)) (stamp stamp' : κ → ℕ) : Prop where
  logged : ∀ e ∈ logT, e.stamp < T → stamp' e.key = e.stamp
  kept : ∀ k, (∀ e ∈ logT, e.key = k → T ≤ e.stamp) → stamp' k = stamp k

/-! ## Changes of the store -/

theorem start (hold : ∀ k, node k ≠ none → old k) (hstamp : ∀ k, node k ≠ none → stamp k < t) :
    Shows t old node stamp [] node where
  single := List.Pairwise.nil
  backed k _ hnode hge := absurd (hstamp k hnode) (not_lt.mpr hge)
  shadowed := forall_mem_nil _
  fresh k hnode hnew := absurd (hold k hnode) hnew
  content_eq k v := by
    constructor
    · grind
    · simp

variable [DecidableEq κ] {s : (κ → Option V) × (κ → ℕ)} {e : Version κ V}

section

variable (h : Shows t old node stamp log content)
include h

/-- A value is overwritten, and its version is logged. -/
theorem write (hk : node k = some v) (hnow : t ≤ now) :
    Shows t old (update node k (some w)) (update stamp k now) (⟨k, v, stamp k⟩ :: log) content := by
  have hnode : node k ≠ none := hk ▸ some_ne_none v
  have hnode' : ∀ k', update node k (some w) k' ≠ none ↔ node k' ≠ none := by grind
  have hold : stamp k < t → old k := by
    intro hlt
    by_contra hnew
    exact absurd (h.fresh k hnode hnew) (not_le.mpr hlt)
  constructor
  · refine List.Pairwise.cons ?_ h.single
    intro e he hlt hlt' hkey
    obtain ⟨-, -, hge⟩ := h.shadowed e he hlt'
    rw [← hkey] at hge
    exact absurd hlt (not_lt.mpr hge)
  · intro k' hold' hk' hge
    by_cases hkey : k' = k
    · subst hkey
      rcases Nat.lt_or_ge (stamp k') t with hlt | hge'
      · simp_all
      · obtain ⟨e, he, hrest⟩ := h.backed k' hold' hnode hge'
        exact ⟨e, mem_cons_of_mem _ he, hrest⟩
    · rw [update_of_ne hkey] at hge
      obtain ⟨e, he, hrest⟩ := h.backed k' hold' ((hnode' k').mp hk') hge
      exact ⟨e, mem_cons_of_mem _ he, hrest⟩
  · have hstamp : ∀ k', t ≤ stamp k' ∨ k' = k → t ≤ update stamp k now k' := by
      intro k' hk'
      by_cases hkey : k' = k
      · grind
      · grind
    intro e he hlt
    rcases mem_cons.mp he with rfl | he
    · grind
    · obtain ⟨hold', hk', hge⟩ := h.shadowed e he hlt
      exact ⟨hold', (hnode' _).mpr hk', hstamp _ (.inl hge)⟩
  · intro k' hk' hnew
    by_cases hkey : k' = k
    · grind
    · rw [update_of_ne hkey]
      exact h.fresh k' ((hnode' k').mp hk') hnew
  · intro k' v'
    rw [h.content_eq, hnode']
    by_cases hkey : k' = k
    · subst hkey
      simp only [update_self, hk, exists_mem_cons_iff, not_lt.mpr hnow, some.injEq]
      tauto
    · grind

/-- A value that is younger than the snapshot is overwritten in place. -/
theorem overwrite (hk : node k ≠ none)
    (hge : t ≤ stamp k) : Shows t old (update node k (some w)) stamp log content := by
  have hnode : ∀ k', update node k (some w) k' ≠ none ↔ node k' ≠ none := by grind
  constructor
  · exact h.single
  · intro k' hold hk'
    exact h.backed k' hold ((hnode k').mp hk')
  · intro e he hlt
    obtain ⟨hold, hk', hge'⟩ := h.shadowed e he hlt
    exact ⟨hold, (hnode _).mpr hk', hge'⟩
  · intro k' hk'
    exact h.fresh k' ((hnode k').mp hk')
  · intro k' v
    rw [h.content_eq, hnode]
    by_cases hkey : k' = k
    · grind
    · rw [update_of_ne hkey]

theorem create (hk : node k = none) (hnew : ¬old k)
    (hnow : t ≤ now) : Shows t old (update node k (some v)) (update stamp k now) log content := by
  have hlog : ∀ e ∈ log, e.stamp < t → e.key ≠ k := by
    rintro e he hlt rfl
    exact (h.shadowed e he hlt).2.1 hk
  constructor
  · exact h.single
  · intro k' hold hk' hge
    have hkey : k' ≠ k := fun heq => hnew (heq ▸ hold)
    rw [update_of_ne hkey] at hk' hge
    exact h.backed k' hold hk' hge
  · intro e he hlt
    rw [update_of_ne (hlog e he hlt), update_of_ne (hlog e he hlt)]
    exact h.shadowed e he hlt
  · intro k' hk' hnew'
    by_cases hkey : k' = k
    · grind
    · rw [update_of_ne hkey] at hk' ⊢
      exact h.fresh k' hk' hnew'
  · intro k' v'
    rw [h.content_eq]
    by_cases hkey : k' = k
    · grind
    · grind

end

omit [DecidableEq κ] in
/-- Keys that were created after the snapshot disappear. -/
theorem discard (h : Shows t old node stamp log content) (hkeep : ∀ k, old k → node' k = node k)
    (hsub : ∀ k, node' k ≠ none → node k ≠ none) : Shows t old node' stamp log content where
  single := h.single
  backed k hold hk := h.backed k hold (hsub k hk)
  shadowed e he hlt := by
    obtain ⟨hold, hk, hge⟩ := h.shadowed e he hlt
    exact ⟨hold, (hkeep _ hold).symm ▸ hk, hge⟩
  fresh k hk := h.fresh k (hsub k hk)
  content_eq k v := by
    rw [h.content_eq]
    refine and_congr_right fun hold => ?_
    rw [hkeep k hold]

/-- A version replaces the present value of its key, which is younger than the snapshot. -/
theorem absorb {l₁ l₂ : List (Version κ V)}
    (h : Shows t old node stamp (l₁ ++ e :: l₂) content) (hk : node e.key ≠ none)
    (hge : t ≤ stamp e.key) :
    Shows t old (update node e.key (some e.value)) (update stamp e.key e.stamp) (l₁ ++ l₂)
      content := by
  have hmem : ∀ {e'}, e' ∈ l₁ ++ e :: l₂ ↔ e' = e ∨ e' ∈ l₁ ++ l₂ := by grind
  have hnode : ∀ k', update node e.key (some e.value) k' ≠ none ↔ node k' ≠ none := by grind
  -- Since `single`, a version from before `t` leaves no other one of its key.
  have hother : ∀ e' ∈ l₁ ++ l₂, e'.stamp < t → e'.key = e.key → t ≤ e.stamp := by
    intro e' he' hlt' hkey
    by_contra hlt
    rcases mem_append.mp he' with he' | he'
    · exact (pairwise_append.mp h.single).2.2 e' he' e mem_cons_self hlt' (not_le.mp hlt) hkey
    · exact rel_of_pairwise_cons (pairwise_append.mp h.single).2.1 he' (not_le.mp hlt)
        hlt' hkey.symm
  constructor
  · exact h.single.sublist ((List.Sublist.refl l₁).append (sublist_cons_self e l₂))
  · intro k' hold hk' hge'
    by_cases hkey : k' = e.key
    · subst hkey
      rw [update_self] at hge'
      obtain ⟨e', he', hkey', hlt'⟩ := h.backed _ hold hk hge
      rcases hmem.mp he' with rfl | he'
      · exact absurd hlt' (not_lt.mpr hge')
      · exact ⟨e', he', hkey', hlt'⟩
    · rw [update_of_ne hkey] at hge'
      obtain ⟨e', he', hkey', hlt'⟩ := h.backed k' hold ((hnode k').mp hk') hge'
      rcases hmem.mp he' with rfl | he'
      · exact absurd hkey'.symm hkey
      · exact ⟨e', he', hkey', hlt'⟩
  · intro e' he' hlt'
    obtain ⟨hold, hk', hge'⟩ := h.shadowed e' (hmem.mpr (.inr he')) hlt'
    refine ⟨hold, (hnode _).mpr hk', ?_⟩
    by_cases hkey : e'.key = e.key
    · grind
    · rwa [update_of_ne hkey]
  · intro k' hk' hnew
    by_cases hkey : k' = e.key
    · rw [hkey, update_self]
      by_contra hlt
      exact hnew (hkey ▸ (h.shadowed e (hmem.mpr (.inl rfl)) (not_le.mp hlt)).1)
    · rw [update_of_ne hkey]
      exact h.fresh k' ((hnode k').mp hk') hnew
  · intro k' v'
    rw [h.content_eq, hnode]
    have hexists : (∃ e' ∈ l₁ ++ e :: l₂, e'.key = k' ∧ e'.stamp < t ∧ e'.value = v') ↔
        (e.key = k' ∧ e.stamp < t ∧ e.value = v') ∨
          ∃ e' ∈ l₁ ++ l₂, e'.key = k' ∧ e'.stamp < t ∧ e'.value = v' := by
      simp only [hmem, or_and_right, exists_or, exists_eq_left]
    rw [hexists]
    by_cases hkey : k' = e.key
    · subst hkey
      simp only [update_self, not_lt.mpr hge, false_and, false_or, true_and, some.injEq]
    · grind

omit [DecidableEq κ] in
/-- Versions that are younger than the snapshot may be dropped. -/
theorem forget (h : Shows t old node stamp log content) (hsub : log'.Sublist log)
    (hkeep : ∀ e ∈ log, e.stamp < t → e ∈ log') : Shows t old node stamp log' content where
  single := h.single.sublist hsub
  backed k hold hk hge := by
    obtain ⟨e, he, hkey, hlt⟩ := h.backed k hold hk hge
    exact ⟨e, hkeep e he hlt, hkey, hlt⟩
  shadowed e he := h.shadowed e (hsub.subset he)
  fresh := h.fresh
  content_eq k v := by
    rw [h.content_eq]
    refine and_congr_right fun _ => and_congr_right fun _ => or_congr_right ⟨?_, ?_⟩
    · grind
    · grind

/-! ## Rollback -/

/-- A version from before `T` is put back. -/
def putBack (T : ℕ) (s : (κ → Option V) × (κ → ℕ)) (e : Version κ V) :
    (κ → Option V) × (κ → ℕ) :=
  if e.stamp < T then (update s.1 e.key (some e.value), update s.2 e.key e.stamp) else s

theorem foldl_putBack_of_forall (hno : ∀ e ∈ logT, e.key = k → T ≤ e.stamp) :
    (logT.foldl (putBack T) s).1 k = s.1 k ∧ (logT.foldl (putBack T) s).2 k = s.2 k := by
  induction logT generalizing s with
  | nil => exact ⟨rfl, rfl⟩
  | cons e logT ih =>
    obtain ⟨he, hrest⟩ := forall_mem_cons.mp hno
    obtain ⟨hnode, hstamp⟩ := ih (s := putBack T s e) hrest
    rw [foldl_cons, hnode, hstamp, putBack]
    split_ifs with hlt
    · grind
    · exact ⟨rfl, rfl⟩

theorem foldl_putBack_of_mem
    (hsingle : logT.Pairwise fun e e' => e.stamp < T → e'.stamp < T → e.key ≠ e'.key)
    (he : e ∈ logT) (hlt : e.stamp < T) : (logT.foldl (putBack T) s).1 e.key = some e.value ∧
      (logT.foldl (putBack T) s).2 e.key = e.stamp := by
  induction logT generalizing s with
  | nil => exact absurd he not_mem_nil
  | cons e₀ logT ih =>
    rw [foldl_cons]
    rcases mem_cons.mp he with rfl | he
    · have hno : ∀ e' ∈ logT, e'.key = e.key → T ≤ e'.stamp := by
        intro e' he' hkey
        by_contra hlt'
        exact rel_of_pairwise_cons hsingle he' hlt (not_le.mp hlt') hkey.symm
      obtain ⟨hnode, hstamp⟩ := foldl_putBack_of_forall (s := putBack T s e) hno
      rw [hnode, hstamp, putBack, if_pos hlt]
      exact ⟨update_self _ _ _, update_self _ _ _⟩
    · exact ih hsingle.of_cons he

/-- What the time stamps become when all versions of the log are put back. -/
theorem restamps (hT : Shows T oldT nodeT stamp logT contentT) :
    Restamps T logT stamp (logT.foldl (putBack T) (nodeT, stamp)).2 where
  logged _ he hlt := (foldl_putBack_of_mem hT.single he hlt).2
  kept _ hno := (foldl_putBack_of_forall hno).2

/-- The old keys then have the values of the snapshot. -/
theorem foldl_putBack (hT : Shows T oldT nodeT stamp logT contentT)
    (hold : oldT k) : (logT.foldl (putBack T) (nodeT, stamp)).1 k = contentT k := by
  by_cases hex : ∃ e ∈ logT, e.key = k ∧ e.stamp < T
  · obtain ⟨e, he, rfl, hlt⟩ := hex
    rw [(foldl_putBack_of_mem hT.single he hlt).1]
    obtain ⟨-, hnode, -⟩ := hT.shadowed e he hlt
    exact ((hT.content_eq _ _).mpr ⟨hold, hnode, .inr ⟨e, he, rfl, hlt, rfl⟩⟩).symm
  · have hno : ∀ e ∈ logT, e.key = k → T ≤ e.stamp := by
      intro e he hkey
      by_contra hlt
      exact hex ⟨e, he, hkey, not_le.mp hlt⟩
    rw [(foldl_putBack_of_forall hno).1, hT.content_eq_node hold hno]

omit [DecidableEq κ] in
/-- The state goes back to the snapshot of time `T`; the log since then is dropped.  `extra` are the
keys that had disappeared before. -/
theorem rollback (hT : Shows T oldT nodeT stamp logT contentT) (hle : t ≤ T)
    (h : Shows t old (fun k => (nodeT k).or (extra k)) stamp (logT ++ log) content)
    (hextra : ∀ k, extra k ≠ none → nodeT k = none) (hold : ∀ k, old k → oldT k)
    (hstamp : Restamps T logT stamp stamp') :
    Shows t old (fun k => (contentT k).or (extra k)) stamp' log content := by
  have hnode : ∀ k, old k → ((contentT k).or (extra k) ≠ none ↔ (nodeT k).or (extra k) ≠ none) := by
    intro k hk
    have hiff := hT.content_ne_none_iff (k := k)
    simp only [ne_eq, or_eq_none_iff]
    tauto
  -- A key is either logged since `T`, and gets its version back, or it is as before.
  have hcases : ∀ k, (∃ e ∈ logT, e.key = k ∧ e.stamp < T ∧ stamp' k = e.stamp ∧ t ≤ stamp k ∧
        extra k = none ∧ contentT k = some e.value ∧
        ∀ e' ∈ logT, e'.key = k → e'.stamp < t → e' = e) ∨
      stamp' k = stamp k ∧ (oldT k → (contentT k).or (extra k) = (nodeT k).or (extra k)) ∧
        ∀ e' ∈ logT, e'.key = k → ¬e'.stamp < t := by
    intro k
    by_cases hex : ∃ e ∈ logT, e.key = k ∧ e.stamp < T
    · obtain ⟨e, he, rfl, hlt⟩ := hex
      obtain ⟨holdT, hnodeT, hge⟩ := hT.shadowed e he hlt
      refine .inl ⟨e, he, rfl, hlt, hstamp.logged e he hlt, hle.trans hge, ?_, ?_, ?_⟩
      · grind
      · exact (hT.content_eq _ _).mpr ⟨holdT, hnodeT, .inr ⟨e, he, rfl, hlt, rfl⟩⟩
      · intro e' he' hkey hlt'
        exact hT.eq_of_key_eq he' he (hlt'.trans_le hle) hlt hkey
    · have hno : ∀ e ∈ logT, e.key = k → T ≤ e.stamp := by
        intro e he hkey
        by_contra hlt
        exact hex ⟨e, he, hkey, not_le.mp hlt⟩
      refine .inr ⟨hstamp.kept k hno, ?_, ?_⟩
      · intro holdT
        rw [hT.content_eq_node holdT hno]
      · grind
  constructor
  · exact (pairwise_append.mp h.single).2.1
  · intro k hk hne hge
    have hne' := (hnode k hk).mp hne
    rcases hcases k with ⟨e, he, hkey, -, hstamp', hgek, -, -, honly⟩ | ⟨hstamp', -, hno⟩
    · obtain ⟨e', he', hkey', hlt'⟩ := h.backed k hk hne' hgek
      rcases mem_append.mp he' with he' | he'
      · obtain rfl := honly e' he' hkey' hlt'
        exact absurd hlt' (not_lt.mpr (hstamp' ▸ hge))
      · exact ⟨e', he', hkey', hlt'⟩
    · obtain ⟨e', he', hkey', hlt'⟩ := h.backed k hk hne' (hstamp' ▸ hge)
      rcases mem_append.mp he' with he' | he'
      · exact absurd hlt' (hno e' he' hkey')
      · exact ⟨e', he', hkey', hlt'⟩
  · intro e' he' hlt'
    obtain ⟨hk, hne, hge⟩ := h.shadowed e' (mem_append_right _ he') hlt'
    refine ⟨hk, (hnode _ hk).mpr hne, ?_⟩
    rcases hcases e'.key with ⟨e, he, hkey, -, hstamp', -, -, -, -⟩ | ⟨hstamp', -, -⟩
    · rw [hstamp']
      by_contra hlt
      exact (pairwise_append.mp h.single).2.2 e he e' he' (not_le.mp hlt) hlt' hkey
    · rwa [hstamp']
  · intro k hne hnew
    rcases hcases k with ⟨e, he, hkey, -, hstamp', -, -, -, -⟩ | ⟨hstamp', -, -⟩
    · rw [hstamp']
      by_contra hlt
      exact hnew (hkey ▸ (h.shadowed e (mem_append_left _ he) (not_le.mp hlt)).1)
    · rw [hstamp']
      refine h.fresh k ?_ hnew
      intro hnone
      obtain ⟨hnodeT, hnone⟩ := or_eq_none_iff.mp hnone
      exact hne (or_eq_none_iff.mpr ⟨hT.content_eq_none_of_node hnodeT, hnone⟩)
  · intro k v
    rw [h.content_eq]
    refine and_congr_right fun hk => ?_
    rw [hnode k hk]
    simp only [mem_append, or_and_right, exists_or]
    rcases hcases k with ⟨e, he, hkey, -, hstamp', hge, hnone, hcontent, honly⟩ |
      ⟨hstamp', hcontent, hno⟩
    · grind
    have hlogT : ¬∃ e' ∈ logT, e'.key = k ∧ e'.stamp < t ∧ e'.value = v := by
      rintro ⟨e', he', hkey', hlt', -⟩
      exact hno e' he' hkey' hlt'
    simp only [hstamp', hcontent (hold k hk), hlogT, false_or]

end Shows

end DcdProtocol.Library
