import DcdProtocol.Chainbase.UndoCompress

/-!
# An index with undo sessions is a stack of containers

`Refines` relates an index to a stack of containers: the container is the current one, the revisions
are equal, and the sessions show the saved ones.  Every call keeps it and throws on both sides or on
neither, except a `modify` that fails, which may remove the object.  So along every sequence of calls
whose modifications succeed, `undo` brings back exactly the container at the start of the session,
with its objects, the order of every index and the next id.
-/

namespace DcdProtocol.Chainbase

open Library Function List UndoIndex Option

variable {V : Type*} {ixs : List (OrderedIndex V)} {c c' : UndoIndex V} {a : UndoStack (Container V)}

/-- The index stands for the stack `a` of containers. -/
structure Refines (ixs : List (OrderedIndex V)) (c : UndoIndex V) (a : UndoStack (Container V)) :
    Prop where
  container : c.toContainer = a.current
  revision : c.revision = a.revision
  inv : Inv ixs c a.saved

/-- Two calls lead to states that match, and throw the same exception or none. -/
def Agrees (ixs : List (OrderedIndex V)) (x : UndoIndex V × Option Failure)
    (y : UndoStack (Container V) × Option Failure) : Prop :=
  Refines ixs x.1 y.1 ∧ x.2 = y.2

namespace Refines

/-! ## Changes -/

theorem emplace (h : Refines ixs c a) (v : V) :
    Agrees ixs (c.step ixs (.emplace v)) (abstractStep ixs a (.emplace v)) := by
  simp only [step, abstractStep, ← h.container]
  cases hk : c.toContainer.emplace ixs v with
  | error e =>
    have hok : c.emplace ixs v = .error e := by
      rw [UndoIndex.emplace, hk]
      rfl
    rw [hok]
    exact ⟨h, rfl⟩
  | ok k =>
    cases hok : c.emplace ixs v with
    | error e =>
      rw [UndoIndex.emplace, hk] at hok
      cases hok
    | ok c' =>
      have hinv := h.inv.emplace hok
      rw [UndoIndex.emplace, hk] at hok
      obtain rfl := Except.ok.inj hok
      exact ⟨⟨rfl, h.revision, hinv⟩, rfl⟩

theorem remove (h : Refines ixs c a) (id : ℕ) :
    Agrees ixs (c.step ixs (.remove id)) (abstractStep ixs a (.remove id)) := by
  simp only [step, abstractStep, ← h.container]
  cases hfind : c.indices.byId.find? id with
  | none =>
    have hnot : ¬c.indices.byId.contains id = true := by
      rw [FlatMap.contains, hfind]
      exact Bool.false_ne_true
    rw [UndoIndex.remove, hfind, Container.remove, if_neg hnot]
    exact ⟨h, rfl⟩
  | some v =>
    have hok : c.remove id = .ok (c.removeNode id v) := by
      rw [UndoIndex.remove, hfind]
    have hinv := h.inv.remove hok
    have hcontains : c.indices.byId.contains id = true := by
      rw [FlatMap.contains, hfind]
      rfl
    rw [hok, Container.remove, if_pos hcontains]
    refine ⟨⟨c.removeNode_toContainer id v, ?_, hinv⟩, rfl⟩
    exact (c.removeNode_revision id v).trans h.revision

theorem modify (h : Refines ixs c a) {id : ℕ} {f : V → V} (hok : (c.modify ixs id f).2 = none) :
    Agrees ixs (c.step ixs (.modify id f)) (abstractStep ixs a (.modify id f)) := by
  obtain ⟨v, hv, hset, heq⟩ := Inv.modify_eq_none hok
  have hmodify : a.current.modify ixs id f =
      .ok ⟨(c.indices.set ixs true id (f v)).2, c.nextId⟩ := by
    rw [← h.container, Container.modify, hv]
    dsimp only
    rw [← Prod.mk.eta (p := c.indices.set ixs true id (f v)), hset]
  have habstract : abstractStep ixs a (.modify id f) =
      (a.set ⟨(c.indices.set ixs true id (f v)).2, c.nextId⟩, none) := by
    rw [abstractStep, hmodify]
    rfl
  rw [habstract]
  refine ⟨⟨?_, ?_, h.inv.modify hok⟩, hok⟩
  · show (c.modify ixs id f).1.toContainer = _
    rw [heq]
    exact congrArg (Container.mk _) (congrArg Container.nextId (c.onModify_toContainer id v))
  · show (c.modify ixs id f).1.revision = a.revision
    rw [heq]
    exact (c.onModify_revision id v).trans h.revision

/-! ## Sessions -/

section

variable (h : Refines ixs c a)
include h

theorem addSession : Refines ixs c.addSession a.push := by
  refine ⟨h.container, ?_, ?_⟩
  · show c.revision + 1 = a.revision + 1
    rw [h.revision]
  · show Inv ixs c.addSession (a.current :: a.saved)
    rw [← h.container]
    exact h.inv.addSession

theorem length_eq : c.undoStack.length = a.saved.length := h.inv.sessions.length_eq

theorem undo : ∃ c', c.undo ixs = some c' ∧ Refines ixs c' a.undo := by
  unfold UndoStack.undo
  split
  next hsaved =>
    have hstack : c.undoStack = [] := by
      rw [← length_eq_zero_iff, h.length_eq, hsaved, length_nil]
    refine ⟨c, ?_, h⟩
    rw [UndoIndex.undo, hstack]
  next k saved hsaved =>
    obtain ⟨c', hundo, hcontainer, hrevision, hinv⟩ := (hsaved ▸ h.inv).undo
    refine ⟨c', hundo, hcontainer, ?_, hinv⟩
    rw [hrevision, h.revision]

theorem lastUndoSession : ∃ c', c.lastUndoSession = some c' ∧ Refines ixs c' a := by
  unfold UndoIndex.lastUndoSession
  split
  next => exact ⟨c, rfl, h⟩
  next back sts hstack =>
    have hsessions := h.inv.sessions
    rw [hstack] at hsessions
    obtain ⟨k, ks, b, fs, q, qs, hsaved, hold, hremoved, hoend, hrend, hlevel, -, hsessions⟩ :=
      hsessions.exists_cons
    obtain ⟨old, removed, mtime, hcompress, hinv⟩ := h.inv.compressImpl hold hremoved hoend hrend
      hlevel le_rfl (hstack ▸ List.Subset.refl _) hsessions
    refine ⟨_, hcompress, h.container, h.revision, ?_⟩
    rw [hsaved]
    have hinv' := hinv c.revision
    rw [← hstack] at hinv'
    exact hinv'

theorem squash : ∃ c', c.squash = some c' ∧ Refines ixs c' a.squash := by
  cases hstack : c.undoStack with
  | nil =>
    have hsaved : a.saved = [] := by
      rw [← length_eq_zero_iff, ← h.length_eq, hstack, length_nil]
    refine ⟨c, ?_, ?_⟩
    · rw [UndoIndex.squash, hstack]
      rw [squashFast, hstack]
    · rw [UndoStack.squash, hsaved]
      exact h
  | cons back sts =>
    have hsessions := h.inv.sessions
    rw [hstack] at hsessions
    have hle := fun st (hst : st ∈ back :: sts) => (hsessions.le_head hst).1
    obtain ⟨k, ks, b, fs, q, qs, hsaved, hold, hremoved, hoend, hrend, hlevel, hrest, -⟩ :=
      hsessions.exists_cons
    rw [UndoStack.squash, hsaved]
    cases sts with
    | nil =>
      refine ⟨c.squashFast, by rw [UndoIndex.squash, hstack], ?_⟩
      have hks : ks = [] := by
        rw [← length_eq_zero_iff, ← hrest.length_eq, length_nil]
      rw [hks, squashFast, hstack]
      refine ⟨h.container, congrArg (· - 1) h.revision, ?_⟩
      exact h.inv.clear _
    | cons session sts =>
      obtain ⟨old, removed, mtime, hcompress, hinv⟩ :=
        h.inv.compressImpl hold hremoved hoend hrend hlevel
          (hle session (mem_cons_of_mem _ mem_cons_self))
          (hstack ▸ subset_cons_self _ _) hrest
      refine ⟨{ c with
        oldValues := old
        removedValues := removed
        mtime
        undoStack := session :: sts
        revision := c.revision - 1 }, ?_, h.container, congrArg (· - 1) h.revision, hinv _⟩
      rw [UndoIndex.squash, hstack]
      dsimp only
      rw [hcompress, map_some, squashFast]
      rw [hstack]

theorem commit (revision : ℤ) :
    ∃ c', c.commit revision = some c' ∧ Refines ixs c' (a.commit revision) := by
  have hcommit : a.commit revision =
      { a with saved := a.saved.take (c.revision - min revision c.revision).toNat } := by
    rw [UndoStack.commit, h.revision]
  rw [hcommit, UndoIndex.commit]
  dsimp only
  split_ifs with hall hlength
  · rw [hall, Int.sub_self, Int.toNat_zero, take_zero]
    refine ⟨_, rfl, h.container, h.revision, ?_⟩
    exact h.inv.clear _
  · have hn : (c.revision - min revision c.revision).toNat ≠ 0 := by omega
    obtain ⟨iter, fs₁, fs₂, qs₁, qs₂, hlast, hold, hremoved, hoend, hrend, hsessions⟩ :=
      h.inv.sessions.take hn hlength
    have hsplit : c.splitOldValues iter = some (fs₁, fs₂) := by
      rw [splitOldValues, hoend, hold]
      exact splitAtPointer_append (hold ▸ h.inv.addr_nodup)
    have hsplit' : c.splitRemovedValues iter = some (qs₁, qs₂) := by
      rw [splitRemovedValues, hrend, hremoved]
      exact splitAtPointer_append (hremoved ▸ h.inv.removed_nodup)
    have hdispose : c.dispose iter = some { c with
          oldValues := fs₁ ++ fs₂.take 1
          removedValues := qs₁ ++ qs₂.take 1 } :=
      bind_eq_some_iff.mpr ⟨_, hsplit, bind_eq_some_iff.mpr ⟨_, hsplit', rfl⟩⟩
    rw [hlast]
    dsimp only
    rw [hdispose, map_some]
    refine ⟨_, rfl, h.container, h.revision, ?_⟩
    refine h.inv.shrink ?_ ?_ (take_subset _ _) (fun _ => .inl rfl) hsessions _
    · rw [hold]
      exact (List.Sublist.refl _).append (take_sublist _ _)
    · grind
  · refine ⟨c, rfl, h.container, h.revision, ?_⟩
    rw [h.length_eq, not_lt] at hlength
    rw [take_of_length_le hlength]
    exact h.inv

end

/-! ## Sequences of calls -/

theorem settleOption {x : Option (UndoIndex V)} (h : ∃ c', x = some c' ∧ Refines ixs c' a) :
    Agrees ixs (settleOption c x) (a, none) := by
  obtain ⟨c', rfl, h⟩ := h
  exact ⟨h, rfl⟩

variable {calls : List (Call V)}

theorem step (h : Refines ixs c a) {call : Call V}
    (hmodify : ModifiesSucceed ixs c (call :: calls)) :
    Agrees ixs (c.step ixs call) (abstractStep ixs a call) := by
  cases call with
  | emplace v => exact h.emplace v
  | modify id f => exact h.modify hmodify.1
  | remove id => exact h.remove id
  | startUndoSession => exact ⟨h.addSession, rfl⟩
  | squash => exact settleOption h.squash
  | undo => exact settleOption h.undo
  | commit revision => exact settleOption (h.commit revision)
  | lastUndoSession => exact settleOption h.lastUndoSession

theorem run (h : Refines ixs c a) (hmodify : ModifiesSucceed ixs c calls) :
    Refines ixs (runCalls (UndoIndex.step ixs) c calls).1 (runCalls (abstractStep ixs) a calls).1 ∧
      (runCalls (UndoIndex.step ixs) c calls).2 = (runCalls (abstractStep ixs) a calls).2 := by
  induction calls generalizing c a with
  | nil => exact ⟨h, rfl⟩
  | cons call calls ih =>
    obtain ⟨hstep, hthrown⟩ := h.step hmodify
    obtain ⟨hrun, hrest⟩ := ih hstep hmodify.2
    refine ⟨hrun, ?_⟩
    simp only [runCalls]
    rw [hthrown, hrest]

theorem empty (ixs : List (OrderedIndex V)) (revision : ℤ) :
    Refines ixs (empty ixs revision) ⟨revision, (empty ixs revision).toContainer, []⟩ := by
  have hvalid : (UndoIndex.empty ixs revision).indices.Valid ixs := by
    refine forall₂_map_right_iff.mpr (forall₂_same.mpr fun ix _ => ?_)
    exact ⟨List.Pairwise.nil, List.Perm.nil⟩
  refine ⟨rfl, rfl, hvalid, forall_mem_nil _, forall_mem_nil _, nodup_nil,
    forall_mem_nil _, ?_, forall_mem_nil _, nodup_nil, forall_mem_nil _, trivial⟩
  intro id _
  exact Nat.zero_le _

end Refines

/-! ## The revision and the number of sessions -/

def Call.sessionOp? : Call V → Option SessionOp
  | .startUndoSession => some .push
  | .squash => some .squash
  | .undo => some .undo
  | .commit revision => some (.commit revision)
  | _ => none

theorem shape_settleExcept (a : UndoStack (Container V)) (x : Except Failure (Container V)) :
    (settleExcept a (x.map a.set)).1.shape = a.shape := by
  cases x <;> rfl

theorem shape_abstractStep (ixs : List (OrderedIndex V)) (a : UndoStack (Container V))
    (call : Call V) :
    (abstractStep ixs a call).1.shape = call.sessionOp?.elim a.shape fun op => op.shape a.shape := by
  cases call with
  | emplace v => exact shape_settleExcept a _
  | modify id m => exact shape_settleExcept a _
  | remove id => exact shape_settleExcept a _
  | undo => exact a.shape_undo
  | squash => exact a.shape_squash
  | commit revision => exact a.shape_commit revision
  | _ => rfl

theorem runCalls_eq_foldl {σ : Type*} (step : σ → Call V → σ × Option Failure) (s : σ)
    (calls : List (Call V)) : (runCalls step s calls).1 = calls.foldl (fun s c => (step s c).1) s := by
  induction calls generalizing s with
  | nil => rfl
  | cons call calls ih => exact ih _

/-- The revision and the number of sessions follow from the calls that start and end sessions. -/
theorem UndoIndex.shape_eq (ixs : List (OrderedIndex V)) (revision : ℤ) (calls : List (Call V))
    (hmodify : ModifiesSucceed ixs (.empty ixs revision) calls) :
    ((runCalls (UndoIndex.step ixs) (.empty ixs revision) calls).1.revision,
        (runCalls (UndoIndex.step ixs) (.empty ixs revision) calls).1.undoStack.length) =
      (calls.filterMap Call.sessionOp?).foldl SessionOp.shape (revision, 0) := by
  obtain ⟨h, -⟩ := (Refines.empty ixs revision).run hmodify
  rw [h.revision, h.length_eq, runCalls_eq_foldl]
  exact UndoStack.shape_foldl _ (fun a call => shape_abstractStep ixs a call) calls

/-- Along every sequence of calls whose modifications succeed, the index is the stack of containers:
the objects, the order of every index, the next id, the revision and the number of sessions are the
same, and so are the exceptions. -/
theorem UndoIndex.run_eq_abstract (ixs : List (OrderedIndex V)) (revision : ℤ)
    (calls : List (Call V)) (hmodify : ModifiesSucceed ixs (.empty ixs revision) calls) :
    let (c, thrown) := runCalls (step ixs) (.empty ixs revision) calls
    let (a, thrown') := runCalls (abstractStep ixs)
      ⟨revision, (empty ixs revision).toContainer, []⟩ calls
    c.toContainer = a.current ∧ c.revision = a.revision ∧
      c.undoStack.length = a.saved.length ∧ thrown = thrown' := by
  obtain ⟨h, hthrown⟩ := (Refines.empty ixs revision).run hmodify
  exact ⟨h.container, h.revision, h.length_eq, hthrown⟩

def sampleIndex : OrderedIndex ℕ where
  less x y := decide (x.2 < y.2)
  strictWeak := by
    constructor
    · intro a
      simp
    · intro a b c hab hbc
      simp only [decide_eq_true_eq] at *
      omega
    · intro a c b hac
      simp only [decide_eq_true_eq] at *
      omega

def sampleCalls : List (Call ℕ) :=
  [.emplace 5, .startUndoSession, .modify 0 (· + 1), .emplace 9, .remove 0, .startUndoSession,
    .emplace 7, .emplace 9, .modify 2 (· + 3), .squash, .undo]

theorem UndoIndex.run_eq_abstract_sampleCalls :
    ModifiesSucceed [sampleIndex] (.empty [sampleIndex] 0) sampleCalls ∧
      (runCalls (UndoIndex.step [sampleIndex]) (.empty [sampleIndex] 0) sampleCalls).1.toContainer =
        (runCalls (abstractStep [sampleIndex])
          ⟨0, (UndoIndex.empty [sampleIndex] 0).toContainer, []⟩ sampleCalls).1.current ∧
      (runCalls (UndoIndex.step [sampleIndex]) (.empty [sampleIndex] 0) sampleCalls).1.toContainer =
        ⟨⟨FlatMap.empty.insert 0 5, [[0]]⟩, 1⟩ := by
  have hmodify : ModifiesSucceed [sampleIndex] (.empty [sampleIndex] 0) sampleCalls :=
    ⟨trivial, trivial, rfl, trivial, trivial, trivial, trivial, trivial, rfl, trivial, trivial,
      trivial⟩
  exact ⟨hmodify, (run_eq_abstract [sampleIndex] 0 sampleCalls hmodify).1, rfl⟩

end DcdProtocol.Chainbase
