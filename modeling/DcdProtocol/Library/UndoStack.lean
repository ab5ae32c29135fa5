import Mathlib

/-!
# Stacks of snapshots

A database with undo sessions, seen from outside, is its content together with the contents at the
start of its sessions.  `push` starts a session, `undo` ends the newest one and restores the content
at its start, `squash` ends it and keeps the content, and `commit` forgets the oldest sessions, up to
a revision.  `Forall` is a property of every content that an `undo` may bring back.

The revision and the number of sessions, the `shape` of a stack, do not depend on the contents: two
stacks that were driven by the same calls of this kind have the same shape, whatever else was called.
-/

namespace DcdProtocol.Library

open List

/-- A content, with those at the start of its sessions, newest first. -/
structure UndoStack (α : Type*) where
  revision : ℤ := 0
  current : α
  saved : List α := []

namespace UndoStack

variable {α : Type*} (s : UndoStack α)

def set (a : α) : UndoStack α := { s with current := a }

def push : UndoStack α :=
  { s with revision := s.revision + 1, saved := s.current :: s.saved }

def undo : UndoStack α :=
  match s.saved with
  | [] => s
  | a :: saved => ⟨s.revision - 1, a, saved⟩

def squash : UndoStack α :=
  match s.saved with
  | [] => s
  | _ :: saved => { s with revision := s.revision - 1, saved }

/-- The sessions that remain are those above the revision `r`. -/
def commit (r : ℤ) : UndoStack α :=
  { s with saved := s.saved.take (s.revision - min r s.revision).toNat }

/-- The content, and each one that can be restored, satisfies `P`. -/
def Forall (P : α → Prop) : Prop := P s.current ∧ ∀ a ∈ s.saved, P a

namespace Forall

variable {s} {P : α → Prop}

theorem imp {Q : α → Prop} (h : s.Forall P) (hPQ : ∀ a, P a → Q a) : s.Forall Q :=
  ⟨hPQ _ h.1, fun a ha => hPQ a (h.2 a ha)⟩

theorem set (h : s.Forall P) {a : α} (ha : P a) : (s.set a).Forall P := ⟨ha, h.2⟩

theorem push (h : s.Forall P) : s.push.Forall P := ⟨h.1, forall_mem_cons.mpr h⟩

theorem undo (h : s.Forall P) : s.undo.Forall P := by
  unfold UndoStack.undo
  split
  next => exact h
  next a saved hsaved =>
    have hall := h.2
    rw [hsaved] at hall
    exact forall_mem_cons.mp hall

theorem commit (h : s.Forall P) (r : ℤ) : (s.commit r).Forall P :=
  ⟨h.1, fun a ha => h.2 a (mem_of_mem_take ha)⟩

end Forall

/-! ## Shapes -/

def shape : ℤ × ℕ := (s.revision, s.saved.length)

end UndoStack

inductive SessionOp
  | push
  | squash
  | undo
  | commit (revision : ℤ)
  deriving DecidableEq, Repr

/-- What the call does to the shape of a stack. -/
def SessionOp.shape : ℤ × ℕ → SessionOp → ℤ × ℕ
  | (revision, n), .push => (revision + 1, n + 1)
  | (revision, 0), .squash | (revision, 0), .undo => (revision, 0)
  | (revision, n + 1), .squash | (revision, n + 1), .undo => (revision - 1, n)
  | (revision, n), .commit r => (revision, min (revision - min r revision).toNat n)

namespace UndoStack

variable {α ℓ : Type*} (s : UndoStack α)

theorem shape_undo : s.undo.shape = SessionOp.undo.shape s.shape := by
  obtain ⟨revision, current, saved⟩ := s
  cases saved <;> rfl

theorem shape_squash : s.squash.shape = SessionOp.squash.shape s.shape := by
  obtain ⟨revision, current, saved⟩ := s
  cases saved <;> rfl

theorem shape_commit (r : ℤ) : (s.commit r).shape = (SessionOp.commit r).shape s.shape := by
  rw [shape, commit, length_take]
  rfl

/-- The shape after a sequence of calls, `op` of which start or end sessions. -/
theorem shape_foldl {f : UndoStack α → ℓ → UndoStack α} {op : ℓ → Option SessionOp}
    (hf : ∀ s l, (f s l).shape = (op l).elim s.shape fun o => o.shape s.shape) (ls : List ℓ) :
    (ls.foldl f s).shape = (ls.filterMap op).foldl SessionOp.shape s.shape := by
  induction ls generalizing s with
  | nil => rfl
  | cons l ls ih =>
    rw [foldl_cons, ih, hf]
    cases hl : op l with
    | none => rw [filterMap_cons_none hl, Option.elim_none]
    | some o => rw [filterMap_cons_some hl, foldl_cons, Option.elim_some]

end UndoStack

end DcdProtocol.Library
