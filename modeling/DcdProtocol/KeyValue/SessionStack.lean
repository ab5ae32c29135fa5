import DcdProtocol.KeyValue.NestedSession
import DcdProtocol.Library.UndoStack

/-!
# The undo stack of the key-value store

`undo_stack` keeps its sessions in a deque, oldest first; each of them has the one before it as its
parent, and the oldest has the root.  Here the sessions are nested: the state of the newest one holds
those below it.  `commit` folds the oldest sessions into the root and hangs the oldest one that is
left onto the root.

The revision is an integer.  The casts of the source are exact as long as `++m_revision` does not
overflow: `m_revision - m_sessions.size() + 1` is the revision of the oldest session.
-/

namespace DcdProtocol.KeyValue

open Library

/-- `undo_stack`. -/
structure SessionStack (κ ν : Type*) [LinearOrder κ] where
  depth : ℕ
  sessions : Layers κ ν depth
  revision : ℤ

namespace Layers

variable {κ ν : Type*} [LinearOrder κ]

def collapse : (n : ℕ) → Layers κ ν n → FlatMap κ ν
  | 0, root => root
  | n + 1, s => collapse n (Layer.commit (layerStore κ ν n) s)

/-- Commit all sessions but the newest `kept` ones.  The oldest one of these is attached to the
root. -/
def commitBelow : (kept n : ℕ) → Layers κ ν n → (m : ℕ) × Layers κ ν m
  | 0, n, s => ⟨0, collapse n s⟩
  | _ + 1, 0, root => ⟨0, root⟩
  | kept + 1, n + 1, s =>
    match commitBelow kept n s.parent with
    | ⟨0, root⟩ => ⟨1, Layer.primeCache (rootStore κ ν) { parent := root, cache := s.cache }⟩
    | ⟨m + 1, parent⟩ => ⟨m + 2, { parent, cache := s.cache : Layer (Layers κ ν (m + 1)) κ ν }⟩

/-- The caller has an iterator at the position: the end, or a key of the cache. -/
def hasIterator : (n : ℕ) → Layers κ ν n → Option κ → Bool
  | 0, root, pos => pos.all root.contains
  | _ + 1, s, pos => pos.all s.cache.contains

end Layers

inductive Misuse
  /-- There is no iterator at this position. -/
  | noIterator
  /-- The root only answers whether a key may exist. -/
  | containsOfRoot
  deriving DecidableEq, Repr

namespace SessionStack

variable {κ ν : Type*} [LinearOrder κ] (s : SessionStack κ ν)

/-! ## Sessions -/

def push : SessionStack κ ν :=
  ⟨s.depth + 1, Layer.primeCache (layerStore κ ν s.depth) { parent := s.sessions },
    s.revision + 1⟩

def squash : SessionStack κ ν → SessionStack κ ν
  | ⟨0, root, revision⟩ => ⟨0, root, revision⟩
  | ⟨n + 1, back, revision⟩ => ⟨n, Layer.commit (layerStore κ ν n) back, revision - 1⟩

def undo : SessionStack κ ν → SessionStack κ ν
  | ⟨0, root, revision⟩ => ⟨0, root, revision⟩
  | ⟨n + 1, back, revision⟩ => ⟨n, back.parent, revision - 1⟩

def commit (revision : ℤ) : SessionStack κ ν :=
  if s.depth = 0 then s
  else
    let revision := min revision s.revision
    let initialRevision := s.revision - s.depth + 1
    if initialRevision > revision then s
    else
      let startIndex := (revision - initialRevision).toNat
      let ⟨depth, sessions⟩ := Layers.commitBelow (s.depth - (startIndex + 1)) s.depth s.sessions
      ⟨depth, sessions, s.revision⟩

/-! ## The top -/

/-- Use the newest session, or the root if there is none. -/
def onTop {α : Type*}
    (f : Store (Layers κ ν s.depth) κ ν → Layers κ ν s.depth → α × Layers κ ν s.depth) :
    α × SessionStack κ ν :=
  let (result, sessions) := f (layerStore κ ν s.depth) s.sessions
  (result, { s with sessions })

def write (k : κ) (v : ν) : SessionStack κ ν :=
  { s with sessions := (layerStore κ ν s.depth).write k v s.sessions }

def erase (k : κ) : SessionStack κ ν :=
  { s with sessions := (layerStore κ ν s.depth).erase k s.sessions }

def read (k : κ) : Option ν × SessionStack κ ν := s.onTop fun P => P.read k

def contains (s : SessionStack κ ν) (k : κ) : Except Misuse (Bool × SessionStack κ ν) :=
  match s with
  | ⟨0, _, _⟩ => .error .containsOfRoot
  | ⟨n + 1, back, revision⟩ =>
    let (result, back) := Layer.contains (layerStore κ ν n) back k
    .ok (result, ⟨n + 1, back, revision⟩)

def find (k : κ) : Option κ × SessionStack κ ν := s.onTop fun P => P.find k

def lowerBound (k : κ) : Option κ × SessionStack κ ν := s.onTop fun P => P.lowerBound k

def begin : Option κ × SessionStack κ ν := s.onTop fun P => P.begin

def next (pos : Option κ) : Option κ × SessionStack κ ν := s.onTop fun P => P.next pos

def previous (pos : Option κ) : Option κ × SessionStack κ ν := s.onTop fun P => P.previous pos

def hasIterator (pos : Option κ) : Bool := Layers.hasIterator s.depth s.sessions pos

end SessionStack

/-! ## Calls -/

inductive SessionCall (κ ν : Type*)
  | push
  | squash
  | undo
  | commit (revision : ℤ)
  | write (k : κ) (v : ν)
  | erase (k : κ)
  | read (k : κ)
  | contains (k : κ)
  | find (k : κ)
  | lowerBound (k : κ)
  | begin
  | next (pos : Option κ)
  | previous (pos : Option κ)

variable {κ ν : Type*} [LinearOrder κ]

def SessionStack.step (s : SessionStack κ ν) :
    SessionCall κ ν → Except Misuse (SessionStack κ ν)
  | .push => .ok s.push
  | .squash => .ok s.squash
  | .undo => .ok s.undo
  | .commit revision => .ok (s.commit revision)
  | .write k v => .ok (s.write k v)
  | .erase k => .ok (s.erase k)
  | .read k => .ok (s.read k).2
  | .contains k => (s.contains k).map Prod.snd
  | .find k => .ok (s.find k).2
  | .lowerBound k => .ok (s.lowerBound k).2
  | .begin => .ok s.begin.2
  | .next pos => if s.hasIterator pos then .ok (s.next pos).2 else .error .noIterator
  | .previous pos => if s.hasIterator pos then .ok (s.previous pos).2 else .error .noIterator

/-- The same call on a stack of maps; looking something up has no effect. -/
def abstractSession (a : UndoStack (FlatMap κ ν)) : SessionCall κ ν → UndoStack (FlatMap κ ν)
  | .push => a.push
  | .squash => a.squash
  | .undo => a.undo
  | .commit revision => a.commit revision
  | .write k v => a.set (a.current.insert k v)
  | .erase k => a.set (a.current.erase k)
  | _ => a

end DcdProtocol.KeyValue
