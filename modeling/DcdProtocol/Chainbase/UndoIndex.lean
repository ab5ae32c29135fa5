import DcdProtocol.Library.FlatMap
import DcdProtocol.Library.OrderedSequence
import DcdProtocol.Library.UndoStack
import DcdProtocol.Library.VersionLog

/-!
# A table with undo sessions

`undo_index` is a container of objects with several ordered indices and a stack of undo sessions.
The objects are nodes that hang in one tree for each index; the first index is by id.  Two linked
lists are shared by all sessions: `_old_values`, with copies of values before they were modified,
and `_removed_values`, with the nodes that were removed.  A session knows where the lists stood when
it was started, the next id, and the time of its start.  Each node knows when it was last modified,
so a value is copied at most once in a session.

Nodes are identified by their ids and the copies in `_old_values` by addresses.  A tree is given by
its sequence of nodes from left to right.  A pointer that leads nowhere makes a function return
`none`.

A container without sessions is a `Container`.  What the sessions are for is said by `abstractStep`:
they are a stack of such containers.
-/

namespace DcdProtocol.Chainbase

open Library Function

variable {V : Type*}

/-! ## The container -/

/-- An `ordered_unique` index, given by the comparison of objects with their ids. -/
structure OrderedIndex (V : Type*) where
  less : ℕ × V → ℕ × V → Bool
  strictWeak : StrictWeak less

def OrderedIndex.before (ix : OrderedIndex V) (byId : FlatMap ℕ V) (a b : ℕ) : Bool :=
  match byId.find? a, byId.find? b with
  | _, none => false
  | none, some _ => true
  | some x, some y => ix.less (a, x) (b, y)

/-- `insert_impl`, from the second index on. -/
def insertImpl (byId : FlatMap ℕ V) (p : ℕ) :
    List (OrderedIndex V) → List (List ℕ) → Option (List (List ℕ))
  | ix :: ixs, tree :: trees =>
    let (inserted, tree) := insertUnique (ix.before byId) p tree
    if inserted then (insertImpl byId p ixs trees).map (tree :: ·) else none
  | _, trees => some trees

/-- `post_modify`, from the second index on: whether the keys are unique, as far as they have to be,
and the trees. -/
def postModify (unique : Bool) (byId : FlatMap ℕ V) (p : ℕ) :
    List (OrderedIndex V) → List (List ℕ) → Bool × List (List ℕ)
  | ix :: ixs, tree :: trees =>
    let (placed, tree) := refit (ix.before byId) p unique tree
    if placed then
      let (success, trees) := postModify unique byId p ixs trees
      (success, tree :: trees)
    else (false, tree :: trees)
  | _, trees => (true, trees)

/-- The objects, and the trees of the indices besides that by id. -/
structure Indices (V : Type*) where
  byId : FlatMap ℕ V := .empty
  trees : List (List ℕ) := []

variable (ixs : List (OrderedIndex V))

namespace Indices

variable (x : Indices V)

def insert (id : ℕ) (v : V) : Option (Indices V) :=
  let byId := x.byId.insert id v
  if x.byId.contains id then none
  else (insertImpl byId id ixs x.trees).map fun trees => ⟨byId, trees⟩

/-- `erase_impl`. -/
def erase (id : ℕ) : Indices V := ⟨x.byId.erase id, x.trees.map (·.erase id)⟩

/-- The objects with ids from `oldNextId` on are erased. -/
def eraseNew (oldNextId : ℕ) : Indices V := (x.byId.keys.filter (oldNextId ≤ ·)).foldl erase x

/-- A node gets a new value and is moved in the trees. -/
def set (unique : Bool) (id : ℕ) (v : V) : Bool × Indices V :=
  let byId := x.byId.insert id v
  let (success, trees) := postModify unique byId id ixs x.trees
  (success, ⟨byId, trees⟩)

end Indices

structure Container (V : Type*) where
  indices : Indices V
  nextId : ℕ := 0

inductive Failure
  /-- A uniqueness constraint was violated. -/
  | logicError
  /-- There is no object with this id. -/
  | outOfRange
  | undefinedBehaviour
  deriving DecidableEq, Repr

namespace Container

variable (k : Container V)

def emplace (v : V) : Except Failure (Container V) :=
  match k.indices.insert ixs k.nextId v with
  | some indices => .ok ⟨indices, k.nextId + 1⟩
  | none => .error .logicError

def modify (id : ℕ) (m : V → V) : Except Failure (Container V) :=
  match k.indices.byId.find? id with
  | none => .error .outOfRange
  | some v =>
    match k.indices.set ixs true id (m v) with
    | (true, indices) => .ok { k with indices }
    | (false, _) => .error .logicError

def remove (id : ℕ) : Except Failure (Container V) :=
  if k.indices.byId.contains id then .ok { k with indices := k.indices.erase id }
  else .error .outOfRange

end Container

/-! ## Sessions -/

/-- An entry of `_old_values`: the node, its value and its time stamp, and the address. -/
structure OldNode (V : Type*) extends Version ℕ V where
  addr : ℕ

structure UndoState where
  oldValuesEnd : Option ℕ
  removedValuesEnd : Option ℕ
  oldNextId : ℕ
  ctime : ℕ
  deriving DecidableEq, Repr

/-- The last session is the first of `undoStack`. -/
structure UndoIndex (V : Type*) extends Container V where
  /-- `_mtime` of the nodes. -/
  mtime : ℕ → ℕ := fun _ => 0
  undoStack : List UndoState := []
  oldValues : List (OldNode V) := []
  removedValues : List (ℕ × V) := []
  revision : ℤ := 0
  monotonicRevision : ℕ := 0
  /-- An address that was not used before. -/
  nextAddr : ℕ := 0

/-- The elements of a list before and from the position of a pointer, which is null at the end. -/
def splitAtPointer {β : Type*} (address : β → ℕ) (pointer : Option ℕ) (l : List β) :
    Option (List β × List β) :=
  match pointer with
  | none => some (l, [])
  | some a =>
    if a ∈ l.map address then
      some (l.takeWhile (address · ≠ a), l.dropWhile (address · ≠ a))
    else none

def setRemoved (id : ℕ) (v : V) (removed : List (ℕ × V)) : List (ℕ × V) :=
  removed.map fun x => if x.1 = id then (id, v) else x

namespace UndoIndex

variable (c : UndoIndex V)

def splitOldValues (st : UndoState) : Option (List (OldNode V) × List (OldNode V)) :=
  splitAtPointer OldNode.addr st.oldValuesEnd c.oldValues

def splitRemovedValues (st : UndoState) : Option (List (ℕ × V) × List (ℕ × V)) :=
  splitAtPointer Prod.fst st.removedValuesEnd c.removedValues

def addSession : UndoIndex V :=
  { c with
    undoStack := ⟨c.oldValues.head?.map (·.addr), c.removedValues.head?.map (·.1), c.nextId,
      c.monotonicRevision + 1⟩ :: c.undoStack
    monotonicRevision := c.monotonicRevision + 1
    revision := c.revision + 1 }

/-! ### Changes -/

/-- A new node has the time stamp 0 where there is no session. -/
def emplace (v : V) : Except Failure (UndoIndex V) := do
  let k ← c.toContainer.emplace ixs v
  let stamp := if c.undoStack = [] then 0 else c.monotonicRevision
  pure { c with toContainer := k, mtime := update c.mtime c.nextId stamp }

/-- `on_modify`, with whether there is a backup. -/
def onModify (id : ℕ) (v : V) : Bool × UndoIndex V :=
  match c.undoStack with
  | [] => (false, c)
  | st :: _ =>
    if st.ctime ≤ c.mtime id then (false, c)
    else
      (true, { c with
        oldValues := ⟨⟨id, v, c.mtime id⟩, c.nextAddr⟩ :: c.oldValues
        mtime := update c.mtime id c.monotonicRevision
        nextAddr := c.nextAddr + 1 })

@[simp] theorem onModify_toContainer (id : ℕ) (v : V) :
    (c.onModify id v).2.toContainer = c.toContainer := by
  unfold onModify
  split
  · rfl
  · split_ifs <;> rfl

@[simp] theorem onModify_revision (id : ℕ) (v : V) : (c.onModify id v).2.revision = c.revision := by
  unfold onModify
  split
  · rfl
  · split_ifs <;> rfl

/-- `remove` of the node `id`, with the value `v`. -/
def removeNode (id : ℕ) (v : V) : UndoIndex V :=
  let c := { c with indices := c.indices.erase id }
  match c.undoStack with
  | [] => c
  | st :: _ =>
    if st.oldNextId ≤ id then c else { c with removedValues := (id, v) :: c.removedValues }

@[simp] theorem removeNode_toContainer (id : ℕ) (v : V) :
    (c.removeNode id v).toContainer = ⟨c.indices.erase id, c.nextId⟩ := by
  unfold removeNode
  dsimp only
  split
  · rfl
  · split_ifs <;> rfl

@[simp] theorem removeNode_revision (id : ℕ) (v : V) :
    (c.removeNode id v).revision = c.revision := by
  unfold removeNode
  dsimp only
  split
  · rfl
  · split_ifs <;> rfl

/-- `modify`.  If the new value violates a uniqueness constraint, the object gets its value back
where there is a backup, and is removed otherwise. -/
def modify (id : ℕ) (m : V → V) : UndoIndex V × Option Failure :=
  match c.indices.byId.find? id with
  | none => (c, some .outOfRange)
  | some v =>
    let (backup, c) := c.onModify id v
    match c.indices.set ixs true id (m v) with
    | (true, indices) => ({ c with indices }, none)
    | (false, indices) =>
      if backup then
        ({ c with indices := (indices.set ixs true id v).2, oldValues := c.oldValues.tail },
          some .logicError)
      else ({ c with indices }.removeNode id (m v), some .logicError)

def remove (id : ℕ) : Except Failure (UndoIndex V) :=
  match c.indices.byId.find? id with
  | none => .error .outOfRange
  | some v => .ok (c.removeNode id v)

/-! ### The end of sessions -/

/-- The step of `undo` that replaces a value by an old one. -/
def restoreOld (ctime : ℕ) (c : UndoIndex V) (e : OldNode V) : Option (UndoIndex V) :=
  if e.stamp < ctime then
    let mtime := update c.mtime e.key e.stamp
    if c.indices.byId.contains e.key then
      some { c with indices := (c.indices.set ixs false e.key e.value).2, mtime }
    else if e.key ∈ c.removedValues.map Prod.fst then
      some { c with removedValues := setRemoved e.key e.value c.removedValues, mtime }
    else none
  else some c

/-- The step of `undo` that inserts a removed node. -/
def reinsert (oldNextId : ℕ) (x : Indices V) (r : ℕ × V) : Indices V :=
  if r.1 < oldNextId then (x.insert ixs r.1 r.2).getD x else x

def undo : Option (UndoIndex V) :=
  match c.undoStack with
  | [] => some c
  | st :: undoStack => do
    let (old, rest) ← c.splitOldValues st
    let c ← old.foldlM (restoreOld ixs st.ctime)
      { c with indices := c.indices.eraseNew st.oldNextId, oldValues := rest }
    let (removed, rest) ← c.splitRemovedValues st
    some { c with
      indices := removed.foldl (reinsert ixs st.oldNextId) c.indices
      removedValues := rest
      nextId := st.oldNextId
      undoStack
      revision := c.revision - 1 }

/-- The loop of `compress_impl` over the old values of the last session, with those that stay. -/
def compressOld (start : ℕ) : UndoIndex V → List (OldNode V) →
    Option (UndoIndex V × List (OldNode V))
  | c, [] => some (c, [])
  | c, e :: es =>
    if start ≤ e.stamp then compressOld start c es
    else if c.indices.byId.contains e.key then do
      let (c, es) ← compressOld start c es
      some (c, e :: es)
    else if e.key ∈ c.removedValues.map Prod.fst then
      compressOld start
        { c with
          removedValues := setRemoved e.key e.value c.removedValues
          mtime := update c.mtime e.key e.stamp } es
    else none

/-- `compress_impl`, where the last session is `back`. -/
def compressImpl (back session : UndoState) : Option (UndoIndex V) := do
  let (old, rest) ← c.splitOldValues back
  let (c, old) ← compressOld session.ctime c old
  let (removed, rest') ← c.splitRemovedValues back
  some { c with
    oldValues := old ++ rest
    removedValues := removed.filter (·.1 < session.oldNextId) ++ rest' }

def squashFast : UndoIndex V :=
  match c.undoStack with
  | [] => c
  | [_] =>
    { c with undoStack := [], oldValues := [], removedValues := [], revision := c.revision - 1 }
  | _ :: undoStack => { c with undoStack, revision := c.revision - 1 }

/-- `squash`, which is `squash_and_compress`. -/
def squash : Option (UndoIndex V) :=
  match c.undoStack with
  | back :: session :: _ => (c.compressImpl back session).map squashFast
  | _ => some c.squashFast

/-- What `last_undo_session` does to the index. -/
def lastUndoSession : Option (UndoIndex V) :=
  match c.undoStack with
  | [] => some c
  | back :: _ => c.compressImpl back back

/-- `dispose`: the lists are cut after the ends of `iter`, which stay. -/
def dispose (iter : UndoState) : Option (UndoIndex V) := do
  let (old, oldRest) ← c.splitOldValues iter
  let (removed, removedRest) ← c.splitRemovedValues iter
  some { c with
    oldValues := old ++ oldRest.take 1
    removedValues := removed ++ removedRest.take 1 }

def commit (revision : ℤ) : Option (UndoIndex V) :=
  let revision := min revision c.revision
  if revision = c.revision then
    some { c with undoStack := [], oldValues := [], removedValues := [] }
  else
    let kept := c.undoStack.take (c.revision - revision).toNat
    if (c.revision - revision).toNat < c.undoStack.length then
      match kept.getLast? with
      | none => none
      | some iter => (c.dispose iter).map fun c => { c with undoStack := kept }
    else some c

end UndoIndex

/-! ## Calls -/

inductive Call (V : Type*)
  | emplace (v : V)
  | modify (id : ℕ) (m : V → V)
  | remove (id : ℕ)
  | startUndoSession
  | squash
  | undo
  | commit (revision : ℤ)
  | lastUndoSession

/-- The state after an operation that may throw and then changes nothing. -/
def settleExcept {σ : Type*} (s : σ) : Except Failure σ → σ × Option Failure
  | .ok s' => (s', none)
  | .error e => (s, some e)

/-- The state after an operation that does not throw. -/
def settleOption {σ : Type*} (s : σ) : Option σ → σ × Option Failure
  | some s' => (s', none)
  | none => (s, some .undefinedBehaviour)

/-- A call on the index: the state after it, and the exception it throws, if it does. -/
def UndoIndex.step (ixs : List (OrderedIndex V)) (c : UndoIndex V) :
    Call V → UndoIndex V × Option Failure
  | .emplace v => settleExcept c (c.emplace ixs v)
  | .modify id m => c.modify ixs id m
  | .remove id => settleExcept c (c.remove id)
  | .startUndoSession => (c.addSession, none)
  | .squash => settleOption c c.squash
  | .undo => settleOption c (c.undo ixs)
  | .commit revision => settleOption c (c.commit revision)
  | .lastUndoSession => settleOption c c.lastUndoSession

/-- An index without objects, at some revision. -/
def UndoIndex.empty (ixs : List (OrderedIndex V)) (revision : ℤ) : UndoIndex V :=
  { indices := ⟨.empty, ixs.map fun _ => []⟩, revision }

def abstractStep (ixs : List (OrderedIndex V)) (a : UndoStack (Container V)) :
    Call V → UndoStack (Container V) × Option Failure
  | .emplace v => settleExcept a ((a.current.emplace ixs v).map a.set)
  | .modify id m => settleExcept a ((a.current.modify ixs id m).map a.set)
  | .remove id => settleExcept a ((a.current.remove id).map a.set)
  | .startUndoSession => (a.push, none)
  | .squash => (a.squash, none)
  | .undo => (a.undo, none)
  | .commit revision => (a.commit revision, none)
  | .lastUndoSession => (a, none)

/-- The state after a sequence of calls, and what each of them threw. -/
def runCalls {σ : Type*} (step : σ → Call V → σ × Option Failure) (s : σ) :
    List (Call V) → σ × List (Option Failure)
  | [] => (s, [])
  | call :: calls =>
    let (s, thrown) := step s call
    let (s, rest) := runCalls step s calls
    (s, thrown :: rest)

/-- No modification in a sequence of calls violates a uniqueness constraint. -/
def ModifiesSucceed (ixs : List (OrderedIndex V)) : UndoIndex V → List (Call V) → Prop
  | _, [] => True
  | c, call :: calls => (match call with
      | .modify id f => (c.modify ixs id f).2 = none
      | _ => True) ∧
    ModifiesSucceed ixs (c.step ixs call).1 calls

end DcdProtocol.Chainbase
