import DcdProtocol.Library.Stateful
import DcdProtocol.Chain.BlockHeaderState

/-!
# The fork database

The fork database holds the blocks built on its root, the last irreversible block, as a tree in
which every block names its parent.  Its head is the best validated block: the one with the
highest irreversible block number, then the highest block number.  A block that has not been
validated becomes the head only after `mark_valid`.

The loops of the source that follow parents, or collect descendants, visit a block at most once
as long as the blocks form a tree; they are given the number of blocks as fuel.  A loop of the
source that would not end throws here.
-/

namespace DcdProtocol.Chain

open Library

/-- The order of `sha256_less`. -/
instance : LinearOrder Sha256 :=
  .lift' (fun h => toLex (h.h0, toLex (h.h1, toLex (h.h2, h.h3)))) fun a b h => by
    cases a
    cases b
    simp_all

/-- A block with its header state.  The transactions of the block are left out. -/
structure BlockState extends BlockHeaderState where
  validated : Bool := false
  deriving DecidableEq

namespace BlockState

def FirstPreferred (lhs rhs : BlockState) : Prop :=
  rhs.dposIrreversibleBlocknum < lhs.dposIrreversibleBlocknum ∨
    rhs.dposIrreversibleBlocknum = lhs.dposIrreversibleBlocknum ∧ rhs.blockNum < lhs.blockNum

instance (lhs rhs : BlockState) : Decidable (lhs.FirstPreferred rhs) :=
  inferInstanceAs (Decidable (_ ∨ _ ∧ _))

/-- The order of the index `by_lib_block_num`: validated blocks first, then the preferred ones,
then by id. -/
def Before (lhs rhs : BlockState) : Prop :=
  (lhs.validated = true ∧ rhs.validated = false) ∨
    lhs.validated = rhs.validated ∧
      (lhs.FirstPreferred rhs ∨ ¬rhs.FirstPreferred lhs ∧ lhs.id < rhs.id)

instance (lhs rhs : BlockState) : Decidable (lhs.Before rhs) :=
  inferInstanceAs (Decidable (_ ∧ _ ∨ _ ∧ (_ ∨ _ ∧ _)))

/-- The first of a list of blocks in the order of `by_lib_block_num`. -/
def first? (blocks : List BlockState) : Option BlockState :=
  blocks.foldl (fun best b =>
    match best with
    | none => some b
    | some a => if b.Before a then some b else some a) none

end BlockState

structure ForkDatabase where
  index : FlatMap Sha256 BlockState
  root : BlockState
  head : BlockState

namespace ForkDatabase

def reset (root : BlockHeaderState) : ForkDatabase where
  index := .empty
  root := ⟨root, true⟩
  head := ⟨root, true⟩

variable (db : ForkDatabase)

def getBlock (id : Sha256) : Option BlockState := db.index.find? id

def getBlockHeader (id : Sha256) : Option BlockState :=
  if db.root.id = id then some db.root else db.getBlock id

/-- The front of `by_lib_block_num`. -/
def candidate : Option BlockState := BlockState.first? db.index.values

def add (n : BlockState) (ignoreDuplicate : Bool) : Except ChainException ForkDatabase := do
  dcdAssert ((db.getBlockHeader n.header.previous).isSome = true) .unlinkableBlockException
    "unlinkable block"
  if db.index.contains n.id then
    if ignoreDuplicate then pure db
    else throw ⟨.forkDatabaseException, "duplicate block added"⟩
  else
    let db := { db with index := db.index.insert n.id n }
    match db.candidate with
    | some best => pure (if best.validated then { db with head := best } else db)
    | none => pure db

def markValid (h : BlockState) : Except ChainException ForkDatabase :=
  if h.validated then pure db
  else
    match db.getBlock h.id with
    | none => throw ⟨.forkDatabaseException,
        "block state not in fork database; cannot mark as valid"⟩
    | some b =>
      let db := { db with index := db.index.insert h.id { b with validated := true } }
      match db.candidate with
      | some best => pure (if best.FirstPreferred db.head then { db with head := best } else db)
      | none => pure db

/-- The best block that is not validated, if it is preferred to the head. -/
def pendingHead : BlockState :=
  match BlockState.first? (db.index.values.filter fun b => !b.validated) with
  | some b => if b.FirstPreferred db.head then b else db.head
  | none => db.head

/-! ## Branches -/

/-- The blocks from `id` back to the root, without the root. -/
def branchFrom : ℕ → Sha256 → List BlockState
  | 0, _ => []
  | fuel + 1, id =>
    match db.getBlock id with
    | none => []
    | some b => b :: branchFrom fuel b.header.previous

def fetchBranch (h : Sha256) (trimAfterBlockNum : UInt32) : List BlockState :=
  (db.branchFrom db.index.entries.length h).filter fun b => b.blockNum ≤ trimAfterBlockNum

def orThrowNotFound : Option BlockState → Except ChainException BlockState
  | some b => pure b
  | none => throw ⟨.forkDbBlockNotFound, "block ${id} does not exist"⟩

/-- The first two loops of `fetch_branch_from`: back from `b` to a block not above `num`. -/
def descendTo (num : UInt32) : ℕ → BlockState → List BlockState →
    Except ChainException (List BlockState × BlockState)
  | 0, _, _ => throw ⟨.undefinedBehaviour, "the blocks of a branch form a cycle"⟩
  | fuel + 1, b, branch =>
    if b.blockNum ≤ num then pure (branch, b)
    else do
      let prev ← orThrowNotFound (db.getBlockHeader b.header.previous)
      descendTo num fuel prev (branch ++ [b])

/-- The last loop: back from two blocks until they have the same parent. -/
def descendBoth : ℕ → BlockState → BlockState → List BlockState → List BlockState →
    Except ChainException (List BlockState × List BlockState)
  | 0, _, _, _, _ => throw ⟨.undefinedBehaviour, "the blocks of a branch form a cycle"⟩
  | fuel + 1, b₁, b₂, branch₁, branch₂ =>
    if b₁.header.previous = b₂.header.previous then pure (branch₁ ++ [b₁], branch₂ ++ [b₂])
    else do
      let prev₁ ← orThrowNotFound (db.getBlock b₁.header.previous)
      let prev₂ ← orThrowNotFound (db.getBlock b₂.header.previous)
      descendBoth fuel prev₁ prev₂ (branch₁ ++ [b₁]) (branch₂ ++ [b₂])

/-- The branches of two blocks back to their common ancestor, which is not in them. -/
def fetchBranchFrom (first second : Sha256) :
    Except ChainException (List BlockState × List BlockState) := do
  let fuel := db.index.entries.length + 1
  let firstBlock ← orThrowNotFound (db.getBlockHeader first)
  let secondBlock ← orThrowNotFound (db.getBlockHeader second)
  let (branch₁, b₁) ← db.descendTo secondBlock.blockNum fuel firstBlock []
  let (branch₂, b₂) ← db.descendTo b₁.blockNum fuel secondBlock []
  if b₁.id = b₂.id then pure (branch₁, branch₂)
  else db.descendBoth fuel b₁ b₂ branch₁ branch₂

/-! ## Removal -/

def children (id : Sha256) : List Sha256 :=
  (db.index.values.filter fun b => b.header.previous = id).map fun b => b.id

/-- The queue of `remove`: `todo` is what has not been looked at. -/
def removeQueue : ℕ → List Sha256 → List Sha256 → Except ChainException (List Sha256)
  | _, [], queue => pure queue
  | 0, _ :: _, _ => throw ⟨.undefinedBehaviour, "the blocks of a branch form a cycle"⟩
  | fuel + 1, id :: todo, queue => do
    dcdAssert (id ≠ db.head.id) .forkDatabaseException
      "removing the block and its descendants would remove the current head block"
    removeQueue fuel (todo ++ db.children id) (queue ++ [id])

/-- Removes a block and everything built on it. -/
def remove (id : Sha256) : Except ChainException ForkDatabase := do
  let queue ← db.removeQueue (db.index.entries.length + 1) [id] []
  pure { db with index := queue.foldl (fun index id => index.erase id) db.index }

/-- The loop of `advance_root` that collects the ancestors of the new root. -/
def blocksToRemove : ℕ → BlockState → List Sha256 → Except ChainException (List Sha256)
  | 0, _, _ => throw ⟨.undefinedBehaviour, "the blocks of a branch form a cycle"⟩
  | fuel + 1, b, blocks =>
    match db.getBlock b.header.previous with
    | some prev => blocksToRemove fuel prev (blocks ++ [b.header.previous])
    | none => do
      dcdAssert (b.header.previous = db.root.id) .forkDatabaseException
        "invariant violation: orphaned branch was present in forked database"
      pure (blocks ++ [b.header.previous])

/-- `advance_root`; the blocks removed before an exception stay removed. -/
def advanceRoot (id : Sha256) : Stateful ForkDatabase ChainException Unit := do
  let db ← get
  match db.getBlock id with
  | none => throw ⟨.forkDatabaseException,
      "cannot advance root to a block that does not exist in the fork database"⟩
  | some newRoot =>
    Stateful.ofExcept (dcdAssert (newRoot.validated = true) .forkDatabaseException
      "cannot advance root to a block that has not yet been validated")
    let blocks ← Stateful.ofExcept (db.blocksToRemove (db.index.entries.length + 1) newRoot [])
    modify fun db => { db with index := db.index.erase id }
    blocks.forM fun block => do
      let db ← get
      let db ← Stateful.ofExcept (db.remove block)
      set db
    modify fun db => { db with root := newRoot }

def rollbackHeadToRoot : ForkDatabase :=
  { db with
    index := db.index.values.foldl
      (fun index b => index.insert b.id { b with validated := false }) db.index
    head := db.root }

end ForkDatabase

end DcdProtocol.Chain
