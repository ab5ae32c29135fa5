import DcdProtocol.KeyValue.Session

/-!
# Sessions over sessions

The parent of a session is a session again, or the store at the root.  The code of `session` is the
same in both cases, as it only uses the interface that both have.  `Store` is this interface, and
`sessionStore` gives it to a session over any parent that has it; `layerStore` is a stack of sessions
over the root.

Unlike for a session directly over the root, reading from the parent changes the parent: it caches
what it is asked for, and so do the sessions below it.  Every operation therefore returns the parent
as well.  Iterators are positions, with `none` for the end.
-/

namespace DcdProtocol.KeyValue

open Library

structure Store (σ κ ν : Type*) where
  begin : σ → Option κ × σ
  lowerBound : κ → σ → Option κ × σ
  find : κ → σ → Option κ × σ
  /-- `operator++` of an iterator. -/
  next : Option κ → σ → Option κ × σ
  /-- `operator--` of an iterator. -/
  previous : Option κ → σ → Option κ × σ
  /-- The value an iterator refers to. -/
  valueAt : Option κ → σ → Option ν
  read : κ → σ → Option ν × σ
  write : κ → ν → σ → σ
  erase : κ → σ → σ
  /-- A bound for the number of keys an iterator can visit. -/
  size : σ → ℕ

/-- `session<rocksdb_t>`, over an ordered map. -/
def rootStore (κ ν : Type*) [LinearOrder κ] : Store (FlatMap κ ν) κ ν where
  begin m := (m.firstKey? fun _ => true, m)
  lowerBound k m := (m.firstKey? (k ≤ ·), m)
  find k m := (if m.contains k then some k else none, m)
  next
    | none, m => (m.firstKey? fun _ => true, m)
    | some k, m => (m.firstKey? (k < ·), m)
  previous
    | none, m => (m.lastKey? fun _ => true, m)
    | some k, m => (m.lastKey? (· < k), m)
  valueAt pos m := pos.bind m.find?
  read k m := (m.find? k, m)
  write k v m := m.insert k v
  erase k m := m.erase k
  size m := m.keys.length

/-- `session`: a cache over a parent of any kind. -/
structure Layer (σ κ ν : Type*) [LinearOrder κ] where
  parent : σ
  cache : FlatMap κ (ValueState ν) := .empty

namespace Layer

variable {σ κ ν : Type*} [LinearOrder κ] (P : Store σ κ ν) (s : Layer σ κ ν) (k : κ)

/-! ## The cache -/

def onParent {α : Type*} (f : σ → α × σ) : α × Layer σ κ ν :=
  ((f s.parent).1, { s with parent := (f s.parent).2 })

def modify (f : ValueState ν → ValueState ν) : Layer σ κ ν :=
  match s.cache.find? k with
  | some e => { s with cache := s.cache.insert k (f e) }
  | none => s

/-- Cache a key with a value; an entry that is there stays. -/
def emplace (v : Option ν) : Layer σ κ ν :=
  { s with cache := s.cache.emplace k { value := v } }

/-- Cache the key a parent's iterator is at, which may be its end. -/
def pull (pit : Option κ) : Layer σ κ ν :=
  match pit with
  | none => s
  | some k => s.emplace k (P.valueAt (some k) s.parent)

def cacheNext : Option κ := s.cache.firstKey? (k < ·)

def cachePrevious : Option κ := s.cache.lastKey? (· < k)

def nextInCache : Bool := (s.cache.find? k).elim false (·.nextInCache)

def previousInCache : Bool := (s.cache.find? k).elim false (·.previousInCache)

def isDeleted : Bool := (s.cache.find? k).elim false (·.deleted)

/-- Record that the key `n` follows `k` in the store. -/
def link (k n : κ) : Layer σ κ ν :=
  (s.modify n fun e => { e with previousInCache := true }).modify k
    fun e => { e with nextInCache := true }

def linkNext : Layer σ κ ν :=
  match s.cacheNext k with
  | some n => s.link k n
  | none => s

def linkPrevious : Layer σ κ ν :=
  match s.cachePrevious k with
  | some p => s.link p k
  | none => s

/-- `prime_cache_`: a session caches the first and the last key of its parent. -/
def primeCache : Layer σ κ ν :=
  let (first, s) := s.onParent P.begin
  match first with
  | none => s
  | some first =>
    let s := s.pull P (some first)
    let (last, s) := s.onParent (P.previous none)
    s.pull P last

/-- `next_key_`, with the iterator `pit` of the parent, which is moved and moved back. -/
def nextKey (pit : Option κ) : Option κ × Layer σ κ ν :=
  if pit = some k then
    let (pit, s) := s.onParent (P.next pit)
    let s := s.pull P pit
    let (pit, s) := s.onParent (P.previous pit)
    (pit, s.linkNext k)
  else (pit, (s.pull P pit).linkNext k)

def previousKey (pit pbegin : Option κ) : Layer σ κ ν :=
  if pit ≠ pbegin then
    let (pit, s) := s.onParent (P.previous pit)
    let s := s.pull P pit
    let (_, s) := s.onParent (P.next pit)
    s.linkPrevious k
  else s.linkPrevious k

/-- Whether the keys around a newly cached one are known to be its neighbours in the store. -/
def orderKnown : Bool :=
  match s.cachePrevious k with
  | some p => s.nextInCache p
  | none =>
    match s.cacheNext k with
    | some n => s.previousInCache n
    | none => false

/-- `update_iterator_cache_`: make an entry for the key and find its neighbours. -/
def updateIteratorCache : Layer σ κ ν :=
  if s.cache.contains k then s
  else
    let s := { s with cache := s.cache.insert k {} }
    if s.orderKnown k then
      s.modify k fun e => { e with nextInCache := true, previousInCache := true }
    else
      let (pit, s) := s.onParent (P.lowerBound k)
      let (pit, s) := s.nextKey P k pit
      let (pbegin, s) := s.onParent P.begin
      s.previousKey P k pit pbegin

/-! ## Reading and writing -/

/-- The end of `read` and `contains`: ask the parent. -/
def readParent : Option ν × Layer σ κ ν :=
  let (value, s) := s.onParent (P.read k)
  match value with
  | some v => (some v, (s.updateIteratorCache P k).modify k fun e => { e with value := some v })
  | none => (none, s)

def read : Option ν × Layer σ κ ν :=
  match s.cache.find? k with
  | some e =>
    if e.deleted then (none, s)
    else
      match e.value with
      | some v => (some v, s)
      | none => s.readParent P k
  | none => s.readParent P k

def contains : Bool × Layer σ κ ν :=
  match s.cache.find? k with
  | some e =>
    if e.deleted then (false, s)
    else if e.value.isSome then (true, s)
    else
      let (value, s) := s.readParent P k
      (value.isSome, s)
  | none =>
    let (value, s) := s.readParent P k
    (value.isSome, s)

def write (v : ν) : Layer σ κ ν :=
  (s.updateIteratorCache P k).modify k
    fun e => { e with value := some v, deleted := false, updated := true }

def erase : Layer σ κ ν :=
  (s.updateIteratorCache P k).modify k
    fun e => { e with deleted := true, updated := false, version := e.version + 1 }

/-! ## Iterators -/

/-- `first_not_deleted_in_iterator_cache_` for an iterator of the parent.  Every round moves to a
greater key, so as many rounds as there are keys suffice. -/
def skipDeleted : ℕ → Layer σ κ ν → Option κ → Option κ × Layer σ κ ν
  | 0, s, _ => (none, s)
  | _ + 1, s, none => (none, s)
  | rounds + 1, s, some k =>
    if s.isDeleted k then
      let (pit, s) := s.onParent (P.next (some k))
      skipDeleted rounds s pit
    else (some k, s)

/-- The first key that this session has not deleted, from where `start` puts the parent's iterator. -/
def firstOfParent (start : σ → Option κ × σ) : Option κ × Layer σ κ ν :=
  let (pit, s) := s.onParent start
  skipDeleted P (P.size s.parent + 1) s pit

/-- `begin`.  No key of the parent comes before the empty key that stands for a missing entry. -/
def begin : Option κ × Layer σ κ ν :=
  let (it, previousInCache) := Session.firstNotDeleted s.cache.entries true
  if it = none ∨ (it ≠ s.cache.firstKey? (fun _ => true) ∧ previousInCache = false) then
    let (pit, s) := s.firstOfParent P P.begin
    match it, pit with
    | some pending, some q => if q < pending then (some q, s.pull P (some q)) else (it, s)
    | _, _ => (it, s)
  else (it, s)

def entriesFrom : List (κ × ValueState ν) := s.cache.entries.dropWhile fun e => e.1 < k

/-- The position of an iterator that must not be at a deleted key. -/
def notDeleted (it : Option κ) : Option κ := it.filter (!s.isDeleted ·)

def lowerBound : Option κ × Layer σ κ ν :=
  let (it, previousInCache) := Session.firstNotDeleted (s.entriesFrom k) true
  if it = none ∨ (it ≠ some k ∧ previousInCache = false) then
    let (pit, s) := s.firstOfParent P (P.lowerBound k)
    match pit with
    | some q =>
      if it.elim true (q < ·) then
        let s := s.pull P (some q)
        (s.notDeleted (some q), s)
      else (s.notDeleted it, s)
    | none => (s.notDeleted it, s)
  else (s.notDeleted it, s)

def find : Option κ × Layer σ κ ν :=
  if s.cache.contains k then (s.notDeleted (some k), s)
  else
    let (pit, s) := s.onParent (P.find k)
    match pit with
    | none => (none, s)
    | some _ =>
      let s := s.emplace k (P.valueAt pit s.parent)
      (s.notDeleted (some k), s)

/-- The cache update of `move_next_`, with whether there is a next key. -/
def pullNext : Bool × Layer σ κ ν :=
  let pending := s.cacheNext k
  let (pit, s) := s.onParent (P.lowerBound k)
  let (pit, s) := if pit = some k then s.onParent (P.next pit) else (pit, s)
  match Session.minKey pending pit with
  | some n => (true, (s.emplace n (P.valueAt pit s.parent)).link k n)
  | none => (false, s)

/-- The cache update of `move_previous_`, with whether there is a previous key. -/
def pullPrevious : Bool × Layer σ κ ν :=
  let pending := s.cachePrevious k
  let (pit, s) := s.onParent (P.lowerBound k)
  let (pbegin, s) := s.onParent P.begin
  let (pit, s) := if pit ≠ pbegin then s.onParent (P.previous pit) else (none, s)
  match Session.maxKey pending pit with
  | some p => (true, (s.emplace p (P.valueAt pit s.parent)).link p k)
  | none => (false, s)

/-- `move_` for the next key. -/
def moveNext : ℕ → Layer σ κ ν → κ → Option κ × Layer σ κ ν
  | 0, s, _ => (none, s)
  | rounds + 1, s, k =>
    let (found, s) := if s.nextInCache k then (true, s) else s.pullNext P k
    if found then
      match s.cacheNext k with
      | none => (none, s)
      | some n => if s.isDeleted n then moveNext rounds s n else (some n, s)
    else (none, s)

/-- `move_` for the previous key. -/
def movePrevious : ℕ → Layer σ κ ν → κ → Option κ × Layer σ κ ν
  | 0, s, _ => (none, s)
  | rounds + 1, s, k =>
    let (found, s) := if s.previousInCache k then (true, s) else s.pullPrevious P k
    if found then
      match s.cachePrevious k with
      | none => (none, s)
      | some p => if s.isDeleted p then movePrevious rounds s p else (some p, s)
    else (none, s)

def size : ℕ := s.cache.keys.length + P.size s.parent

/-- `session_iterator::operator++`. -/
def next (pos : Option κ) : Option κ × Layer σ κ ν :=
  match pos with
  | none => (s.cache.firstKey? fun _ => true, s)
  | some k => moveNext P (s.size P + 1) s k

/-- `session_iterator::operator--`. -/
def previous (pos : Option κ) : Option κ × Layer σ κ ν :=
  if pos = s.cache.firstKey? (fun _ => true) then (none, s)
  else
    match pos with
    | some k => movePrevious P (s.size P + 1) s k
    | none =>
      -- The end needs no update: the move goes to the last entry of the cache.
      match s.cache.lastKey? fun _ => true with
      | none => (none, s)
      | some k => if s.isDeleted k then movePrevious P (s.size P + 1) s k else (some k, s)

def valueAt (pos : Option κ) : Option ν :=
  pos.bind fun k => (s.cache.find? k).bind (·.value)

/-! ## The end of a session -/

/-- `commit`: the parent takes over what was deleted and updated.  What is left is the parent. -/
def commit : σ :=
  let deletes := s.cache.entries.filter (·.2.deleted)
  let updates := s.cache.entries.filter fun e => !e.2.deleted && e.2.updated
  let parent := deletes.foldl (fun parent e => P.erase e.1 parent) s.parent
  updates.foldl
    (fun parent e => e.2.value.elim parent fun v => P.write e.1 v parent) parent

end Layer

def sessionStore {σ κ ν : Type*} [LinearOrder κ] (P : Store σ κ ν) : Store (Layer σ κ ν) κ ν where
  begin s := s.begin P
  lowerBound k s := s.lowerBound P k
  find k s := s.find P k
  next pos s := s.next P pos
  previous pos s := s.previous P pos
  valueAt pos s := s.valueAt pos
  read k s := s.read P k
  write k v s := s.write P k v
  erase k s := s.erase P k
  size s := s.size P

/-- A stack of `n` sessions over the root. -/
def Layers (κ ν : Type*) [LinearOrder κ] : ℕ → Type _
  | 0 => FlatMap κ ν
  | n + 1 => Layer (Layers κ ν n) κ ν

def layerStore (κ ν : Type*) [LinearOrder κ] : (n : ℕ) → Store (Layers κ ν n) κ ν
  | 0 => rootStore κ ν
  | n + 1 => sessionStore (layerStore κ ν n)

end DcdProtocol.KeyValue
