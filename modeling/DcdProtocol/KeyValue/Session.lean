import DcdProtocol.Library.OrderedKeys

/-!
# Sessions of the key-value store

`b1::session::session` is a write cache over an ordered store.  A cache entry remembers, next to its
value, whether it was deleted, how often, and whether the keys before and after it are known to be
cached too; iteration pulls the neighbours it needs from the parent, one at a time, and records that
it did.

The model keeps the cache, its flags and every place that reads or sets them.  Keys and values are
arbitrary: an empty key or value of the source (no position, no value) is `none`.  The parent is an
ordered map, which is what the store below the session is assumed to be.
-/

namespace DcdProtocol.KeyValue

open Library

structure ValueState (ν : Type*) where
  /-- Whether the next key of the store is known to be in the cache. -/
  nextInCache : Bool := false
  /-- Whether the previous key of the store is known to be in the cache. -/
  previousInCache : Bool := false
  deleted : Bool := false
  updated : Bool := false
  version : ℕ := 0
  value : Option ν := none
  deriving DecidableEq

/-- `session`: a cache over its parent. -/
structure Session (κ ν : Type*) [LinearOrder κ] where
  parent : FlatMap κ ν
  cache : FlatMap κ (ValueState ν) := .empty

namespace Session

variable {κ ν : Type*} [LinearOrder κ] (s : Session κ ν) (k : κ)

/-! ## The cache -/

def modify (f : ValueState ν → ValueState ν) : Session κ ν :=
  match s.cache.find? k with
  | some e => { s with cache := s.cache.insert k (f e) }
  | none => s

/-- Cache a key of the parent with its value; an entry that is there stays. -/
def emplaceParent : Session κ ν :=
  { s with cache := s.cache.emplace k { value := s.parent.find? k } }

/-- `emplaceParent` for a position of the parent, which may be its end. -/
def pullParent (s : Session κ ν) : Option κ → Session κ ν
  | some k => s.emplaceParent k
  | none => s

def cacheNext : Option κ := s.cache.firstKey? (k < ·)

def cachePrevious : Option κ := s.cache.lastKey? (· < k)

def nextInCache : Bool := (s.cache.find? k).elim false (·.nextInCache)

def previousInCache : Bool := (s.cache.find? k).elim false (·.previousInCache)

def isDeleted : Bool := (s.cache.find? k).elim false (·.deleted)

def version : ℕ := (s.cache.find? k).elim 0 (·.version)

/-- `prime_cache_`: a new session caches the first and the last key of its parent. -/
def primeCache (parent : FlatMap κ ν) : Session κ ν :=
  let s : Session κ ν := { parent }
  match parent.firstKey? (fun _ => true), parent.lastKey? (fun _ => true) with
  | some first, some last => (s.emplaceParent first).emplaceParent last
  | _, _ => s

/-- Record that the key `n` follows `k` in the store. -/
def link (k n : κ) : Session κ ν :=
  (s.modify n fun e => { e with previousInCache := true }).modify k
    fun e => { e with nextInCache := true }

def nextKey : Session κ ν :=
  let s := s.pullParent (s.parent.firstKey? (k < ·))
  match s.cacheNext k with
  | some n => s.link k n
  | none => s

def previousKey : Session κ ν :=
  let s := s.pullParent (s.parent.lastKey? (· < k))
  match s.cachePrevious k with
  | some p => s.link p k
  | none => s

/-- Whether the keys around a newly cached one are known to be its neighbours in the store. -/
def orderKnown : Bool :=
  match s.cachePrevious k with
  | some p => s.nextInCache p
  | none =>
    match s.cacheNext k with
    | some n => s.previousInCache n
    | none => false

/-- `update_iterator_cache_`: make an entry for the key and find its neighbours. -/
def updateIteratorCache : Session κ ν :=
  if s.cache.contains k then s
  else
    let s := { s with cache := s.cache.insert k {} }
    if s.orderKnown k then
      s.modify k fun e => { e with nextInCache := true, previousInCache := true }
    else (s.nextKey k).previousKey k

/-! ## Reading and writing -/

def read : Option ν × Session κ ν :=
  let fromParent := match s.parent.find? k with
    | some v => (some v, (s.updateIteratorCache k).modify k fun e => { e with value := some v })
    | none => (none, s)
  match s.cache.find? k with
  | some e =>
    if e.deleted then (none, s)
    else
      match e.value with
      | some v => (some v, s)
      | none => fromParent
  | none => fromParent

def write (v : ν) : Session κ ν :=
  (s.updateIteratorCache k).modify k
    fun e => { e with value := some v, deleted := false, updated := true }

def erase : Session κ ν :=
  (s.updateIteratorCache k).modify k
    fun e => { e with deleted := true, updated := false, version := e.version + 1 }

/-! ## Iterators -/

/-- `first_not_deleted_in_iterator_cache_`: the first entry that is not deleted, and whether every
entry up to it knows its predecessor. -/
def firstNotDeleted : List (κ × ValueState ν) → Bool → Option κ × Bool
  | [], previousKnown => (none, previousKnown)
  | (k, e) :: es, previousKnown =>
    let previousKnown := previousKnown && e.previousInCache
    if e.deleted then firstNotDeleted es previousKnown else (some k, previousKnown)

def entriesFrom : List (κ × ValueState ν) := s.cache.entries.dropWhile fun e => e.1 < k

/-- The search of `lower_bound`: the entry found in the cache, unless the parent may have one that
comes earlier. -/
def searchFrom : Option κ × Session κ ν :=
  let (it, previousInCache) := firstNotDeleted (s.entriesFrom k) true
  if it = none ∨ (it ≠ some k ∧ previousInCache = false) then
    match s.parent.firstKey? (fun q => decide (k ≤ q) && !s.isDeleted q) with
    | some q => if it.elim true (q < ·) then (some q, s.emplaceParent q) else (it, s)
    | none => (it, s)
  else (it, s)

/-- The smaller of two keys, one of which may be missing. -/
def minKey (pending key : Option κ) : Option κ :=
  match pending, key with
  | some p, some q => if p < q then some p else some q
  | some p, none => some p
  | none, q => q

/-- The larger of two keys, one of which may be missing. -/
def maxKey (pending key : Option κ) : Option κ :=
  match pending, key with
  | some p, some q => if q < p then some p else some q
  | some p, none => some p
  | none, q => q

/-- The cache update of `move_next_`: pull the next key from the parent, if the cache does not have
it.  `none` if there is no next key. -/
def pullNext : Option (Session κ ν) :=
  match minKey (s.cacheNext k) (s.parent.firstKey? (k < ·)) with
  | some n => some ((s.emplaceParent n).link k n)
  | none => none

/-- The cache update of `move_previous_`. -/
def pullPrevious : Option (Session κ ν) :=
  match maxKey (s.cachePrevious k) (s.parent.lastKey? (· < k)) with
  | some p => some ((s.emplaceParent p).link p k)
  | none => none

/-- `move_` for the next key.  Every round moves to a greater key, so as many rounds as there are
keys suffice. -/
def moveNext : ℕ → Session κ ν → κ → Option κ × Session κ ν
  | 0, s, _ => (none, s)
  | rounds + 1, s, k =>
    match if s.nextInCache k then some s else s.pullNext k with
    | none => (none, s)
    | some s =>
      match s.cacheNext k with
      | none => (none, s)
      | some n => if s.isDeleted n then moveNext rounds s n else (some n, s)

/-- `move_` for the previous key. -/
def movePrevious : ℕ → Session κ ν → κ → Option κ × Session κ ν
  | 0, s, _ => (none, s)
  | rounds + 1, s, k =>
    match if s.previousInCache k then some s else s.pullPrevious k with
    | none => (none, s)
    | some s =>
      match s.cachePrevious k with
      | none => (none, s)
      | some p => if s.isDeleted p then movePrevious rounds s p else (some p, s)

def rounds : ℕ := s.cache.keys.length + s.parent.keys.length + 1

end Session

end DcdProtocol.KeyValue
