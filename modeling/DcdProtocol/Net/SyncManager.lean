import DcdProtocol.Library.Run

/-!
# The sync manager of the net plugin

Which connection `request_next_chunk` asks for the next blocks.  Connections are in the order of
the plugin's set.
-/

namespace DcdProtocol.Net

open Library List

variable {Conn : Type*} [DecidableEq Conn]

inductive Stage
  | libCatchup | headCatchup | inSync
  deriving DecidableEq

/-- The set of connections; `current` means connected and not syncing from this node. -/
structure Peers (Conn : Type*) where
  connections : List Conn
  current : Conn → Bool
  isTransactionsOnly : Conn → Bool

/-! ## The source of the next chunk -/

structure SyncManager (Conn : Type*) where
  syncKnownLibNum : UInt32
  syncLastRequestedNum : UInt32
  syncNextExpectedNum : UInt32
  syncReqSpan : UInt32
  syncSource : Option Conn
  syncState : Stage

inductive Sent (Conn : Type*)
  | nothing
  | syncRequest (c : Conn) (first last : UInt32)
  | handshake (c : Conn)

namespace Peers

variable {p : Peers Conn} {conn source : Option Conn}

def usable (p : Peers Conn) (c : Conn) : Bool := !p.isTransactionsOnly c && p.current c

/-- The connections as the scan visits them: from the one after the previous source and around,
or from the first one when the previous source is not in the set. -/
def ring (p : Peers Conn) : Option Conn → List Conn
  | none => p.connections
  | some source =>
    let start := p.connections.idxOf source + 1
    p.connections.drop start ++ p.connections.take start

def nextSource (p : Peers Conn) (conn source : Option Conn) : Option Conn :=
  match conn.filter p.current with
  | some c => some c
  | none =>
    match p.connections with
    | [] => none
    | [only] => source.or (some only)
    | _ => ((p.ring source).find? p.usable).or (source.filter (· ∈ p.connections))

theorem mem_ring_iff {c : Conn} : c ∈ p.ring source ↔ c ∈ p.connections := by
  cases source with
  | none => rfl
  | some s => rw [ring, mem_append, or_comm, ← mem_append, take_append_drop]

/-- A preferred connection that is current takes blocks, and the previous source of a set of
one connection is usable: neither is looked at again before the final check. -/
def Reaches (p : Peers Conn) (conn source : Option Conn) : Prop :=
  match conn.filter p.current with
  | some c => p.isTransactionsOnly c = false
  | none => p.connections.length = 1 → ∀ c, source = some c → p.usable c = true

theorem usable_nextSource_iff (husable : ∃ c ∈ p.connections, p.usable c = true) :
    (∃ c, p.nextSource conn source = some c ∧ p.usable c = true) ↔ p.Reaches conn source := by
  unfold nextSource Reaches
  cases hconn : conn.filter p.current with
  | some c => simp [usable, (Option.filter_eq_some_iff.mp hconn).2]
  | none =>
    rcases hp : p.connections with _ | ⟨only, _ | ⟨second, rest⟩⟩
    · simp [hp] at husable
    · cases source <;> simp_all
    · -- the scan visits the whole set
      obtain ⟨c, hc⟩ : ∃ c, (p.ring source).find? p.usable = some c := by
        rw [← Option.isSome_iff_exists, find?_isSome]
        simpa only [mem_ring_iff] using husable
      simp [hc, find?_some hc]

end Peers

namespace SyncManager

def requestNextChunk (m : SyncManager Conn) (p : Peers Conn) (forkHeadBlockNum libBlockNum : UInt32)
    (conn : Option Conn) : SyncManager Conn × Sent Conn :=
  if forkHeadBlockNum < m.syncLastRequestedNum ∧ m.syncSource.any p.current then
    (m, .nothing)
  else
    let source := p.nextSource conn m.syncSource
    match source.filter p.usable with
    | none =>
      ({ m with syncKnownLibNum := libBlockNum, syncLastRequestedNum := 0, syncSource := source,
                syncState := .inSync }, .nothing)
    | some c =>
      let first := m.syncNextExpectedNum
      let last := min (first + m.syncReqSpan - 1) m.syncKnownLibNum
      if m.syncLastRequestedNum ≠ m.syncKnownLibNum ∧ 0 < last ∧ first ≤ last then
        ({ m with syncLastRequestedNum := last, syncSource := source }, .syncRequest c first last)
      else ({ m with syncSource := source }, .handshake c)

/-- The request goes on with a usable source and keeps its stage. -/
def Continues (m : SyncManager Conn) (p : Peers Conn) (result : SyncManager Conn × Sent Conn) :
    Prop :=
  ∃ c, p.usable c = true ∧ result.1.syncSource = some c ∧ result.1.syncState = m.syncState ∧
    result.2 ≠ .nothing

/-- With a usable connection in the set, a request that is not ignored goes on exactly when
neither the preferred connection nor the source left over for a set of one stands in the way. -/
theorem requestNextChunk_continues_iff {m : SyncManager Conn} {p : Peers Conn}
    {forkHeadBlockNum libBlockNum : UInt32} {conn : Option Conn}
    (hpending : ¬(forkHeadBlockNum < m.syncLastRequestedNum ∧ m.syncSource.any p.current))
    (husable : ∃ c ∈ p.connections, p.usable c = true) :
    m.Continues p (m.requestNextChunk p forkHeadBlockNum libBlockNum conn) ↔
      p.Reaches conn m.syncSource := by
  rw [← Peers.usable_nextSource_iff husable, requestNextChunk, if_neg hpending, Continues]
  cases hsource : p.nextSource conn m.syncSource with
  | none => simp
  | some c =>
    cases hc : p.usable c with
    | false => simp [Option.filter, hc]
    | true =>
      have hfilter : (some c).filter p.usable = some c := by simp [hc]
      simp only [hfilter]
      split_ifs <;> simp [hc]

/-- The source has left the set. -/
def leftBehind : SyncManager ℕ := ⟨100, 0, 51, 10, some 0, .libCatchup⟩

theorem requestNextChunk_continues_leftBehind :
    leftBehind.Continues ⟨[1, 2], (· == 2), fun _ => false⟩
      (leftBehind.requestNextChunk ⟨[1, 2], (· == 2), fun _ => false⟩ 50 40 none) :=
  (requestNextChunk_continues_iff (by decide) ⟨2, by decide⟩).mpr
    fun hone => absurd hone (by decide)

/-- The only connection of the set is usable and is not taken. -/
theorem requestNextChunk_gives_up :
    ¬(50 < leftBehind.syncLastRequestedNum ∧ leftBehind.syncSource.any (· == 1)) ∧
      (⟨[1], (· == 1), fun _ => false⟩ : Peers ℕ).usable 1 = true ∧
      (leftBehind.requestNextChunk ⟨[1], (· == 1), fun _ => false⟩ 50 40 none).1.syncState =
        .inSync := by
  decide

end SyncManager

end DcdProtocol.Net
