import DcdProtocol.StateHistory.LinkedChain

/-!
# Reads return the last write

`get_block_id` and `get_log_entry` should return, for every block from `begin_block` to `end_block`,
what the last write of the block gave that no later fork has removed.  They do not always.  The
catalog remembers the file that it has mapped by the position of its item, and `truncate` erases
items without looking at that position.  If files are added again afterwards, the position is that of
a new item, and the blocks of the new file are read from the old one, which is still mapped
(`stale_read`).

Reads are right in every run in which a write that forks back finds the mapped file, if there is one,
before its block (`MapsBefore`), and in which no write leaves a gap (`Follows`): the blocks of a gap
are neither in the catalog nor in the active files, and `get_log_entry` throws for them.  The length
of the compressed deltas has to fit into 32 bits.
-/

namespace DcdProtocol.StateHistory

open Library List
open Chain (Sha256 numFromId)

/-- A call of `state_history_chain_state_log::store`: the id of the block, that of the block before
it, and the deltas. -/
structure StoreCall where
  blockId : Sha256
  prevId : Sha256
  deltas : Option Bytes
  deriving DecidableEq

def StoreCall.blockNum (c : StoreCall) : ℕ := (numFromId c.blockId).toNat

def StoreCall.entry (z : Zlib) (c : StoreCall) : Log.Entry :=
  ⟨c.blockId, c.prevId, c.deltas.map z.pack⟩

inductive LogCall
  | store (c : StoreCall)
  | getBlockId (blockNum : ℕ)
  | getLogEntry (blockNum : ℕ)

namespace Log

variable (cfg : Config) (z : Zlib)

def call (s : Log) : LogCall → Log
  | .store c => ((store cfg z c.blockId c.prevId c.deltas).exec s).2
  | .getBlockId n => ((getBlockId n).exec s).2
  | .getLogEntry n => ((getLogEntry z n).exec s).2

abbrev CallRun : List (Transition Log LogCall) → Log → Prop :=
  Run (fun s l s' => s.call cfg z l = s') {}

/-- The writes that no later fork has removed, after one more call. -/
def surviveCall (cs : List StoreCall) (t : Transition Log LogCall) : List StoreCall :=
  match t.label with
  | .store c =>
    survive StoreCall.blockNum cs c ((store cfg z c.blockId c.prevId c.deltas).exec t.before).1
  | .getBlockId _ | .getLogEntry _ => cs

def survivingStores (ts : List (Transition Log LogCall)) : List StoreCall :=
  ts.foldl (surviveCall cfg z) []

/-- The most recent write of a block that was not removed by a later fork. -/
def lastWrite (ts : List (Transition Log LogCall)) (n : ℕ) : Option StoreCall :=
  (survivingStores cfg z ts).find? fun c => c.blockNum = n

def SafeCall (s : Log) : LogCall → Prop
  | .store c => 0 < c.blockNum ∧ c.blockNum + 1 < 2 ^ 32 ∧ s.Follows (c.entry z) ∧
      s.MapsBefore (c.entry z) ∧ ∀ raw ∈ c.deltas, (z.compress raw).length < 2 ^ 32
  | .getBlockId _ | .getLogEntry _ => True

end Log

section

variable {cfg : Config} {z : Zlib} {s s' : Log} {start n : ℕ} {splits : List SplitFile}
  {act : List StoredEntry} {cs : List StoreCall}

theorem map_survive (cs : List StoreCall) (c : StoreCall) (r : Except HistoryException Unit) :
    (Log.survive StoreCall.blockNum cs c r).map (StoreCall.entry z) =
      Log.survive Log.Entry.blockNum (cs.map (StoreCall.entry z)) (c.entry z) r := by
  have hfilter : (cs.filter fun v => v.blockNum < c.blockNum).map (StoreCall.entry z) =
      (cs.map (StoreCall.entry z)).filter fun v => v.blockNum < (c.entry z).blockNum := by
    rw [filter_map]
    rfl
  cases r with
  | ok _ => exact map_append.trans (congrArg (· ++ [c.entry z]) hfilter)
  | error e =>
    cases e with
    | stateHistory what => rfl
    | failure what => exact hfilter
    | payload => exact hfilter
    | zlib => exact hfilter
    | undefinedBehaviour => exact hfilter

theorem mem_of_mem_survive {c d : StoreCall} {r : Except HistoryException Unit}
    (hd : d ∈ Log.survive StoreCall.blockNum cs c r) : d ∈ cs ∨ d = c ∧ r = .ok () := by
  cases r with
  | ok _ =>
    rcases mem_append.mp hd with hd | hd
    · grind
    · grind
  | error e =>
    cases e with
    | stateHistory what => exact .inl hd
    | failure what => exact .inl (mem_of_mem_filter hd)
    | payload => exact .inl (mem_of_mem_filter hd)
    | zlib => exact .inl (mem_of_mem_filter hd)
    | undefinedBehaviour => exact .inl (mem_of_mem_filter hd)

theorem payload_of_writeEntry {w : Log.Entry} (hok : ((Log.writeEntry cfg w).exec s).1 = .ok ()) :
    ∃ payload, w.payload = some payload := by
  rw [writeEntry_exec] at hok
  cases hpayload : w.payload with
  | some payload => exact ⟨payload, rfl⟩
  | none => grind

structure ReadInvariant (cfg : Config) (z : Zlib) (s : Log) (start : ℕ) (splits : List SplitFile)
    (act : List StoredEntry) (cs : List StoreCall) : Prop where
  kept : Kept cfg s start splits act (cs.map (StoreCall.entry z))
  mapped : Mapped splits s.catalog
  compressed : ∀ c ∈ cs, ∃ raw, c.deltas = some raw ∧ (z.compress raw).length < 2 ^ 32

namespace ReadInvariant

def rawOf (z : Zlib) (e : StoredEntry) : Bytes := (z.unpack e.payload).toOption.getD []

section

variable (h : ReadInvariant cfg z s start splits act cs)
include h

theorem payload_stored {c : StoreCall}
    (hc : c ∈ cs) : (c.entry z).stored.payload = z.pack (rawOf z (c.entry z).stored) ∧
      rawOf z (c.entry z).stored = c.deltas.getD [] ∧
      (z.compress (rawOf z (c.entry z).stored)).length < 2 ^ 32 := by
  obtain ⟨raw, hraw, hlength⟩ := h.compressed c hc
  have hpayload : (c.entry z).stored.payload = z.pack raw := by
    rw [Log.Entry.stored, StoreCall.entry, hraw]
    rfl
  have hunpack := z.unpack_pack hlength []
  rw [append_nil] at hunpack
  have hrawOf : rawOf z (c.entry z).stored = raw := by
    rw [rawOf, hpayload, hunpack]
    rfl
  rw [hrawOf, hpayload, hraw]
  exact ⟨rfl, rfl, hlength⟩

theorem raw_flat {e : StoredEntry} (he : e ∈ flat splits act) :
    e.payload = z.pack (rawOf z e) ∧ (z.compress (rawOf z e)).length < 2 ^ 32 := by
  rw [h.kept.entries] at he
  obtain ⟨w, hw, rfl⟩ := mem_map.mp he
  obtain ⟨c, hc, rfl⟩ := mem_map.mp (mem_of_mem_filter hw)
  obtain ⟨hpayload, -, hlength⟩ := h.payload_stored hc
  exact ⟨hpayload, hlength⟩

theorem of_reread
    (hreread : Holds.Reread splits s s') : ReadInvariant cfg z s' start splits act cs := by
  obtain ⟨c', rfl, hcollection, hmapped⟩ := hreread
  obtain ⟨⟨hholds, hentries, hpositive⟩, -, hcompressed⟩ := h
  obtain ⟨⟨hitems, hconsecutive, hstored, hdistinct, honly, hunretained, hactive, hshort, hnumbered,
    hcreated, hbound⟩, hended⟩ := hholds
  refine ⟨⟨⟨⟨?_, hconsecutive, hstored, hdistinct, honly, hunretained, hactive, hshort, hnumbered,
    hcreated, hbound⟩, hended⟩, hentries, hpositive⟩, hmapped, hcompressed⟩
  rw [hcollection, hitems]

theorem step {l : LogCall} (hsafe : s.SafeCall z l) :
    ∃ start' splits' act', ReadInvariant cfg z (s.call cfg z l) start' splits' act'
      (Log.surviveCall cfg z cs ⟨s, l, s.call cfg z l⟩) := by
  cases l with
  | getBlockId n =>
    obtain ⟨s', hexec, hreread⟩ := h.kept.holds.getBlockId_eq h.mapped n
    refine ⟨start, splits, act, ?_⟩
    rw [show s.call cfg z (.getBlockId n) = s' from congrArg Prod.snd hexec]
    exact h.of_reread hreread
  | getLogEntry n =>
    obtain ⟨s', hexec, hreread⟩ := h.kept.holds.getLogEntry_eq h.mapped z (rawOf z)
      (fun e he => h.raw_flat he) n
    refine ⟨start, splits, act, ?_⟩
    rw [show s.call cfg z (.getLogEntry n) = s' from congrArg Prod.snd hexec]
    exact h.of_reread hreread
  | store c =>
    obtain ⟨hpos, hbound, hfollows, hbefore, hlength⟩ := hsafe
    obtain ⟨start', splits', act', hwritten⟩ :=
      h.kept.writeEntry (w := c.entry z) hfollows hpos hbound
    refine ⟨start', splits', act', ?_, hwritten.mapped hbefore h.mapped, ?_⟩
    · rw [Log.surviveCall, map_survive]
      exact hwritten.kept
    intro d hd
    rcases mem_of_mem_survive hd with hd | ⟨rfl, hok⟩
    · exact h.compressed d hd
    · obtain ⟨payload, hpayload⟩ := payload_of_writeEntry hok
      obtain ⟨raw, hraw, -⟩ := Option.map_eq_some_iff.mp hpayload
      exact ⟨raw, hraw, hlength raw hraw⟩

end

theorem of_run {ts : List (Transition Log LogCall)} (hrun : Log.CallRun cfg z ts s)
    (hsafe : ∀ t ∈ ts, t.before.SafeCall z t.label) :
    ∃ start splits act, ReadInvariant cfg z s start splits act (Log.survivingStores cfg z ts) := by
  refine hrun.invariant_of_forall (I := fun ts s => ∃ start splits act,
    ReadInvariant cfg z s start splits act (Log.survivingStores cfg z ts)) hsafe ?_ ?_
  · refine ⟨0, [], [], kept_initial, ?_, by simp [Log.survivingStores]⟩
    intro i m hactive
    cases hactive
  · rintro ts s l s' - ⟨start, splits, act, h⟩ rfl hsafe
    rw [Log.survivingStores, foldl_append]
    exact h.step hsafe

theorem find?_eq (h : ReadInvariant cfg z s start splits act cs) (hstart : start ≤ n)
    {c : StoreCall} (hfind : cs.find? (fun c => c.blockNum = n) = some c) :
    entryFor (flat splits act) n = some (c.entry z).stored := by
  have hc := mem_of_find?_eq_some hfind
  have hnum : c.blockNum = n := by simpa using find?_some hfind
  have hentry := h.kept.entryFor_of_mem (mem_map_of_mem hc) (show start ≤ c.blockNum by omega)
  rw [← hnum]
  exact hentry

end ReadInvariant

/-- In a run whose calls are safe, a read of a block from `begin_block` to `end_block` returns the id
and the deltas of the last write of the block; a read of any other block returns nothing. -/
theorem reads_last_write {ts : List (Transition Log LogCall)} (hrun : Log.CallRun cfg z ts s)
    (hsafe : ∀ t ∈ ts, t.before.SafeCall z t.label) (n : ℕ) :
    (s.beginBlock ≤ n → n < s.endBlock → ∃ c raw, Log.lastWrite cfg z ts n = some c ∧
      c.deltas = some raw ∧ ((Log.getBlockId n).exec s).1 = .ok (some c.blockId) ∧
      ((Log.getLogEntry z n).exec s).1 = .ok raw) ∧
    (n < s.beginBlock ∨ s.endBlock ≤ n → ((Log.getBlockId n).exec s).1 = .ok none ∧
      ((Log.getLogEntry z n).exec s).1 = .ok []) := by
  obtain ⟨start, splits, act, h⟩ := ReadInvariant.of_run hrun hsafe
  obtain ⟨s₁, hid, -⟩ := h.kept.holds.getBlockId_eq h.mapped n
  obtain ⟨s₂, hentry, -⟩ := h.kept.holds.getLogEntry_eq h.mapped z (ReadInvariant.rawOf z)
    (fun e he => h.raw_flat he) n
  rw [hid, hentry]
  constructor
  · intro hbegin hend
    obtain ⟨w, hw, hnum, hstart⟩ := h.kept.exists_of_range hbegin hend
    obtain ⟨d, hd, rfl⟩ := mem_map.mp hw
    obtain ⟨c, hfind⟩ : ∃ c, Log.lastWrite cfg z ts n = some c :=
      Option.isSome_iff_exists.mp (find?_isSome.mpr ⟨d, hd, decide_eq_true hnum⟩)
    obtain ⟨raw, hraw, -⟩ := h.compressed c (mem_of_find?_eq_some hfind)
    have hrawOf := (h.payload_stored (mem_of_find?_eq_some hfind)).2.1
    rw [hraw, Option.getD_some] at hrawOf
    rw [h.find?_eq hstart hfind]
    exact ⟨c, raw, hfind, hraw, rfl, congrArg Except.ok hrawOf⟩
  · intro hn
    rw [h.kept.holds.beginBlock_eq] at hn
    rw [h.kept.holds.entryFor_none hn]
    exact ⟨rfl, rfl⟩

end

/-! ## Samples -/

/-- A compression that puts one byte in front. -/
def sampleZlib : Zlib where
  compress bs := 0 :: bs
  decompress bs := some bs.tail
  compress_ne_nil := by simp
  decompress_compress := by simp

def sampleStore (number : UInt32) (salt prevSalt : UInt64) : LogCall :=
  .store ⟨sampleHistoryId number salt, sampleHistoryId (number - 1) prevSalt, some [1]⟩

instance (z : Zlib) (s : Log) (l : LogCall) : Decidable (s.SafeCall z l) :=
  match l with
  | .store _ => inferInstanceAs (Decidable (_ ∧ _ ∧ _ ∧ _ ∧ _))
  | .getBlockId _ => isTrue trivial
  | .getLogEntry _ => isTrue trivial

/-- Three blocks, reads of two of them, and a fork back to the third one, while the first one is
mapped. -/
def sampleSafeCalls : List LogCall :=
  [sampleStore 1 0 0, sampleStore 2 0 0, sampleStore 3 0 0, .getBlockId 3, .getLogEntry 1,
    sampleStore 3 7 0]

theorem reads_last_write_sample : ∃ ts s, Log.CallRun sampleHistoryConfig sampleZlib ts s ∧
    ts.map Transition.label = sampleSafeCalls ∧
    s.beginBlock = 1 ∧ s.endBlock = 4 ∧ ∃ c raw,
      Log.lastWrite sampleHistoryConfig sampleZlib ts 3 = some c ∧ c.deltas = some raw ∧
      ((Log.getBlockId 3).exec s).1 = .ok (some c.blockId) ∧
      ((Log.getLogEntry sampleZlib 3).exec s).1 = .ok raw := by
  have hrun := run_trace (Log.call sampleHistoryConfig sampleZlib) {} sampleSafeCalls
  have hsafe : ∀ t ∈ trace (Log.call sampleHistoryConfig sampleZlib) {} sampleSafeCalls,
      t.before.SafeCall sampleZlib t.label := by
    decide +kernel
  refine ⟨_, _, hrun, rfl, by decide +kernel, by decide +kernel, ?_⟩
  exact (reads_last_write hrun hsafe 3).1 (by decide +kernel) (by decide +kernel)

/-- Three blocks, a read of the third one, and a fork back to the second one. -/
def sampleStaleCalls : List LogCall :=
  [sampleStore 1 0 0, sampleStore 2 0 0, sampleStore 3 0 0, .getBlockId 3, sampleStore 2 7 0,
    sampleStore 3 7 7]

/-- The new third block is read from the file of the old one. -/
theorem stale_read : ∃ ts s, Log.CallRun sampleHistoryConfig sampleZlib ts s ∧
    ts.map Transition.label = sampleStaleCalls ∧ s.beginBlock = 1 ∧ s.endBlock = 4 ∧
    (Log.lastWrite sampleHistoryConfig sampleZlib ts 3).map StoreCall.blockId =
      some (sampleHistoryId 3 7) ∧
    ((Log.getBlockId 3).exec s).1 = .ok (some (sampleHistoryId 3 0)) :=
  ⟨_, _, run_trace (Log.call sampleHistoryConfig sampleZlib) {} sampleStaleCalls, rfl,
    by decide +kernel, by decide +kernel, by decide +kernel, by decide +kernel⟩

end DcdProtocol.StateHistory
