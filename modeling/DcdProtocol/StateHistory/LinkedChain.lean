import DcdProtocol.StateHistory.Writes

/-!
# The stored entries as a chain

A state history log should hold one chain of blocks: consecutive numbers, each entry written with the
id of the one before it as `prev_id`.  `write_entry` compares the new block only with the blocks of
the active files.  It makes no comparison if the active files are empty, which they are after every
split, nor if the block is the first one of the active files or before it.  Such a call may leave a
gap (`gap_after_split`) or link the block to another one than the one stored.

In a run in which these calls keep to the stored chain (`Continues`) the log is one chain
(`chain_linked`).  The block numbers zero and `2 ^ 32 - 1` are left out as well: `begin_block` takes
a catalog that starts with block zero for an empty one, and the end of the log has 32 bits.
-/

namespace DcdProtocol.StateHistory

open Library List
open Chain (Sha256)

namespace Log

/-- `write_entry`, if it does not throw. -/
def write (cfg : Config) (s : Log) (w : Entry) : Except HistoryException Log :=
  match (writeEntry cfg w).exec s with
  | (.ok _, s') => .ok s'
  | (.error e, _) => .error e

theorem write_eq_ok_iff {cfg : Config} {s s' : Log} {w : Entry} :
    s.write cfg w = .ok s' ↔ (writeEntry cfg w).exec s = (.ok (), s') := by
  rw [write]
  cases (writeEntry cfg w).exec s with
  | mk r t => grind

def storedId (s : Log) (n : ℕ) : Except HistoryException (Option Sha256) := ((getBlockId n).exec s).1

/-- The case in which `write_entry` compares the block with the stored ones. -/
def Compares (s : Log) (w : Entry) : Prop := s.activeBegin ≠ s.activeEnd ∧ s.activeBegin < w.blockNum

/-- The block continues the stored chain: the log is empty, or the block is in it or the next one,
and the block before it is the stored one. -/
def Continues (s : Log) (w : Entry) : Prop :=
  s.beginBlock = s.endBlock ∨ w.blockNum ≤ s.endBlock ∧
    (s.beginBlock < w.blockNum → s.storedId (w.blockNum - 1) = .ok (some w.prevId))

def WellPlaced (s : Log) (w : Entry) : Prop :=
  0 < w.blockNum ∧ w.blockNum + 1 < 2 ^ 32 ∧ (¬s.Compares w → s.Continues w)

abbrev WriteRun (cfg : Config) : List (Transition Log Entry) → Log → Prop :=
  Run (fun s w s' => s.write cfg w = .ok s') {}

/-- The writes that no later one has removed. -/
def survivors (ts : List (Transition Log Entry)) : List Entry :=
  ts.foldl (fun ws t => survive Entry.blockNum ws t.label (.ok ())) []

end Log

/-- Each write from `start` on was given the id of the one before it. -/
def Linked (start : ℕ) (ws : List Log.Entry) : Prop :=
  ∀ a ∈ ws, ∀ b ∈ ws, start ≤ a.blockNum → b.blockNum = a.blockNum + 1 → b.prevId = a.blockId

structure ChainInvariant (cfg : Config) (s : Log) (start : ℕ) (splits : List SplitFile)
    (act : List StoredEntry) (ws : List Log.Entry) : Prop where
  kept : Kept cfg s start splits act ws
  linked : Linked start ws
  last : ∀ e, act.getLast? = some e → s.lastBlockId = e.blockId
  unmapped : s.catalog.active = none

section

variable {cfg : Config} {s s' : Log} {start n : ℕ} {splits : List SplitFile}
  {act : List StoredEntry} {ws : List Log.Entry} {w : Log.Entry}

namespace ChainInvariant

theorem mapped (h : ChainInvariant cfg s start splits act ws) : Mapped splits s.catalog := by
  intro i m hactive
  rw [h.unmapped] at hactive
  cases hactive

theorem storedId_eq (h : ChainInvariant cfg s start splits act ws) (n : ℕ) :
    s.storedId n = .ok ((entryFor (flat splits act) n).map StoredEntry.blockId) := by
  obtain ⟨s', hexec, -⟩ := h.kept.holds.getBlockId_eq h.mapped n
  rw [Log.storedId, hexec]

theorem checkEntry_of_write (hwrite : (Log.writeEntry cfg w).exec s = (.ok (), s')) :
    s.checkEntry w = .ok () := by
  rw [writeEntry_exec, writeEntryHeader_exec] at hwrite
  cases hcheck : s.checkEntry w with
  | error e => simp [hcheck] at hwrite
  | ok _ => rfl

theorem follows (hplaced : s.WellPlaced w) (hcheck : s.checkEntry w = .ok ()) : s.Follows w := by
  by_cases hcompares : s.Compares w
  · rw [Log.checkEntry] at hcheck
    obtain ⟨_, hle, -⟩ := bind_ok_iff.mp hcheck
    exact .inr ((check_ok_iff.mp hle).resolve_left hcompares.1)
  · exact (hplaced.2.2 hcompares).imp id And.left

theorem prevId_eq (h : ChainInvariant cfg s start splits act ws) (hplaced : s.WellPlaced w)
    (hcheck : s.checkEntry w = .ok ()) {a : Log.Entry} (ha : a ∈ ws) (hstart : start ≤ a.blockNum)
    (hnum : w.blockNum = a.blockNum + 1) : w.prevId = a.blockId := by
  have hentry := h.kept.entryFor_of_mem ha hstart
  by_cases hcompares : s.Compares w
  · obtain ⟨hactive, hbegin⟩ := hcompares
    obtain ⟨e, he, hprev⟩ := h.kept.holds.checkEntry_prevId h.last hcheck hactive hbegin
    rw [h.kept.holds.entryFor_active (by omega), show a.blockNum = w.blockNum - 1 by omega, he]
      at hentry
    rw [hprev, Option.some.inj hentry]
    rfl
  · rcases hplaced.2.2 hcompares with hempty | ⟨-, hprev⟩
    · obtain ⟨rfl, rfl⟩ := h.kept.holds.eq_nil_of_beginBlock hempty
      cases hentry
    · have hstored := hprev (by rw [h.kept.holds.beginBlock_eq]; omega)
      rw [show w.blockNum - 1 = a.blockNum by omega, h.storedId_eq, hentry] at hstored
      exact (Option.some.inj (Except.ok.inj hstored)).symm

theorem step (h : ChainInvariant cfg s start splits act ws) (hplaced : s.WellPlaced w)
    (hwrite : (Log.writeEntry cfg w).exec s = (.ok (), s')) :
    ∃ start' splits' act', ChainInvariant cfg s' start' splits' act'
      (Log.survive Log.Entry.blockNum ws w (.ok ())) := by
  have hcheck := checkEntry_of_write hwrite
  obtain ⟨start', splits', act', hwritten⟩ :=
    h.kept.writeEntry (follows hplaced hcheck) hplaced.1 hplaced.2.1
  rw [hwrite] at hwritten
  refine ⟨start', splits', act', hwritten.kept, ?_, ?_, hwritten.unmapped h.unmapped⟩
  · intro a ha b hb hstart hnum
    rcases mem_append.mp ha with ha | ha
    · obtain ⟨hmem, hdecide⟩ := mem_filter.mp ha
      have halt : a.blockNum < w.blockNum := of_decide_eq_true hdecide
      have hstart := hwritten.within a.blockNum halt hstart
      rcases mem_append.mp hb with hb | hb
      · exact h.linked a hmem b (mem_of_mem_filter hb) hstart hnum
      · obtain rfl := mem_singleton.mp hb
        exact h.prevId_eq hplaced hcheck hmem hstart hnum
    · obtain rfl := mem_singleton.mp ha
      rcases mem_append.mp hb with hb | hb
      · grind
      · grind
  · intro e he
    rcases hwritten.last rfl with rfl | ⟨hid, hlast⟩
    · cases he
    · rw [hlast] at he
      rw [hid, ← Option.some.inj he]
      rfl

theorem of_run {ts : List (Transition Log Log.Entry)} (hrun : Log.WriteRun cfg ts s)
    (hplaced : ∀ t ∈ ts, t.before.WellPlaced t.label) :
    ∃ start splits act, ChainInvariant cfg s start splits act (Log.survivors ts) := by
  refine hrun.invariant_of_forall (I := fun ts s => ∃ start splits act,
    ChainInvariant cfg s start splits act (Log.survivors ts)) hplaced ?_ ?_
  · exact ⟨0, [], [], kept_initial, by simp [Linked, Log.survivors], by simp, rfl⟩
  · rintro ts s w s' - ⟨start, splits, act, h⟩ hwrite hplaced
    rw [Log.survivors, foldl_append]
    exact h.step hplaced (Log.write_eq_ok_iff.mp hwrite)

end ChainInvariant

/-- In a run whose calls are well placed the stored entries have the numbers from `begin_block` to
`end_block` without gaps, and each one was written with the id of the one before it. -/
theorem chain_linked {ts : List (Transition Log Log.Entry)} (hrun : Log.WriteRun cfg ts s)
    (hplaced : ∀ t ∈ ts, t.before.WellPlaced t.label) :
    (∀ n, s.beginBlock ≤ n → n < s.endBlock → ∃ w ∈ Log.survivors ts, w.blockNum = n ∧
      s.storedId n = .ok (some w.blockId)) ∧
    (∀ n, n < s.beginBlock ∨ s.endBlock ≤ n → s.storedId n = .ok none) ∧
    ∀ a ∈ Log.survivors ts, ∀ b ∈ Log.survivors ts, s.beginBlock ≤ a.blockNum →
      b.blockNum = a.blockNum + 1 → b.prevId = a.blockId := by
  obtain ⟨start, splits, act, h⟩ := ChainInvariant.of_run hrun hplaced
  have hbegin := h.kept.holds.beginBlock_eq
  refine ⟨?_, ?_, ?_⟩
  · intro n hn hend
    obtain ⟨w, hw, rfl, hstart⟩ := h.kept.exists_of_range hn hend
    refine ⟨w, hw, rfl, ?_⟩
    rw [h.storedId_eq, h.kept.entryFor_of_mem hw hstart]
    rfl
  · intro n hn
    rw [hbegin] at hn
    rw [h.storedId_eq, h.kept.holds.entryFor_none hn]
    rfl
  · rw [hbegin]
    exact h.linked

end

/-! ## Samples -/

def sampleHistoryId (number : UInt32) (salt : UInt64) : Sha256 :=
  ⟨(Chain.endianReverseU32 number).toUInt64, salt, 0, 0⟩

def sampleHistoryConfig : Config := ⟨1, by decide, 10⟩

/-- An entry for a block on top of another one. -/
def sampleWrite (number : UInt32) (salt : UInt64) (prevId : Sha256) : Log.Entry :=
  ⟨sampleHistoryId number salt, prevId, some []⟩

instance (s : Log) (w : Log.Entry) : Decidable (s.WellPlaced w) :=
  inferInstanceAs (Decidable (_ ∧ _ ∧ (¬(_ ∧ _) → (_ ∨ _ ∧ (_ → _)))))

/-- Three blocks, and a fork back to the second one, which is in a split file. -/
def sampleWrites : List Log.Entry :=
  [sampleWrite 1 0 {}, sampleWrite 2 0 (sampleHistoryId 1 0), sampleWrite 3 0 (sampleHistoryId 2 0),
    sampleWrite 2 7 (sampleHistoryId 1 0), sampleWrite 3 7 (sampleHistoryId 2 7)]

theorem chain_linked_sample : ∃ ts s, Log.WriteRun sampleHistoryConfig ts s ∧
    ts.map Transition.label = sampleWrites ∧ s.beginBlock = 1 ∧ s.endBlock = 4 ∧
    (∀ n, s.beginBlock ≤ n → n < s.endBlock → ∃ w ∈ Log.survivors ts, w.blockNum = n ∧
      s.storedId n = .ok (some w.blockId)) := by
  obtain ⟨ts, s, hrun, hlabels, hp⟩ := exists_run_of_exec_labels (Log.write sampleHistoryConfig) {}
    sampleWrites (fun ts s => ts.all (fun t => decide (t.before.WellPlaced t.label)) &&
      decide (s.beginBlock = 1) && decide (s.endBlock = 4)) (by decide +kernel)
  simp only [Bool.and_eq_true, all_eq_true, decide_eq_true_eq] at hp
  exact ⟨ts, s, hrun, hlabels, hp.1.2, hp.2, (chain_linked hrun hp.1.1).1⟩

/-- After a split the next block may be any block: block 2 is missing, and the entry for block 3 was
written on top of a block that is not in the log.  Nor is the block before compared: a block 2 on top
of another block 1 than the stored one is taken. -/
theorem gap_after_split :
    (∃ ts s, Log.WriteRun sampleHistoryConfig ts s ∧
      ts.map Transition.label = [sampleWrite 1 0 {}, sampleWrite 3 0 (sampleHistoryId 2 0)] ∧
      s.beginBlock = 1 ∧ s.endBlock = 4 ∧ s.storedId 2 = .ok none) ∧
    ∃ ts s, Log.WriteRun sampleHistoryConfig ts s ∧
      ts.map Transition.label = [sampleWrite 1 0 {}, sampleWrite 2 0 (sampleHistoryId 1 7)] ∧
      s.storedId 1 = .ok (some (sampleHistoryId 1 0)) ∧
      s.storedId 2 = .ok (some (sampleHistoryId 2 0)) := by
  constructor
  · obtain ⟨ts, s, hrun, hlabels, hp⟩ := exists_run_of_exec_labels (Log.write sampleHistoryConfig) {}
      [sampleWrite 1 0 {}, sampleWrite 3 0 (sampleHistoryId 2 0)]
      (fun _ s => decide (s.beginBlock = 1) && decide (s.endBlock = 4) &&
        decide (s.storedId 2 = .ok none)) (by decide +kernel)
    simp only [Bool.and_eq_true, decide_eq_true_eq] at hp
    exact ⟨ts, s, hrun, hlabels, hp.1.1, hp.1.2, hp.2⟩
  · obtain ⟨ts, s, hrun, hlabels, hp⟩ := exists_run_of_exec_labels (Log.write sampleHistoryConfig) {}
      [sampleWrite 1 0 {}, sampleWrite 2 0 (sampleHistoryId 1 7)]
      (fun _ s => decide (s.storedId 1 = .ok (some (sampleHistoryId 1 0))) &&
        decide (s.storedId 2 = .ok (some (sampleHistoryId 2 0)))) (by decide +kernel)
    simp only [Bool.and_eq_true, decide_eq_true_eq] at hp
    exact ⟨ts, s, hrun, hlabels, hp⟩

end DcdProtocol.StateHistory
