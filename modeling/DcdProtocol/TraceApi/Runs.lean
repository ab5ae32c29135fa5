import DcdProtocol.TraceApi.Reads

/-!
# The trace store over whole runs

The files of every slice hold what was appended to it, in every run in which nothing is appended to a
slice that maintenance has dealt with (`StoreHolds`).  So a read returns the last trace of the block
before it became irreversible, and finds it as long as the slice is kept (`get_block_right`).

## Strategy

`StoreHolds` is kept by every function, also if it throws.

* **Appending** writes to one slice.  The trace comes before its entry in the index; if only the
  trace is written it is lost, which no reader notices.
* **Maintenance** goes through the slices in order, and the last one that was removed or compressed
  is known.  `Processing` is the invariant of both loops.  Only slices whose blocks are old enough are
  processed (`slicesToProcess_spec`), so the slice of the next irreversible block is not among them.

The condition on appending is needed.  A trace that is appended to a compressed slice goes to a new
trace file, which readers then prefer to the compressed one; the offsets in the index are still those
of the compressed data (`getBlock_other_number`).
-/

namespace DcdProtocol.TraceApi

open Library List FlatMap Option SliceDirectory
open Library.Stateful (exec)

variable {δ : Type} {cfg : StoreConfig} {fmt : StoreFormat δ} {items items' : List (SliceItem δ)}
  {dir dir' : SliceDirectory} {slice : ℕ}

/-! ## The invariant -/

/-- The files of every slice hold what was appended.  Only slices that are old enough were removed
or compressed. -/
structure StoreHolds (cfg : StoreConfig) (fmt : StoreFormat δ) (items : List (SliceItem δ))
    (dir : SliceDirectory) : Prop where
  slices : ∀ slice, SliceHolds cfg fmt items dir slice
  lib : dir.bestKnownLib = (recordedLib items).elim 0 UInt32.toNat
  cleaned : ∀ slice ∈ dir.lastCleanedUpSlice, ∃ m ∈ cfg.minimumIrreversibleHistoryBlocks,
    (slice + 1) * cfg.width + m ≤ dir.bestKnownLib
  compressed : ∀ slice ∈ dir.lastCompressedSlice, (slice + 1) * cfg.width ≤ dir.bestKnownLib

/-- The slice can be written to: it was neither removed nor compressed. -/
structure Writable (cfg : StoreConfig) (fmt : StoreFormat δ) (items : List (SliceItem δ)) (slice : ℕ)
    (dir : SliceDirectory) : Prop where
  holds : StoreHolds cfg fmt items dir
  cleaned : ¬dir.Cleaned slice
  compressed : ¬dir.Compressed slice

theorem SliceHolds.congr (h : SliceHolds cfg fmt items dir slice)
    (hitems : SliceItem.ofSlice fmt cfg slice items' = SliceItem.ofSlice fmt cfg slice items)
    (hindex : dir'.indexes.find? slice = dir.indexes.find? slice)
    (htrace : dir'.traces.find? slice = dir.traces.find? slice)
    (hfile : dir'.compressedTraces.find? slice = dir.compressedTraces.find? slice)
    (hcleaned : dir'.Cleaned slice ↔ dir.Cleaned slice)
    (hcompressed : dir'.Compressed slice ↔ dir.Compressed slice) :
    SliceHolds cfg fmt items' dir' slice := by
  refine ⟨fun hclean => hindex.trans (h.cleaned (hcleaned.mp hclean)), fun hkept => ?_⟩
  obtain ⟨es, data, hslice, hholds, hdata⟩ := h.kept (mt hcleaned.mpr hkept)
  refine ⟨es, data, hitems ▸ hslice, hindex ▸ hholds, ?_, ?_⟩
  · rw [hcompressed, htrace, hfile]
    exact hdata.compressed
  · rw [hcompressed, htrace, hfile]
    exact hdata.uncompressed

section

variable (h : Writable cfg fmt items slice dir)
include h

theorem Writable.index_created
    (hname : indexFilename cfg.width slice = .ok ()) (hnone : dir.indexes.find? slice = none) :
    Writable cfg fmt items slice
      { dir with indexes := dir.indexes.insert slice (le 4 currentVersion) } := by
  refine ⟨⟨fun slice' => ?_, h.holds.lib, h.holds.cleaned, h.holds.compressed⟩, h.cleaned,
    h.compressed⟩
  by_cases heq : slice' = slice
  · subst heq
    refine ⟨fun hcleaned => absurd hcleaned h.cleaned, fun hkept => ?_⟩
    obtain ⟨es, data, hslice, hindex, hdata⟩ := (h.holds.slices slice').kept hkept
    have hes : es = [] := by
      rcases hindex with ⟨-, hes⟩ | ⟨-, bytes, -, hsome⟩
      · exact hes
      · grind
    subst hes
    refine ⟨[], data, hslice, .inr ⟨hname, [], rfl, ?_⟩, hdata.compressed, hdata.uncompressed⟩
    rw [find?_insert_self, append_nil]
  · exact (h.holds.slices slice').congr rfl (find?_insert_of_ne _ _ heq) rfl rfl .rfl .rfl

theorem Writable.exists_entries {file : Bytes} (hfile : dir.indexes.find? slice = some file) :
    ∃ es data bytes, Slice fmt (SliceItem.ofSlice fmt cfg slice items) es data ∧
      indexFilename cfg.width slice = .ok () ∧
      MetadataLogEntry.serial.packAll es = some bytes ∧ file = le 4 currentVersion ++ bytes ∧
      dir.compressedTraces.find? slice = none ∧ (dir.traces.find? slice).getD [] = data := by
  obtain ⟨es, data, hslice, hindex, hdata⟩ := (h.holds.slices slice).kept h.cleaned
  rcases hindex with ⟨hnone, -⟩ | ⟨hname, bytes, hbytes, hsome⟩
  · rw [hfile] at hnone
    cases hnone
  · rw [hfile, some.injEq] at hsome
    exact ⟨es, data, bytes, hslice, hname, hbytes, hsome, hdata.uncompressed h.compressed⟩

theorem Writable.trace_written (bytes : Bytes) :
    Writable cfg fmt items slice { dir with
      traces := dir.traces.insert slice ((dir.traces.find? slice).getD [] ++ bytes) } := by
  refine ⟨⟨fun slice' => ?_, h.holds.lib, h.holds.cleaned, h.holds.compressed⟩, h.cleaned,
    h.compressed⟩
  by_cases heq : slice' = slice
  · subst heq
    refine ⟨(h.holds.slices slice').cleaned, fun hkept => ?_⟩
    obtain ⟨es, data, hslice, hindex, hdata⟩ := (h.holds.slices slice').kept hkept
    obtain ⟨hfile, rfl⟩ := hdata.uncompressed h.compressed
    refine ⟨es, _, hslice.lost bytes, hindex, fun hcompressed => absurd hcompressed h.compressed,
      fun _ => ⟨hfile, ?_⟩⟩
    rw [find?_insert_self]
    rfl
  · exact (h.holds.slices slice').congr rfl rfl (find?_insert_of_ne _ _ heq) rfl .rfl .rfl

theorem Writable.entry_written {item : SliceItem δ}
    (hitem : sliceNumber cfg (item.number fmt) = slice) {e : MetadataLogEntry}
    {es : List MetadataLogEntry} {bytes entry : Bytes}
    (hslice : Slice fmt (SliceItem.ofSlice fmt cfg slice items ++ [item]) (es ++ [e])
      ((dir.traces.find? slice).getD [])) (hname : indexFilename cfg.width slice = .ok ())
    (hbytes : MetadataLogEntry.serial.packAll es = some bytes)
    (hentry : MetadataLogEntry.serial.pack e = some entry) (slice' : ℕ) :
    SliceHolds cfg fmt (items ++ [item]) { dir with
      indexes := dir.indexes.insert slice (le 4 currentVersion ++ bytes ++ entry) } slice' := by
  by_cases heq : slice' = slice
  · subst heq
    refine ⟨fun hcleaned => absurd hcleaned h.cleaned, fun hkept => ?_⟩
    obtain ⟨_, _, _, _, hdata⟩ := (h.holds.slices slice').kept hkept
    refine ⟨es ++ [e], _, ?_, .inr ⟨hname, bytes ++ entry, Serial.packAll_concat hbytes hentry, ?_⟩,
      fun hcompressed => absurd hcompressed h.compressed,
      fun _ => ⟨(hdata.uncompressed h.compressed).1, rfl⟩⟩
    · rw [ofSlice_concat, if_pos hitem]
      exact hslice
    · simp
  · refine (h.holds.slices slice').congr ?_ (find?_insert_of_ne _ _ heq) rfl rfl .rfl .rfl
    rw [ofSlice_concat, if_neg fun hslice => heq (hslice.symm.trans hitem)]

end

/-! ## Appending -/

theorem findOrCreateTraceSlice_spec :
    Triple (Writable cfg fmt items slice) (findOrCreateTraceSlice cfg slice)
      (fun _ => Writable cfg fmt items slice) (StoreHolds cfg fmt items) := by
  intro dir hdir
  rw [exec_findOrCreateTraceSlice]
  split_ifs with hnone
  · simpa [hnone] using hdir.trace_written []
  · exact hdir

theorem findOrCreateIndexSlice_spec :
    Triple (Writable cfg fmt items slice) (findOrCreateIndexSlice cfg slice)
      (fun _ dir => Writable cfg fmt items slice dir ∧ ∃ file, dir.indexes.find? slice = some file)
      (StoreHolds cfg fmt items) := by
  intro dir hdir
  rw [exec_findOrCreateIndexSlice]
  cases hfind : dir.findIndexSlice cfg slice with
  | error e => exact hdir.holds
  | ok found =>
    obtain ⟨_, hname, hfound⟩ := bind_ok_iff.mp hfind
    cases hindex : dir.indexes.find? slice with
    | none =>
      rw [hindex] at hfound
      cases hfound
      exact ⟨hdir.index_created hname hindex, _, find?_insert_self _ _ _⟩
    | some file =>
      rw [hindex] at hfound
      obtain ⟨entries, _, hfound⟩ := bind_ok_iff.mp hfound
      cases hfound
      exact ⟨hdir, file, hindex⟩

theorem appendedBytes_eq_ok_iff {bytes : Bytes} {entry : Option Bytes} {r : ℕ × Bytes} :
    appendedBytes bytes entry = .ok r ↔
      ∃ new, entry = some new ∧ bytes.length + new.length < 2 ^ 63 ∧
        r = (bytes.length, bytes ++ new) := by
  cases entry with
  | none => simp [appendedBytes]
  | some new =>
    simp only [appendedBytes, bind_ok_iff, check_ok_iff, pure_ok_iff, some.injEq, exists_eq_left']
    constructor
    · rintro ⟨_, hlt, heq⟩
      exact ⟨hlt, heq.symm⟩
    · rintro ⟨hlt, heq⟩
      exact ⟨(), hlt, heq.symm⟩

/-- The trace is in the file, and its entry is not yet in the index. -/
structure TraceWritten (cfg : StoreConfig) (fmt : StoreFormat δ) (items : List (SliceItem δ)) (bt : δ)
    (offset : ℕ) (dir : SliceDirectory) : Prop where
  writable : Writable cfg fmt items (sliceNumber cfg (fmt.number bt)) dir
  written : ∃ es data bytes new,
    Slice fmt (SliceItem.ofSlice fmt cfg (sliceNumber cfg (fmt.number bt)) items)
      es data ∧
    indexFilename cfg.width (sliceNumber cfg (fmt.number bt)) = .ok () ∧
    MetadataLogEntry.serial.packAll es = some bytes ∧
    dir.indexes.find? (sliceNumber cfg (fmt.number bt)) =
      some (le 4 currentVersion ++ bytes) ∧
    fmt.dataLogEntry.pack bt = some new ∧ data.length < 2 ^ 64 ∧ offset = data.length ∧
    (dir.traces.find? (sliceNumber cfg (fmt.number bt))).getD [] = data ++ new

theorem appendTrace_spec (bt : δ) (hslice : sliceNumber cfg (fmt.number bt) = slice) :
    Triple
      (fun dir => Writable cfg fmt items slice dir ∧ ∃ file, dir.indexes.find? slice = some file)
      (appendTrace slice (fmt.dataLogEntry.pack bt))
      (TraceWritten cfg fmt items bt) (StoreHolds cfg fmt items) := by
  subst hslice
  rintro dir ⟨hdir, file, hfile⟩
  rw [exec_appendTrace]
  cases happend : appendedBytes ((dir.traces.find? (sliceNumber cfg (fmt.number bt))).getD [])
      (fmt.dataLogEntry.pack bt) with
  | error e => exact hdir.holds
  | ok r =>
    obtain ⟨new, hnew, hlength, rfl⟩ := appendedBytes_eq_ok_iff.mp happend
    obtain ⟨es, data, bytes, hslice, hname, hbytes, rfl, -, rfl⟩ := hdir.exists_entries hfile
    refine ⟨hdir.trace_written new, es, _, bytes, new, hslice, hname, hbytes, hfile, hnew,
      by omega, rfl, ?_⟩
    rw [find?_insert_self]
    rfl

theorem append_spec (bt : δ) :
    Triple (Writable cfg fmt items (sliceNumber cfg (fmt.number bt)))
      (append cfg fmt bt)
      (fun _ => StoreHolds cfg fmt (items ++ [.trace bt])) (StoreHolds cfg fmt items) := by
  refine .bind (.bind findOrCreateTraceSlice_spec fun _ => findOrCreateIndexSlice_spec) fun _ =>
    .bind (appendTrace_spec bt rfl) fun offset => ?_
  rintro dir ⟨hdir, es, data, bytes, new, hslice, hname, hbytes, hfile, hnew, hlength, rfl, htrace⟩
  rw [exec_appendIndex, hfile]
  cases happend : appendedBytes ((some (le 4 currentVersion ++ bytes)).getD [])
      (MetadataLogEntry.serial.pack (.block (fmt.id bt) (fmt.number bt) (.ofNat data.length))) with
  | error e => exact hdir.holds
  | ok r =>
    obtain ⟨entry, hentry, -, rfl⟩ := appendedBytes_eq_ok_iff.mp happend
    refine ⟨fun slice' => ?_, ?_, hdir.holds.cleaned, hdir.holds.compressed⟩
    · refine hdir.entry_written rfl ?_ hname hbytes hentry slice'
      rw [htrace]
      exact hslice.trace hnew hlength
    · rw [recordedLib_trace]
      exact hdir.holds.lib

theorem appendLib_spec (l : UInt32) (hnext : ∀ l' ∈ recordedLib items, l' ≤ l) :
    Triple (Writable cfg fmt items (sliceNumber cfg l))
      (appendLib cfg l)
      (fun _ => StoreHolds cfg fmt (items ++ [.lib l])) (StoreHolds cfg fmt items) := by
  refine .bind findOrCreateIndexSlice_spec fun _ => ?_
  rintro dir ⟨hdir, file, hfile⟩
  rw [Stateful.exec_bind, exec_appendIndex, hfile]
  obtain ⟨es, data, bytes, hslice, hname, hbytes, rfl, -, rfl⟩ := hdir.exists_entries hfile
  cases happend : appendedBytes ((some (le 4 currentVersion ++ bytes)).getD [])
      (MetadataLogEntry.serial.pack (.lib l)) with
  | error e => exact hdir.holds
  | ok r =>
    obtain ⟨entry, hentry, -, rfl⟩ := appendedBytes_eq_ok_iff.mp happend
    have hle : dir.bestKnownLib ≤ l.toNat := by
      rw [hdir.holds.lib]
      cases hrecorded : recordedLib items with
      | none => exact Nat.zero_le _
      | some l' => exact UInt32.le_iff_toNat_le.mp (hnext l' hrecorded)
    refine ⟨fun slice' => ?_, ?_, ?_, ?_⟩
    · have hwritten : SliceHolds cfg fmt (items ++ [.lib l]) _ slice' := hdir.entry_written rfl (hslice.lib l) hname hbytes hentry
        slice'
      exact hwritten.congr rfl rfl rfl rfl .rfl .rfl
    · rw [recordedLib_lib]
      rfl
    · intro slice' hslice'
      obtain ⟨m, hm, hbound⟩ := hdir.holds.cleaned slice' hslice'
      exact ⟨m, hm, hbound.trans hle⟩
    · intro slice' hslice'
      exact (hdir.holds.compressed slice' hslice').trans hle

/-! ## Maintenance -/

variable {last : Option ℕ}

/-- The slices are those after the last one that was processed. -/
def NextSlices (last : Option ℕ) (slices : List ℕ) : Prop :=
  ∃ count, slices = range' (last.elim 0 (· + 1)) count

theorem NextSlices.cons {slice : ℕ} {slices : List ℕ} (h : NextSlices last (slice :: slices)) :
    last.elim 0 (· + 1) = slice ∧ NextSlices (some slice) slices := by
  obtain ⟨count, hcount⟩ := h
  cases count with
  | zero => cases hcount
  | succ count =>
    obtain ⟨rfl, rfl⟩ := hcount
    exact ⟨rfl, count, rfl⟩

theorem processed_iff {slice slice' : ℕ} (hnext : last.elim 0 (· + 1) = slice)
    (hne : slice' ≠ slice) : (∃ c ∈ some slice, slice' ≤ c) ↔ ∃ c ∈ last, slice' ≤ c := by
  cases last with
  | none => grind
  | some c =>
    have hsucc : c + 1 = slice := hnext
    simp only [mem_some_iff, exists_eq_left']
    omega

theorem slicesToProcess_spec (cfg : StoreConfig) (lib minimum : ℕ) (last : Option ℕ) :
    NextSlices last (slicesToProcess cfg lib minimum last) ∧
      ∀ slice ∈ slicesToProcess cfg lib minimum last, (slice + 1) * cfg.width + minimum ≤ lib := by
  unfold slicesToProcess
  dsimp only
  split_ifs with hnone hbound
  · exact ⟨⟨0, rfl⟩, fun slice hslice => absurd hslice not_mem_nil⟩
  · refine ⟨⟨_, rfl⟩, fun slice hslice => ?_⟩
    rw [mem_range'_1] at hslice
    have hle : slice ≤ (lib - minimum - cfg.width) / cfg.width := by omega
    rw [Nat.le_div_iff_mul_le cfg.width_pos] at hle
    rw [Nat.succ_mul]
    omega
  · exact ⟨⟨0, rfl⟩, fun slice hslice => absurd hslice not_mem_nil⟩

/-- What holds in a loop over slices; `last` is the slice that was processed last, and `slices` are
left. -/
structure Processing (cfg : StoreConfig) (fmt : StoreFormat δ) (items : List (SliceItem δ))
    (last : SliceDirectory → Option ℕ) (lib minimum : ℕ) (slices : List ℕ) (dir : SliceDirectory) :
    Prop where
  holds : StoreHolds cfg fmt items dir
  next : NextSlices (last dir) slices
  old : ∀ slice ∈ slices, (slice + 1) * cfg.width + minimum ≤ lib
  lib : lib ≤ dir.bestKnownLib

variable {lib minimum : ℕ} {slices : List ℕ}

theorem Processing.cleaned
    (h : Processing cfg fmt items lastCleanedUpSlice lib minimum (slice :: slices) dir)
    (hminimum : minimum ∈ cfg.minimumIrreversibleHistoryBlocks) :
    Processing cfg fmt items lastCleanedUpSlice lib minimum slices { dir with
      indexes := dir.indexes.erase slice
      traces := dir.traces.erase slice
      compressedTraces := dir.compressedTraces.erase slice
      lastCleanedUpSlice := some slice } := by
  obtain ⟨hlast, hnext⟩ := h.next.cons
  refine ⟨⟨fun slice' => ?_, h.holds.lib, ?_, h.holds.compressed⟩, hnext,
    fun slice' hslice' => h.old slice' (mem_cons_of_mem _ hslice'), h.lib⟩
  · by_cases heq : slice' = slice
    · subst heq
      refine ⟨fun _ => ?_, fun hkept => absurd ⟨slice', rfl, le_rfl⟩ hkept⟩
      rw [find?_erase, if_pos rfl]
    · have herase (m : FlatMap ℕ Bytes) : (m.erase slice).find? slice' = m.find? slice' := by
        rw [find?_erase, if_neg heq]
      exact (h.holds.slices slice').congr rfl (herase _) (herase _) (herase _)
        (processed_iff hlast heq) .rfl
  · rintro _ ⟨⟩
    exact ⟨minimum, hminimum, (h.old slice mem_cons_self).trans h.lib⟩

theorem cleanUpSlices_spec (lib : ℕ) :
    Triple (fun dir => StoreHolds cfg fmt items dir ∧ lib ≤ dir.bestKnownLib)
      (cleanUpSlices cfg lib)
      (fun _ dir => StoreHolds cfg fmt items dir ∧ lib ≤ dir.bestKnownLib)
      (StoreHolds cfg fmt items) := by
  unfold cleanUpSlices
  cases hminimum : cfg.minimumIrreversibleHistoryBlocks with
  | none => exact .pure fun dir hdir => hdir
  | some minimum =>
    refine .getState fun dir hdir => ?_
    obtain ⟨hnext, hold⟩ := slicesToProcess_spec cfg lib minimum dir.lastCleanedUpSlice
    refine (Triple.forM (I := Processing cfg fmt items lastCleanedUpSlice lib minimum)
      (fun slice slices => ?_) _).weaken ?_ (fun _ dir' h => ⟨h.holds, h.lib⟩) fun _ h => h
    · intro dir' hdir'
      rw [Stateful.exec_bind, exec_cleanUpSlice]
      cases indexFilename cfg.width slice with
      | error e => exact hdir'.holds
      | ok _ => exact hdir'.cleaned hminimum
    · rintro _ rfl
      exact ⟨hdir.1, hnext, hold, hdir.2⟩

theorem Processing.compressed
    (h : Processing cfg fmt items lastCompressedSlice lib minimum (slice :: slices) dir)
    {dir' : SliceDirectory} (hindexes : dir'.indexes = dir.indexes)
    (hcleaned : dir'.lastCleanedUpSlice = dir.lastCleanedUpSlice)
    (hlast : dir'.lastCompressedSlice = some slice) (hlib : dir'.bestKnownLib = dir.bestKnownLib)
    (hothers : ∀ slice' ≠ slice, dir'.traces.find? slice' = dir.traces.find? slice' ∧
      dir'.compressedTraces.find? slice' = dir.compressedTraces.find? slice')
    (hslice : dir.compressedTraces.find? slice = none → dir'.traces.find? slice = none ∧
      (dir'.compressedTraces.find? slice).elim (some []) fmt.decompress =
        some ((dir.traces.find? slice).getD [])) :
    Processing cfg fmt items lastCompressedSlice lib minimum slices dir' := by
  obtain ⟨hprevious, hnext⟩ := h.next.cons
  have hcleaned' (slice' : ℕ) : dir'.Cleaned slice' ↔ dir.Cleaned slice' := by
    rw [SliceDirectory.Cleaned, hcleaned]
    rfl
  refine ⟨⟨fun slice' => ?_, hlib.trans h.holds.lib, ?_, ?_⟩, hlast.symm ▸ hnext,
    fun slice' hslice' => h.old slice' (mem_cons_of_mem _ hslice'), h.lib.trans hlib.ge⟩
  · by_cases heq : slice' = slice
    · subst heq
      have hbefore : ¬dir.Compressed slice' := by
        rintro ⟨c, hc, hle⟩
        have hc' : dir.lastCompressedSlice = some c := hc
        rw [hc'] at hprevious
        have hsucc : c + 1 = slice' := hprevious
        omega
      have hafter : dir'.Compressed slice' := ⟨slice', hlast, le_rfl⟩
      refine ⟨fun hclean => ?_, fun hkept => ?_⟩
      · rw [hindexes]
        exact (h.holds.slices slice').cleaned ((hcleaned' slice').mp hclean)
      obtain ⟨es, data, hes, hindex, hdata⟩ :=
        (h.holds.slices slice').kept (mt (hcleaned' slice').mpr hkept)
      obtain ⟨hfile, rfl⟩ := hdata.uncompressed hbefore
      exact ⟨es, _, hes, hindexes ▸ hindex, fun _ => hslice hfile, fun hnot => absurd hafter hnot⟩
    · refine (h.holds.slices slice').congr rfl (by rw [hindexes]) (hothers slice' heq).1
        (hothers slice' heq).2 (hcleaned' slice') ?_
      rw [SliceDirectory.Compressed, hlast]
      exact processed_iff hprevious heq
  · rw [hcleaned, hlib]
    exact h.holds.cleaned
  · rw [hlast, hlib]
    rintro _ ⟨⟩
    have hold := h.old slice mem_cons_self
    exact (Nat.le_add_right _ _).trans (hold.trans h.lib)

theorem compressSlices_spec (lib : ℕ) :
    Triple (fun dir => StoreHolds cfg fmt items dir ∧ lib ≤ dir.bestKnownLib)
      (compressSlices cfg fmt lib)
      (fun _ => StoreHolds cfg fmt items) (StoreHolds cfg fmt items) := by
  unfold compressSlices
  cases cfg.minimumUncompressedIrreversibleHistoryBlocks with
  | none => exact .pure fun dir hdir => hdir.1
  | some minimum =>
    dsimp only
    split_ifs
    case neg => exact .pure fun dir hdir => hdir.1
    refine .getState fun dir hdir => ?_
    obtain ⟨hnext, hold⟩ := slicesToProcess_spec cfg lib minimum dir.lastCompressedSlice
    refine (Triple.forM (I := Processing cfg fmt items lastCompressedSlice lib minimum)
      (fun slice slices => ?_) _).weaken ?_ (fun _ dir' h => h.holds) fun _ h => h
    · intro dir' hdir'
      rw [Stateful.exec_bind, exec_compressSlice]
      cases htrace : dir'.traces.find? slice with
      | none =>
        refine hdir'.compressed rfl rfl rfl rfl (fun _ _ => ⟨rfl, rfl⟩) fun hfile => ⟨htrace, ?_⟩
        rw [htrace]
        exact congrArg (Option.elim · (some []) fmt.decompress) hfile
      | some trace =>
        cases trace with
        | nil => exact hdir'.holds
        | cons byte bytes =>
          refine hdir'.compressed rfl rfl rfl rfl (fun slice' hne => ⟨?_, ?_⟩) fun _ => ⟨?_, ?_⟩
          · exact (find?_erase _ _ _).trans (if_neg hne)
          · exact find?_insert_of_ne _ _ hne
          · exact (find?_erase _ _ _).trans (if_pos rfl)
          · rw [htrace]
            exact (congrArg (Option.elim · (some []) fmt.decompress)
              (find?_insert_self _ _ _)).trans (fmt.decompress_compress _)
    · rintro _ rfl
      exact ⟨hdir.1, hnext, hold, hdir.2⟩

/-! ## Runs -/

inductive StoreInput (δ : Type)
  | append (bt : δ)
  | appendLib (lib : UInt32)
  | runMaintenanceTasks (lib : ℕ)
  deriving DecidableEq

structure StoreState (δ : Type) where
  performed : List (SliceItem δ) := []
  dir : SliceDirectory := {}

section Steps

variable (cfg fmt)

def StoreInput.code : StoreInput δ → StoreM Unit
  | .append bt => SliceDirectory.append cfg fmt bt
  | .appendLib lib => SliceDirectory.appendLib cfg lib
  | .runMaintenanceTasks lib => SliceDirectory.runMaintenanceTasks cfg fmt lib

def StoreInput.item? : StoreInput δ → Option (SliceItem δ)
  | .append bt => some (.trace bt)
  | .appendLib lib => some (.lib lib)
  | .runMaintenanceTasks _ => none

/-- The state after an input, which may throw. -/
def StoreState.step (s : StoreState δ) (input : StoreInput δ) : StoreState δ :=
  match exec (input.code cfg fmt) s.dir with
  | (.ok _, dir) => ⟨s.performed ++ input.item?.toList, dir⟩
  | (.error _, dir) => { s with dir }

/-- The input may come next.  A trace is appended to a slice that was neither removed nor compressed;
maintenance is run for a number that was recorded. -/
def StoreState.Admits (s : StoreState δ) : StoreInput δ → Prop
  | .append bt => (SliceItem.trace bt).Follows cfg fmt s.performed ∧
      ¬s.dir.Cleaned (sliceNumber cfg (fmt.number bt)) ∧
      ¬s.dir.Compressed (sliceNumber cfg (fmt.number bt))
  | .appendLib lib => (SliceItem.lib lib : SliceItem δ).Follows cfg fmt s.performed
  | .runMaintenanceTasks lib => lib ≤ s.dir.bestKnownLib

instance (dir : SliceDirectory) (slice : ℕ) : Decidable (dir.Cleaned slice) :=
  inferInstanceAs (Decidable (∃ last ∈ dir.lastCleanedUpSlice, slice ≤ last))

instance (dir : SliceDirectory) (slice : ℕ) : Decidable (dir.Compressed slice) :=
  inferInstanceAs (Decidable (∃ last ∈ dir.lastCompressedSlice, slice ≤ last))

instance (items : List (SliceItem δ)) : (item : SliceItem δ) → Decidable (item.Follows cfg fmt items)
  | .trace _ => decidableForallMem (recordedLib items)
  | .lib _ => @instDecidableAnd _ _ (decidableForallMem (recordedLib items))
    (@instDecidableForall _ _ inferInstance (decidableBAll _ (appendedNumbers fmt items)))

instance (s : StoreState δ) : (input : StoreInput δ) → Decidable (s.Admits cfg fmt input)
  | .append _ => inferInstanceAs (Decidable (_ ∧ _))
  | .appendLib lib => inferInstanceAs (Decidable (SliceItem.Follows cfg fmt s.performed (.lib lib)))
  | .runMaintenanceTasks lib => inferInstanceAs (Decidable (lib ≤ s.dir.bestKnownLib))

end Steps

variable {ts : List (Transition (StoreState δ) (StoreInput δ))} {s : StoreState δ} {n : UInt32}

theorem writable_of_follows {l : UInt32} (h : StoreHolds cfg fmt items dir)
    (hnext : (SliceItem.lib l : SliceItem δ).Follows cfg fmt items) :
    Writable cfg fmt items (sliceNumber cfg l) dir := by
  have hlt (slice : ℕ) (hslice : (slice + 1) * cfg.width ≤ dir.bestKnownLib) :
      slice < sliceNumber cfg l := by
    have hpos : 0 < (slice + 1) * cfg.width := Nat.mul_pos slice.succ_pos cfg.width_pos
    rw [h.lib] at hslice
    cases hrecorded : recordedLib items with
    | none => grind
    | some l' =>
      have hsucc := hnext.1 l' hrecorded
      rw [hrecorded] at hslice
      have hle : (slice + 1) * cfg.width ≤ l'.toNat := hslice
      rw [sliceNumber, Nat.lt_iff_add_one_le, Nat.le_div_iff_mul_le cfg.width_pos]
      omega
  refine ⟨h, ?_, ?_⟩
  · rintro ⟨slice, hslice, hle⟩
    obtain ⟨m, -, hbound⟩ := h.cleaned slice hslice
    exact absurd hle (not_le.mpr (hlt slice ((Nat.le_add_right _ _).trans hbound)))
  · rintro ⟨slice, hslice, hle⟩
    exact absurd hle (not_le.mpr (hlt slice (h.compressed slice hslice)))

theorem step_holds (h : StoreHolds cfg fmt s.performed s.dir) (horderly : Orderly cfg fmt s.performed)
    {input : StoreInput δ} (hadmits : s.Admits cfg fmt input) :
    StoreHolds cfg fmt (s.step cfg fmt input).performed (s.step cfg fmt input).dir ∧
      Orderly cfg fmt (s.step cfg fmt input).performed := by
  have hstep {P : SliceDirectory → Prop} {items : List (SliceItem δ)}
      (hspec : Triple P (input.code cfg fmt) (fun _ => StoreHolds cfg fmt items)
        (StoreHolds cfg fmt s.performed)) (hP : P s.dir)
      (hitems : items = s.performed ++ input.item?.toList) (hnext : Orderly cfg fmt items) :
      StoreHolds cfg fmt (s.step cfg fmt input).performed (s.step cfg fmt input).dir ∧
        Orderly cfg fmt (s.step cfg fmt input).performed := by
    have hresult := hspec s.dir hP
    unfold StoreState.step
    cases hexec : exec (input.code cfg fmt) s.dir with
    | mk r dir => grind
  cases input with
  | append bt =>
    obtain ⟨hnext, hcleaned, hcompressed⟩ := hadmits
    exact hstep (append_spec bt) ⟨h, hcleaned, hcompressed⟩ rfl (horderly.concat hnext)
  | appendLib l =>
    have hnext : (SliceItem.lib l : SliceItem δ).Follows cfg fmt s.performed := hadmits
    have hle : ∀ l' ∈ recordedLib s.performed, l' ≤ l := by
      intro l' hl'
      have hsucc := hnext.1 l' hl'
      rw [UInt32.le_iff_toNat_le]
      omega
    exact hstep (appendLib_spec l hle) (writable_of_follows h hnext) rfl (horderly.concat hnext)
  | runMaintenanceTasks lib =>
    exact hstep (.bind (cleanUpSlices_spec lib) fun _ => compressSlices_spec lib) ⟨h, hadmits⟩ (append_nil _).symm horderly

theorem holds_of_run (hrun : Run (fun s input s' => s.step cfg fmt input = s') {} ts s)
    (hadmits : ∀ t ∈ ts, t.before.Admits cfg fmt t.label) :
    StoreHolds cfg fmt s.performed s.dir ∧ Orderly cfg fmt s.performed := by
  refine hrun.invariant_of_forall (I := fun _ s => StoreHolds cfg fmt s.performed s.dir ∧
    Orderly cfg fmt s.performed) hadmits ⟨⟨fun slice => ?_, rfl, ?_, ?_⟩, .nil⟩ ?_
  · refine ⟨fun _ => rfl, fun _ => ⟨[], [], .nil, .inl ⟨rfl, rfl⟩, ?_, fun _ => ⟨rfl, rfl⟩⟩⟩
    rintro ⟨last, hlast, -⟩
    cases hlast
  · intro slice hslice
    cases hslice
  · intro slice hslice
    cases hslice
  · rintro _ s input _ _ ⟨h, horderly⟩ rfl hinput
    exact step_holds h horderly hinput

theorem StoreHolds.not_cleaned (h : StoreHolds cfg fmt items dir)
    (hn : ∀ m ∈ cfg.minimumIrreversibleHistoryBlocks, dir.bestKnownLib ≤ n.toNat + m) :
    ¬dir.Cleaned (sliceNumber cfg n) := by
  rintro ⟨slice, hslice, hle⟩
  obtain ⟨m, hm, hbound⟩ := h.cleaned slice hslice
  have hkept := hn m hm
  rw [sliceNumber, ← Nat.lt_add_one_iff, Nat.div_lt_iff_lt_mul cfg.width_pos] at hle
  omega

/-- Reads in every run whose inputs are all admitted.  A trace that is returned is the one of the
block that was appended last before the first number that covers it; it is irreversible if the
recorded number covers it.  A block that was appended is returned while its slice is kept, and that
is so at least for the history that is configured. -/
theorem get_block_right (hrun : Run (fun s input s' => s.step cfg fmt input = s') {} ts s)
    (hadmits : ∀ t ∈ ts, t.before.Admits cfg fmt t.label) (n : UInt32) :
    (∀ bt irreversible, s.dir.getBlock cfg fmt n = .ok (some (bt, irreversible)) →
      fmt.number bt = n ∧ lastAppended fmt n s.performed = (some bt, irreversible) ∧
      (irreversible = true ↔ ∃ l ∈ recordedLib s.performed, n ≤ l)) ∧
    (n ∈ appendedNumbers fmt s.performed →
      (¬s.dir.Cleaned (SliceDirectory.sliceNumber cfg n) ∨
        ∀ m ∈ cfg.minimumIrreversibleHistoryBlocks, s.dir.bestKnownLib ≤ n.toNat + m) →
      ∃ bt irreversible, s.dir.getBlock cfg fmt n = .ok (some (bt, irreversible))) := by
  obtain ⟨h, horderly⟩ := holds_of_run hrun hadmits
  have hslice := h.slices (sliceNumber cfg n)
  constructor
  · intro bt irreversible hget
    obtain ⟨-, hfound⟩ := hslice.getBlock.mp hget
    have hlast : lastAppended fmt n s.performed = (some bt, irreversible) := by
      rcases horderly.lastAppended_ofSlice (n := n) with hsame | ⟨-, hnone⟩
      · rw [← hsame, hfound]
      · grind
    refine ⟨(exists_of_lastAppended (congrArg Prod.fst hlast)).2, hlast, ?_⟩
    rw [← horderly.irreversible_iff, hlast]
  · intro hmem hkept
    have hcleaned : ¬s.dir.Cleaned (sliceNumber cfg n) := hkept.elim id h.not_cleaned
    obtain ⟨bt, hbt, hnumber⟩ := mem_appendedNumbers.mp hmem
    have hsome := horderly.isSome_lastAppended hbt hnumber
    rcases horderly.lastAppended_ofSlice (n := n) with hsame | ⟨hnone, -⟩
    · rw [← hsame] at hsome
      obtain ⟨bt', hbt'⟩ := isSome_iff_exists.mp hsome
      exact ⟨bt', _, hslice.getBlock.mpr ⟨hcleaned, Prod.ext hbt' rfl⟩⟩
    · rw [hnone] at hsome
      cases hsome

/-! ## Samples -/

/-- A trace is the number of its block and one byte. -/
def sampleStoreFormat : StoreFormat (UInt32 × Fin 256) where
  version _ := 2
  trace version := if version = 2 then some (.pair .word32 .byte) else none
  number bt := bt.1
  id bt := { h0 := bt.1.toUInt64 }
  compress := id
  decompress := some
  decompress_compress _ := rfl

/-- Three blocks to a slice; compressed as soon as possible. -/
def sampleStoreConfig : StoreConfig where
  width := 3
  width_pos := by decide
  minimumIrreversibleHistoryBlocks := none
  minimumUncompressedIrreversibleHistoryBlocks := some 0

/-- Blocks 1 to 3, all irreversible; the slice of the first two is compressed. -/
def sampleStoreInputs : List (StoreInput (UInt32 × Fin 256)) :=
  [.append (1, 10), .append (2, 20), .append (2, 21), .appendLib 1, .appendLib 2, .append (3, 30),
    .appendLib 3, .runMaintenanceTasks 3]

/-- Block 2 was appended twice; its last trace is read from the compressed file. -/
theorem get_block_right_sample : ∃ ts s,
    Run (fun s input s' => StoreState.step sampleStoreConfig sampleStoreFormat s input = s') {} ts s ∧
    ts.map Transition.label = sampleStoreInputs ∧
    ∃ bt irreversible, s.dir.getBlock sampleStoreConfig sampleStoreFormat 2 =
        .ok (some (bt, irreversible)) ∧
      lastAppended sampleStoreFormat 2 s.performed = (some bt, irreversible) := by
  have hrun := run_trace (StoreState.step sampleStoreConfig sampleStoreFormat) {} sampleStoreInputs
  have hright := get_block_right hrun (by decide +kernel) 2
  obtain ⟨bt, irreversible, hget⟩ := hright.2 (by decide +kernel) (.inl (by decide +kernel))
  exact ⟨_, _, hrun, by decide +kernel, bt, irreversible, hget, (hright.1 bt irreversible hget).2.1⟩

/-- A block of the compressed slice is appended again: the trace of block 1 is then that of
block 2. -/
theorem getBlock_other_number :
    (sampleStoreInputs.foldl (StoreState.step sampleStoreConfig sampleStoreFormat) {}).dir.getBlock
      sampleStoreConfig sampleStoreFormat 1 = .ok (some ((1, 10), true)) ∧
    ((sampleStoreInputs ++ [StoreInput.append (2, 21)]).foldl
      (StoreState.step sampleStoreConfig sampleStoreFormat) {}).dir.getBlock
      sampleStoreConfig sampleStoreFormat 1 = .ok (some ((2, 21), true)) := by
  decide +kernel

end DcdProtocol.TraceApi
