import DcdProtocol.Library.Run
import DcdProtocol.TraceApi.Slices

/-!
# Reads from the trace store

`SliceHolds` says that the files of a slice hold what a list of items leaves: the index has their
entries, and the data is in the trace file or, once the slice was compressed, in the compressed one.
If it holds, `get_block` returns what a scan of the items finds (`SliceHolds.getBlock`).

The second part says what each function does to the files, as an equation for its result and the
files after it.
-/

namespace DcdProtocol.TraceApi

open Library SliceDirectory

variable {δ : Type} {cfg : StoreConfig} {fmt : StoreFormat δ} {dir : SliceDirectory} {slice : ℕ}

/-! ## What the files hold -/

section Files

variable (cfg fmt)

def SliceDirectory.Cleaned (dir : SliceDirectory) (slice : ℕ) : Prop :=
  ∃ last ∈ dir.lastCleanedUpSlice, slice ≤ last

/-- The trace file of the slice was compressed. -/
def SliceDirectory.Compressed (dir : SliceDirectory) (slice : ℕ) : Prop :=
  ∃ last ∈ dir.lastCompressedSlice, slice ≤ last

def IndexHolds (slice : ℕ) (index : Option Bytes) (es : List MetadataLogEntry) : Prop :=
  index = none ∧ es = [] ∨
    indexFilename cfg.width slice = .ok () ∧
      ∃ bytes, MetadataLogEntry.serial.packAll es = some bytes ∧
        index = some (le 4 currentVersion ++ bytes)

/-- The trace file has this data, in the form it should be in. -/
structure DataHolds (slice : ℕ) (dir : SliceDirectory) (data : Bytes) : Prop where
  compressed : dir.Compressed slice → dir.traces.find? slice = none ∧
    (dir.compressedTraces.find? slice).elim (some []) fmt.decompress = some data
  uncompressed : ¬dir.Compressed slice → dir.compressedTraces.find? slice = none ∧
    (dir.traces.find? slice).getD [] = data

/-- The files of a slice hold what `items` leave. -/
structure SliceHolds (items : List (SliceItem δ)) (dir : SliceDirectory) (slice : ℕ) : Prop where
  cleaned : dir.Cleaned slice → dir.indexes.find? slice = none
  kept : ¬dir.Cleaned slice → ∃ es data, Slice fmt (SliceItem.ofSlice fmt cfg slice items) es data ∧
    IndexHolds cfg slice (dir.indexes.find? slice) es ∧ DataHolds fmt slice dir data

end Files

variable {es : List MetadataLogEntry} {data : Bytes} {n : UInt32} {items : List (SliceItem δ)} {bt : δ}

theorem printedSize_le (n : ℕ) : printedSize n ≤ 11 := by
  unfold printedSize
  split_ifs <;> decide

theorem traceFilename_eq (width slice : ℕ) : traceFilename width slice = .ok () := by
  have hstart := printedSize_le (slice * width)
  have hend := printedSize_le (slice * width + width)
  rw [traceFilename, makeFilename, check_ok_iff, maxFilenameSize]
  omega

theorem compressedTraceFilename_eq (width slice : ℕ) :
    compressedTraceFilename width slice = .ok () := by
  have hstart := printedSize_le (slice * width)
  have hend := printedSize_le (slice * width + width)
  rw [compressedTraceFilename, makeFilename, check_ok_iff, maxFilenameSize]
  omega

theorem findTraceSlice_eq : dir.findTraceSlice cfg slice = .ok (dir.traces.find? slice) := by
  rw [findTraceSlice, traceFilename_eq]
  rfl

theorem validate_eq (bytes : Bytes) :
    validateExistingIndexSliceFile (le 4 currentVersion ++ bytes) = .ok bytes := by
  have hlength : (le 4 currentVersion).length = 4 := length_le 4 _
  refine bind_ok_iff.mpr ⟨(), check_ok_iff.mpr ?_, ?_⟩
  · simp
  refine bind_ok_iff.mpr ⟨(), check_ok_iff.mpr ?_, ?_⟩
  · rw [List.take_left' hlength]
    exact ofLe_le (by decide)
  · rw [List.drop_left' hlength]
    rfl

theorem IndexHolds.findIndexSlice {bytes : Bytes} (hname : indexFilename cfg.width slice = .ok ())
    (hindex : dir.indexes.find? slice = some (le 4 currentVersion ++ bytes)) :
    dir.findIndexSlice cfg slice = .ok (some bytes) := by
  rw [SliceDirectory.findIndexSlice, hname, hindex]
  refine bind_ok_iff.mpr ⟨(), rfl, ?_⟩
  exact bind_ok_iff.mpr ⟨bytes, validate_eq bytes, rfl⟩

theorem DataHolds.readDataLog (h : DataHolds fmt (sliceNumber cfg n) dir data)
    {offset : UInt64} (hread : ReadAt fmt data offset bt) :
    dir.readDataLog cfg fmt n offset = .ok bt := by
  have hlt := hread.lt_length
  refine bind_ok_iff.mpr ⟨_, findTraceSlice_eq, ?_⟩
  by_cases hcompressed : dir.Compressed (sliceNumber cfg n)
  · obtain ⟨htrace, hdata⟩ := h.compressed hcompressed
    rw [htrace]
    refine bind_ok_iff.mpr ⟨_, bind_ok_iff.mpr ⟨(), compressedTraceFilename_eq _ _, rfl⟩, ?_⟩
    cases hfile : dir.compressedTraces.find? (sliceNumber cfg n) with
    | none => grind
    | some bytes =>
      rw [hfile] at hdata
      have hdecompress : fmt.decompress bytes = some data := hdata
      simp only [hdecompress]
      exact hread.extractTrace
  · obtain ⟨-, hdata⟩ := h.uncompressed hcompressed
    cases hfile : dir.traces.find? (sliceNumber cfg n) with
    | none => grind
    | some bytes =>
      rw [hfile] at hdata
      cases hdata
      exact bind_ok_iff.mpr ⟨(), check_ok_iff.mpr hlt, hread.extractTrace⟩

theorem getBlock_of_index (hindex : dir.indexes.find? (sliceNumber cfg n) = none)
    (x : δ × Bool) : dir.getBlock cfg fmt n ≠ .ok (some x) := by
  intro h
  obtain ⟨found, hfound, h⟩ := bind_ok_iff.mp h
  obtain ⟨entries, hentries, hfound⟩ := bind_ok_iff.mp hfound
  obtain ⟨_, _, hentries⟩ := bind_ok_iff.mp hentries
  rw [hindex] at hentries
  cases hentries
  cases hfound
  cases h

/-- What is read is what was found in the items of the slice, unless the slice was removed. -/
theorem SliceHolds.getBlock (h : SliceHolds cfg fmt items dir (sliceNumber cfg n))
    {irreversible : Bool} : dir.getBlock cfg fmt n = .ok (some (bt, irreversible)) ↔
      ¬dir.Cleaned (sliceNumber cfg n) ∧
      lastAppended fmt n (SliceItem.ofSlice fmt cfg (sliceNumber cfg n) items) =
        (some bt, irreversible) := by
  by_cases hcleaned : dir.Cleaned (sliceNumber cfg n)
  · exact iff_of_false (getBlock_of_index (h.cleaned hcleaned) _) fun hkept => hkept.1 hcleaned
  obtain ⟨es, data, hslice, hindex, hdata⟩ := h.kept hcleaned
  obtain ⟨hrel, hflag⟩ := hslice.scan n
  rcases hindex with ⟨hnone, rfl⟩ | ⟨hname, bytes, hbytes, hindex⟩
  · refine iff_of_false (getBlock_of_index hnone _) ?_
    rintro ⟨-, hlast⟩
    rw [hlast] at hrel
    cases hrel
  have hscan : dir.scanMetadataLogFrom cfg n = .ok (es.foldl (scanEntry n) (none, false)) := by
    rw [scanMetadataLogFrom, IndexHolds.findIndexSlice hname hindex]
    exact scanEntries_eq hbytes le_rfl _
  rw [SliceDirectory.getBlock, hscan]
  generalize es.foldl (scanEntry n) (none, false) = found at hrel hflag ⊢
  generalize lastAppended fmt n _ = last at hrel hflag ⊢
  obtain ⟨offset, irreversible'⟩ := found
  obtain ⟨bt', irreversible''⟩ := last
  obtain rfl : irreversible' = irreversible'' := hflag
  cases hrel with
  | none =>
    refine iff_of_false (fun hget => ?_) fun hlast => ?_
    · cases hget
    · cases hlast.2
  | @some _ bt' hread =>
    have hbt : dir.readDataLog cfg fmt n _ = .ok bt' := hdata.readDataLog hread
    constructor
    · intro hget
      obtain ⟨found, hfound, hget⟩ := bind_ok_iff.mp hget
      cases hfound
      obtain ⟨bt'', hbt'', hget⟩ := bind_ok_iff.mp hget
      rw [hbt] at hbt''
      cases hbt''
      cases hget
      exact ⟨hcleaned, rfl⟩
    · rintro ⟨-, hlast⟩
      cases hlast
      refine bind_ok_iff.mpr ⟨_, rfl, ?_⟩
      exact bind_ok_iff.mpr ⟨bt, hbt, rfl⟩

/-! ## What each function does -/

section Exec

open Stateful

theorem exec_appendIndex (e : MetadataLogEntry) :
    exec (appendIndex slice e) dir =
      match appendedBytes ((dir.indexes.find? slice).getD [])
        (MetadataLogEntry.serial.pack e) with
      | .ok r => (.ok (), { dir with indexes := dir.indexes.insert slice r.2 })
      | .error e => (.error e, dir) := by
  rw [appendIndex, exec_get_bind, exec_ofExcept_bind]
  cases appendedBytes ((dir.indexes.find? slice).getD []) (MetadataLogEntry.serial.pack e) <;> rfl

theorem exec_appendTrace (e : Option Bytes) :
    exec (appendTrace slice e) dir =
      match appendedBytes ((dir.traces.find? slice).getD []) e with
      | .ok r => (.ok r.1, { dir with traces := dir.traces.insert slice r.2 })
      | .error e => (.error e, dir) := by
  rw [appendTrace, exec_get_bind, exec_ofExcept_bind]
  cases appendedBytes ((dir.traces.find? slice).getD []) e <;> rfl

theorem exec_findOrCreateTraceSlice :
    exec (findOrCreateTraceSlice cfg slice) dir =
      (.ok (), if dir.traces.find? slice = none then
        { dir with traces := dir.traces.insert slice [] } else dir) := by
  rw [findOrCreateTraceSlice, exec_get_bind, exec_ofExcept_bind, findTraceSlice_eq]
  cases dir.traces.find? slice <;> rfl

theorem exec_findOrCreateIndexSlice :
    exec (findOrCreateIndexSlice cfg slice) dir =
      match dir.findIndexSlice cfg slice with
      | .ok none => (.ok (), { dir with
          indexes := dir.indexes.insert slice (le 4 currentVersion) })
      | .ok (some _) => (.ok (), dir)
      | .error e => (.error e, dir) := by
  rw [findOrCreateIndexSlice, exec_get_bind, exec_ofExcept_bind]
  cases dir.findIndexSlice cfg slice with
  | error e => rfl
  | ok r => cases r <;> rfl

theorem exec_cleanUpSlice :
    exec (cleanUpSlice cfg slice) dir =
      match indexFilename cfg.width slice with
      | .ok _ => (.ok (), { dir with
          indexes := dir.indexes.erase slice
          traces := dir.traces.erase slice
          compressedTraces := dir.compressedTraces.erase slice })
      | .error e => (.error e, dir) := by
  rw [cleanUpSlice, traceFilename_eq, compressedTraceFilename_eq, exec_ofExcept_bind]
  cases indexFilename cfg.width slice <;> rfl

theorem exec_compressSlice :
    exec (compressSlice cfg fmt slice) dir =
      match dir.traces.find? slice with
      | none => (.ok (), dir)
      | some [] => (.error (.failure
          "Attempting to create compressed_file from file that is empty: "), dir)
      | some trace => (.ok (), { dir with
          compressedTraces := dir.compressedTraces.insert slice (fmt.compress trace)
          traces := dir.traces.erase slice }) := by
  rw [compressSlice, exec_get_bind, exec_ofExcept_bind, findTraceSlice_eq]
  cases dir.traces.find? slice with
  | none => rfl
  | some trace => cases trace <;> rfl

end Exec

end DcdProtocol.TraceApi
