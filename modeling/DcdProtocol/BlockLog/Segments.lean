import DcdProtocol.BlockLog.Log

/-!
# Files as segments

A segment is what one pair of files stands for: a preamble and the blocks after it, with the bytes
each was written as.  The files are determined by the segment (`Segment.files`), and all that the log
reads from files of a valid segment is read off the segment again: the preamble, the number of the
last block, that the index matches, and every block by its number.
-/

namespace DcdProtocol.BlockLog

open Library List IndexedFile
open Chain (Sha256)

variable {β γ χ : Type} {codec : Codec β γ χ}

/-! ## Preambles -/

theorem readBytes_append {n : ℕ} {bs rest : Bytes} (hlength : bs.length = n) :
    readBytes n (bs ++ rest) = .ok (bs, rest) := by
  have hle : n ≤ (bs ++ rest).length := by grind
  rw [readBytes, check, if_pos hle, ← hlength]
  simp

/-- A preamble that can be read back: the version is supported, and the version and the first block
number tell which of the two chain contexts it has. -/
structure Preamble.Readable (p : Preamble γ χ) : Prop where
  supported : minSupportedVersion ≤ p.version ∧ p.version ≤ maxSupportedVersion
  first_pos : 0 < p.firstBlockNum
  first_lt : p.firstBlockNum < 2 ^ 32
  initial : p.version = initialVersion → p.firstBlockNum = 1
  context : match p.chainContext with
    | .genesisState _ => containsGenesisState p.version p.firstBlockNum = true
    | .chainId _ => containsGenesisState p.version p.firstBlockNum = false ∧
        containsChainId p.version p.firstBlockNum = true

variable {bytes : Bytes} {p : Preamble γ χ}

theorem readContext_packContext (hinverse : codec.Inverse) (hp : p.Readable) (rest : Bytes) :
    Preamble.readContext codec p.version p.firstBlockNum
      (Preamble.packContext codec p.chainContext ++ rest) = .ok (p.chainContext, rest) := by
  have hcontext := hp.context
  rw [Preamble.readContext]
  cases hc : p.chainContext with
  | genesisState state =>
    rw [hc] at hcontext
    rw [if_pos hcontext, Preamble.packContext, hinverse.genesis]
    rfl
  | chainId id =>
    rw [hc] at hcontext
    rw [if_neg (by simp [hcontext.1]), if_pos hcontext.2, Preamble.packContext, hinverse.chainId]
    rfl

theorem exists_parts (hp : p.Readable) (hwrite : p.writeTo codec = .ok bytes) (rest : Bytes) :
    ∃ afterVersion afterContext, bytes ++ rest = le 4 p.version ++ afterVersion ∧
      Preamble.readFirstBlockNum p.version afterVersion =
        .ok (p.firstBlockNum, Preamble.packContext codec p.chainContext ++ afterContext) ∧
      Preamble.readTotem p.version afterContext = .ok rest := by
  rw [Preamble.writeTo] at hwrite
  by_cases hinitial : p.version = initialVersion
  · rw [if_neg (by simpa using hinitial)] at hwrite
    cases hc : p.chainContext with
    | chainId id => simp [hc] at hwrite
    | genesisState state =>
      rw [hc] at hwrite
      obtain rfl := pure_ok_iff.mp hwrite
      refine ⟨_, rest, append_assoc _ _ _, ?_, ?_⟩
      · rw [Preamble.readFirstBlockNum, if_neg (by simpa using hinitial), hp.initial hinitial]
        rfl
      · rw [Preamble.readTotem, if_neg (by simpa using hinitial)]
        rfl
  · rw [if_pos hinitial] at hwrite
    obtain rfl := pure_ok_iff.mp hwrite
    refine ⟨_, le 8 npos ++ rest, by rw [append_assoc], ?_, ?_⟩
    · rw [Preamble.readFirstBlockNum, if_pos hinitial, append_assoc,
        readBytes_append (length_le 4 _), append_assoc]
      exact congrArg (fun n => Except.ok (n, _)) (ofLe_le hp.first_lt)
    · rw [Preamble.readTotem, if_pos hinitial, readBytes_append (length_le 8 _)]
      refine bind_ok_iff.mpr ⟨_, rfl, bind_ok_iff.mpr ⟨(), ?_, rfl⟩⟩
      exact check_ok_iff.mpr (ofLe_le (by decide))

theorem readFrom_writeTo (hinverse : codec.Inverse) (hp : p.Readable) (hwrite : p.writeTo codec = .ok bytes) (rest : Bytes) :
    Preamble.readFrom codec (bytes ++ rest) = .ok (p, rest) := by
  obtain ⟨afterVersion, afterContext, hbytes, hfirst, htotem⟩ := exists_parts hp hwrite rest
  obtain ⟨hmin, hmax⟩ := hp.supported
  have hversion : ofLe (le 4 p.version) = p.version := ofLe_le (lt_of_le_of_lt hmax (by decide))
  rw [Preamble.readFrom, hbytes, readBytes_append (length_le 4 _)]
  refine bind_ok_iff.mpr ⟨_, rfl, ?_⟩
  dsimp only
  rw [hversion]
  refine bind_ok_iff.mpr ⟨(), check_ok_iff.mpr (lt_of_lt_of_le (by decide) hmin), ?_⟩
  refine bind_ok_iff.mpr ⟨(), check_ok_iff.mpr (decide_eq_true hp.supported), ?_⟩
  refine bind_ok_iff.mpr ⟨_, hfirst, ?_⟩
  refine bind_ok_iff.mpr ⟨_, readContext_packContext hinverse hp afterContext, ?_⟩
  exact bind_ok_iff.mpr ⟨rest, htotem, rfl⟩

theorem exists_writeTo_eq (hwrite : p.writeTo codec = .ok bytes)
    (hversion : p.version ≠ initialVersion) : ∃ front, bytes = front ++ le 8 npos := by
  rw [Preamble.writeTo, if_pos hversion] at hwrite
  obtain rfl := pure_ok_iff.mp hwrite
  exact ⟨le 4 p.version ++ (le 4 p.firstBlockNum ++ Preamble.packContext codec p.chainContext),
    by simp only [append_assoc]⟩

theorem writeTo_ne_nil (hwrite : p.writeTo codec = .ok bytes) : bytes ≠ [] := by
  rw [Preamble.writeTo] at hwrite
  split_ifs at hwrite
  · obtain rfl := pure_ok_iff.mp hwrite
    simp [le]
  cases hc : p.chainContext with
  | chainId id => simp [hc] at hwrite
  | genesisState state =>
    rw [hc] at hwrite
    obtain rfl := pure_ok_iff.mp hwrite
    simp [le]

/-! ## Segments -/

structure Segment (β γ χ : Type) where
  preamble : Preamble γ χ
  /-- The bytes of the preamble. -/
  header : Bytes
  /-- The blocks and the bytes they were written as. -/
  entries : List (β × Bytes)

namespace Segment

variable (seg : Segment β γ χ)

def files : IndexedFile := .ofRecords seg.header (seg.entries.map Prod.snd)

def blocks : List β := seg.entries.map Prod.fst

def first : ℕ := seg.preamble.firstBlockNum

def next : ℕ := seg.first + seg.entries.length

def push (b : β) (buffer : Bytes) : Segment β γ χ := { seg with entries := seg.entries ++ [(b, buffer)] }

def logData : LogData γ χ := ⟨seg.preamble, seg.header.length, seg.files.data⟩

variable (codec) in
structure Valid : Prop where
  readable : seg.preamble.Readable
  written : seg.preamble.writeTo codec = .ok seg.header
  packed : ∀ e ∈ seg.entries, (codec.entry seg.preamble.version).pack e.1 = some e.2
  numbered : ∀ (i : ℕ) (b : β), seg.blocks[i]? = some b → codec.blockNum b = seg.first + i
  size : seg.files.data.length < 2 ^ 63

variable {seg}

theorem files_push (b : β) (buffer : Bytes) : (seg.push b buffer).files = seg.files.append buffer := by
  rw [files, push, map_append]
  exact ofRecords_concat buffer

theorem blocks_push (b : β) (buffer : Bytes) : (seg.push b buffer).blocks = seg.blocks ++ [b] :=
  map_append

theorem length_blocks : seg.blocks.length = seg.entries.length := length_map _

variable (seg) in
theorem exists_data :
    ∃ rest, seg.files.data = seg.header ++ rest ∧ (rest = [] ↔ seg.entries = []) := by
  obtain ⟨rest, hdata, hrest⟩ := exists_data_eq seg.header (seg.entries.map Prod.snd)
  exact ⟨rest, hdata, by rw [hrest, map_eq_nil_iff]⟩

namespace Valid

variable (hseg : seg.Valid codec)
include hseg

theorem size' : seg.files.data.length < 256 ^ 8 := lt_trans hseg.size (by decide)

variable {b : β} {i : ℕ}

theorem push {buffer : Bytes} (hpack : (codec.entry seg.preamble.version).pack b = some buffer)
    (hnum : codec.blockNum b = seg.next)
    (hsize : (seg.files.append buffer).data.length < 2 ^ 63) : (seg.push b buffer).Valid codec where
  readable := hseg.readable
  written := hseg.written
  packed := by
    intro e he
    rcases mem_append.mp he with he | he
    · exact hseg.packed e he
    · obtain rfl := mem_singleton.mp he
      exact hpack
  numbered := by
    intro i c hc
    rw [blocks_push] at hc
    rcases Nat.lt_or_ge i seg.blocks.length with hlt | hge
    · rw [getElem?_append_left hlt] at hc
      exact hseg.numbered i c hc
    rw [getElem?_append_right hge, getElem?_singleton] at hc
    split_ifs at hc with hzero
    obtain rfl := Option.some.inj hc
    rw [hnum, next, ← length_blocks]
    show seg.first + seg.blocks.length = seg.first + i
    omega
  size := by
    rw [files_push]
    exact hsize

theorem data_ne_nil : seg.files.data ≠ [] := by
  obtain ⟨rest, hdata, -⟩ := seg.exists_data
  rw [hdata]
  exact append_ne_nil_of_left_ne_nil (writeTo_ne_nil hseg.written) _

theorem ofBytes (hinverse : codec.Inverse) :
    LogData.ofBytes codec seg.files.data = .ok seg.logData := by
  obtain ⟨rest, hdata, -⟩ := seg.exists_data
  rw [LogData.ofBytes, hdata, readFrom_writeTo hinverse hseg.readable hseg.written]
  have hlength : (seg.header ++ rest).length - rest.length = seg.header.length := by simp
  show Except.ok _ = _
  rw [hlength, logData, hdata]

theorem exists_drop (hb : seg.blocks[i]? = some b) :
    ∃ buffer rest, (codec.entry seg.preamble.version).pack b = some buffer ∧
      seg.files.nthPosition i ≤ seg.files.data.length ∧
      seg.files.data.drop (seg.files.nthPosition i) = buffer ++ rest ∧ rest ≠ [] := by
  obtain ⟨e, he, rfl⟩ := getElem?_map .. ▸ hb |> Option.map_eq_some_iff.mp
  obtain ⟨hi, rfl⟩ := List.getElem?_eq_some_iff.mp he
  have hi' : i < (seg.entries.map Prod.snd).length := by rwa [length_map]
  obtain ⟨hle, rest, hdrop, hrest⟩ := drop_nthPosition hseg.size' hi'
  refine ⟨_, rest, hseg.packed _ (getElem_mem hi), hle, ?_, hrest⟩
  rw [files, hdrop]
  simp

theorem readBlockAs (hinverse : codec.Inverse) (hb : seg.blocks[i]? = some b) :
    codec.readBlockAs seg.preamble.version (seg.files.data.drop (seg.files.nthPosition i))
      (seg.first + i) = .ok b := by
  obtain ⟨buffer, rest, hpack, -, hdrop, -⟩ := hseg.exists_drop hb
  obtain ⟨hunpack, -, -⟩ := hinverse.entry _ b buffer hpack rest
  rw [hdrop, Codec.readBlockAs, Codec.readBlock, hunpack]
  refine bind_ok_iff.mpr ⟨b, rfl, bind_ok_iff.mpr ⟨(), ?_, rfl⟩⟩
  exact check_ok_iff.mpr (.inr (hseg.numbered i b hb))

theorem readBlockId (hinverse : codec.Inverse) (hb : seg.blocks[i]? = some b) :
    codec.readBlockId seg.preamble.version (seg.files.data.drop (seg.files.nthPosition i))
      (seg.first + i) = .ok (codec.calculateId b) := by
  obtain ⟨buffer, rest, hpack, -, hdrop, -⟩ := hseg.exists_drop hb
  obtain ⟨-, hheader, -⟩ := hinverse.entry _ b buffer hpack rest
  rw [hdrop, Codec.readBlockId, hheader]
  refine bind_ok_iff.mpr ⟨_, rfl, bind_ok_iff.mpr ⟨(), ?_, rfl⟩⟩
  exact check_ok_iff.mpr (hseg.numbered i b hb)

/-! ### The end of the file -/

theorem lastPosition_eq (hne : seg.entries ≠ []) :
    seg.files.lastPosition = seg.files.nthPosition (seg.entries.length - 1) := by
  rw [files, IndexedFile.lastPosition_eq hseg.size' (by simpa using hne), length_map]

omit hseg in
theorem exists_last (hne : seg.entries ≠ []) :
    ∃ b, seg.blocks[seg.entries.length - 1]? = some b ∧ seg.blocks.getLast? = some b := by
  have hne' : seg.blocks ≠ [] := by simpa [blocks] using hne
  have hlast := getLast?_eq_getElem? (l := seg.blocks)
  rw [length_blocks] at hlast
  exact ⟨seg.blocks.getLast hne', by rw [← hlast, getLast?_eq_some_getLast hne'],
    getLast?_eq_some_getLast hne'⟩

theorem lastBlockNum (hinverse : codec.Inverse) (hne : seg.entries ≠ []) :
    seg.logData.lastBlockNum codec = .ok (seg.next - 1) := by
  obtain ⟨b, hb, -⟩ := exists_last hne
  obtain ⟨buffer, rest, hpack, hle, hdrop, -⟩ := hseg.exists_drop hb
  obtain ⟨-, -, hnum⟩ := hinverse.entry _ b buffer hpack rest
  have hposition : seg.logData.lastBlockPosition = seg.files.nthPosition (seg.entries.length - 1) :=
    hseg.lastPosition_eq hne
  have hpos : 0 < seg.entries.length := length_pos_of_ne_nil hne
  have hlast : codec.blockNum b = seg.next - 1 := by
    rw [hseg.numbered _ b hb, next]
    omega
  rw [LogData.lastBlockNum, hposition, LogData.blockNumAt]
  refine bind_ok_iff.mpr ⟨(), check_ok_iff.mpr hle, ?_⟩
  rw [← hlast, ← hnum, ← hdrop]
  rfl

theorem numBlocks (hinverse : codec.Inverse) :
    seg.logData.numBlocks codec = .ok seg.entries.length := by
  obtain ⟨rest, hdata, hrest⟩ := seg.exists_data
  have hempty : seg.logData.firstBlockPos = seg.logData.bytes.length ↔ seg.entries = [] := by
    show seg.header.length = seg.files.data.length ↔ _
    rw [hdata, length_append, ← hrest, ← length_eq_zero_iff]
    omega
  rw [LogData.numBlocks]
  by_cases hne : seg.entries = []
  · simp_all
  rw [if_neg fun h => hne (hempty.mp h), hseg.lastBlockNum hinverse hne]
  have hpos : 0 < seg.entries.length := length_pos_of_ne_nil hne
  show Except.ok (seg.next - 1 - seg.first + 1) = Except.ok seg.entries.length
  rw [next]
  congr 1
  omega

omit hseg in
theorem length_index : seg.files.index.length = 8 * seg.entries.length := by
  rw [files, IndexedFile.length_index, length_map]

theorem last_index (hne : seg.entries ≠ []) :
    ofLe (seg.files.index.drop (seg.files.index.length - 8)) = seg.files.lastPosition := by
  have hstart : seg.files.index.length - 8 = 8 * (seg.entries.length - 1) := by
    rw [length_index]
    omega
  rw [hseg.lastPosition_eq hne, nthPosition, hstart, take_of_length_le]
  rw [length_drop, length_index]
  omega

theorem matchingIndex (hinverse : codec.Inverse) (hne : seg.entries ≠ []) :
    Catalog.matchingIndex codec seg.files.index seg.logData = .ok seg.files.index := by
  have hpos : 0 < seg.entries.length := length_pos_of_ne_nil hne
  have hmatch : Catalog.indexMatchesData codec seg.files.index seg.logData = .ok true := by
    rw [Catalog.indexMatchesData, hseg.numBlocks hinverse]
    refine bind_ok_iff.mpr ⟨_, rfl, ?_⟩
    rw [if_neg (by rw [length_index]; omega)]
    refine bind_ok_iff.mpr ⟨(), check_ok_iff.mpr (by rw [length_index]; omega), ?_⟩
    rw [hseg.last_index hne]
    show Except.ok (decide (seg.files.lastPosition = seg.files.lastPosition)) = _
    rw [decide_eq_true rfl]
  rw [Catalog.matchingIndex, hmatch]
  rfl

theorem readHead (hinverse : codec.Inverse)
    (hsome : seg.entries ≠ [] ∨ seg.preamble.version ≠ initialVersion) :
    Log.readHead codec seg.preamble.version seg.files = .ok seg.blocks.getLast? := by
  by_cases hne : seg.entries = []
  · obtain ⟨rest, hdata, hrest⟩ := seg.exists_data
    obtain ⟨front, hfront⟩ :=
      exists_writeTo_eq hseg.written (hsome.resolve_left (not_not_intro hne))
    have hend : seg.files.data = front ++ le 8 npos := by grind
    have hlength : seg.files.data.length - 8 = front.length := by simp_all
    have hlast : seg.files.lastPosition = npos := by
      rw [lastPosition, hlength, hend, drop_left]
      exact ofLe_le (by decide)
    refine bind_ok_iff.mpr ⟨(), check_ok_iff.mpr ?_, ?_⟩
    · simp_all
    · rw [if_pos hlast, blocks, hne]
      rfl
  · obtain ⟨b, hb, hlast⟩ := exists_last hne
    obtain ⟨buffer, rest, hpack, hle, hdrop, hrest⟩ := hseg.exists_drop hb
    obtain ⟨hunpack, -, -⟩ := hinverse.entry _ b buffer hpack rest
    have hsize := hseg.size
    have hposition := hseg.lastPosition_eq hne
    have hlong : 8 ≤ seg.files.data.length := eight_le_length (by simpa using hne)
    refine bind_ok_iff.mpr ⟨(), check_ok_iff.mpr hlong, ?_⟩
    rw [if_neg (by rw [hposition, npos]; omega), hposition, hdrop, Codec.readBlock, hunpack, hlast]
    rfl

end Valid

end Segment

end DcdProtocol.BlockLog
