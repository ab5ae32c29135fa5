import DcdProtocol.BlockLog.Segments

/-!
# Opening a log again

The state of a log is its list of retained split segments and the segment of the active file; the
files, the catalog with the file it has mapped, and the preamble are determined by them
(`Represents`).  Appending, reading and opening again keep the relation, and all that is read is read
off the segments: exactly the blocks in the retained range.

Three things go wrong.  Right after a split the active file has only a preamble, and a log that is
opened then has no head, although the last block is in the newest split file (`reopen_differs`).
With no file to retain, a split file is neither entered in the catalog nor removed, so that it is
found again when the log is opened.  And the numbers in file names are printed as signed integers, so
that files with block numbers from `2 ^ 31` on are not recognized.  Apart from these, the log is the
same as before (`reopen_same`).
-/

namespace DcdProtocol.BlockLog

open Library List FlatMap Segment Catalog Log
open Chain (Sha256)

variable {β γ χ : Type} {codec : Codec β γ χ} {cfg : Config}
  {f start n : ℕ} {bs : List β} {closed : List (Segment β γ χ)} {current seg : Segment β γ χ}
  {log log' : Log β γ χ}

/-! ## Consecutive segments -/

/-- The segments hold the blocks from one number up to another. -/
inductive Consecutive : ℕ → List (Segment β γ χ) → ℕ → Prop
  | nil (n : ℕ) : Consecutive n [] n
  | cons {seg : Segment β γ χ} {segs : List (Segment β γ χ)} {m : ℕ} (hne : seg.entries ≠ [])
      (hrest : Consecutive seg.next segs m) : Consecutive seg.first (seg :: segs) m

namespace Consecutive

variable {a b : ℕ} {segs : List (Segment β γ χ)}

theorem first_lt_next (hne : seg.entries ≠ []) : seg.first < seg.next := by
  have := length_pos_of_ne_nil hne
  rw [Segment.next]
  omega

section

variable (h : Consecutive a segs b) {stride : ℕ}
include h

theorem le : a ≤ b := by
  induction h with
  | nil n => exact le_rfl
  | cons hne _ ih => exact (first_lt_next hne).le.trans ih

theorem concat (hfirst : seg.first = b) (hne : seg.entries ≠ []) :
    Consecutive a (segs ++ [seg]) seg.next := by
  induction h with
  | nil n => exact hfirst ▸ .cons hne (.nil _)
  | cons hne' _ ih => exact .cons hne' (ih hfirst)

theorem mem (hseg : seg ∈ segs) : seg.entries ≠ [] ∧ a ≤ seg.first ∧ seg.next ≤ b := by
  induction h with
  | nil n => simp at hseg
  | cons hne hrest ih =>
    rcases mem_cons.mp hseg with rfl | hmem
    · exact ⟨hne, le_rfl, hrest.le⟩
    · obtain ⟨hne', hfirst, hnext⟩ := ih hmem
      exact ⟨hne', (first_lt_next hne).le.trans hfirst, hnext⟩

theorem length_blocks : (segs.flatMap Segment.blocks).length = b - a := by
  induction h with
  | nil n => simp
  | @cons seg segs m hne hrest ih =>
    have := hrest.le
    rw [flatMap_cons, length_append, ih, Segment.length_blocks]
    simp only [Segment.next] at *
    omega

theorem takeWhile_eq_nil (hlt : n < a) : segs.takeWhile (fun s => s.first ≤ n) = [] := by
  cases h with
  | nil => rfl
  | cons => rw [takeWhile_cons, if_neg (by simpa using hlt)]

theorem exists_segment (hn : a ≤ n) (hlt : n < b) :
    ∃ i seg, segs[i]? = some seg ∧ seg.first ≤ n ∧ n < seg.next ∧
      segs.takeWhile (fun s => s.first ≤ n) = segs.take (i + 1) := by
  induction h with
  | nil m => omega
  | @cons seg segs m hne hrest ih =>
    rcases Nat.lt_or_ge n seg.next with hin | hout
    · refine ⟨0, seg, rfl, hn, hin, ?_⟩
      rw [takeWhile_cons, if_pos (decide_eq_true hn), take_succ_cons, take_zero,
        hrest.takeWhile_eq_nil hin]
    · obtain ⟨i, found, hfound, hfirst, hnext, htake⟩ := ih hout hlt
      refine ⟨i + 1, found, hfound, hfirst, hnext, ?_⟩
      rw [takeWhile_cons, if_pos (decide_eq_true hn), htake, take_succ_cons]

theorem getElem?_blocks (hseg : seg ∈ segs) (hn : seg.first ≤ n) (hlt : n < seg.next) :
    (segs.flatMap blocks)[n - a]? = seg.blocks[n - seg.first]? := by
  induction h with
  | nil m => simp at hseg
  | @cons head segs m hne hrest ih =>
    rw [flatMap_cons]
    rcases mem_cons.mp hseg with rfl | hmem
    · rw [getElem?_append_left]
      rw [Segment.length_blocks]
      rw [Segment.next] at hlt
      omega
    have hfirst := (hrest.mem hmem).2.1
    rw [getElem?_append_right, Segment.length_blocks, ← ih hmem]
    · rw [Segment.next] at hfirst ⊢
      congr 1
      omega
    · rw [Segment.length_blocks]
      rw [Segment.next] at hfirst
      omega

/-- The number of splits between the two ends, if each segment is closed by a multiple of the
stride. -/
theorem div_eq (hfull : ∀ seg ∈ segs, (seg.next - 1) / stride = (seg.first - 1) / stride + 1) :
    (b - 1) / stride = (a - 1) / stride + segs.length := by
  induction h with
  | nil n => simp
  | @cons seg segs m hne hrest ih => grind

theorem mod_eq (hne : segs ≠ [])
    (hfull : ∀ seg ∈ segs, (seg.next - 1) % stride = 0) : (b - 1) % stride = 0 := by
  induction h with
  | nil n => exact absurd rfl hne
  | @cons seg segs m _ hrest ih =>
    cases segs with
    | nil =>
      generalize hnext : seg.next = next at hrest
      cases hrest
      rw [← hnext]
      exact hfull seg (by simp)
    | cons => exact ih (by simp) fun s hs => hfull s (by simp [hs])

end

end Consecutive

/-! ## Logs and segments -/

namespace Segment

variable (seg)

def name : FileName := splitName seg.first (seg.next - 1)

def catalogEntry : ℕ × CatalogEntry := (seg.first, ⟨seg.next - 1, seg.name⟩)

def diskEntry : FileName × IndexedFile := (seg.name, seg.files)

def mapped : MappedLog γ χ := ⟨seg.logData, seg.files.index⟩

end Segment

/-- The log holds the segments `closed` and `current`, the blocks from `start` on.  `bs` are all
blocks that were appended, the first with number `f`. -/
structure Represents (cfg : Config) (codec : Codec β γ χ) (f : ℕ) (bs : List β) (start : ℕ)
    (closed : List (Segment β γ χ)) (current : Segment β γ χ) (log : Log β γ χ) : Prop where
  valid : ∀ seg ∈ closed, seg.Valid codec
  valid_current : current.Valid codec
  consecutive : Consecutive start closed current.first
  bound : current.next ≤ 2 ^ 31
  chainId : ∀ seg ∈ closed, seg.preamble.chainId codec = current.preamble.chainId codec
  /-- A segment is closed by the first multiple of the stride in it. -/
  full : ∀ seg ∈ closed, (seg.next - 1) % cfg.stride = 0 ∧
    (seg.next - 1) / cfg.stride = (seg.first - 1) / cfg.stride + 1
  inside : (current.next - 1) / cfg.stride = (current.first - 1) / cfg.stride
  retained : closed.length ≤ cfg.maxRetainedFiles
  oldest : start = f ∨
    (closed.length = cfg.maxRetainedFiles ∧ f ≤ start ∧ (start - 1) % cfg.stride = 0)
  numbered : ∀ i b, bs[i]? = some b → codec.blockNum b = f + i
  history : ∃ dropped, bs = dropped ++ (closed.flatMap blocks ++ current.blocks) ∧
    f + dropped.length = start
  active : log.disk.active = current.files
  files : log.disk.retained.entries = closed.map diskEntry
  collection : log.catalog.collection.entries = closed.map catalogEntry
  mapped : ∀ i m, log.catalog.active = some (i, m) → ∃ seg, closed[i]? = some seg ∧ m = seg.mapped
  written : log.genesisWrittenToBlockLog = true
  preamble : log.preamble = current.preamble
  head : log.head = bs.getLast? ∨ (log.head = none ∧ current.entries = [])

namespace Represents

/-- The catalog after a read: it may have another file mapped. -/
def Remaps (closed : List (Segment β γ χ)) (c c' : Catalog γ χ) : Prop :=
  c'.collection = c.collection ∧
    ∀ i m, c'.active = some (i, m) → ∃ seg, closed[i]? = some seg ∧ m = seg.mapped

section

variable (h : Represents cfg codec f bs start closed current log)
include h

theorem length_bs : f + bs.length = current.next := by
  obtain ⟨dropped, rfl, hstart⟩ := h.history
  have hle := h.consecutive.le
  rw [length_append, length_append, h.consecutive.length_blocks, length_blocks, Segment.next]
  omega

theorem blockNum_head {b : β}
    (hhead : log.head = some b) : codec.blockNum b + 1 = current.next := by
  rcases h.head with hlast | ⟨hnone, -⟩
  · rw [hlast, getLast?_eq_getElem?] at hhead
    have hnum := h.numbered _ b hhead
    have hlt := (List.getElem?_eq_some_iff.mp hhead).1
    have hlength := h.length_bs
    omega
  · rw [hnone] at hhead
    cases hhead

theorem getElem?_bs (hn : start ≤ n) :
    bs[n - f]? = (closed.flatMap blocks ++ current.blocks)[n - start]? := by
  obtain ⟨dropped, rfl, hstart⟩ := h.history
  rw [getElem?_append_right (by omega)]
  congr 1
  omega

theorem getElem?_current
    (hn : current.first ≤ n) : bs[n - f]? = current.blocks[n - current.first]? := by
  have hle := h.consecutive.le
  rw [h.getElem?_bs (hle.trans hn), getElem?_append_right] <;>
    rw [h.consecutive.length_blocks]
  · congr 1
    omega
  · omega

theorem getElem?_closed
    {seg : Segment β γ χ} (hseg : seg ∈ closed) (hn : seg.first ≤ n) (hlt : n < seg.next) :
    bs[n - f]? = seg.blocks[n - seg.first]? := by
  obtain ⟨-, hstart, hnext⟩ := h.consecutive.mem hseg
  rw [h.getElem?_bs (hstart.trans hn), getElem?_append_left,
    h.consecutive.getElem?_blocks hseg hn hlt]
  rw [h.consecutive.length_blocks]
  omega

/-! ## Reading -/

theorem getBlockPos_eq :
    log.getBlockPos codec n = if current.first ≤ n ∧ n < current.next then
      current.files.nthPosition (n - current.first) else npos := by
  rw [getBlockPos]
  cases hhead : log.head with
  | none =>
    rcases h.head with hlast | ⟨-, hempty⟩
    · have hlength := h.length_bs
      have hnil : bs = [] := by simp_all
      have hle := h.consecutive.le
      obtain ⟨dropped, hbs, hstart⟩ := h.history
      rw [hnil, length_nil] at hlength
      rw [if_neg (by omega)]
    · rw [Segment.next, hempty, length_nil, if_neg (by omega)]
  | some b =>
    have hnum := h.blockNum_head hhead
    rw [h.active, h.preamble]
    show (if n ≤ codec.blockNum b ∧ n ≥ current.first then
      current.files.nthPosition (n - current.first) else npos) = _
    by_cases hin : current.first ≤ n ∧ n < current.next
    · rw [if_pos (by omega), if_pos hin]
    · rw [if_neg (by omega), if_neg hin]

theorem mapFiles_eq (hinverse : codec.Inverse) {seg : Segment β γ χ} (hseg : seg ∈ closed) :
    mapFiles codec log.disk.retained seg.catalogEntry.2 = .ok seg.mapped := by
  have hfind : log.disk.retained.find? seg.name = some seg.files := by
    rw [← mem_entries_iff, h.files]
    exact mem_map.mpr ⟨seg, hseg, rfl⟩
  have hmod : seg.files.index.length % 8 = 0 := by
    rw [Segment.Valid.length_index]
    omega
  show (orThrow _ (log.disk.retained.find? seg.name) >>= _) = _
  rw [hfind]
  refine bind_ok_iff.mpr ⟨_, rfl, bind_ok_iff.mpr ⟨_, (h.valid seg hseg).ofBytes hinverse, ?_⟩⟩
  exact bind_ok_iff.mpr ⟨(), check_ok_iff.mpr hmod, rfl⟩

theorem startingBefore_eq :
    log.catalog.startingBefore n = (closed.takeWhile fun s => s.first ≤ n).map catalogEntry := by
  rw [startingBefore, h.collection, takeWhile_map]
  rfl

theorem exists_of_mappedFor {m : MappedLog γ χ} (hm : log.catalog.mappedFor n = some m) :
    ∃ seg ∈ closed, seg.first ≤ n ∧ n < seg.next ∧ m = seg.mapped := by
  rw [mappedFor] at hm
  cases hactive : log.catalog.active with
  | none => simp [hactive] at hm
  | some im =>
    obtain ⟨i, mapped⟩ := im
    obtain ⟨seg, hseg, rfl⟩ := h.mapped i mapped hactive
    have hentry : log.catalog.collection.entries[i]? = some seg.catalogEntry := by
      rw [h.collection, getElem?_map, hseg]
      rfl
    simp only [hactive, hentry] at hm
    split_ifs at hm with hrange
    obtain rfl := Option.some.inj hm
    have hmem := mem_of_getElem? hseg
    have hpos := Consecutive.first_lt_next (h.consecutive.mem hmem).1
    obtain ⟨hfirst, hlast⟩ := hrange
    refine ⟨seg, hmem, hfirst, ?_, rfl⟩
    change n ≤ seg.next - 1 at hlast
    omega

theorem remaps_self : Remaps closed log.catalog log.catalog := ⟨rfl, h.mapped⟩

theorem getBlockPosition_cases (hinverse : codec.Inverse) (n : ℕ) :
    ∃ c', Remaps closed log.catalog c' ∧
      ((∃ seg ∈ closed, seg.first ≤ n ∧ n < seg.next ∧
        log.catalog.getBlockPosition codec log.disk.retained n =
          (some (seg.files.nthPosition (n - seg.first), seg.mapped), c')) ∨
      ((n < start ∨ current.first ≤ n) ∧
        log.catalog.getBlockPosition codec log.disk.retained n = (none, c'))) := by
  rw [getBlockPosition]
  cases hmapped : log.catalog.mappedFor n with
  | some m =>
    obtain ⟨seg, hseg, hfirst, hlast, rfl⟩ := h.exists_of_mappedFor hmapped
    exact ⟨_, h.remaps_self, .inl ⟨seg, hseg, hfirst, hlast, rfl⟩⟩
  | none =>
    rw [h.startingBefore_eq]
    rcases Nat.lt_or_ge n start with hbefore | hstart
    · rw [h.consecutive.takeWhile_eq_nil hbefore]
      exact ⟨_, h.remaps_self, .inr ⟨.inl hbefore, rfl⟩⟩
    rcases Nat.lt_or_ge n current.first with hlt | hge
    · obtain ⟨i, seg, hseg, hfirst, hlast, htake⟩ := h.consecutive.exists_segment hstart hlt
      have hi : i < closed.length := (List.getElem?_eq_some_iff.mp hseg).1
      have hentry : ((closed.take (i + 1)).map catalogEntry).getLast? = some seg.catalogEntry := by
        rw [getLast?_map, getLast?_take, if_neg (Nat.succ_ne_zero i), Nat.add_sub_cancel, hseg]
        rfl
      have hindex : ((closed.take (i + 1)).map catalogEntry).length - 1 = i := by
        rw [length_map, length_take]
        omega
      have hmem := mem_of_getElem? hseg
      have hle : n ≤ seg.catalogEntry.2.lastBlockNum := by
        show n ≤ seg.next - 1
        omega
      rw [htake, hentry, hindex]
      dsimp only
      rw [if_pos hle, h.mapFiles_eq hinverse hmem]
      refine ⟨{ log.catalog with active := some (i, seg.mapped) }, ⟨rfl, ?_⟩,
        .inl ⟨seg, hmem, hfirst, hlast, rfl⟩⟩
      rintro i m ⟨rfl, rfl⟩
      exact ⟨seg, hseg, rfl⟩
    · refine ⟨_, h.remaps_self, .inr ⟨.inr hge, ?_⟩⟩
      cases hlast : ((closed.takeWhile fun s => s.first ≤ n).map catalogEntry).getLast? with
      | none => rfl
      | some e =>
        obtain ⟨seg, hseg, rfl⟩ := mem_map.mp (mem_of_getLast? hlast)
        obtain ⟨hne, -, hnext⟩ := h.consecutive.mem ((takeWhile_sublist _).subset hseg)
        have hpos := Consecutive.first_lt_next hne
        dsimp only
        rw [if_neg]
        show ¬ n ≤ seg.next - 1
        omega

theorem remap {c' : Catalog γ χ} (hremaps : Remaps closed log.catalog c') :
    Represents cfg codec f bs start closed current { log with catalog := c' } :=
  { h with
    collection := by
      rw [hremaps.1, h.collection]
    mapped := hremaps.2 }

theorem streamFor_cases (hinverse : codec.Inverse) (n : ℕ) :
    Represents cfg codec f bs start closed current (log.streamFor codec n).2 ∧
    ((∃ seg : Segment β γ χ, seg.Valid codec ∧ seg.first ≤ n ∧ n < seg.next ∧ start ≤ n ∧
        bs[n - f]? = seg.blocks[n - seg.first]? ∧
        (log.streamFor codec n).1 =
          (seg.files.data.drop (seg.files.nthPosition (n - seg.first)), seg.preamble.version)) ∨
      ((n < start ∨ current.next ≤ n) ∧ log.getBlockPos codec n = npos ∧
        (log.streamFor codec n).1 = ([], 0))) := by
  have hpos := h.getBlockPos_eq (n := n)
  rw [streamFor]
  by_cases hin : current.first ≤ n ∧ n < current.next
  · rw [if_pos hin] at hpos
    obtain ⟨hfirst, hnext⟩ := hin
    have hblock : current.blocks[n - current.first]? = some _ :=
      getElem?_eq_getElem (by rw [length_blocks]; rw [Segment.next] at hnext; omega)
    obtain ⟨-, -, -, hle, -, -⟩ := h.valid_current.exists_drop hblock
    have hne : log.getBlockPos codec n ≠ npos := by
      have hsize := h.valid_current.size
      rw [hpos, npos]
      omega
    rw [if_pos hne, hpos, h.active, h.preamble]
    exact ⟨h, .inl ⟨current, h.valid_current, hfirst, hnext, h.consecutive.le.trans hfirst,
      h.getElem?_current hfirst, rfl⟩⟩
  · rw [if_neg hin] at hpos
    rw [if_neg (not_not_intro hpos), roStreamForBlock]
    obtain ⟨c', hremaps, hcases⟩ := h.getBlockPosition_cases hinverse n
    rcases hcases with ⟨seg, hseg, hfirst, hnext, hresult⟩ | ⟨hrange, hresult⟩
    · rw [hresult]
      exact ⟨h.remap hremaps, .inl ⟨seg, h.valid seg hseg, hfirst, hnext,
        (h.consecutive.mem hseg).2.1.trans hfirst, h.getElem?_closed hseg hfirst hnext, rfl⟩⟩
    · rw [hresult]
      exact ⟨h.remap hremaps, .inr ⟨by omega, hpos, rfl⟩⟩

end

/-- The block with a number, if it is still there. -/
def blockAt (f : ℕ) (bs : List β) (start n : ℕ) : Option β := if start ≤ n then bs[n - f]? else none

section

variable (h : Represents cfg codec f bs start closed current log) (hinverse : codec.Inverse)
include h hinverse

/-- The stream of a block has the block and its id; for other numbers there is no stream. -/
theorem stream_cases {stream : Bytes × ℕ} (hstream : (log.streamFor codec n).1 = stream) :
    (∃ b, blockAt f bs start n = some b ∧ stream.1 ≠ [] ∧
      codec.readBlockAs stream.2 stream.1 n = .ok b ∧
      codec.readBlockId stream.2 stream.1 n = .ok (codec.calculateId b)) ∨
    (blockAt f bs start n = none ∧ log.getBlockPos codec n = npos ∧ stream.1 = []) := by
  have hlength := h.length_bs
  obtain ⟨-, hcases⟩ := h.streamFor_cases hinverse n
  rw [hstream] at hcases
  rcases hcases with ⟨seg, hvalid, hfirst, hnext, hstart, hbs, rfl⟩ | ⟨hrange, hpos, rfl⟩
  · obtain ⟨b, hb⟩ : ∃ b, seg.blocks[n - seg.first]? = some b :=
      ⟨_, getElem?_eq_getElem (by rw [length_blocks]; rw [Segment.next] at hnext; omega)⟩
    obtain ⟨buffer, rest, -, -, hdrop, hrest⟩ := hvalid.exists_drop hb
    have hblock := hvalid.readBlockAs hinverse hb
    have hid := hvalid.readBlockId hinverse hb
    rw [Nat.add_sub_cancel' hfirst] at hblock hid
    refine .inl ⟨b, by rw [blockAt, if_pos hstart, hbs, hb], ?_, hblock, hid⟩
    rw [hdrop]
    simp [hrest]
  · refine .inr ⟨?_, hpos, rfl⟩
    rw [blockAt]
    split_ifs with hstart
    · exact getElem?_eq_none (by omega)
    · rfl

theorem readBlockByNum_eq (n : ℕ) : log.readBlockByNum codec n = .ok (blockAt f bs start n) := by
  rw [readBlockByNum]
  rcases h.stream_cases hinverse rfl with ⟨b, hb, hne, hread, -⟩ | ⟨hb, hpos, hempty⟩
  · rw [if_neg fun hc => hne hc.2, hread, hb]
    rfl
  · simp_all

theorem readBlockIdByNum_eq (n : ℕ) :
    log.readBlockIdByNum codec n =
      .ok (((blockAt f bs start n).map codec.calculateId).getD ⟨0, 0, 0, 0⟩) := by
  rw [readBlockIdByNum]
  rcases h.stream_cases hinverse rfl with ⟨b, hb, hne, -, hread⟩ | ⟨hb, hpos, hempty⟩
  · rw [if_neg fun hc => hne hc.2, hread, hb]
    rfl
  · simp_all

end

end Represents

/-! ## Opening -/

section opening

theorem printed_eq {n : ℕ} (hn : n < 2 ^ 31) : printed n = n := by
  unfold printed
  rw [Int.bmod_def]
  omega

theorem name_lt_name {a b : Segment β γ χ} (hlt : a.first < b.first) (hb : b.first < 2 ^ 31) :
    a.name < b.name := by
  rw [name, name, splitName, splitName, Prod.Lex.toLex_lt_toLex]
  left
  dsimp only
  rw [printed_eq (hlt.trans hb), printed_eq hb]
  exact_mod_cast hlt

theorem matchesPattern_name (hne : seg.entries ≠ []) (hbound : seg.next ≤ 2 ^ 31) :
    matchesPattern seg.name = true := by
  have hpos := Consecutive.first_lt_next hne
  have hfirst : printed seg.first = seg.first := printed_eq (by omega)
  have hlast : printed (seg.next - 1) = (seg.next - 1 : ℕ) := printed_eq (by omega)
  rw [matchesPattern, name, splitName, ofLex_toLex, decide_eq_true_eq]
  rw [hfirst, hlast]
  exact ⟨Int.natCast_nonneg _, Int.natCast_nonneg _⟩

variable [DecidableEq χ] {retained : FlatMap FileName IndexedFile}

theorem verify_eq {verifier : χ} {data : LogData γ χ}
    (hverifier : verifier = codec.emptyChainId ∨ verifier = data.chainId codec) :
    verify codec verifier data = .ok (data.chainId codec) := by
  rw [verify]
  split_ifs with hempty
  · rfl
  · obtain rfl := hverifier.resolve_left hempty
    exact bind_ok_iff.mpr ⟨(), check_ok_iff.mpr rfl, rfl⟩

theorem openFile_eq (hinverse : codec.Inverse) (hvalid : seg.Valid codec)
    (hne : seg.entries ≠ []) (hbound : seg.next ≤ 2 ^ 31) {c : Catalog γ χ}
    (hfile : retained.find? seg.name = some seg.files)
    (hverifier : c.verifier = codec.emptyChainId ∨ c.verifier = seg.preamble.chainId codec)
    (hlater : ∀ e ∈ c.collection.entries, e.1 < seg.first) :
    ∃ c', openFile codec (c, retained) seg.diskEntry = .ok (c', retained) ∧
      c'.collection.entries = c.collection.entries ++ [seg.catalogEntry] ∧
      c'.active = c.active ∧ c'.verifier = seg.preamble.chainId codec := by
  have hfind : c.collection.find? seg.first = none := find?_eq_none_of_lt hlater
  have hretained : retained.insert seg.name seg.files = retained := by
    refine ext_find? fun k v => ?_
    rw [find?_insert]
    split_ifs with hk
    · rw [hk, hfile]
    · rfl
  refine ⟨{ c with
      verifier := seg.preamble.chainId codec
      collection := c.collection.insert seg.first seg.catalogEntry.2 }, ?_,
    entries_insert_of_lt hlater, rfl, rfl⟩
  show (if matchesPattern seg.name then _ else _) = _
  rw [if_pos (matchesPattern_name hne hbound)]
  refine bind_ok_iff.mpr ⟨_, hvalid.ofBytes hinverse, ?_⟩
  refine bind_ok_iff.mpr ⟨_, verify_eq hverifier, ?_⟩
  refine bind_ok_iff.mpr ⟨_, hvalid.matchingIndex hinverse hne, ?_⟩
  refine bind_ok_iff.mpr ⟨_, hvalid.lastBlockNum hinverse hne, ?_⟩
  rw [show seg.logData.firstBlockNum = seg.first from rfl, hfind]
  show Except.ok (_, retained.insert seg.name seg.files) = _
  rw [hretained]
  rfl

theorem foldlM_openFile (hinverse : codec.Inverse) {id : χ} {a b : ℕ} {segs : List (Segment β γ χ)}
    (hconsecutive : Consecutive a segs b) (hbound : b ≤ 2 ^ 31)
    (hsegs : ∀ seg ∈ segs, seg.Valid codec ∧ retained.find? seg.name = some seg.files ∧
      seg.preamble.chainId codec = id) :
    ∀ c : Catalog γ χ, (c.verifier = codec.emptyChainId ∨ c.verifier = id) →
      (∀ e ∈ c.collection.entries, e.1 < a) →
      ∃ c', (segs.map diskEntry).foldlM (openFile codec) (c, retained) =
          .ok (c', retained) ∧
        c'.collection.entries = c.collection.entries ++ segs.map catalogEntry ∧
        c'.active = c.active ∧ (c'.verifier = codec.emptyChainId ∨ c'.verifier = id) := by
  induction hconsecutive with
  | nil n => simp_all
  | @cons seg segs m hne hrest ih =>
    intro c hverifier hlater
    obtain ⟨hvalid, hfile, hid⟩ := hsegs seg (by simp)
    obtain ⟨c₁, hopen, hentries₁, hactive₁, hverifier₁⟩ := openFile_eq hinverse hvalid hne
      (hrest.le.trans hbound) hfile (by rwa [hid]) hlater
    have hlater₁ : ∀ e ∈ c₁.collection.entries, e.1 < seg.next := by
      intro e he
      rw [hentries₁] at he
      rcases mem_append.mp he with he | he
      · exact (hlater e he).trans (Consecutive.first_lt_next hne)
      · rw [mem_singleton.mp he]
        exact Consecutive.first_lt_next hne
    obtain ⟨c', hfold, hentries', hactive', hverifier'⟩ :=
      ih hbound (fun s hs => hsegs s (by simp [hs])) c₁ (.inr (hverifier₁.trans hid)) hlater₁
    refine ⟨c', ?_, ?_, hactive'.trans hactive₁, hverifier'⟩
    · rw [map_cons, foldlM_cons, hopen]
      exact hfold
    · grind

end opening

namespace Represents

variable {b : β}

theorem openCatalog_eq [DecidableEq χ] (h : Represents cfg codec f bs start closed current log)
    (hinverse : codec.Inverse) :
    ∃ c, openCatalog codec log.disk.retained = .ok (c, log.disk.retained) ∧
      c.collection.entries = closed.map catalogEntry ∧ c.active = none ∧
      (c.verifier = codec.emptyChainId ∨ c.verifier = current.preamble.chainId codec) := by
  have hbound : current.first ≤ 2 ^ 31 := le_trans (Nat.le_add_right _ _) h.bound
  have hsegs : ∀ seg ∈ closed, seg.Valid codec ∧ log.disk.retained.find? seg.name = some seg.files ∧
      seg.preamble.chainId codec = current.preamble.chainId codec := by
    intro seg hseg
    refine ⟨h.valid seg hseg, ?_, h.chainId seg hseg⟩
    rw [← mem_entries_iff, h.files]
    exact mem_map.mpr ⟨seg, hseg, rfl⟩
  obtain ⟨c, hfold, hentries, hactive, hverifier⟩ := foldlM_openFile hinverse h.consecutive hbound
    hsegs { verifier := codec.emptyChainId } (.inl rfl) (by simp [empty])
  refine ⟨c, ?_, by rw [hentries]; rfl, hactive, hverifier⟩
  rw [openCatalog, h.files]
  exact hfold

/-- The index of the active file agrees with the log; after a preamble alone both are empty. -/
theorem checkedFiles_eq (hvalid : seg.Valid codec) (hinverse : codec.Inverse) :
    checkedFiles cfg codec seg.files seg.logData = .ok seg.files := by
  rw [checkedFiles]
  by_cases hne : seg.entries = []
  · have hindex : seg.files.index = [] := by
      rw [← length_eq_zero_iff, Segment.Valid.length_index, hne]
      rfl
    rw [if_neg (not_not_intro hindex), reconstruct, LogData.constructIndex,
      hvalid.numBlocks hinverse, hne]
    rfl
  · have hpos : 0 < seg.entries.length := length_pos_of_ne_nil hne
    have hindex : seg.files.index ≠ [] := by
      rw [← length_pos_iff_ne_nil, Segment.Valid.length_index]
      omega
    have hlast : seg.logData.lastBlockPosition =
        ofLe (seg.files.index.drop (seg.files.index.length - 8)) := (hvalid.last_index hne).symm
    rw [if_pos hindex, if_pos (by rw [Segment.Valid.length_index]; omega),
      if_neg (not_not_intro hlast)]
    rfl

/-- The log that is opened again stands for the same segments; its head is that of the active
file. -/
theorem reopen [DecidableEq χ] [Inhabited γ]
    (h : Represents cfg codec f bs start closed current log) (hinverse : codec.Inverse)
    (htail : current.entries ≠ [] ∨ current.preamble.version ≠ initialVersion) :
    ∃ log', openLog cfg codec log.disk = .ok log' ∧ log'.head = current.blocks.getLast? ∧
      Represents cfg codec f bs start closed current log' := by
  obtain ⟨c, hcatalog, hentries, hactive, hverifier⟩ := h.openCatalog_eq hinverse
  have hvalid := h.valid_current
  refine ⟨⟨⟨current.files, log.disk.retained⟩, current.blocks.getLast?, c, true,
    current.preamble, current.preamble.version⟩, ?_, rfl, { h with
      active := rfl
      collection := hentries
      mapped := fun i m hm => by rw [hactive] at hm; cases hm
      written := rfl
      preamble := rfl
      head := ?_ }⟩
  · rw [openLog, hcatalog]
    refine bind_ok_iff.mpr ⟨_, rfl, ?_⟩
    dsimp only
    rw [h.active, if_pos hvalid.data_ne_nil]
    refine bind_ok_iff.mpr ⟨_, hvalid.ofBytes hinverse, ?_⟩
    refine bind_ok_iff.mpr ⟨(), check_ok_iff.mpr hverifier, ?_⟩
    refine bind_ok_iff.mpr ⟨_, checkedFiles_eq hvalid hinverse, ?_⟩
    exact bind_ok_iff.mpr ⟨_, hvalid.readHead hinverse htail, rfl⟩
  · by_cases hne : current.entries = []
    · right
      exact ⟨by simp [blocks, hne], hne⟩
    left
    obtain ⟨dropped, hbs, -⟩ := h.history
    have hblocks : current.blocks ≠ [] := by simpa [blocks] using hne
    rw [hbs, ← append_assoc, getLast?_append_of_ne_nil _ hblocks]

/-! ## Splitting -/

/-- Renaming the active file enters it at the end of the catalog and takes the oldest files out. -/
theorem add_spec {c : Catalog γ χ} {retained : FlatMap FileName IndexedFile} {k : ℕ}
    {r : Catalog γ χ × Disk} {kept : List (Segment β γ χ)} (hk : 0 < k)
    (hcollection : c.collection.entries = closed.map catalogEntry)
    (hfiles : retained.entries = closed.map diskEntry)
    (hmapped : ∀ i m, c.active = some (i, m) → ∃ seg, closed[i]? = some seg ∧ m = seg.mapped)
    (hfirst : ∀ s ∈ closed, s.first < seg.first) (hbound : seg.first < 2 ^ 31)
    (hadd : c.add k seg.first (seg.next - 1) ⟨seg.files, retained⟩ = r)
    (hkept : (closed ++ [seg]).drop (closed.length + 1 - k) = kept) :
    r.1.collection.entries = kept.map catalogEntry ∧ r.2.retained.entries = kept.map diskEntry ∧
      ∀ i m, r.1.active = some (i, m) → ∃ s, kept[i]? = some s ∧ m = s.mapped := by
  subst hadd hkept
  have hitems : c.itemsToErase k = closed.length + 1 - k := by
    rw [itemsToErase, hcollection, length_map]
    split_ifs <;> omega
  have hle : closed.length + 1 - k ≤ closed.length := by omega
  rw [add, hitems]
  rw [if_pos hk]
  refine ⟨?_, ?_, ?_⟩
  · have hdrop : (c.collection.drop (closed.length + 1 - k)).entries =
        (closed.drop (closed.length + 1 - k)).map catalogEntry := by
      show c.collection.entries.drop _ = _
      rw [hcollection, map_drop]
    have hlater : ∀ e ∈ (c.collection.drop (closed.length + 1 - k)).entries, e.1 < seg.first := by
      intro e he
      rw [hdrop] at he
      obtain ⟨s, hs, rfl⟩ := mem_map.mp he
      exact hfirst s (mem_of_mem_drop hs)
    rw [emplace, contains_eq_false_of_lt hlater, if_neg (by decide), entries_insert_of_lt hlater, hdrop,
      drop_append_of_le_length hle, map_append]
    rfl
  · have hlater : ∀ e ∈ retained.entries, e.1 < seg.name := by
      intro e he
      rw [hfiles] at he
      obtain ⟨s, hs, rfl⟩ := mem_map.mp he
      exact name_lt_name (hfirst s hs) hbound
    have hentries : (retained.insert seg.name seg.files).entries =
        (closed ++ [seg]).map diskEntry := by
      rw [entries_insert_of_lt hlater, hfiles, map_append]
      rfl
    -- the names in the catalog are those of the files
    have herased : (c.collection.entries.take (closed.length + 1 - k)).map (fun e => e.2.filenameBase) =
        ((retained.insert seg.name seg.files).entries.take (closed.length + 1 - k)).map Prod.fst := by
      rw [hentries, hcollection, ← map_take, ← map_take, map_map, map_map,
        take_append_of_le_length hle]
      rfl
    rw [show splitName seg.first (seg.next - 1) = seg.name from rfl,
      contains_eq_false_of_lt hlater, if_neg (by decide), herased, entries_foldl_erase_take, hentries, map_drop]
  · intro i m hm
    cases hactive : c.active with
    | none => simp [hactive] at hm
    | some im =>
      obtain ⟨j, m'⟩ := im
      obtain ⟨s, hs, rfl⟩ := hmapped j m' hactive
      rw [hactive] at hm
      dsimp only at hm
      split_ifs at hm with hj
      obtain ⟨rfl, rfl⟩ := Prod.mk.inj (Option.some.inj hm)
      refine ⟨s, ?_, rfl⟩
      have hlt := (List.getElem?_eq_some_iff.mp hs).1
      rw [getElem?_drop, Nat.add_sub_cancel' (by omega), getElem?_append_left hlt, hs]

/-! ## Appending -/

theorem next_push (b : β) (buffer : Bytes) : (seg.push b buffer).next = seg.next + 1 := by
  rw [Segment.next, Segment.next, push, length_append, length_singleton]
  rfl

theorem ne_initialVersion {version : ℕ} (hversion : genesisStateOrChainIdVersion ≤ version) :
    version ≠ initialVersion :=
  (lt_of_lt_of_le (by decide) hversion).ne'

theorem readable_chainId {id : χ} {version first : ℕ}
    (hversion : genesisStateOrChainIdVersion ≤ version) (hmax : version ≤ maxSupportedVersion)
    (hfirst : 1 < first) (hlt : first < 2 ^ 32) :
    (⟨version, first, .chainId id⟩ : Preamble γ χ).Readable where
  supported := ⟨le_trans (by decide) hversion, hmax⟩
  first_pos := lt_trans Nat.one_pos hfirst
  first_lt := hlt
  initial := fun h => absurd h (ne_initialVersion hversion)
  context := by
    refine ⟨decide_eq_false ?_, decide_eq_true ⟨hversion, hfirst⟩⟩
    rintro (hold | hone)
    · grind
    · exact hfirst.ne' hone

section

variable (h : Represents cfg codec f bs start closed current log) {buffer : Bytes}
include h

theorem next_pos : 0 < current.next :=
  lt_of_lt_of_le h.valid_current.readable.first_pos (Nat.le_add_right _ _)

theorem blockNum_eq_next
    (hnum : codec.blockNum b < 2 ^ 31) (hposition : log.atRightPosition codec b) :
    codec.blockNum b = current.next := by
  have hbound := h.bound
  rw [atRightPosition, h.active, h.preamble, Segment.Valid.length_index] at hposition
  change 8 * current.entries.length =
    8 * ((codec.blockNum b + 2 ^ 32 - current.first) % 2 ^ 32) at hposition
  rw [Segment.next] at hbound ⊢
  omega

theorem numbered_concat
    (hnum : codec.blockNum b = current.next) (i : ℕ) (c : β) (hc : (bs ++ [b])[i]? = some c) :
    codec.blockNum c = f + i := by
  have hlength := h.length_bs
  rcases Nat.lt_or_ge i bs.length with hlt | hge
  · rw [getElem?_append_left hlt] at hc
    exact h.numbered i c hc
  · grind

theorem history_concat (b : β) (buffer : Bytes) :
    ∃ dropped, bs ++ [b] =
      dropped ++ (closed.flatMap blocks ++ (current.push b buffer).blocks) ∧
      f + dropped.length = start := by
  obtain ⟨dropped, hbs, hstart⟩ := h.history
  exact ⟨dropped, by rw [hbs, blocks_push]; simp only [append_assoc], hstart⟩

theorem push (hvalid : (current.push b buffer).Valid codec) (hnum : codec.blockNum b = current.next)
    (hbound : codec.blockNum b < 2 ^ 31) (hinside : codec.blockNum b % cfg.stride ≠ 0) :
    Represents cfg codec f (bs ++ [b]) start closed (current.push b buffer) { log with
      disk := { log.disk with active := current.files.append buffer }
      head := some b } :=
  { h with
    valid_current := hvalid
    bound := by
      rw [next_push]
      omega
    inside := by
      have hpos := h.next_pos
      have hdiv : current.next / cfg.stride = (current.next - 1) / cfg.stride := by
        obtain ⟨m, hm⟩ : ∃ m, current.next = m + 1 := ⟨current.next - 1, by omega⟩
        rw [hnum, hm] at hinside
        rw [hm, Nat.succ_div, if_neg fun hdvd => hinside (Nat.mod_eq_zero_of_dvd hdvd)]
        rfl
      rw [next_push, Nat.add_sub_cancel, hdiv]
      exact h.inside
    numbered := h.numbered_concat hnum
    history := h.history_concat b buffer
    active := (files_push b buffer).symm
    head := .inl (by simp) }

theorem full_push
    (hnum : codec.blockNum b = current.next) (hsplit : codec.blockNum b % cfg.stride = 0) :
    ((current.push b buffer).next - 1) % cfg.stride = 0 ∧
      ((current.push b buffer).next - 1) / cfg.stride =
        ((current.push b buffer).first - 1) / cfg.stride + 1 := by
  have hpos := h.next_pos
  rw [next_push, Nat.add_sub_cancel, ← hnum]
  refine ⟨hsplit, ?_⟩
  obtain ⟨m, hm⟩ : ∃ m, current.next = m + 1 := ⟨current.next - 1, by omega⟩
  have hinside := h.inside
  rw [hm, Nat.add_sub_cancel] at hinside
  rw [hnum, hm] at hsplit ⊢
  rw [Nat.succ_div, if_pos (Nat.dvd_of_mod_eq_zero hsplit), hinside]
  rfl

/-- What is left of the closed segments, with the one just closed: all of them, or all but the
oldest. -/
theorem exists_start (b : β) (buffer : Bytes) (hk : 0 < cfg.maxRetainedFiles) :
    ∃ start' kept,
      (closed ++ [current.push b buffer]).drop (closed.length + 1 - cfg.maxRetainedFiles) = kept ∧
      Consecutive start' kept (current.push b buffer).next ∧
      (start' = f ∨ (kept.length = cfg.maxRetainedFiles ∧ f ≤ start' ∧
        (start' - 1) % cfg.stride = 0)) ∧
      ∃ dropped, bs ++ [b] = dropped ++ kept.flatMap blocks ∧ f + dropped.length = start' := by
  have hne : (current.push b buffer).entries ≠ [] := by simp [Segment.push]
  have hall : Consecutive start (closed ++ [current.push b buffer]) (current.push b buffer).next :=
    h.consecutive.concat rfl hne
  have hretained := h.retained
  obtain ⟨dropped, hbs, hstart⟩ := h.history_concat b buffer
  rcases Nat.lt_or_ge closed.length cfg.maxRetainedFiles with hlt | hge
  · rw [show closed.length + 1 - cfg.maxRetainedFiles = 0 by omega, drop_zero]
    refine ⟨start, _, rfl, hall, .inl ?_, dropped, by rw [hbs]; simp, hstart⟩
    rcases h.oldest with horiginal | ⟨hfull, -⟩
    · exact horiginal
    · omega
  rw [show closed.length + 1 - cfg.maxRetainedFiles = 1 by omega]
  cases hclosed : closed with
  | nil =>
    rw [hclosed, length_nil] at hge
    omega
  | cons oldest rest =>
    rw [hclosed] at hall hbs hge hretained
    rw [cons_append] at hall ⊢
    have hfull := (h.full oldest (by simp [hclosed])).1
    cases hall with
    | cons hne' hrest =>
      refine ⟨oldest.next, _, rfl, hrest, .inr ⟨?_, ?_, hfull⟩, dropped ++ oldest.blocks, ?_, ?_⟩
      · grind
      · have := Consecutive.first_lt_next hne'
        omega
      · rw [hbs]
        simp
      · rw [length_append, length_blocks, Segment.next]
        omega

theorem split {buffer : Bytes}
    (hk : 0 < cfg.maxRetainedFiles) (hvalid : (current.push b buffer).Valid codec)
    (hnum : codec.blockNum b = current.next) (hbound : codec.blockNum b < 2 ^ 31)
    (hsplit : codec.blockNum b % cfg.stride = 0) (hok : splitLog cfg codec { log with
      disk := { log.disk with active := current.files.append buffer }
      head := some b } b = .ok log') :
    ∃ start' closed' current', Represents cfg codec f (bs ++ [b]) start' closed' current' log' ∧
      current'.preamble.version = maxSupportedVersion := by
  rw [splitLog] at hok
  simp only [bind_ok_iff, pure_ok_iff] at hok
  obtain ⟨files, hfiles, rfl⟩ := hok
  obtain ⟨bytes, hbytes, hsize, rfl⟩ := beginFiles_eq_ok_iff.mp hfiles
  have hpos := h.next_pos
  have hmod : (codec.blockNum b + 1) % 2 ^ 32 = codec.blockNum b + 1 := Nat.mod_eq_of_lt (by omega)
  set seg := current.push b buffer with hseg
  have hlast : codec.blockNum b = seg.next - 1 := by
    rw [hseg, next_push]
    omega
  have hfirst : ∀ s ∈ closed, s.first < seg.first := by
    intro s hs
    obtain ⟨hne, -, hnext⟩ := h.consecutive.mem hs
    exact lt_of_lt_of_le (Consecutive.first_lt_next hne) hnext
  have hfirstBound : seg.first < 2 ^ 31 := by
    have hle : current.first ≤ current.next := Nat.le_add_right _ _
    show current.first < 2 ^ 31
    omega
  have hpreamble : log.preamble.firstBlockNum = seg.first := by rw [h.preamble]; rfl
  have hid : log.preamble.chainId codec = current.preamble.chainId codec := by rw [h.preamble]
  obtain ⟨start', kept, hkept, hconsecutive, holdest, dropped, hbs, hdropped⟩ :=
    h.exists_start b buffer hk
  have hall {P : Segment β γ χ → Prop} (hclosed : ∀ s ∈ closed, P s) (hP : P seg) :
      ∀ s ∈ kept, P s := by
    intro s hs
    rcases mem_append.mp (mem_of_mem_drop (hkept ▸ hs)) with hmem | hmem
    · exact hclosed s hmem
    · rwa [mem_singleton.mp hmem]
  have hrename : log.catalog.add cfg.maxRetainedFiles seg.first (seg.next - 1)
      ⟨seg.files, log.disk.retained⟩ =
      log.catalog.add cfg.maxRetainedFiles log.preamble.firstBlockNum (codec.blockNum b)
        ⟨current.files.append buffer, log.disk.retained⟩ := by
    rw [hpreamble, hlast, hseg, files_push]
  obtain ⟨hcollection, hretainedFiles, hmapped⟩ :=
    add_spec hk h.collection h.files h.mapped hfirst hfirstBound hrename hkept
  have hlength : kept.length ≤ cfg.maxRetainedFiles := by
    rw [← hkept, length_drop, length_append, length_singleton]
    omega
  have hnext : seg.next = codec.blockNum b + 1 := by
    rw [hseg, next_push, hnum]
  refine ⟨start', kept, ⟨⟨maxSupportedVersion, (codec.blockNum b + 1) % 2 ^ 32, .chainId (log.preamble.chainId codec)⟩,
      bytes, []⟩, ⟨hall h.valid hvalid, ⟨?_, hbytes, ?_, ?_, hsize⟩, ?_, ?_, ?_,
      hall h.full (h.full_push hnum hsplit), rfl, hlength, holdest, h.numbered_concat hnum, ?_, rfl, hretainedFiles, hcollection, hmapped, h.written, rfl, ?_⟩, rfl⟩
  · rw [hmod]
    exact readable_chainId (by decide) le_rfl (by omega) (by omega)
  · simp
  · simp [blocks]
  · show Consecutive start' _ ((codec.blockNum b + 1) % 2 ^ 32)
    rw [hmod, ← hnext]
    exact hconsecutive
  · show (codec.blockNum b + 1) % 2 ^ 32 + 0 ≤ 2 ^ 31
    omega
  · exact hall (fun s hs => (h.chainId s hs).trans hid.symm) hid.symm
  · exact ⟨dropped, hbs.trans (congrArg (dropped ++ ·) (append_nil _).symm), hdropped⟩
  · exact .inl (by simp)

theorem append (hk : 0 < cfg.maxRetainedFiles) (hbound : codec.blockNum b < 2 ^ 31)
    (hok : log.append cfg codec b = .ok log') :
    ∃ start' closed' current', Represents cfg codec f (bs ++ [b]) start' closed' current' log' ∧
      (current'.entries ≠ [] ∨ current'.preamble.version ≠ initialVersion) := by
  rw [Log.append] at hok
  simp only [bind_ok_iff, check_ok_iff, writeBlock, writeLogEntry, pure_ok_iff,
    Codec.createBlockBuffer, orThrow_eq_ok_iff] at hok
  obtain ⟨-, -, -, hposition, buffer, hpack, _, ⟨-, hsize, rfl⟩, hok⟩ := hok
  have hnum := h.blockNum_eq_next hbound hposition
  rw [h.preamble] at hpack
  rw [h.active] at hsize hok
  have hvalid := h.valid_current.push hpack hnum hsize
  split_ifs at hok with hsplit
  · obtain ⟨start', closed', current', hrep, hversion⟩ := h.split hk hvalid hnum hbound hsplit hok
    exact ⟨start', closed', current', hrep, .inr (by rw [hversion]; decide)⟩
  · obtain rfl := pure_ok_iff.mp hok
    exact ⟨start, closed, current.push b buffer, h.push hvalid hnum hbound hsplit,
      .inl (by simp [Segment.push])⟩

/-! ## The retained range -/

theorem start_pos : 0 < start := by
  have hconsecutive := h.consecutive
  have hvalid := h.valid
  cases hclosed : closed with
  | nil =>
    rw [hclosed] at hconsecutive
    cases hconsecutive
    exact h.valid_current.readable.first_pos
  | cons seg rest =>
    rw [hclosed] at hconsecutive hvalid
    cases hconsecutive
    exact (hvalid seg (by simp)).readable.first_pos

theorem start_eq :
    start = max f (((f + bs.length - 1) / cfg.stride - cfg.maxRetainedFiles) * cfg.stride + 1) := by
  have hpos := h.start_pos
  have hretained := h.retained
  have hcount : (f + bs.length - 1) / cfg.stride = (start - 1) / cfg.stride + closed.length := by
    rw [h.length_bs, h.inside]
    exact h.consecutive.div_eq fun seg hseg => (h.full seg hseg).2
  rw [hcount]
  rcases h.oldest with rfl | ⟨hfull, hle, hmod⟩
  · have hless : (start - 1) / cfg.stride + closed.length - cfg.maxRetainedFiles ≤
        (start - 1) / cfg.stride :=
      Nat.sub_le_iff_le_add.mpr (Nat.add_le_add_left hretained _)
    have hle := (Nat.mul_le_mul_right cfg.stride hless).trans
      (Nat.div_mul_le_self (start - 1) cfg.stride)
    exact (max_eq_left (Nat.add_le_of_le_sub hpos hle)).symm
  · rw [hfull, Nat.add_sub_cancel, Nat.div_mul_cancel (Nat.dvd_of_mod_eq_zero hmod)]
    omega

/-- An active file without blocks follows a block that has closed a file, or no block at all. -/
theorem mod_eq_of_empty (hk : 0 < cfg.maxRetainedFiles) (hempty : current.entries = [])
    (hlast : bs.getLast? = some b) : codec.blockNum b % cfg.stride = 0 := by
  have hlength := h.length_bs
  have hclosed : closed ≠ [] := by
    rintro rfl
    obtain ⟨dropped, hbs, hstart⟩ := h.history
    rcases h.oldest with horiginal | ⟨hfull, -⟩
    · obtain rfl : dropped = [] := List.length_eq_zero_iff.mp (by omega)
      rw [hbs] at hlast
      simp [blocks, hempty] at hlast
    · exact hk.ne hfull
  rw [getLast?_eq_getElem?] at hlast
  have hnum := h.numbered _ b hlast
  have hlt := (List.getElem?_eq_some_iff.mp hlast).1
  have hfirst : current.next = current.first := by
    rw [Segment.next, hempty]
    rfl
  have hmod := h.consecutive.mod_eq hclosed fun seg hseg => (h.full seg hseg).1
  rw [hnum, show f + (bs.length - 1) = current.first - 1 by omega]
  exact hmod

end

end Represents

/-! ## Runs -/

namespace LogStart

def firstBlockNum : LogStart β γ χ → ℕ
  | .genesis _ _ => 1
  | .chainId _ firstBlockNum => firstBlockNum

def blocks : LogStart β γ χ → List β
  | .genesis _ firstBlock => [firstBlock]
  | .chainId _ _ => []

/-- The log can be begun in this version: before version 3 there is no chain id in the preamble. -/
def Supported (version : ℕ) : LogStart β γ χ → Prop
  | .genesis _ _ => minSupportedVersion ≤ version ∧ version ≤ maxSupportedVersion
  | .chainId _ firstBlockNum => genesisStateOrChainIdVersion ≤ version ∧
      version ≤ maxSupportedVersion ∧ firstBlockNum ≤ 2 ^ 31

end LogStart

def appended (start : LogStart β γ χ) (ts : List (Transition (Log β γ χ) (LogInput β))) : List β :=
  start.blocks ++ ts.filterMap fun t => t.label.block?

theorem appended_concat (start : LogStart β γ χ) (ts : List (Transition (Log β γ χ) (LogInput β)))
    (t : Transition (Log β γ χ) (LogInput β)) :
    appended start (ts ++ [t]) = appended start ts ++ t.label.block?.toList := by
  cases h : t.label.block? with
  | none => simp [h, appended]
  | some b => simp [h, appended]

/-- The oldest block that is still there after `count` blocks from `first` on. -/
def retainedFrom (cfg : Config) (first count : ℕ) : ℕ :=
  max first (((first + count - 1) / cfg.stride - cfg.maxRetainedFiles) * cfg.stride + 1)

/-- Some segments stand for the log, and the active file has an end that can be read. -/
def IsRepresented (cfg : Config) (codec : Codec β γ χ) (f : ℕ) (bs : List β) (log : Log β γ χ) : Prop :=
  ∃ start closed current, Represents cfg codec f bs start closed current log ∧
    (current.entries ≠ [] ∨ current.preamble.version ≠ initialVersion)

theorem represents_begin {log : Log β γ χ} {p : Preamble γ χ} {bytes : Bytes} (hp : p.Readable)
    (hbound : p.firstBlockNum ≤ 2 ^ 31) (hwrite : p.writeTo codec = .ok bytes)
    (hsize : bytes.length < 2 ^ 63) (hactive : log.disk.active = ⟨bytes, []⟩)
    (hretained : log.disk.retained = .empty) (hcollection : log.catalog.collection = .empty)
    (hmapped : log.catalog.active = none) (hwritten : log.genesisWrittenToBlockLog = true)
    (hpreamble : log.preamble = p) (hhead : log.head = none) :
    Represents cfg codec p.firstBlockNum [] p.firstBlockNum [] ⟨p, bytes, []⟩ log where
  valid := by simp
  valid_current := ⟨hp, hwrite, by simp, by simp [blocks], hsize⟩
  consecutive := .nil _
  bound := hbound
  chainId := by simp
  full := by simp
  inside := rfl
  retained := Nat.zero_le _
  oldest := .inl rfl
  numbered := by simp
  history := ⟨[], rfl, rfl⟩
  active := hactive
  files := by rw [hretained]; rfl
  collection := by rw [hcollection]; rfl
  mapped := by simp [hmapped]
  written := hwritten
  preamble := hpreamble
  head := .inl hhead

variable [DecidableEq χ] [Inhabited γ] {log₀ : Log β γ χ} {version : ℕ} {start : LogStart β γ χ} {ts : List (Transition (Log β γ χ) (LogInput β))}

theorem isRepresented_start (hk : 0 < cfg.maxRetainedFiles) (hsupported : start.Supported version)
    (hstart : startLog cfg codec version start = .ok log)
    (hnums : ∀ b ∈ start.blocks, codec.blockNum b < 2 ^ 31) :
    IsRepresented cfg codec start.firstBlockNum start.blocks log := by
  rw [startLog] at hstart
  simp only [bind_ok_iff] at hstart
  obtain ⟨empty, hempty, hstart⟩ := hstart
  have hopened : openLog cfg codec {} = .ok
      ⟨{}, none, { verifier := codec.emptyChainId }, false, ⟨0, 0, .genesisState default⟩, 0⟩ := rfl
  obtain rfl := Except.ok.inj (hopened.symm.trans hempty)
  cases start with
  | genesis state firstBlock =>
    simp only [resetGenesis, resetTo, bind_ok_iff, pure_ok_iff] at hstart
    obtain ⟨log₁, ⟨files, hfiles, hlog₁⟩, happend⟩ := hstart
    obtain ⟨bytes, hwrite, hsize, rfl⟩ := beginFiles_eq_ok_iff.mp hfiles
    have hreadable : (⟨version, 1, .genesisState state⟩ : Preamble γ χ).Readable :=
      ⟨hsupported, Nat.one_pos, by show 1 < 2 ^ 32; decide, fun _ => rfl,
        decide_eq_true (.inr rfl)⟩
    have hbegin : Represents cfg codec 1 [] 1 [] ⟨⟨version, 1, .genesisState state⟩, bytes, []⟩ log₁ := by
      rw [← hlog₁]
      exact represents_begin hreadable (by show 1 ≤ 2 ^ 31; decide) hwrite hsize rfl rfl rfl rfl rfl
        rfl rfl
    exact hbegin.append hk (hnums firstBlock (by simp [LogStart.blocks])) happend
  | chainId id firstBlockNum =>
    simp only [resetChainId, resetTo, bind_ok_iff, pure_ok_iff, check_ok_iff] at hstart
    obtain ⟨-, hfirst, -, -, _, ⟨files, hfiles, rfl⟩, rfl⟩ := hstart
    obtain ⟨bytes, hwrite, hsize, rfl⟩ := beginFiles_eq_ok_iff.mp hfiles
    obtain ⟨hversion, hmax, hbound⟩ := hsupported
    have hreadable : (⟨version, firstBlockNum, .chainId id⟩ : Preamble γ χ).Readable :=
      Represents.readable_chainId hversion hmax hfirst (by omega)
    exact ⟨_, _, _, represents_begin hreadable hbound hwrite hsize rfl rfl rfl rfl rfl rfl rfl,
      .inr (Represents.ne_initialVersion hversion)⟩

theorem IsRepresented.step {f : ℕ} {bs : List β} {i : LogInput β}
    (h : IsRepresented cfg codec f bs log) (hinverse : codec.Inverse)
    (hk : 0 < cfg.maxRetainedFiles) (hnum : ∀ b, i = .append b → codec.blockNum b < 2 ^ 31)
    (hstep : log.step cfg codec i = .ok log') :
    IsRepresented cfg codec f (bs ++ i.block?.toList) log' := by
  obtain ⟨start, closed, current, hrep, htail⟩ := h
  cases i with
  | append b => exact hrep.append hk (hnum b rfl) hstep
  | read n =>
    obtain rfl := pure_ok_iff.mp hstep
    exact ⟨start, closed, current, by simpa [LogInput.block?] using (hrep.streamFor_cases hinverse n).1, htail⟩
  | reopen =>
    obtain ⟨log₁, hopen, -, hrep₁⟩ := hrep.reopen hinverse htail
    obtain rfl := Except.ok.inj (hopen.symm.trans hstep)
    exact ⟨start, closed, current, by simpa [LogInput.block?] using hrep₁, htail⟩

theorem isRepresented_of_run (hinverse : codec.Inverse) (hk : 0 < cfg.maxRetainedFiles)
    (hsupported : start.Supported version)
    (hstart : startLog cfg codec version start = .ok log₀) (hrun : LogRun cfg codec log₀ ts log)
    (hnums : ∀ b ∈ appended start ts, codec.blockNum b < 2 ^ 31) :
    IsRepresented cfg codec start.firstBlockNum (appended start ts) log := by
  refine hrun.invariant (I := fun ts log => (∀ b ∈ appended start ts, codec.blockNum b < 2 ^ 31) →
    IsRepresented cfg codec start.firstBlockNum (appended start ts) log) ?_ ?_ hnums
  · intro hnums
    simp only [appended, filterMap_nil, append_nil] at hnums ⊢
    exact isRepresented_start hk hsupported hstart hnums
  · intro ts log i log' _ ih hstep hnums
    rw [appended_concat] at hnums ⊢
    refine (ih fun b hb => hnums b (by simp [hb])).step hinverse hk ?_ hstep
    rintro b rfl
    exact hnums b (by simp [LogInput.block?])

/-! ## Reopening -/

/-- A log that retains files, opened again at any point: the same blocks are read, exactly those of
the retained range, and the head is the same unless the last block has closed the active file. -/
theorem reopen_same (hinverse : codec.Inverse) (hk : 0 < cfg.maxRetainedFiles)
    (hsupported : start.Supported version)
    (hstart : Log.startLog cfg codec version start = .ok log₀) (hrun : LogRun cfg codec log₀ ts log)
    (hnums : ∀ b ∈ appended start ts, codec.blockNum b < 2 ^ 31) :
    ∃ log', Log.openLog cfg codec log.disk = .ok log' ∧
      ((∀ b, (appended start ts).getLast? = some b → codec.blockNum b % cfg.stride ≠ 0) →
        log.head = (appended start ts).getLast? ∧ log'.head = (appended start ts).getLast?) ∧
      ∀ n, ∃ b?, b? = (if retainedFrom cfg start.firstBlockNum (appended start ts).length ≤ n then
          (appended start ts)[n - start.firstBlockNum]? else none) ∧
        log.readBlockByNum codec n = .ok b? ∧ log'.readBlockByNum codec n = .ok b? ∧
        log.readBlockIdByNum codec n = .ok ((b?.map codec.calculateId).getD ⟨0, 0, 0, 0⟩) ∧
        log'.readBlockIdByNum codec n = .ok ((b?.map codec.calculateId).getD ⟨0, 0, 0, 0⟩) := by
  obtain ⟨oldest, closed, current, hrep, htail⟩ :=
    isRepresented_of_run hinverse hk hsupported hstart hrun hnums
  obtain ⟨log', hopen, hhead', hrep'⟩ := hrep.reopen hinverse htail
  refine ⟨log', hopen, fun hlast => ?_, fun n => ⟨_, rfl, ?_⟩⟩
  · by_cases hempty : current.entries = []
    · have hnone : (appended start ts).getLast? = none := by
        cases hb : (appended start ts).getLast? with
        | none => rfl
        | some b => exact absurd (hrep.mod_eq_of_empty hk hempty hb) (hlast b hb)
      rw [hhead', hnone]
      refine ⟨?_, by simp [blocks, hempty]⟩
      rcases hrep.head with hhead | ⟨hhead, -⟩
      · rw [hhead, hnone]
      · exact hhead
    · exact ⟨hrep.head.resolve_right fun h => hempty h.2,
        hrep'.head.resolve_right fun h => hempty h.2⟩
  · have holdest : oldest = retainedFrom cfg start.firstBlockNum (appended start ts).length :=
      hrep.start_eq
    rw [← holdest]
    exact ⟨hrep.readBlockByNum_eq hinverse n, hrep'.readBlockByNum_eq hinverse n,
      hrep.readBlockIdByNum_eq hinverse n, hrep'.readBlockIdByNum_eq hinverse n⟩

theorem exists_reopened (cfg : Config) (codec : Codec β γ χ) (version : ℕ) (start : LogStart β γ χ)
    (inputs : List (LogInput β)) (q : Log β γ χ → Log β γ χ → Bool)
    (hq : (match startLog cfg codec version start with
      | .error _ => false
      | .ok log₀ =>
        match exec (step cfg codec) log₀ inputs [] with
        | .error _ => false
        | .ok (_, log) =>
          match openLog cfg codec log.disk with
          | .error _ => false
          | .ok log' => q log log') = true) :
    ∃ log₀ ts log log', startLog cfg codec version start = .ok log₀ ∧
      LogRun cfg codec log₀ ts log ∧ ts.map Transition.label = inputs ∧
      openLog cfg codec log.disk = .ok log' ∧ q log log' = true := by
  cases hstart : startLog cfg codec version start with
  | error e => simp [hstart] at hq
  | ok log₀ =>
    cases hexec : exec (step cfg codec) log₀ inputs [] with
    | error e => simp [hstart, hexec] at hq
    | ok res =>
      cases hopen : openLog cfg codec res.2.disk with
      | error e => simp [hstart, hexec, hopen] at hq
      | ok log' =>
        simp only [hstart, hexec, hopen] at hq
        exact ⟨log₀, res.1, res.2, log', rfl, run_of_exec .nil hexec, labels_of_exec hexec,
          hopen, hq⟩

/-- A log of version 3 that is split once, and once read and opened again in between. -/
def reopenedInputs : List (LogInput UInt32) := [.append 2, .read 1, .reopen, .append 3]

theorem reopen_same_sample : ∃ (log₀ : Log UInt32 Unit Byte) (ts : _) (log : _),
    Log.startLog sampleConfig sampleCodec 3 (.genesis () 1) = .ok log₀ ∧
    LogRun sampleConfig sampleCodec log₀ ts log ∧
    (∀ b ∈ appended (.genesis () 1) ts, sampleCodec.blockNum b < 2 ^ 31) ∧
    ∃ log', Log.openLog sampleConfig sampleCodec log.disk = .ok log' ∧ log'.head = log.head ∧
      ∀ n, log'.readBlockByNum sampleCodec n = log.readBlockByNum sampleCodec n := by
  obtain ⟨log₀, ts, log, -, hstart, hrun, hlabels, -, -⟩ := exists_reopened sampleConfig sampleCodec 3
    (.genesis () 1) reopenedInputs (fun _ _ => true) (by decide +kernel)
  have happended : appended (γ := Unit) (χ := Byte) (.genesis () 1) ts = [1, 2, 3] := by
    have hmap : ts.filterMap (fun t => t.label.block?) =
        (ts.map Transition.label).filterMap LogInput.block? := by
      rw [filterMap_map]
      rfl
    rw [appended, hmap, hlabels]
    rfl
  have hnums : ∀ b ∈ appended (.genesis () 1) ts, sampleCodec.blockNum b < 2 ^ 31 := by
    simp [happended, sampleCodec]
  obtain ⟨log', hopen, hhead, hreads⟩ := reopen_same sampleCodec_inverse (by decide)
    (show LogStart.Supported 3 (.genesis () 1) from ⟨by decide, by decide⟩) hstart hrun hnums
  have hopenFile : ∀ b, (appended (γ := Unit) (χ := Byte) (.genesis () 1) ts).getLast? = some b →
      sampleCodec.blockNum b % sampleConfig.stride ≠ 0 := by
    rw [happended]
    rintro b ⟨⟩
    decide
  obtain ⟨hbefore, hafter⟩ := hhead hopenFile
  refine ⟨log₀, ts, log, hstart, hrun, hnums, log', hopen, hafter.trans hbefore.symm, fun n => ?_⟩
  obtain ⟨b?, -, hread, hread', -⟩ := hreads n
  rw [hread, hread']

/-- After a block that has closed a file, an opened log has no head.  With no file to retain, the
blocks of a closed file come back.  Files with block numbers from `2 ^ 31` on are lost. -/
theorem reopen_differs :
    (∃ (log₀ : Log UInt32 Unit Byte) (ts : _) (log log' : _),
      Log.startLog sampleConfig sampleCodec 4 (.genesis () 1) = .ok log₀ ∧
      LogRun sampleConfig sampleCodec log₀ ts log ∧ ts.map (·.label) = [.append 2] ∧
      Log.openLog sampleConfig sampleCodec log.disk = .ok log' ∧
      log.head = some 2 ∧ log'.head = none) ∧
    (∃ (log₀ : Log UInt32 Unit Byte) (ts : _) (log log' : _),
      Log.startLog { sampleConfig with maxRetainedFiles := 0 } sampleCodec 4 (.genesis () 1) = .ok log₀ ∧
      LogRun { sampleConfig with maxRetainedFiles := 0 } sampleCodec log₀ ts log ∧
      ts.map (·.label) = [.append 2, .append 3] ∧
      openLog { sampleConfig with maxRetainedFiles := 0 } sampleCodec log.disk = .ok log' ∧
      log.readBlockByNum sampleCodec 1 = .ok none ∧
      log'.readBlockByNum sampleCodec 1 = .ok (some 1)) ∧
    ∃ (log₀ : Log UInt32 Unit Byte) (ts : _) (log log' : _),
      startLog sampleConfig sampleCodec 4 (.chainId 1 (2 ^ 31)) = .ok log₀ ∧
      LogRun sampleConfig sampleCodec log₀ ts log ∧
      ts.map (·.label) = [.append (2 ^ 31), .append (2 ^ 31 + 1)] ∧
      openLog sampleConfig sampleCodec log.disk = .ok log' ∧
      log.readBlockByNum sampleCodec (2 ^ 31) = .ok (some (2 ^ 31)) ∧
      log'.readBlockByNum sampleCodec (2 ^ 31) = .ok none := by
  refine ⟨?_, ?_, ?_⟩
  · obtain ⟨log₀, ts, log, log', hstart, hrun, hlabels, hopen, hq⟩ := exists_reopened sampleConfig
      sampleCodec 4 (.genesis () 1) [.append 2]
      (fun log log' => log.head = some 2 ∧ log'.head = none) (by decide +kernel)
    exact ⟨log₀, ts, log, log', hstart, hrun, hlabels, hopen, by simpa using hq⟩
  · obtain ⟨log₀, ts, log, log', hstart, hrun, hlabels, hopen, hq⟩ := exists_reopened
      { sampleConfig with maxRetainedFiles := 0 } sampleCodec 4 (.genesis () 1) [.append 2, .append 3]
      (fun log log' => log.readBlockByNum sampleCodec 1 = .ok none ∧
        log'.readBlockByNum sampleCodec 1 = .ok (some 1)) (by decide +kernel)
    exact ⟨log₀, ts, log, log', hstart, hrun, hlabels, hopen, by simpa using hq⟩
  · obtain ⟨log₀, ts, log, log', hstart, hrun, hlabels, hopen, hq⟩ := exists_reopened sampleConfig
      sampleCodec 4 (.chainId 1 (2 ^ 31)) [.append (2 ^ 31), .append (2 ^ 31 + 1)]
      (fun log log' => log.readBlockByNum sampleCodec (2 ^ 31) = .ok (some (2 ^ 31)) ∧
        log'.readBlockByNum sampleCodec (2 ^ 31) = .ok none) (by decide +kernel)
    exact ⟨log₀, ts, log, log', hstart, hrun, hlabels, hopen, by simpa using hq⟩

end DcdProtocol.BlockLog
