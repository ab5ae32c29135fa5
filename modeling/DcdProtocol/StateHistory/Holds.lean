import DcdProtocol.StateHistory.SplitFiles

/-!
# What the files of the log hold

`Files` relates the log to the entries of its split files and of its active files: the catalog has
one item for each split file, the split files hold consecutive blocks up to the first block of the
active files, and the names in the directory refer to the split files and to no others.  `Holds` adds
that the log ends where the active files do.

There is one lemma for each way in which the files change: cutting the log off at a block
(`Holds.truncate`), appending an entry (`Holds.appendEntry`) and splitting (`Holds.splitLog`).  All
entries together are `flat`.
-/

namespace DcdProtocol.StateHistory

open Library List FlatMap Function SplitFile Catalog
open Chain (Sha256)
open BlockLog (FileName splitName CatalogEntry)

/-- A split file is on the disk and can be told from the active one. -/
structure SplitFile.Stored (f : SplitFile) (d : Disk) : Prop where
  name : d.retained.find? f.name = some f.file
  contents : d.contents f.file = filesOf f.entries
  short : (filesOf f.entries).data.length < 2 ^ 63
  numbered : Numbered f.first f.entries
  positive : 0 < f.first
  created : f.file < d.created
  inactive : f.file ≠ d.active

/-- What the files are; `start` is the first block in them. -/
structure Files (cfg : Config) (s : Log) (start : ℕ) (splits : List SplitFile)
    (act : List StoredEntry) : Prop where
  collection : s.catalog.collection.entries = splits.map item
  consecutive : Consecutive first next start splits s.activeBegin
  stored : ∀ f ∈ splits, f.Stored s.disk
  distinct : splits.Pairwise fun f g => f.file ≠ g.file
  only : 0 < cfg.maxRetainedFiles → ∀ name file, s.disk.retained.find? name = some file →
    ∃ f ∈ splits, f.name = name
  unretained : cfg.maxRetainedFiles = 0 → splits = []
  active : s.disk.activeFiles = filesOf act
  short : (filesOf act).data.length < 2 ^ 63
  numbered : Numbered s.activeBegin act
  created : s.disk.active < s.disk.created
  bound : s.activeBegin + act.length < 2 ^ 32

structure Holds (cfg : Config) (s : Log) (start : ℕ) (splits : List SplitFile)
    (act : List StoredEntry) : Prop extends Files cfg s start splits act where
  ended : s.activeBegin + act.length = s.activeEnd

/-- All entries, in the order of their blocks. -/
def flat (splits : List SplitFile) (act : List StoredEntry) : List StoredEntry :=
  splits.flatMap entries ++ act

theorem length_flatMap_entries {a b : ℕ} {splits : List SplitFile}
    (h : Consecutive first next a splits b) :
    (splits.flatMap entries).length = b - a := by
  induction h with
  | nil n => simp
  | @cons f fs m hlt hrest ih =>
    have hle := hrest.le
    rw [flatMap_cons, length_append, ih]
    rw [SplitFile.next] at *
    omega

/-- Consecutive files have different names. -/
theorem name_ne {a m b : ℕ} {pre post : List SplitFile} (hpre : Consecutive first next a pre m)
    (hpost : Consecutive first next m post b) (hb : b < 2 ^ 32) {f g : SplitFile} (hf : f ∈ pre)
    (hg : g ∈ post) : f.name ≠ g.name := by
  intro hname
  obtain ⟨hflt, -, hfnext⟩ := hpre.mem hf
  obtain ⟨hglt, hgfirst, hgnext⟩ := hpost.mem hg
  have := first_eq_of_name_eq (by omega) (by omega) hname
  omega

section

variable {cfg : Config} {s : Log} {start n : ℕ} {splits : List SplitFile} {act : List StoredEntry}

theorem holds_initial : Holds cfg {} 0 [] [] where
  collection := rfl
  consecutive := .nil 0
  stored := by simp
  distinct := .nil
  only := by simp
  unretained := fun _ => rfl
  active := rfl
  short := by decide
  numbered := by simp [Numbered]
  created := by decide
  bound := by decide
  ended := rfl

namespace Files

section

variable (h : Files cfg s start splits act)
include h

theorem first_lt {f : SplitFile} (hf : f ∈ splits) : f.first < f.next ∧ f.next < 2 ^ 32 := by
  obtain ⟨hlt, -, hnext⟩ := h.consecutive.mem hf
  have hbound := h.bound
  exact ⟨hlt, by omega⟩

theorem start_le : start ≤ s.activeBegin := h.consecutive.le

theorem beginBlock_eq : s.beginBlock = start := by
  rw [Log.beginBlock, firstBlockNum, h.collection]
  have hconsecutive := h.consecutive
  cases splits with
  | nil => exact hconsecutive.eq_of_nil.symm
  | cons f fs =>
    have hpos := (h.stored f (by simp)).positive
    show (if f.first ≠ 0 then f.first else s.activeBegin) = start
    rw [if_pos (by omega), hconsecutive.eq_first]

theorem startingBefore_eq :
    s.catalog.startingBefore n = (splits.takeWhile fun f => f.first ≤ n).map item := by
  rw [startingBefore, h.collection, takeWhile_map]
  rfl

end

/-! ## Cutting the log off -/

section

variable (h : Files cfg s start splits act) {start' : ℕ}
include h

theorem truncateCatalog_of_lt (hn : n < start) :
    Files cfg (s.truncateCatalog n) s.activeBegin [] act ∧
      (s.truncateCatalog n).activeBegin = s.activeBegin := by
  have hbefore : s.catalog.startingBefore n = [] := by
    rw [h.startingBefore_eq, h.consecutive.takeWhile_eq_nil hn]
    rfl
  have htruncate : s.truncateCatalog n = { s with
      catalog := s.catalog.keep 0
      disk := s.disk.removeFiles (splits.map name) } := by
    rw [Log.truncateCatalog, truncate, hbefore, h.collection, length_nil, drop_zero, map_map]
    rfl
  rw [htruncate]
  refine ⟨⟨rfl, .nil _, by simp, .nil, ?_, fun _ => rfl, h.active, h.short, h.numbered, h.created,
    h.bound⟩, rfl⟩
  intro hpos name file hfind
  obtain ⟨hnotMem, hold⟩ := find?_foldl_erase_eq_some.mp hfind
  obtain ⟨f, hf, rfl⟩ := h.only hpos name file hold
  exact absurd (mem_map_of_mem hf) hnotMem

theorem truncateCatalog_of_le (hn : s.activeBegin ≤ n) :
    Files cfg (s.truncateCatalog n) start splits act ∧
      (s.truncateCatalog n).activeBegin = s.activeBegin := by
  have hbefore : s.catalog.startingBefore n = s.catalog.collection.entries := by
    rw [h.startingBefore_eq, h.consecutive.takeWhile_eq_self hn, h.collection]
  have htruncate : s.truncateCatalog n = { s with
      catalog := s.catalog.keep s.catalog.collection.entries.length } := by
    rw [Log.truncateCatalog, truncate, hbefore, drop_length]
    cases hlast : s.catalog.collection.entries.getLast? with
    | none =>
      rw [getLast?_eq_none_iff.mp hlast]
      rfl
    | some e =>
      have hmem := mem_of_getLast? hlast
      rw [h.collection] at hmem
      obtain ⟨f, hf, rfl⟩ := mem_map.mp hmem
      have hnext := (h.consecutive.mem hf).2.2
      have hlt := (h.first_lt hf).1
      have hlast : f.item.2.lastBlockNum < n := by
        show f.next - 1 < n
        omega
      dsimp only
      rw [if_pos hlast]
      rfl
  rw [htruncate]
  refine ⟨⟨?_, h.consecutive, h.stored, h.distinct, h.only, h.unretained, h.active, h.short,
    h.numbered, h.created, h.bound⟩, rfl⟩
  show take _ _ = _
  rw [take_length, h.collection]

theorem truncateCatalog_of_mem {pre post : List SplitFile}
    {f : SplitFile} (hsplits : splits = pre ++ f :: post) (hn : n < f.next)
    (hbefore : splits.takeWhile (fun f => f.first ≤ n) = pre ++ [f]) :
    Files cfg (s.truncateCatalog n) start pre f.entries ∧
      (s.truncateCatalog n).activeBegin = f.first := by
  have hf : f ∈ splits := by simp [hsplits]
  have hstored := h.stored f hf
  have htruncate : s.truncateCatalog n = { s with
      catalog := s.catalog.keep pre.length
      disk := { s.disk with active := f.file }.removeFiles (f.name :: post.map name)
      activeBegin := f.first } := by
    have hlast : ¬f.item.2.lastBlockNum < n := by
      show ¬f.next - 1 < n
      omega
    have hpost : (splits.map item).drop (pre.length + 1) = post.map item := by
      rw [hsplits, ← map_drop, ← drop_drop, drop_left]
      rfl
    rw [Log.truncateCatalog, truncate, h.startingBefore_eq, hbefore, h.collection]
    simp only [map_append, map_cons, map_nil, getLast?_append,
      getLast?_singleton, Option.some_or, length_append, length_map, length_singleton, hpost]
    have hname : s.disk.retained.find? f.item.2.filenameBase = some f.file := hstored.name
    have hpos : 0 < f.item.1 := hstored.positive
    rw [if_neg hlast]
    simp only [hname, hpos, map_map]
    rfl
  obtain ⟨m, hpre, hrest⟩ := Consecutive.split (hsplits ▸ h.consecutive)
  obtain rfl := hrest.eq_first
  have hbound := (h.first_lt hf).2
  -- the files that are removed have other names than those before them
  have hname : ∀ g ∈ pre, g.name ∉ f.name :: post.map name := by
    intro g hg hmem
    rw [← map_cons (f := name)] at hmem
    obtain ⟨g', hg', heq⟩ := mem_map.mp hmem
    exact name_ne hpre hrest (lt_of_le_of_lt (Nat.le_add_right ..) h.bound) hg hg' heq.symm
  have hdistinct := h.distinct
  rw [hsplits] at hdistinct
  rw [htruncate]
  refine ⟨⟨?_, hpre, ?_, (pairwise_append.mp hdistinct).1, ?_, ?_, hstored.contents,
    hstored.short, hstored.numbered, hstored.created, hbound⟩, rfl⟩
  · show take _ _ = _
    rw [h.collection, hsplits, map_append, take_left' (length_map _)]
  · intro g hg
    have hold := h.stored g (by simp [hsplits, hg])
    refine ⟨?_, hold.contents, hold.short, hold.numbered, hold.positive, hold.created, ?_⟩
    · exact find?_foldl_erase_eq_some.mpr ⟨hname g hg, hold.name⟩
    · exact (pairwise_append.mp hdistinct).2.2 g hg f (by simp)
  · intro hpos name file hfind
    obtain ⟨hnotMem, hold⟩ := find?_foldl_erase_eq_some.mp hfind
    obtain ⟨g, hg, rfl⟩ := h.only hpos name file hold
    rw [hsplits, mem_append] at hg
    rcases hg with hg | hg
    · exact ⟨g, hg, rfl⟩
    · grind
  · intro hzero
    have := h.unretained hzero
    simp [hsplits] at this

theorem write {act' : List StoredEntry}
    (hconsecutive : Consecutive first next start' splits n)
    (hshort : (filesOf act').data.length < 2 ^ 63) (hnumbered : Numbered n act')
    (hbound : n + act'.length < 2 ^ 32) (id : Sha256) : Holds cfg { s with
      disk := s.disk.write (filesOf act')
      activeBegin := n
      activeEnd := n + act'.length
      lastBlockId := id } start' splits act' where
  collection := h.collection
  consecutive := hconsecutive
  stored := by
    intro f hf
    obtain ⟨hname, hcontents, hshort, hnumbered, hpositive, hcreated, hinactive⟩ := h.stored f hf
    refine ⟨hname, ?_, hshort, hnumbered, hpositive, hcreated, hinactive⟩
    show update s.disk.contents s.disk.active _ f.file = _
    rw [update_of_ne hinactive, hcontents]
  distinct := h.distinct
  only := h.only
  unretained := h.unretained
  active := update_self ..
  short := hshort
  numbered := hnumbered
  created := h.created
  bound := hbound
  ended := rfl

theorem clear (hn : n ≤ s.activeBegin)
    (hconsecutive : Consecutive first next start' splits n) :
    ∃ s', s.truncateActive n = .ok s' ∧ Holds cfg s' start' splits [] ∧ s'.activeEnd = n ∧
      s'.catalog = s.catalog := by
  have hbound := h.bound
  refine ⟨_, ?_, h.write hconsecutive (by decide : (filesOf []).data.length < 2 ^ 63) (by simp [Numbered])
    (by simp only [length_nil]; omega) s.lastBlockId, rfl, rfl⟩
  rw [Log.truncateActive, if_pos hn]
  rfl

theorem cut (hle : s.activeBegin ≤ n) (hn : n < s.activeBegin + act.length) :
    ∃ s', s.truncateActive n = .ok s' ∧
      Holds cfg s' start splits (act.take (n - s.activeBegin)) ∧ s'.activeEnd = n ∧
      s'.catalog = s.catalog := by
  rcases Nat.eq_or_lt_of_le hle with rfl | hlt
  · rw [Nat.sub_self, take_zero]
    exact h.clear le_rfl h.consecutive
  have htake := filesOf_take h.short (show n - s.activeBegin < act.length by omega)
  have hlength : (act.take (n - s.activeBegin)).length = n - s.activeBegin := by grind
  have hshort : (filesOf (act.take (n - s.activeBegin))).data.length < 2 ^ 63 := by
    rw [htake]
    exact lt_of_le_of_lt (length_take_le' _ _) h.short
  have hbound := h.bound
  refine ⟨_, ?_, h.write h.consecutive hshort (h.numbered.take _) (by omega) s.lastBlockId, ?_, rfl⟩
  · have hpos : s.getPos n = .ok ((filesOf act).nthPosition (n - s.activeBegin)) := by
      rw [Log.getPos, h.active]
      refine bind_ok_iff.mpr ⟨(), check_ok_iff.mpr ?_, rfl⟩
      rw [length_index_filesOf]
      omega
    rw [Log.truncateActive, if_neg (by omega)]
    refine bind_ok_iff.mpr ⟨_, hpos, ?_⟩
    dsimp only
    rw [h.active, ← htake, hlength, Nat.add_sub_cancel' hlt.le]
    rfl
  · show s.activeBegin + _ = n
    omega

end

end Files

theorem truncateCatalog_active (s : Log) (n : ℕ) :
    (s.truncateCatalog n).catalog.active = s.catalog.active := by
  rw [Log.truncateCatalog, truncate]
  dsimp only
  split
  · rfl
  · split_ifs <;> rfl

theorem truncate_exec {s' : Log} (hactive : (s.truncateCatalog n).truncateActive n = .ok s') :
    (Log.truncate n).exec s = (.ok (), s') := by
  have hexec : (Log.truncate n).exec s = match (s.truncateCatalog n).truncateActive n with
      | .ok s' => (.ok (), s')
      | .error e => (.error e, s.truncateCatalog n) := by
    show Stateful.exec (Stateful.ofExcept ((s.truncateCatalog n).truncateActive n) >>= set)
      (s.truncateCatalog n) = _
    cases (s.truncateCatalog n).truncateActive n with
    | ok s' => rfl
    | error e => rfl
  rw [hexec, hactive]

private theorem take_append_sub {α : Type} {xs ys : List α} {a b n : ℕ} (hxs : xs.length = b - a)
    (hab : a ≤ b) (hn : b ≤ n) : (xs ++ ys).take (n - a) = xs ++ ys.take (n - b) := by
  rw [take_append, take_of_length_le (by omega)]
  congr 2
  omega

structure CutOff (cfg : Config) (s : Log) (start : ℕ) (splits : List SplitFile)
    (act : List StoredEntry) (n : ℕ) (s' : Log) (splits' : List SplitFile)
    (act' : List StoredEntry) : Prop where
  holds : Holds cfg s' (min start n) splits' act'
  ended : s'.activeEnd = n
  entries : flat splits' act' = (flat splits act).take (n - start)
  /-- The files before the block keep their places. -/
  kept : ∀ (i : ℕ) (f : SplitFile), splits[i]? = some f → f.next ≤ n → splits'[i]? = some f
  mapped : s'.catalog.active = s.catalog.active

theorem Holds.truncate (h : Holds cfg s start splits act) (hn : n < s.activeEnd) :
    ∃ s' splits' act', (Log.truncate n).exec s = (.ok (), s') ∧
      CutOff cfg s start splits act n s' splits' act' := by
  have hended := h.ended
  have hle := h.start_le
  have hlength := length_flatMap_entries h.consecutive
  rcases Nat.lt_or_ge n start with hbefore | hstart
  · -- before all files
    obtain ⟨hfiles, hbegin⟩ := h.truncateCatalog_of_lt hbefore
    obtain ⟨s', hactive, hholds, hend, hcatalog⟩ := hfiles.clear (by omega) (.nil n)
    refine ⟨s', [], [], truncate_exec hactive, ?_, hend, ?_, ?_, ?_⟩
    · rwa [Nat.min_eq_right hbefore.le]
    · rw [Nat.sub_eq_zero_of_le hbefore.le]
      rfl
    · intro i f hf hnext
      obtain ⟨hlt, hfirst, -⟩ := h.consecutive.mem (mem_of_getElem? hf)
      omega
    · rw [hcatalog, truncateCatalog_active]
  have hmin : min start n = start := Nat.min_eq_left hstart
  rcases Nat.lt_or_ge n s.activeBegin with hsplit | hactive
  · -- in a split file
    obtain ⟨pre, f, post, rfl, hfirst, hnext, htake⟩ := h.consecutive.exists_interval hstart hsplit
    obtain ⟨hfiles, hbegin⟩ := h.truncateCatalog_of_mem rfl hnext htake
    have hpre := length_flatMap_entries (hbegin ▸ hfiles.consecutive)
    have hentries : flat (pre ++ f :: post) act = pre.flatMap entries ++
        (f.entries ++ (post.flatMap entries ++ act)) := by
      simp [flat]
    have hstartFirst : start ≤ f.first := hbegin ▸ hfiles.start_le
    have hkept : ∀ (i : ℕ) (g : SplitFile), (pre ++ f :: post)[i]? = some g → g.next ≤ n →
        pre[i]? = some g := by
      intro i g hg hgnext
      obtain ⟨m, -, hrest⟩ := h.consecutive.split
      cases hrest with
      | cons hlt hrest =>
        rcases Nat.lt_or_ge i pre.length with hi | hi
        · grind
        rw [getElem?_append_right hi] at hg
        rcases mem_cons.mp (mem_of_getElem? hg) with rfl | hmem
        · omega
        · obtain ⟨hglt, hgfirst, -⟩ := hrest.mem hmem
          omega
    rw [SplitFile.next] at hnext
    obtain ⟨s', hcut, hholds, hend, hcatalog⟩ := hfiles.cut (by omega) (n := n) (by omega)
    refine ⟨s', pre, _, truncate_exec hcut, hmin.symm ▸ hholds, hend, ?_, hkept, ?_⟩
    · rw [hentries, take_append_sub hpre hstartFirst hfirst, flat, hbegin,
        take_append_of_le_length (by omega)]
    · rw [hcatalog, truncateCatalog_active]
  · -- in the active files
    obtain ⟨hfiles, hbegin⟩ := h.truncateCatalog_of_le hactive
    obtain ⟨s', hcut, hholds, hend, hcatalog⟩ := hfiles.cut (by omega) (n := n) (by omega)
    refine ⟨s', splits, _, truncate_exec hcut, hmin.symm ▸ hholds, hend, ?_,
      fun _ _ hf _ => hf, ?_⟩
    · rw [flat, flat, take_append_sub hlength hle hactive, hbegin]
    · rw [hcatalog, truncateCatalog_active]

/-! ## Appending -/

theorem Holds.appendEntry (h : Holds cfg s start splits act) {w : Log.Entry} {payload : Bytes}
    (hnum : w.blockNum = s.activeEnd ∨ splits = [] ∧ act = []) (hbound : w.blockNum + 1 < 2 ^ 32)
    (hshort : (s.disk.activeFiles.append (packEntry w.blockId payload)).data.length < 2 ^ 63) :
    ∃ start', Holds cfg (s.appendEntry w payload) start' splits (act ++ [⟨w.blockId, payload⟩]) ∧
      (start' = start ∨ splits = [] ∧ act = [] ∧ start' = w.blockNum) := by
  have hended := h.ended
  have hblockNum : (⟨w.blockId, payload⟩ : StoredEntry).blockNum = w.blockNum := rfl
  have hfiles : filesOf (act ++ [⟨w.blockId, payload⟩]) =
      s.disk.activeFiles.append (packEntry w.blockId payload) := by
    rw [h.active, filesOf_concat]
  generalize (⟨w.blockId, payload⟩ : StoredEntry) = e at hblockNum hfiles ⊢
  have happend (first : ℕ) (hfirst : (if s.activeBegin = s.activeEnd then w.blockNum else
      s.activeBegin) = first) (hend : first + act.length = w.blockNum) {start' : ℕ}
      (hconsecutive : Consecutive SplitFile.first SplitFile.next start' splits first)
      (hnumbered : Numbered first act) :
      Holds cfg (s.appendEntry w payload) start' splits (act ++ [e]) := by
    have hlength : first + (act ++ [e]).length = w.blockNum + 1 := by grind
    have hwrite := h.write hconsecutive (by rwa [hfiles])
      (hnumbered.concat (hblockNum.trans hend.symm)) (by rwa [hlength]) w.blockId
    rw [hlength, hfiles] at hwrite
    rw [Log.appendEntry, hfirst, Nat.mod_eq_of_lt hbound]
    exact hwrite
  by_cases hact : act = []
  · subst hact
    have hempty : s.activeBegin = s.activeEnd := hended
    rcases hnum with heq | ⟨hsplits, -⟩
    · refine ⟨start, happend w.blockNum (if_pos hempty) rfl ?_ (by simp [Numbered]), Or.inl rfl⟩
      rw [heq, ← hempty]
      exact h.consecutive
    · refine ⟨w.blockNum, happend w.blockNum (if_pos hempty) rfl ?_ (by simp [Numbered]),
        Or.inr ⟨hsplits, rfl, rfl⟩⟩
      exact hsplits ▸ .nil _
  · have hlength := length_pos_of_ne_nil hact
    have hnum : w.blockNum = s.activeEnd := hnum.resolve_right fun hnil => hact hnil.2
    exact ⟨start, happend s.activeBegin (if_neg (by omega)) (by omega) h.consecutive h.numbered,
      Or.inl rfl⟩

/-! ## Splitting -/

/-- The file that `split_log` makes of the active one. -/
def Log.newSplit (s : Log) (act : List StoredEntry) : SplitFile := ⟨s.activeBegin, act, s.disk.active⟩

section

variable (h : Holds cfg s start splits act)
include h

theorem Holds.next_newSplit : (s.newSplit act).next = s.activeEnd := h.ended

theorem Holds.name_ne_newSplit (hne : act ≠ []) {f : SplitFile} (hf : f ∈ splits) :
    f.name ≠ (s.newSplit act).name := by
  have hlt : (s.newSplit act).first < (s.newSplit act).next :=
    Nat.lt_add_of_pos_right (length_pos_of_ne_nil hne)
  exact name_ne h.consecutive (.cons hlt (.nil _)) h.bound hf (mem_singleton_self _)

theorem Holds.splitName_eq (hne : act ≠ []) :
    (s.activeEnd + 2 ^ 32 - 1) % 2 ^ 32 = (s.newSplit act).next - 1 := by
  have hlength := length_pos_of_ne_nil hne
  have hended := h.ended
  have hbound := h.bound
  rw [h.next_newSplit]
  omega

theorem Holds.collection_splitLog (hne : act ≠ []) (hretained : 0 < cfg.maxRetainedFiles) :
    (s.splitLog cfg).catalog.collection.entries =
      (splits.drop (s.catalog.itemsToErase cfg.maxRetainedFiles) ++ [s.newSplit act]).map item := by
  rw [Log.splitLog, add, h.splitName_eq hne]
  generalize s.catalog.itemsToErase cfg.maxRetainedFiles = items
  have hentries : (s.catalog.collection.drop items).entries = (splits.drop items).map item := by
    show s.catalog.collection.entries.drop items = _
    rw [h.collection, map_drop]
  have hlt : ∀ e ∈ (s.catalog.collection.drop items).entries, e.1 < s.activeBegin := by
    intro e he
    rw [hentries] at he
    obtain ⟨f, hf, rfl⟩ := mem_map.mp he
    obtain ⟨hfirst, -, hnext⟩ := h.consecutive.mem (mem_of_mem_drop hf)
    exact lt_of_lt_of_le hfirst hnext
  rw [if_pos hretained, emplace, contains_eq_false_of_lt hlt,
    if_neg Bool.false_ne_true, entries_insert_of_lt hlt, hentries, map_append]
  rfl

theorem Holds.retained_splitLog (hne : act ≠ [])
    (hretained : 0 < cfg.maxRetainedFiles) (name : FileName) (file : ℕ) :
    (s.splitLog cfg).disk.retained.find? name = some file ↔
      name ∉ (splits.take (s.catalog.itemsToErase cfg.maxRetainedFiles)).map SplitFile.name ∧
        if name = (s.newSplit act).name then s.disk.active = file
        else s.disk.retained.find? name = some file := by
  -- the name is not taken, since no split file starts at this block
  have hfree : s.disk.retained.contains (s.newSplit act).name = false := by
    rw [FlatMap.contains, Option.isSome_eq_false_iff, Option.isNone_iff_eq_none]
    by_contra hsome
    obtain ⟨file, hfile⟩ := Option.ne_none_iff_exists'.mp hsome
    obtain ⟨f, hf, hname⟩ := h.only hretained _ file hfile
    exact h.name_ne_newSplit hne hf hname
  have herased : (s.catalog.collection.entries.take
      (s.catalog.itemsToErase cfg.maxRetainedFiles)).map (fun e => e.2.filenameBase) =
      (splits.take (s.catalog.itemsToErase cfg.maxRetainedFiles)).map SplitFile.name := by
    rw [h.collection, ← map_take, map_map]
    rfl
  have hdisk : (s.splitLog cfg).disk.retained =
      ((splits.take (s.catalog.itemsToErase cfg.maxRetainedFiles)).map SplitFile.name).foldl
        erase (s.disk.retained.insert (s.newSplit act).name s.disk.active) := by
    rw [← herased, Log.splitLog, add, h.splitName_eq hne]
    show foldl erase (s.disk.renameActive (s.newSplit act).name).retained _ = _
    rw [Disk.renameActive, hfree, if_neg Bool.false_ne_true]
  rw [hdisk, find?_foldl_erase_eq_some, find?_insert]
  by_cases hname : name = (s.newSplit act).name
  · simp [hname]
  · simp [hname]

end

theorem disk_splitLog (cfg : Config) (s : Log) :
    (s.splitLog cfg).disk.contents = update s.disk.contents s.disk.created ⟨[], []⟩ ∧
      (s.splitLog cfg).disk.created = s.disk.created + 1 ∧
      (s.splitLog cfg).disk.active = s.disk.created := by
  rw [Log.splitLog, add]
  dsimp only [Disk.renameActive]
  split_ifs <;> exact ⟨rfl, rfl, rfl⟩

theorem stored_splitLog {f : SplitFile} (hcontents : s.disk.contents f.file = filesOf f.entries)
    (hshort : (filesOf f.entries).data.length < 2 ^ 63) (hnumbered : Numbered f.first f.entries)
    (hpositive : 0 < f.first) (hcreated : f.file < s.disk.created)
    (hname : (s.splitLog cfg).disk.retained.find? f.name = some f.file) :
    f.Stored (s.splitLog cfg).disk := by
  obtain ⟨hcontents', hcreated', hactive'⟩ := disk_splitLog cfg s
  refine ⟨hname, ?_, hshort, hnumbered, hpositive, by omega, ?_⟩
  · rw [hcontents', update_of_ne hcreated.ne, hcontents]
  · rw [hactive']
    exact hcreated.ne

theorem active_splitLog {i : ℕ} {m : MappedLog}
    (hactive : (s.splitLog cfg).catalog.active = some (i, m)) :
    s.catalog.active = some (i + s.catalog.itemsToErase cfg.maxRetainedFiles, m) := by
  rw [Log.splitLog, add] at hactive
  cases hold : s.catalog.active with
  | none => simp [hold] at hactive
  | some jm => grind

structure SplitAt (cfg : Config) (s : Log) (start : ℕ) (splits : List SplitFile)
    (act : List StoredEntry) (start' : ℕ) (splits' : List SplitFile) : Prop where
  holds : Holds cfg (s.splitLog cfg) start' splits' []
  le : start ≤ start'
  entries : flat splits' [] = (flat splits act).drop (start' - start)
  kept : ∀ i m, (s.splitLog cfg).catalog.active = some (i, m) →
    ∃ j, s.catalog.active = some (j, m) ∧ ∀ f, splits[j]? = some f → splits'[i]? = some f

theorem Holds.splitLog_of (h : Holds cfg s start splits act) {start' : ℕ} {splits' : List SplitFile}
    (hcollection : (s.splitLog cfg).catalog.collection.entries = splits'.map item)
    (hconsecutive : Consecutive first next start' splits' s.activeEnd)
    (hstored : ∀ f ∈ splits', f.Stored (s.splitLog cfg).disk)
    (hdistinct : splits'.Pairwise fun f g => f.file ≠ g.file)
    (honly : 0 < cfg.maxRetainedFiles → ∀ name file,
      (s.splitLog cfg).disk.retained.find? name = some file → ∃ f ∈ splits', f.name = name)
    (hunretained : cfg.maxRetainedFiles = 0 → splits' = []) :
    Holds cfg (s.splitLog cfg) start' splits' [] := by
  obtain ⟨hcontents', hcreated', hactive'⟩ := disk_splitLog cfg s
  refine ⟨⟨hcollection, hconsecutive, hstored, hdistinct, honly, hunretained, ?_, by decide,
    by simp [Numbered], by omega, ?_⟩, rfl⟩
  · rw [Disk.activeFiles, hcontents', hactive', update_self]
    rfl
  · show s.activeEnd + 0 < 2 ^ 32
    exact h.ended ▸ h.bound

theorem Holds.splitLog (h : Holds cfg s start splits act) (hne : act ≠ [])
    (hpos : 0 < s.activeBegin) : ∃ start' splits', SplitAt cfg s start splits act start' splits' := by
  have hended := h.ended
  have hbound := h.bound
  have hlength := length_pos_of_ne_nil hne
  have hle := h.start_le
  rcases Nat.eq_zero_or_pos cfg.maxRetainedFiles with hzero | hretained
  · obtain rfl := h.unretained hzero
    have hcollection : (s.splitLog cfg).catalog.collection.entries = [] := by
      rw [Log.splitLog, add]
      rw [if_neg (by omega)]
      show s.catalog.collection.entries.drop _ = []
      rw [h.collection, map_nil, drop_nil]
    refine ⟨s.activeEnd, [], h.splitLog_of hcollection (.nil _) (by simp) .nil (by omega)
      (fun _ => rfl), by omega, ?_, ?_⟩
    · have hstart := h.consecutive.eq_of_nil
      rw [flat, flat, drop_of_length_le (by simp; omega)]
      rfl
    · intro i m hactive
      exact ⟨_, active_splitLog hactive, by simp⟩
  generalize hitems : s.catalog.itemsToErase cfg.maxRetainedFiles = items
  obtain ⟨m, htake, hdrop⟩ := h.consecutive.take_drop items
  have hcollection := h.collection_splitLog hne hretained
  have hfind := h.retained_splitLog hne hretained
  rw [hitems] at hcollection hfind
  refine ⟨m, splits.drop items ++ [s.newSplit act], h.splitLog_of hcollection ?_ ?_ ?_ ?_
    (by omega), htake.le, ?_, ?_⟩
  · have hconcat := hdrop.concat (x := s.newSplit act) rfl
      (show s.activeBegin < s.activeBegin + act.length by omega)
    rwa [h.next_newSplit] at hconcat
  · intro f hf
    rcases mem_append.mp hf with hf | hf
    · obtain ⟨hname, hcontents, hshort, hnumbered, hpositive, hcreated, -⟩ :=
        h.stored f (mem_of_mem_drop hf)
      refine stored_splitLog hcontents hshort hnumbered hpositive hcreated ((hfind _ _).mpr ⟨?_, ?_⟩)
      · intro hmem
        obtain ⟨g, hg, hgname⟩ := mem_map.mp hmem
        exact name_ne htake hdrop (by omega) hg hf hgname
      · rwa [if_neg (h.name_ne_newSplit hne (mem_of_mem_drop hf))]
    · rw [mem_singleton.mp hf]
      refine stored_splitLog h.active h.short h.numbered hpos h.created ((hfind _ _).mpr ⟨?_, ?_⟩)
      · intro hmem
        obtain ⟨g, hg, hgname⟩ := mem_map.mp hmem
        exact h.name_ne_newSplit hne (mem_of_mem_take hg) hgname
      · rw [if_pos rfl]
        rfl
  · refine pairwise_append.mpr ⟨h.distinct.sublist (drop_sublist _ _), pairwise_singleton _ _, ?_⟩
    intro f hf g hg
    rw [mem_singleton.mp hg]
    exact (h.stored f (mem_of_mem_drop hf)).inactive
  · intro _ name file hname
    obtain ⟨hnotMem, hrest⟩ := (hfind name file).mp hname
    split_ifs at hrest with heq
    · grind
    obtain ⟨f, hf, rfl⟩ := h.only hretained name file hrest
    rw [← take_append_drop items splits, mem_append] at hf
    rcases hf with hf | hf
    · grind
    · grind
  · have htakeLength := length_flatMap_entries htake
    have hentries : flat splits act = (splits.take items).flatMap entries ++
        flat (splits.drop items ++ [s.newSplit act]) [] := by
      calc flat splits act
          = flat (splits.take items ++ splits.drop items) act := by rw [take_append_drop]
        _ = _ := by simp only [flat, flatMap_append, flatMap_cons, flatMap_nil,
            Log.newSplit, append_nil, append_assoc]
    rw [hentries, ← htakeLength, drop_left]
  · intro i m hactive
    refine ⟨_, active_splitLog hactive, ?_⟩
    intro f hf
    rw [hitems, Nat.add_comm, ← getElem?_drop] at hf
    rwa [List.getElem?_append_left (List.getElem?_eq_some_iff.mp hf).1]

end

end DcdProtocol.StateHistory
