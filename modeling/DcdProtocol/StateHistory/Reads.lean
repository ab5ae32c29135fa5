import DcdProtocol.StateHistory.Holds

/-!
# Reading from the log

As long as the catalog's mapping is that of the file whose item it remembers (`Mapped`), a block is
read from the file that has it: `getBlockId_eq` and `getLogEntry_eq` say that a read returns what
`flat` has for the block, and that nothing but the mapping changes.
-/

namespace DcdProtocol.StateHistory

open Library List Stateful SplitFile Catalog
open Chain (Sha256)
open BlockLog (CatalogEntry)

/-- The file that is mapped is the one of the remembered item. -/
def Mapped (splits : List SplitFile) (c : Catalog) : Prop :=
  ∀ i m, c.active = some (i, m) → ∃ f, splits[i]? = some f ∧ m = f.mapped

def entryFor (entries : List StoredEntry) (n : ℕ) : Option StoredEntry :=
  entries.find? fun e => e.blockNum = n

/-! ## Finding an entry by its number -/

theorem entryFor_of_numbered {first n : ℕ} {entries : List StoredEntry}
    (h : Numbered first entries) : entryFor entries n =
      if first ≤ n then entries[n - first]? else none := by
  induction entries generalizing first with
  | nil => simp [entryFor]
  | cons e es ih =>
    have he : e.blockNum = first := h 0 e rfl
    have hes : Numbered (first + 1) es := by
      intro i e' he'
      rw [h (i + 1) e' he']
      omega
    rw [entryFor, find?_cons]
    by_cases hn : n = first
    · simp [hn, he]
    rw [he, decide_eq_false (Ne.symm hn)]
    show entryFor es n = _
    rw [ih hes]
    by_cases hle : first ≤ n
    · grind
    · rw [if_neg (by omega), if_neg hle]

section

variable {cfg : Config} {s : Log} {start n : ℕ} {splits : List SplitFile} {act : List StoredEntry}

theorem numbered_flatMap {a b : ℕ} (h : Consecutive first next a splits b)
    (hnumbered : ∀ f ∈ splits, Numbered f.first f.entries) {es : List StoredEntry}
    (hes : Numbered b es) : Numbered a (splits.flatMap entries ++ es) := by
  induction h with
  | nil n => exact hes
  | @cons f fs m hlt hrest ih =>
    have hfs := ih (fun g hg => hnumbered g (mem_cons_of_mem f hg)) hes
    intro i e he
    rw [flatMap_cons, append_assoc] at he
    rcases Nat.lt_or_ge i f.entries.length with hi | hi
    · rw [getElem?_append_left hi] at he
      exact hnumbered f mem_cons_self i e he
    · rw [getElem?_append_right hi] at he
      rw [hfs _ e he, SplitFile.next]
      omega

namespace Files

section

variable (h : Files cfg s start splits act)
include h

theorem numbered_flat : Numbered start (flat splits act) :=
  numbered_flatMap h.consecutive (fun f hf => (h.stored f hf).numbered) h.numbered

theorem length_flat : (flat splits act).length = s.activeBegin + act.length - start := by
  have hle := h.start_le
  rw [flat, length_append, length_flatMap_entries h.consecutive]
  omega

theorem entryFor_active (hn : s.activeBegin ≤ n) :
    entryFor (flat splits act) n = act[n - s.activeBegin]? := by
  have hle := h.start_le
  have hlength := length_flatMap_entries h.consecutive
  rw [entryFor_of_numbered h.numbered_flat, if_pos (by omega), flat,
    getElem?_append_right (by omega)]
  congr 1
  omega

theorem entryFor_split {f : SplitFile} (hf : f ∈ splits) (hfirst : f.first ≤ n) (hn : n < f.next) :
    entryFor (flat splits act) n = f.entries[n - f.first]? := by
  obtain ⟨pre, post, rfl⟩ := append_of_mem hf
  obtain ⟨m, hpre, hrest⟩ := h.consecutive.split
  obtain rfl := hrest.eq_first
  have hle := hpre.le
  have hlength := length_flatMap_entries hpre
  rw [SplitFile.next] at hn
  have hflat : flat (pre ++ f :: post) act = pre.flatMap entries ++
      (f.entries ++ (post.flatMap entries ++ act)) := by
    simp [flat]
  rw [entryFor_of_numbered h.numbered_flat, if_pos (by omega), hflat,
    getElem?_append_right (by omega), getElem?_append_left (by omega)]
  congr 1
  omega

end

/-! ## The catalog -/

theorem mapped_eq (h : Files cfg s start splits act) {f : SplitFile} (hf : f ∈ splits) :
    s.disk.mapped f.mapped = filesOf f.entries := by
  have hcontents := (h.stored f hf).contents
  show (⟨(s.disk.contents f.file).data.take (filesOf f.entries).data.length,
    (s.disk.contents f.file).index.take (filesOf f.entries).index.length⟩ : IndexedFile) = _
  rw [hcontents, take_length, take_length]

theorem mapFiles_eq (h : Files cfg s start splits act) {f : SplitFile} (hf : f ∈ splits) :
    mapFiles s.disk f.item.2 = some f.mapped := by
  have hstored := h.stored f hf
  have hlt := (h.first_lt hf).1
  rw [SplitFile.next] at hlt
  have hindex : (filesOf f.entries).index.length = 8 * f.entries.length := length_index_filesOf
  have hdata : 8 ≤ (filesOf f.entries).data.length :=
    IndexedFile.eight_le_length (by simpa using ne_nil_of_length_pos (by omega))
  rw [mapFiles, show s.disk.retained.find? f.item.2.filenameBase = some f.file from
    hstored.name]
  dsimp only
  rw [hstored.contents, if_pos]
  · rfl
  · grind

def Remaps (splits : List SplitFile) (c c' : Catalog) : Prop :=
  c'.collection = c.collection ∧ Mapped splits c'

section

variable (h : Files cfg s start splits act)
include h

theorem findFile_split (hstart : start ≤ n)
    (hn : n < s.activeBegin) : ∃ f ∈ splits, f.first ≤ n ∧ n < f.next ∧ ∃ c',
      s.catalog.findFile s.disk n =
        (.ok (some ((filesOf f.entries).nthPosition (n - f.first), f.mapped)), c') ∧
      Remaps splits s.catalog c' := by
  obtain ⟨pre, f, post, hsplits, hfirst, hnext, htake⟩ := h.consecutive.exists_interval hstart hn
  have hf : f ∈ splits := by simp [hsplits]
  have hstored := h.stored f hf
  have hbound := (h.first_lt hf).2
  have hlast : n ≤ f.item.2.lastBlockNum := by
    show n ≤ f.next - 1
    omega
  have hposition := positionOf_filesOf hstored.short hstored.numbered hfirst hnext hbound.le
  refine ⟨f, hf, hfirst, hnext, { s.catalog with active := some (pre.length, f.mapped) }, ?_, rfl, ?_⟩
  · rw [findFile, h.startingBefore_eq, htake, map_append, map_singleton, getLast?_concat]
    dsimp only
    rw [if_pos hlast, h.mapFiles_eq hf]
    dsimp only
    rw [h.mapped_eq hf, hposition]
    simp [Except.map]
  · intro i m hm
    obtain ⟨rfl, rfl⟩ := Prod.mk.inj (Option.some.inj hm)
    exact ⟨f, by simp [hsplits], rfl⟩

theorem findFile_none (hn : n < start ∨ s.activeBegin ≤ n) :
    s.catalog.findFile s.disk n = (.ok none, s.catalog) := by
  rw [findFile, h.startingBefore_eq]
  rcases hn with hn | hn
  · rw [h.consecutive.takeWhile_eq_nil hn]
    rfl
  rw [h.consecutive.takeWhile_eq_self hn]
  cases hlast : (splits.map item).getLast? with
  | none => rfl
  | some e =>
    obtain ⟨f, hf, rfl⟩ := mem_map.mp (mem_of_getLast? hlast)
    obtain ⟨hlt, -, hnext⟩ := h.consecutive.mem hf
    have hnot : ¬n ≤ f.item.2.lastBlockNum := by
      show ¬n ≤ f.next - 1
      omega
    dsimp only
    rw [if_neg hnot]

theorem getBlockPosition_split (hmapped : Mapped splits s.catalog)
    (hstart : start ≤ n) (hn : n < s.activeBegin) : ∃ f ∈ splits, f.first ≤ n ∧ n < f.next ∧ ∃ c',
      s.catalog.getBlockPosition s.disk n =
        (.ok (some ((filesOf f.entries).nthPosition (n - f.first), f.mapped)), c') ∧
      Remaps splits s.catalog c' := by
  rw [getBlockPosition, activeItem]
  cases hactive : s.catalog.active with
  | none => exact h.findFile_split hstart hn
  | some im =>
    obtain ⟨i, m⟩ := im
    obtain ⟨f, hf, rfl⟩ := hmapped i m hactive
    have hitem : s.catalog.collection.entries[i]? = some f.item := by
      rw [h.collection, getElem?_map, hf]
      rfl
    dsimp only
    rw [hitem]
    by_cases hrange : f.item.1 ≤ n ∧ n ≤ f.item.2.lastBlockNum
    · have hmem := mem_of_getElem? hf
      have hstored := h.stored f hmem
      obtain ⟨hlt, hbound⟩ := h.first_lt hmem
      have hfirst : f.first ≤ n := hrange.1
      have hnext : n < f.next := by
        have hlast : n ≤ f.next - 1 := hrange.2
        omega
      refine ⟨f, hmem, hfirst, hnext, s.catalog, ?_, rfl, hmapped⟩
      simp only [pure, Except.pure]
      rw [if_pos hrange, h.mapped_eq hmem,
        positionOf_filesOf hstored.short hstored.numbered hfirst hnext hbound.le]
      rfl
    · simp only [pure, Except.pure]
      rw [if_neg hrange]
      exact h.findFile_split hstart hn

theorem getBlockPosition_none (hmapped : Mapped splits s.catalog)
    (hn : n < start ∨ s.activeBegin ≤ n) :
    s.catalog.getBlockPosition s.disk n = (.ok none, s.catalog) := by
  rw [getBlockPosition, activeItem]
  cases hactive : s.catalog.active with
  | none => exact h.findFile_none hn
  | some im =>
    obtain ⟨i, m⟩ := im
    obtain ⟨f, hf, rfl⟩ := hmapped i m hactive
    have hitem : s.catalog.collection.entries[i]? = some f.item := by
      rw [h.collection, getElem?_map, hf]
      rfl
    obtain ⟨hlt, hfirst, hnext⟩ := h.consecutive.mem (mem_of_getElem? hf)
    have hrange : ¬(f.item.1 ≤ n ∧ n ≤ f.item.2.lastBlockNum) := by
      show ¬(f.first ≤ n ∧ n ≤ f.next - 1)
      omega
    dsimp only
    rw [hitem]
    simp only [pure, Except.pure]
    rw [if_neg hrange]
    exact h.findFile_none hn

end

end Files

/-! ## The log -/

theorem getBlockPosition_exec (s : Log) (n : ℕ) :
    (Log.getBlockPosition n).exec s = ((s.catalog.getBlockPosition s.disk n).1,
      { s with catalog := (s.catalog.getBlockPosition s.disk n).2 }) := rfl

theorem idForBlock_exec (s : Log) (n : ℕ) :
    (Log.idForBlock n).exec s =
      match (s.catalog.getBlockPosition s.disk n).1 with
      | .error e => (.error e, { s with catalog := (s.catalog.getBlockPosition s.disk n).2 })
      | .ok none => (.ok none, { s with catalog := (s.catalog.getBlockPosition s.disk n).2 })
      | .ok (some (position, m)) =>
        ((headerAt .undefinedBehaviour (s.disk.mapped m).data position).map fun header =>
            some header.blockId,
          { s with catalog := (s.catalog.getBlockPosition s.disk n).2 }) := by
  rw [Log.idForBlock, exec_bind, getBlockPosition_exec]
  cases (s.catalog.getBlockPosition s.disk n).1 with
  | error e => rfl
  | ok found =>
    cases found with
    | none => rfl
    | some pm =>
      obtain ⟨position, m⟩ := pm
      simp only [exec_bind, exec_get]
      cases headerAt .undefinedBehaviour (s.disk.mapped m).data position with
      | error e => rfl
      | ok header => rfl

theorem roStreamForBlock_exec (s : Log) (n : ℕ) :
    (Log.roStreamForBlock n).exec s =
      match (s.catalog.getBlockPosition s.disk n).1 with
      | .error e => (.error e, { s with catalog := (s.catalog.getBlockPosition s.disk n).2 })
      | .ok none => (.ok [], { s with catalog := (s.catalog.getBlockPosition s.disk n).2 })
      | .ok (some (position, m)) => (payloadAt (s.disk.mapped m).data position,
          { s with catalog := (s.catalog.getBlockPosition s.disk n).2 }) := by
  rw [Log.roStreamForBlock, exec_bind, getBlockPosition_exec]
  cases (s.catalog.getBlockPosition s.disk n).1 with
  | error e => rfl
  | ok found =>
    cases found with
    | none => rfl
    | some pm => rfl

namespace Holds

theorem getEntryHeader_eq (h : Holds cfg s start splits act) (hbegin : s.activeBegin ≤ n)
    {e : StoredEntry} (he : act[n - s.activeBegin]? = some e) :
    s.getEntryHeader n =
      .ok (e.header, (filesOf act).nthPosition (n - s.activeBegin) + headerSize) := by
  have hended := h.ended
  have hlt := (List.getElem?_eq_some_iff.mp he).1
  have hindex : 8 * (n - s.activeBegin) + 8 ≤ (filesOf act).index.length := by
    rw [length_index_filesOf]
    omega
  rw [Log.getEntryHeader, Log.getPos, h.active]
  refine bind_ok_iff.mpr ⟨(), check_ok_iff.mpr (by omega), ?_⟩
  refine bind_ok_iff.mpr ⟨_, bind_ok_iff.mpr ⟨(), check_ok_iff.mpr hindex, rfl⟩, ?_⟩
  refine bind_ok_iff.mpr ⟨_, headerAt_filesOf h.short _ he, ?_⟩
  exact bind_ok_iff.mpr ⟨(), check_ok_iff.mpr current_supported, rfl⟩

theorem entryFor_none (h : Holds cfg s start splits act) (hn : n < start ∨ s.activeEnd ≤ n) :
    entryFor (flat splits act) n = none := by
  have hended := h.ended
  rcases hn with hlt | hge
  · rw [entryFor_of_numbered h.numbered_flat, if_neg (by omega)]
  · rw [h.entryFor_active (by omega), getElem?_eq_none (by omega)]

/-- The state after a read: another file may be mapped. -/
def Reread (splits : List SplitFile) (s s' : Log) : Prop :=
  ∃ c', s' = { s with catalog := c' } ∧ Files.Remaps splits s.catalog c'

theorem getBlockId_eq (h : Holds cfg s start splits act) (hmapped : Mapped splits s.catalog)
    (n : ℕ) : ∃ s', (Log.getBlockId n).exec s =
      (.ok ((entryFor (flat splits act) n).map StoredEntry.blockId), s') ∧ Reread splits s s' := by
  have hended := h.ended
  rw [Log.getBlockId, exec_bind, idForBlock_exec]
  by_cases hsplit : start ≤ n ∧ n < s.activeBegin
  · obtain ⟨f, hf, hfirst, hnext, c', hposition, hremaps⟩ :=
      h.getBlockPosition_split hmapped hsplit.1 hsplit.2
    have hstored := h.stored f hf
    obtain ⟨e, he⟩ : ∃ e, f.entries[n - f.first]? = some e := by
      rw [SplitFile.next] at hnext
      exact ⟨_, getElem?_eq_getElem (by omega)⟩
    rw [hposition, h.entryFor_split hf hfirst hnext, he]
    dsimp only
    rw [h.mapped_eq hf, headerAt_filesOf hstored.short _ he]
    exact ⟨_, rfl, c', rfl, hremaps⟩
  · rw [h.getBlockPosition_none hmapped (by omega)]
    have hself : Files.Remaps splits s.catalog s.catalog := ⟨rfl, hmapped⟩
    simp only [exec_bind, exec_get]
    by_cases hactive : s.activeBegin ≤ n ∧ n < s.activeEnd
    · obtain ⟨e, he⟩ : ∃ e, act[n - s.activeBegin]? = some e := ⟨_, getElem?_eq_getElem (by omega)⟩
      rw [if_pos ⟨trivial, hactive⟩, h.entryFor_active hactive.1, he]
      refine ⟨s, ?_, s.catalog, rfl, hself⟩
      rw [exec_bind, exec_ofExcept, h.getEntryHeader_eq hactive.1 he]
      rfl
    · have hnone := h.entryFor_none (n := n) (by omega)
      rw [if_neg fun hcond => hactive hcond.2, hnone]
      exact ⟨s, rfl, s.catalog, rfl, hself⟩

end Holds

/-! ## Payloads of the chain state log -/

theorem Zlib.pack_ne_nil (z : Zlib) (raw : Bytes) : z.pack raw ≠ [] := by
  rw [Zlib.pack]
  split_ifs <;> simp [le]

/-- What was packed is unpacked, if the length of the compressed bytes fits into 32 bits. -/
theorem Zlib.unpack_pack (z : Zlib) {raw : Bytes} (hlength : (z.compress raw).length < 2 ^ 32)
    (rest : Bytes) : z.unpack (z.pack raw ++ rest) = .ok raw := by
  by_cases hraw : raw = []
  · subst hraw
    rfl
  have hpos := length_pos_of_ne_nil (z.compress_ne_nil raw)
  have hpack : z.pack raw = le 4 (z.compress raw).length ++ z.compress raw := if_neg hraw
  have hlen : ofLe ((z.pack raw ++ rest).take 4) = (z.compress raw).length := by
    rw [hpack, append_assoc, take_left' (length_le 4 _), ofLe_le hlength]
  have hdrop : ((z.pack raw ++ rest).drop 4).take (z.compress raw).length = z.compress raw := by
    rw [hpack, append_assoc, drop_left' (length_le 4 _), take_left]
  refine bind_ok_iff.mpr ⟨(), check_ok_iff.mpr ?_, ?_⟩
  · rw [hpack]
    simp
  · dsimp only
    rw [hlen, if_pos hpos, hdrop, z.decompress_compress]
    rfl

namespace Holds

/-- A read of the chain state log returns what was stored for the block; `raw` is what was packed
into the payload. -/
theorem getLogEntry_eq (h : Holds cfg s start splits act) (hmapped : Mapped splits s.catalog)
    (z : Zlib) (raw : StoredEntry → Bytes)
    (hraw : ∀ e ∈ flat splits act, e.payload = z.pack (raw e) ∧ (z.compress (raw e)).length < 2 ^ 32)
    (n : ℕ) : ∃ s', (Log.getLogEntry z n).exec s =
      (.ok (((entryFor (flat splits act) n).map raw).getD []), s') ∧ Reread splits s s' := by
  have hended := h.ended
  rw [Log.getLogEntry, exec_bind, roStreamForBlock_exec]
  by_cases hsplit : start ≤ n ∧ n < s.activeBegin
  · obtain ⟨f, hf, hfirst, hnext, c', hposition, hremaps⟩ :=
      h.getBlockPosition_split hmapped hsplit.1 hsplit.2
    have hstored := h.stored f hf
    obtain ⟨e, he⟩ : ∃ e, f.entries[n - f.first]? = some e := by
      rw [SplitFile.next] at hnext
      exact ⟨_, getElem?_eq_getElem (by omega)⟩
    obtain ⟨hpayload, hcompressed⟩ := hraw e (mem_append_left _
      (mem_flatMap.mpr ⟨f, hf, mem_of_getElem? he⟩))
    have hunpack := z.unpack_pack hcompressed []
    rw [append_nil] at hunpack
    rw [hposition, h.entryFor_split hf hfirst hnext, he]
    dsimp only
    rw [h.mapped_eq hf, payloadAt_filesOf hstored.short he, hpayload]
    simp only [exec_bind, exec_get]
    rw [if_pos (z.pack_ne_nil _), exec_ofExcept, hunpack]
    exact ⟨_, rfl, c', rfl, hremaps⟩
  · rw [h.getBlockPosition_none hmapped (by omega)]
    have hself : Files.Remaps splits s.catalog s.catalog := ⟨rfl, hmapped⟩
    change ∃ s', Stateful.exec (if n < s.beginBlock ∨ n ≥ s.activeEnd then _ else _) s = _ ∧ _
    rw [h.beginBlock_eq]
    by_cases hactive : s.activeBegin ≤ n ∧ n < s.activeEnd
    · have hle := h.start_le
      obtain ⟨e, he⟩ : ∃ e, act[n - s.activeBegin]? = some e := ⟨_, getElem?_eq_getElem (by omega)⟩
      obtain ⟨rest, hrest⟩ := exists_drop_eq h.short he
      obtain ⟨hpayload, hcompressed⟩ := hraw e (mem_append_right _ (mem_of_getElem? he))
      rw [if_neg (by omega), h.entryFor_active hactive.1, he]
      refine ⟨s, ?_, s.catalog, rfl, hself⟩
      rw [exec_bind, exec_ofExcept, h.getEntryHeader_eq hactive.1 he]
      dsimp only
      rw [exec_ofExcept, h.active, drop_header hrest, hpayload, z.unpack_pack hcompressed]
      rfl
    · have hnone := h.entryFor_none (n := n) (by omega)
      rw [if_pos (by omega), hnone]
      exact ⟨s, rfl, s.catalog, rfl, hself⟩

end Holds

end

end DcdProtocol.StateHistory
