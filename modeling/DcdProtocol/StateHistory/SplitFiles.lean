import DcdProtocol.Library.Intervals
import DcdProtocol.StateHistory.Log

/-!
# The entries in the files of the log

Every pair of files of the log is that of a list of entries (`filesOf`), from which the header and
the payload of each entry are read back by its number.  `Holds` relates the log to these lists: the
catalog has one item for each split file, the split files hold consecutive blocks up to the first
block of the active one, and the names in the directory refer to the split files and to no others.

The results are one lemma for each way in which the files change: cutting the log off at a block,
appending an entry, and splitting.
-/

namespace DcdProtocol.StateHistory

open Library List IndexedFile
open Chain (Sha256 numFromId)
open BlockLog (FileName splitName printed CatalogEntry)

/-! ## Reading entries back -/

theorem unpackWord_packWord (w : UInt64) (rest : Bytes) : unpackWord (packWord w ++ rest) = w := by
  have hlength : (packWord w).length = 8 := length_le 8 _
  rw [unpackWord, take_append_of_le_length hlength.ge, take_of_length_le hlength.le,
    packWord, ofLe_le w.toNat_lt]
  exact UInt64.ofNat_toNat

theorem unpackId_packId (id : Sha256) (rest : Bytes) : unpackId (packId id ++ rest) = id := by
  obtain ⟨h0, h1, h2, h3⟩ := id
  have hdrop (w : UInt64) (n : ℕ) (tail : Bytes) :
      (packWord w ++ tail).drop (8 + n) = tail.drop n := by
    have hlength : (packWord w).length = 8 := length_le 8 _
    rw [← drop_drop, drop_left' hlength]
  simp only [unpackId, packId, append_assoc]
  rw [hdrop h0 0, hdrop h0 8, hdrop h1 0, hdrop h0 16, hdrop h1 8, hdrop h2 0]
  simp only [drop_zero, unpackWord_packWord]

theorem length_packId (id : Sha256) : (packId id).length = 32 := by
  simp [packId, packWord]

theorem length_packEntry (id : Sha256) (payload : Bytes) :
    (packEntry id payload).length = headerSize + payload.length := by
  simp [packEntry, packWord, length_packId, headerSize]
  omega

theorem current_supported : isShip (shipMagic shipCurrentVersion) = true ∧
    isShipSupportedVersion (shipMagic shipCurrentVersion) = true := by
  decide

section reading

variable {data rest payload : Bytes} {position : ℕ} {id : Sha256}

theorem headerAt_eq (e : HistoryException)
    (hdata : data.drop position = packEntry id payload ++ rest) (hlength : payload.length < 2 ^ 64) :
    headerAt e data position = .ok ⟨shipMagic shipCurrentVersion, id, payload.length⟩ := by
  have hsize : headerSize ≤ (data.drop position).length := by
    rw [hdata, length_append, length_packEntry]
    omega
  have hid : (data.drop position).drop 8 = packId id ++ (le 8 payload.length ++ (payload ++ rest)) := by
    rw [hdata, packEntry]
    simp only [append_assoc]
    exact drop_left' (length_le 8 _)
  have hpayload : (data.drop position).drop 40 = le 8 payload.length ++ (payload ++ rest) := by
    rw [show 40 = 8 + 32 from rfl, ← drop_drop, hid, drop_left' (length_packId id)]
  refine bind_ok_iff.mpr ⟨(), check_ok_iff.mpr hsize, ?_⟩
  rw [hid, hpayload, unpackId_packId, take_left' (length_le 8 _), ofLe_le hlength, hdata,
    packEntry, append_assoc, append_assoc, append_assoc, unpackWord_packWord]
  rfl

theorem drop_header (hdata : data.drop position = packEntry id payload ++ rest) :
    data.drop (position + headerSize) = payload ++ rest := by
  rw [← drop_drop, hdata, packEntry, append_assoc]
  exact drop_left' (by simp [packWord, length_packId, headerSize])

theorem payloadAt_eq (hdata : data.drop position = packEntry id payload ++ rest)
    (hlength : payload.length < 2 ^ 64) : payloadAt data position = .ok payload := by
  have hdrop := drop_header hdata
  have hend : position + headerSize + payload.length ≤ data.length := by
    have hlen := congrArg length hdata
    rw [length_drop, length_append, length_packEntry] at hlen
    rw [headerSize] at *
    omega
  refine bind_ok_iff.mpr ⟨_, headerAt_eq _ hdata hlength, ?_⟩
  refine bind_ok_iff.mpr ⟨(), check_ok_iff.mpr current_supported, ?_⟩
  refine bind_ok_iff.mpr ⟨(), check_ok_iff.mpr hend, ?_⟩
  rw [hdrop, take_left]
  rfl

end reading

/-! ## Files of entries -/

structure StoredEntry where
  blockId : Sha256
  payload : Bytes
  deriving DecidableEq

def StoredEntry.blockNum (e : StoredEntry) : ℕ := (numFromId e.blockId).toNat

def StoredEntry.record (e : StoredEntry) : Bytes := packEntry e.blockId e.payload

def StoredEntry.header (e : StoredEntry) : LogHeader :=
  ⟨shipMagic shipCurrentVersion, e.blockId, e.payload.length⟩

def filesOf (entries : List StoredEntry) : IndexedFile :=
  .ofRecords [] (entries.map StoredEntry.record)

/-- The entries are for the blocks from `n` on. -/
def Numbered (n : ℕ) (entries : List StoredEntry) : Prop :=
  ∀ i e, entries[i]? = some e → e.blockNum = n + i

variable {entries : List StoredEntry}

theorem Numbered.take {n : ℕ} (h : Numbered n entries) (k : ℕ) : Numbered n (entries.take k) := by
  intro i e he
  rw [getElem?_take] at he
  split_ifs at he
  exact h i e he

theorem Numbered.concat {n : ℕ} (h : Numbered n entries)
    {e : StoredEntry} (he : e.blockNum = n + entries.length) : Numbered n (entries ++ [e]) := by
  intro i e' he'
  rcases Nat.lt_or_ge i entries.length with hlt | hge
  · rw [getElem?_append_left hlt] at he'
    exact h i e' he'
  · grind

variable {i : ℕ} {e : StoredEntry}

theorem length_index_filesOf : (filesOf entries).index.length = 8 * entries.length := by
  rw [filesOf, length_index, length_map]

theorem filesOf_concat (e : StoredEntry) :
    filesOf (entries ++ [e]) = (filesOf entries).append (packEntry e.blockId e.payload) := by
  rw [filesOf, map_append]
  exact ofRecords_concat _

section

variable (hlength : (filesOf entries).data.length < 2 ^ 63)
include hlength

theorem drop_nthPosition_filesOf (hi : i < entries.length) :
    (filesOf entries).nthPosition i ≤ (filesOf entries).data.length ∧
      ∃ rest, (filesOf entries).data.drop ((filesOf entries).nthPosition i) =
        (entries.get ⟨i, hi⟩).record ++ rest := by
  have hlength' : (ofRecords [] (entries.map StoredEntry.record)).data.length <
      256 ^ 8 := hlength.trans (by decide)
  obtain ⟨hle, rest, hrest, -⟩ := drop_nthPosition hlength'
    (by rwa [length_map] : i < (entries.map StoredEntry.record).length)
  exact ⟨hle, rest, by simpa [filesOf] using hrest⟩

theorem filesOf_take (hi : i < entries.length) :
    filesOf (entries.take i) = ⟨(filesOf entries).data.take ((filesOf entries).nthPosition i),
      (filesOf entries).index.take (8 * i)⟩ := by
  rw [filesOf, map_take]
  exact ofRecords_take (hlength.trans (by decide)) (by rwa [length_map])

theorem exists_drop_eq (he : entries[i]? = some e) :
    ∃ rest, (filesOf entries).data.drop ((filesOf entries).nthPosition i) =
      packEntry e.blockId e.payload ++ rest := by
  obtain ⟨hi, rfl⟩ := List.getElem?_eq_some_iff.mp he
  exact (drop_nthPosition_filesOf hlength hi).2

theorem length_payload_lt (he : entries[i]? = some e) : e.payload.length < 2 ^ 64 := by
  obtain ⟨rest, hrest⟩ := exists_drop_eq hlength he
  have hlen := congrArg length hrest
  rw [length_drop, length_append, length_packEntry] at hlen
  omega

theorem headerAt_filesOf (x : HistoryException) (he : entries[i]? = some e) :
    headerAt x (filesOf entries).data ((filesOf entries).nthPosition i) = .ok e.header := by
  obtain ⟨rest, hrest⟩ := exists_drop_eq hlength he
  exact headerAt_eq x hrest (length_payload_lt hlength he)

theorem payloadAt_filesOf (he : entries[i]? = some e) :
    payloadAt (filesOf entries).data ((filesOf entries).nthPosition i) = .ok e.payload := by
  obtain ⟨rest, hrest⟩ := exists_drop_eq hlength he
  exact payloadAt_eq hrest (length_payload_lt hlength he)

theorem nthPosition_zero (hne : entries ≠ []) : (filesOf entries).nthPosition 0 = 0 := by
  have htake := filesOf_take hlength (length_pos_of_ne_nil hne)
  have hdata := congrArg (fun f => f.data.length) htake
  simp only [take_zero, filesOf, map_nil, ofRecords_nil, length_nil, length_take] at hdata
  have hle := (drop_nthPosition_filesOf hlength (length_pos_of_ne_nil hne)).1
  rw [filesOf] at hle ⊢
  omega

theorem positionOf_filesOf {first n : ℕ}
    (hnumbered : Numbered first entries) (hfirst : first ≤ n) (hn : n < first + entries.length)
    (hbound : first + entries.length ≤ 2 ^ 32) :
    Catalog.positionOf (filesOf entries) n = .ok ((filesOf entries).nthPosition (n - first)) := by
  have hpos : 0 < entries.length := by omega
  obtain ⟨e, he⟩ : ∃ e, entries[0]? = some e := ⟨_, getElem?_eq_getElem hpos⟩
  have hheader := headerAt_filesOf hlength .undefinedBehaviour he
  rw [nthPosition_zero hlength (ne_nil_of_length_pos hpos)] at hheader
  have hnum : (numFromId e.header.blockId).toNat = first := hnumbered 0 e he
  have hmod : (n + 2 ^ 32 - first) % 2 ^ 32 = n - first := by omega
  refine bind_ok_iff.mpr ⟨_, hheader, ?_⟩
  rw [hnum, hmod]
  refine bind_ok_iff.mpr ⟨(), check_ok_iff.mpr ?_, rfl⟩
  rw [length_index_filesOf]
  omega

end

/-! ## Split files -/

theorem printed_injective {a b : ℕ} (ha : a < 2 ^ 32) (hb : b < 2 ^ 32)
    (hab : printed a = printed b) : a = b := by
  have hmod := congrArg (fun x : ℤ => x % ((2 ^ 32 : ℕ) : ℤ)) hab
  unfold printed at hmod
  simp only [Int.bmod_emod] at hmod
  omega

structure SplitFile where
  first : ℕ
  entries : List StoredEntry
  file : ℕ

namespace SplitFile

variable (f : SplitFile)

def next : ℕ := f.first + f.entries.length

def name : FileName := splitName f.first (f.next - 1)

def item : ℕ × CatalogEntry := (f.first, ⟨f.next - 1, f.name⟩)

def mapped : MappedLog :=
  ⟨f.file, (filesOf f.entries).data.length, (filesOf f.entries).index.length⟩

variable {f}

theorem first_eq_of_name_eq {g : SplitFile} (hf : f.first < 2 ^ 32) (hg : g.first < 2 ^ 32)
    (hname : f.name = g.name) : f.first = g.first := by
  rw [name, name, splitName, splitName, EmbeddingLike.apply_eq_iff_eq, Prod.mk.injEq] at hname
  exact printed_injective hf hg hname.1

end SplitFile

end DcdProtocol.StateHistory
