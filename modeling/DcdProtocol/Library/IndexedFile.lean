import DcdProtocol.Library.ByteString

/-!
# Files of records with an index

A data file starts with a header; then come records, each followed by the position at which it
starts.  A second file, the index, lists the positions in order.  So a record is found from its
number by the index, and the last record is found from the end of the data file alone.

Positions are little-endian numbers of eight bytes; `le` and `ofLe` are the encoding of a number in
a given number of bytes.  The results are about `ofRecords`, the two files that appending records to
a header gives: `drop_nthPosition` finds a record by its number and `lastPosition_eq` from the end.
-/

namespace DcdProtocol.Library

open List

/-! ## Numbers of a fixed width -/

/-- The `k` low bytes of a number, least significant first. -/
def le : ℕ → ℕ → Bytes
  | 0, _ => []
  | k + 1, n => ⟨n % 256, Nat.mod_lt _ (by decide)⟩ :: le k (n / 256)

def ofLe : Bytes → ℕ
  | [] => 0
  | b :: bs => b.val + 256 * ofLe bs

@[simp] theorem length_le (k n : ℕ) : (le k n).length = k := by
  induction k generalizing n with
  | zero => rfl
  | succ k ih => rw [le, length_cons, ih]

theorem ofLe_le {k n : ℕ} (hn : n < 256 ^ k) : ofLe (le k n) = n := by
  induction k generalizing n with
  | zero =>
    simp only [pow_zero, Nat.lt_one_iff] at hn
    rw [hn]
    rfl
  | succ k ih =>
    have hdiv : n / 256 < 256 ^ k := by omega
    rw [le, ofLe, ih hdiv]
    exact Nat.mod_add_div n 256

/-! ## The two files -/

structure IndexedFile where
  data : Bytes
  index : Bytes
  deriving DecidableEq

namespace IndexedFile

variable (f : IndexedFile)

/-- A record and its position at the end of the data file; the position at the end of the index. -/
def append (record : Bytes) : IndexedFile :=
  ⟨f.data ++ record ++ le 8 f.data.length, f.index ++ le 8 f.data.length⟩

/-- The position that the data file ends with. -/
def lastPosition : ℕ := ofLe (f.data.drop (f.data.length - 8))

/-- The position of a record, from the index. -/
def nthPosition (n : ℕ) : ℕ := ofLe ((f.index.drop (8 * n)).take 8)

/-- The files after the records were appended to a data file that has only a header. -/
def ofRecords (header : Bytes) (records : List Bytes) : IndexedFile :=
  records.foldl append ⟨header, []⟩

variable {header : Bytes} {records : List Bytes}

@[simp] theorem ofRecords_nil : ofRecords header [] = ⟨header, []⟩ := rfl

theorem ofRecords_concat (record : Bytes) :
    ofRecords header (records ++ [record]) = (ofRecords header records).append record := by
  rw [ofRecords, foldl_append]
  rfl

theorem length_index : (ofRecords header records).index.length = 8 * records.length := by
  induction records using reverseRecOn with
  | nil => rfl
  | append_singleton records record ih =>
    rw [ofRecords_concat, append, length_append, ih, length_le, length_append, length_singleton]
    omega

/-- The data file starts with the header; it has more exactly if there are records. -/
theorem exists_data_eq (header : Bytes) (records : List Bytes) :
    ∃ rest, (ofRecords header records).data = header ++ rest ∧ (rest = [] ↔ records = []) := by
  induction records using reverseRecOn with
  | nil => exact ⟨[], by simp⟩
  | append_singleton records record ih =>
    obtain ⟨rest, hrest, -⟩ := ih
    refine ⟨rest ++ record ++ le 8 (ofRecords header records).data.length, ?_, ?_⟩
    · rw [ofRecords_concat, append, hrest]
      simp only [append_assoc]
    have hne : le 8 (ofRecords header records).data.length ≠ [] := by
      intro hnil
      have := congrArg length hnil
      simp at this
    simp [hne]

theorem length_data_append (record : Bytes) : (f.append record).data.length =
    f.data.length + record.length + 8 := by
  rw [append, length_append, length_append, length_le]

theorem lastPosition_append (record : Bytes) (hlength : f.data.length < 256 ^ 8) :
    (f.append record).lastPosition = f.data.length := by
  have hdrop : (f.append record).data.length - 8 = (f.data ++ record).length := by
    rw [length_data_append, length_append]
    omega
  rw [lastPosition, hdrop, append, drop_left, ofLe_le hlength]

theorem eight_le_length (hne : records ≠ []) : 8 ≤ (ofRecords header records).data.length := by
  obtain ⟨records, record, rfl⟩ := eq_nil_or_concat' records |>.resolve_left hne
  rw [ofRecords_concat, length_data_append]
  omega

/-- The earlier part of the index is as it was. -/
theorem nthPosition_append_of_le (record : Bytes) {n : ℕ} (hn : 8 * n + 8 ≤ f.index.length) :
    (f.append record).nthPosition n = f.nthPosition n := by
  rw [nthPosition, nthPosition, append, drop_append_of_le_length (by omega),
    take_append_of_le_length (by rw [length_drop]; omega)]

theorem nthPosition_append_self (record : Bytes) {n : ℕ} (hn : f.index.length = 8 * n)
    (hlength : f.data.length < 256 ^ 8) : (f.append record).nthPosition n = f.data.length := by
  rw [nthPosition, append, ← hn, drop_left, take_of_length_le (by simp), ofLe_le hlength]

section

variable (hlength : (ofRecords header records).data.length < 256 ^ 8)
include hlength

/-- A record is at the position that the index has for its number. -/
theorem drop_nthPosition {n : ℕ} (hn : n < records.length) :
    (ofRecords header records).nthPosition n ≤ (ofRecords header records).data.length ∧
    ∃ rest, (ofRecords header records).data.drop ((ofRecords header records).nthPosition n) =
      records.get ⟨n, hn⟩ ++ rest ∧ rest ≠ [] := by
  induction records using reverseRecOn with
  | nil => simp at hn
  | append_singleton records record ih =>
    rw [ofRecords_concat] at hlength ⊢
    generalize hf : ofRecords header records = f at hlength ih ⊢
    have hindex : f.index.length = 8 * records.length := hf ▸ length_index
    rw [length_data_append] at hlength
    rcases Nat.lt_or_ge n records.length with hlt | hge
    · obtain ⟨hle, rest, hrest, hne⟩ := ih (by omega) hlt
      rw [nthPosition_append_of_le f record (by omega)]
      refine ⟨by rw [length_data_append]; omega, rest ++ record ++ le 8 f.data.length, ?_,
        by simp [hne]⟩
      rw [append, append_assoc, drop_append_of_le_length hle, hrest]
      simp [getElem_append_left hlt]
    · obtain rfl : n = records.length := by
        simp only [length_append, length_singleton] at hn
        omega
      rw [nthPosition_append_self f record hindex (by omega)]
      refine ⟨by rw [length_data_append]; omega, le 8 f.data.length, ?_, by simp [le]⟩
      rw [append, append_assoc, drop_left]
      simp

/-- The data file ends with the last position of the index. -/
theorem lastPosition_eq (hne : records ≠ []) :
    (ofRecords header records).lastPosition =
      (ofRecords header records).nthPosition (records.length - 1) := by
  obtain ⟨records, record, rfl⟩ := eq_nil_or_concat' records |>.resolve_left hne
  rw [ofRecords_concat] at hlength ⊢
  generalize hf : ofRecords header records = f at hlength ⊢
  have hindex : f.index.length = 8 * records.length := hf ▸ length_index
  rw [length_data_append] at hlength
  rw [lastPosition_append f record (by omega), length_append, length_singleton,
    Nat.add_sub_cancel, nthPosition_append_self f record hindex (by omega)]

/-- Cutting both files off where a record starts leaves the records before it. -/
theorem ofRecords_take {n : ℕ} (hn : n < records.length) :
    ofRecords header (records.take n) =
      ⟨(ofRecords header records).data.take ((ofRecords header records).nthPosition n),
        (ofRecords header records).index.take (8 * n)⟩ := by
  induction records using reverseRecOn with
  | nil => simp at hn
  | append_singleton records record ih =>
    rw [ofRecords_concat] at hlength ⊢
    rw [length_data_append] at hlength
    have hindex : (ofRecords header records).index.length = 8 * records.length := length_index
    rcases Nat.lt_or_ge n records.length with hlt | hge
    · have hlength' : (ofRecords header records).data.length < 256 ^ 8 := by omega
      have hle := (drop_nthPosition hlength' hlt).1
      rw [take_append_of_le_length hlt.le, ih hlength' hlt,
        nthPosition_append_of_le _ record (by omega), append]
      rw [append_assoc, take_append_of_le_length hle, take_append_of_le_length (by omega)]
    · obtain rfl : n = records.length := by
        simp only [length_append, length_singleton] at hn
        omega
      rw [take_left, nthPosition_append_self _ record hindex (by omega), append]
      rw [append_assoc, take_left, ← hindex, take_left]

end

end IndexedFile

end DcdProtocol.Library
