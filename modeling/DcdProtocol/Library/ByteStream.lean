import DcdProtocol.Library.ByteString

/-!
# Files that are written in place

A `Stream` is a file with a position.  Writing replaces the bytes from the position on and may make
the file longer.  A sequence of writes is one write of all the bytes (`overwrite_append`), and a
write within a part of the file changes nothing else (`overwrite_within`).  To pass over bytes is
the same as to write them again (`overwrite_self`).
-/

namespace DcdProtocol.Library

open List

/-- The bytes with those from `pos` on replaced; the gap up to `pos`, if there is one, is zero. -/
def overwrite (bs : Bytes) (pos : ℕ) (data : Bytes) : Bytes :=
  bs.take pos ++ replicate (pos - bs.length) 0 ++ data ++ bs.drop (pos + data.length)

theorem overwrite_of_le {bs data : Bytes} {pos : ℕ} (hpos : pos ≤ bs.length) :
    overwrite bs pos data = bs.take pos ++ data ++ bs.drop (pos + data.length) := by
  rw [overwrite, Nat.sub_eq_zero_of_le hpos, replicate_zero, append_nil]

theorem overwrite_append {bs first second : Bytes} {pos : ℕ} (hpos : pos ≤ bs.length) :
    overwrite (overwrite bs pos first) (pos + first.length) second =
      overwrite bs pos (first ++ second) := by
  have hlength : (bs.take pos ++ first).length = pos + first.length := by grind
  have hle : pos + first.length ≤ (overwrite bs pos first).length := by
    rw [overwrite_of_le hpos, length_append, hlength]
    exact Nat.le_add_right _ _
  have hdrop : (overwrite bs pos first).drop (pos + first.length + second.length) =
      bs.drop (pos + (first ++ second).length) := by
    rw [overwrite_of_le hpos, ← drop_drop, drop_left' hlength, drop_drop,
      length_append, Nat.add_assoc]
  rw [overwrite_of_le hle, hdrop]
  rw [overwrite_of_le hpos, overwrite_of_le hpos, take_left' hlength, append_assoc (bs.take pos)]

theorem overwrite_self {bs : Bytes} {pos n : ℕ} (hpos : pos + n ≤ bs.length) :
    overwrite bs pos ((bs.drop pos).take n) = bs := by
  have hlength : ((bs.drop pos).take n).length = n := by grind
  rw [overwrite_of_le (by omega), hlength, append_assoc, ← drop_drop,
    take_append_drop, take_append_drop]

/-- A write within the part `part` of a file. -/
theorem overwrite_within {before part after data : Bytes} (hdata : data.length ≤ part.length) :
    overwrite (before ++ part ++ after) before.length data =
      before ++ (data ++ part.drop data.length) ++ after := by
  have hpos : before.length ≤ (before ++ part ++ after).length := by simp
  rw [overwrite_of_le hpos, append_assoc before, take_left, ← drop_drop,
    drop_left, drop_append_of_le_length hdata]
  simp only [append_assoc]

structure Stream where
  bytes : Bytes
  pos : ℕ
  deriving DecidableEq

namespace Stream

def tellp (s : Stream) : ℕ := s.pos

def seekp (s : Stream) (pos : ℕ) : Stream := { s with pos }

def skip (s : Stream) (n : ℕ) : Stream := { s with pos := s.pos + n }

def write (s : Stream) (data : Bytes) : Stream :=
  ⟨overwrite s.bytes s.pos data, s.pos + data.length⟩

def remaining (s : Stream) : Bytes := s.bytes.drop s.pos

variable {s : Stream}

theorem write_nil (h : s.pos ≤ s.bytes.length) : s.write [] = s := by
  rw [write, overwrite_of_le h, append_nil, length_nil, Nat.add_zero, take_append_drop]

theorem write_append (h : s.pos ≤ s.bytes.length) (first second : Bytes) :
    s.write (first ++ second) = (s.write first).write second := by
  simp only [write, overwrite_append h, length_append, Nat.add_assoc]

theorem pos_write_le (h : s.pos ≤ s.bytes.length) (data : Bytes) :
    (s.write data).pos ≤ (s.write data).bytes.length := by
  simp only [write, overwrite_of_le h, length_append, length_take_of_le h]
  omega

/-- Passing over bytes is the same as writing them. -/
theorem skip_eq_write {data after : Bytes} (h : s.bytes.drop s.pos = data ++ after)
    (hpos : s.pos ≤ s.bytes.length) : s.skip data.length = s.write data := by
  have hlength : s.pos + data.length ≤ s.bytes.length := by
    have hdrop := congrArg length h
    rw [length_drop, length_append] at hdrop
    omega
  have hself := overwrite_self hlength
  rw [h, take_left] at hself
  rw [skip, write, hself]

end Stream

end DcdProtocol.Library
