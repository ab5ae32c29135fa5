import DcdProtocol.Library.IndexedFile

/-!
# Serialization

A `Serial` writes values to a stream and reads them from the front of one.  Writing may fail, for a
value that is too large for the format.  What was written is read back, whatever follows it; this is
a field of the structure, so a format put together from others is correct by its construction:

* numbers of variable length, seven bits to a byte (`varint`);
* byte strings and sequences, which start with their length and are bounded (`byteArray`, `vector`);
* pairs, optional values, and alternatives with a tag (`pair`, `optional`, `variant`);
* a part of a type that another type describes (`via`).
-/

namespace DcdProtocol.Library

structure Serial (α : Type) where
  /-- Fails for a value that the format cannot hold. -/
  pack : α → Option Bytes
  /-- The value at the front of a stream, and the rest. -/
  unpack : Bytes → Option (α × Bytes)
  unpack_pack : ∀ {a bs}, pack a = some bs → ∀ rest, unpack (bs ++ rest) = some (a, rest)

/-! ## Numbers -/

/-- The first `k` groups of seven bits, least significant first; all but the last have the high
bit. -/
def packVarint : ℕ → ℕ → Bytes
  | 0, _ => []
  | k + 1, n =>
    if n < 128 then [Fin.ofNat 256 n]
    else Fin.ofNat 256 (n % 128 + 128) :: packVarint k (n / 128)

/-- Reads at most `k` bytes. -/
def unpackVarint : ℕ → Bytes → Option (ℕ × Bytes)
  | 0, bs => some (0, bs)
  | _ + 1, [] => none
  | k + 1, b :: bs =>
    if b.val < 128 then some (b.val, bs)
    else (unpackVarint k bs).map fun r => (b.val - 128 + 128 * r.1, r.2)

theorem unpackVarint_packVarint {k n : ℕ} (hn : n < 128 ^ k) (rest : Bytes) :
    unpackVarint k (packVarint k n ++ rest) = some (n, rest) := by
  induction k generalizing n with
  | zero =>
    simp only [pow_zero, Nat.lt_one_iff] at hn
    subst hn
    rfl
  | succ k ih =>
    by_cases hsmall : n < 128
    · have hval : (Fin.ofNat 256 n).val = n := Nat.mod_eq_of_lt (by omega)
      simp only [packVarint, if_pos hsmall, List.singleton_append, unpackVarint, hval]
    have hval : (Fin.ofNat 256 (n % 128 + 128)).val = n % 128 + 128 := Nat.mod_eq_of_lt (by omega)
    have hdiv : n / 128 < 128 ^ k := by omega
    simp only [packVarint, if_neg hsmall, List.cons_append, unpackVarint, hval, ih hdiv,
      Option.map_some]
    rw [if_neg (by omega), Nat.add_sub_cancel, Nat.mod_add_div]

variable {α β : Type}

section

variable {x : Option α} {f : α → Option β} {a a' : α} {b : β}

theorem bind_some_iff : (x >>= f) = some b ↔ ∃ a, x = some a ∧ f a = some b :=
  Option.bind_eq_some_iff

theorem pure_some_iff : pure a = some a' ↔ a = a' := Option.some_inj

theorem some_bind : some a >>= f = f a := rfl

end

namespace Serial

def byte : Serial (Fin 256) where
  pack b := some [b]
  unpack
    | [] => none
    | b :: bs => some (b, bs)
  unpack_pack h rest := by
    cases h
    rfl

def word : Serial UInt64 where
  pack w := some (le 8 w.toNat)
  unpack bs := if 8 ≤ bs.length then some (.ofNat (ofLe (bs.take 8)), bs.drop 8) else none
  unpack_pack := by
    intro w bs h rest
    cases h
    have hlength : (le 8 w.toNat).length = 8 := length_le 8 _
    rw [if_pos (by rw [List.length_append, hlength]; omega), List.take_left' hlength,
      List.drop_left' hlength, ofLe_le (lt_of_lt_of_eq w.toNat_lt (by decide)), UInt64.ofNat_toNat]

def word32 : Serial UInt32 where
  pack w := some (le 4 w.toNat)
  unpack bs := if 4 ≤ bs.length then some (.ofNat (ofLe (bs.take 4)), bs.drop 4) else none
  unpack_pack := by
    intro w bs h rest
    cases h
    have hlength : (le 4 w.toNat).length = 4 := length_le 4 _
    rw [if_pos (by rw [List.length_append, hlength]; omega), List.take_left' hlength,
      List.drop_left' hlength, ofLe_le (lt_of_lt_of_eq w.toNat_lt (by decide)), UInt32.ofNat_toNat]

/-- A number of 32 bits, in at most five bytes. -/
def varint : Serial ℕ where
  pack n := if n < 2 ^ 32 then some (packVarint 5 n) else none
  unpack bs := (unpackVarint 5 bs).map fun r => (r.1 % 2 ^ 32, r.2)
  unpack_pack := by
    intro n bs h rest
    split at h
    case isTrue hn =>
      cases h
      rw [unpackVarint_packVarint (lt_trans hn (by decide)), Option.map_some, Nat.mod_eq_of_lt hn]
    case isFalse => cases h

/-! ## Pairs and parts of types -/

def pair (s : Serial α) (t : Serial β) : Serial (α × β) where
  pack p := do
    let first ← s.pack p.1
    let second ← t.pack p.2
    pure (first ++ second)
  unpack bs := do
    let (a, bs) ← s.unpack bs
    let (b, bs) ← t.unpack bs
    pure ((a, b), bs)
  unpack_pack := by
    rintro ⟨a, b⟩ bs h rest
    simp only [bind_some_iff, pure_some_iff] at h
    obtain ⟨first, hfirst, second, hsecond, rfl⟩ := h
    rw [List.append_assoc, s.unpack_pack hfirst]
    simp only [some_bind, t.unpack_pack hsecond, Option.pure_def]

variable {bs : Bytes} {as : List α} {s : Serial α} {a : α}

theorem pair_pack_eq_some_iff {t : Serial β} {b : β} :
    (s.pair t).pack (a, b) = some bs ↔
      ∃ first, s.pack a = some first ∧ ∃ second, t.pack b = some second ∧ first ++ second = bs := by
  simp only [pair, bind_some_iff, pure_some_iff]

/-- The values of `α` that have a form in `β`, written in that form.  Not every form is that of a
value. -/
def via (s : Serial β) (form : α → Option β) (value : β → Option α)
    (hvalue : ∀ {a b}, form a = some b → value b = some a) : Serial α where
  pack a := (form a).bind s.pack
  unpack bs := do
    let (b, bs) ← s.unpack bs
    let a ← value b
    pure (a, bs)
  unpack_pack := by
    intro a bs h rest
    obtain ⟨b, hform, hpack⟩ := Option.bind_eq_some_iff.mp h
    simp only [s.unpack_pack hpack, some_bind, hvalue hform,
      Option.pure_def]

/-- Alternatives: the tag says how the value is written. -/
def variant (tag : Serial ℕ) (index : α → ℕ) (alternative : ℕ → Option (Serial α)) : Serial α where
  pack a := do
    let s ← alternative (index a)
    let first ← tag.pack (index a)
    let second ← s.pack a
    pure (first ++ second)
  unpack bs := do
    let (i, bs) ← tag.unpack bs
    let s ← alternative i
    s.unpack bs
  unpack_pack := by
    intro a bs h rest
    simp only [bind_some_iff, pure_some_iff] at h
    obtain ⟨s, hs, first, hfirst, second, hsecond, rfl⟩ := h
    rw [List.append_assoc, tag.unpack_pack hfirst]
    simp only [some_bind, hs, s.unpack_pack hsecond]

/-! ## Sequences -/

def packAll (s : Serial α) : List α → Option Bytes
  | [] => some []
  | a :: as => do
    let first ← s.pack a
    let rest ← s.packAll as
    pure (first ++ rest)

def unpackAll (s : Serial α) : ℕ → Bytes → Option (List α × Bytes)
  | 0, bs => some ([], bs)
  | n + 1, bs => do
    let (a, bs) ← s.unpack bs
    let (as, bs) ← s.unpackAll n bs
    pure (a :: as, bs)

theorem packAll_cons_eq_some_iff :
    s.packAll (a :: as) = some bs ↔
      ∃ first, s.pack a = some first ∧ ∃ rest, s.packAll as = some rest ∧ first ++ rest = bs := by
  simp only [packAll, bind_some_iff, pure_some_iff]

theorem packAll_concat {last : Bytes} (h : s.packAll as = some bs) (hlast : s.pack a = some last) :
    s.packAll (as ++ [a]) = some (bs ++ last) := by
  induction as generalizing bs with
  | nil =>
    cases h
    exact packAll_cons_eq_some_iff.mpr ⟨last, hlast, [], rfl, List.append_nil _⟩
  | cons a' as ih =>
    obtain ⟨first, hfirst, rest, hrest, rfl⟩ := packAll_cons_eq_some_iff.mp h
    exact packAll_cons_eq_some_iff.mpr
      ⟨first, hfirst, _, ih hrest, (List.append_assoc first rest last).symm⟩

theorem unpackAll_packAll (h : s.packAll as = some bs)
    (rest : Bytes) : s.unpackAll as.length (bs ++ rest) = some (as, rest) := by
  induction as generalizing bs with
  | nil =>
    cases h
    rfl
  | cons a as ih =>
    obtain ⟨first, hfirst, bs, hbs, rfl⟩ := packAll_cons_eq_some_iff.mp h
    rw [List.length_cons, unpackAll, List.append_assoc, s.unpack_pack hfirst]
    simp only [some_bind, ih hbs, Option.pure_def]

/-- A sequence of at most `limit` values. -/
def vector (limit : ℕ) (s : Serial α) : Serial (List α) where
  pack as := do
    guard (as.length ≤ limit)
    let size ← varint.pack as.length
    let content ← s.packAll as
    pure (size ++ content)
  unpack bs := do
    let (n, bs) ← varint.unpack bs
    guard (n ≤ limit)
    s.unpackAll n bs
  unpack_pack := by
    intro as bs h rest
    simp only [bind_some_iff, pure_some_iff, Option.guard_eq_some'] at h
    obtain ⟨_, hlimit, size, hsize, content, hcontent, rfl⟩ := h
    rw [List.append_assoc, varint.unpack_pack hsize]
    simp only [some_bind, guard, if_pos hlimit, Option.pure_def,
      unpackAll_packAll hcontent]

/-- A byte string of at most `limit` bytes. -/
def byteArray (limit : ℕ) : Serial Bytes where
  pack bytes := do
    guard (bytes.length ≤ limit)
    let size ← varint.pack bytes.length
    pure (size ++ bytes)
  unpack bs := do
    let (n, bs) ← varint.unpack bs
    guard (n ≤ limit ∧ n ≤ bs.length)
    pure (bs.take n, bs.drop n)
  unpack_pack := by
    intro bytes bs h rest
    simp only [bind_some_iff, pure_some_iff, Option.guard_eq_some'] at h
    obtain ⟨_, hlimit, size, hsize, rfl⟩ := h
    rw [List.append_assoc, varint.unpack_pack hsize]
    simp only [some_bind, guard, List.length_append, hlimit, true_and,
      Nat.le_add_right, if_true, Option.pure_def, List.take_left, List.drop_left]

/-- An optional value: a byte that is zero or one, and the value. -/
def optional (s : Serial α) : Serial (Option α) where
  pack
    | none => some [0]
    | some a => (s.pack a).map fun bs => 1 :: bs
  unpack
    | [] => none
    | b :: bs =>
      if b = 0 then some (none, bs)
      else if b = 1 then (s.unpack bs).map fun r => (some r.1, r.2)
      else none
  unpack_pack := by
    rintro (_ | a) bs h rest
    · cases h
      rfl
    · obtain ⟨content, hcontent, rfl⟩ := Option.map_eq_some_iff.mp h
      simp only [List.cons_append, s.unpack_pack hcontent, Option.map_some]
      rfl

end Serial

end DcdProtocol.Library
