import DcdProtocol.TraceApi.Store

/-!
# What a slice holds

The index of a slice is a list of entries, and its trace file has the traces one after the other.
`Slice items es data` says that entries `es` and data `data` are what `items` leave: each trace is at
the offset that its entry has.  Then a scan of the entries finds what a scan of the items finds
(`Slice.scan`).

A reader only sees the index of one slice, and a block is shown to be irreversible by the first
number that is not below its own, which may be in another slice.  `lastAppended_eq` says when this
makes no difference: the numbers that become irreversible are consecutive, the first of them is in
the slice of every block that it covers, and a block that is already irreversible is only appended
again.
-/

namespace DcdProtocol.TraceApi

open Library List SliceDirectory UInt32

variable {δ : Type}

/-! ## Items -/

inductive SliceItem (δ : Type)
  | trace (bt : δ)
  | lib (lib : UInt32)

namespace SliceItem

variable (fmt : StoreFormat δ)

/-- The number that says in which slice the item is. -/
def number : SliceItem δ → UInt32
  | .trace bt => fmt.number bt
  | .lib l => l

/-- What is known of a block after an item: its trace, and whether it is irreversible. -/
def scan (blockHeight : UInt32) (found : Option δ × Bool) (item : SliceItem δ) : Option δ × Bool :=
  match found, item with
  | (bt, true), _ => (bt, true)
  | (bt, false), .trace bt' => (if fmt.number bt' = blockHeight then some bt' else bt, false)
  | (bt, false), .lib l => (bt, decide (l ≥ blockHeight))

def ofSlice (cfg : StoreConfig) (slice : ℕ) (items : List (SliceItem δ)) : List (SliceItem δ) :=
  items.filter fun item => sliceNumber cfg (item.number fmt) = slice

end SliceItem

/-- The trace of a block that was appended last before the first number that covers the block, and
whether there is one. -/
def lastAppended (fmt : StoreFormat δ) (blockHeight : UInt32) (items : List (SliceItem δ)) :
    Option δ × Bool :=
  items.foldl (SliceItem.scan fmt blockHeight) (none, false)

variable {fmt : StoreFormat δ} {n : UInt32} {items : List (SliceItem δ)} {found : Option δ × Bool}
  {item : SliceItem δ}

theorem lastAppended_concat (item : SliceItem δ) :
    lastAppended fmt n (items ++ [item]) = SliceItem.scan fmt n (lastAppended fmt n items) item := by
  rw [lastAppended, foldl_append]
  rfl

theorem ofSlice_concat (cfg : StoreConfig) (slice : ℕ) (item : SliceItem δ) :
    SliceItem.ofSlice fmt cfg slice (items ++ [item]) =
      if sliceNumber cfg (item.number fmt) = slice then
        SliceItem.ofSlice fmt cfg slice items ++ [item]
      else SliceItem.ofSlice fmt cfg slice items := by
  rw [SliceItem.ofSlice, filter_append]
  split_ifs with hslice
  · rw [filter_cons_of_pos (by simpa using hslice), filter_nil]
    rfl
  · rw [filter_cons_of_neg (by simpa using hslice), filter_nil, append_nil]
    rfl

theorem scan_fst (h : ¬∃ bt, item = .trace bt ∧ fmt.number bt = n) :
    (SliceItem.scan fmt n found item).1 = found.1 := by
  obtain ⟨bt, irreversible⟩ := found
  cases irreversible with
  | true => rfl
  | false =>
    cases item with
    | lib l => rfl
    | trace bt' => exact if_neg fun hnumber => h ⟨bt', rfl, hnumber⟩

theorem scan_snd (h : ¬∃ l, item = .lib l ∧ n ≤ l ∧ found.2 = false) :
    (SliceItem.scan fmt n found item).2 = found.2 := by
  obtain ⟨bt, irreversible⟩ := found
  cases irreversible with
  | true => rfl
  | false =>
    cases item with
    | trace bt' => rfl
    | lib l => exact decide_eq_false fun hle => h ⟨l, rfl, hle, rfl⟩

theorem exists_of_lastAppended {bt : δ} (h : (lastAppended fmt n items).1 = some bt) :
    .trace bt ∈ items ∧ fmt.number bt = n := by
  induction items using reverseRecOn generalizing bt with
  | nil => cases h
  | append_singleton items item ih =>
    rw [lastAppended_concat] at h
    cases hfound : lastAppended fmt n items with
    | mk found irreversible =>
      rw [hfound] at h ih
      have hold (hbt : found = some bt) : .trace bt ∈ items ++ [item] ∧ fmt.number bt = n :=
        ⟨mem_append_left _ (ih hbt).1, (ih hbt).2⟩
      cases irreversible with
      | true => exact hold h
      | false =>
        cases item with
        | lib l => exact hold h
        | trace bt' =>
          simp only [SliceItem.scan] at h
          split_ifs at h
          · grind
          · exact hold h

theorem irreversible_iff : (lastAppended fmt n items).2 = true ↔ ∃ l, .lib l ∈ items ∧ n ≤ l := by
  induction items using reverseRecOn with
  | nil => simp [lastAppended]
  | append_singleton items item ih =>
    rw [lastAppended_concat]
    cases hfound : lastAppended fmt n items with
    | mk found irreversible =>
      rw [hfound] at ih
      simp only [mem_append, mem_singleton, or_and_right, exists_or]
      cases irreversible with
      | true => exact iff_of_true rfl (.inl (ih.mp rfl))
      | false =>
        have hnone : ¬∃ l, .lib l ∈ items ∧ n ≤ l := fun h => Bool.false_ne_true (ih.mpr h)
        cases item with
        | trace bt =>
          refine iff_of_false Bool.false_ne_true ?_
          rintro (h | ⟨l, h, -⟩)
          · exact hnone h
          · cases h
        | lib l =>
          simp only [SliceItem.scan]
          constructor
          · grind
          · grind

/-! ## Orderly histories -/

def SliceItem.lib? : SliceItem δ → Option UInt32
  | .trace _ => none
  | .lib l => some l

/-- The number that became irreversible last. -/
def recordedLib (items : List (SliceItem δ)) : Option UInt32 :=
  (items.filterMap SliceItem.lib?).getLast?

def SliceItem.trace? : SliceItem δ → Option δ
  | .trace bt => some bt
  | .lib _ => none

/-- The numbers of the blocks that were appended. -/
def appendedNumbers (fmt : StoreFormat δ) (items : List (SliceItem δ)) : List UInt32 :=
  items.filterMap fun item => item.trace?.map fmt.number

/-- The item may come next: numbers become irreversible one after the other, the first of them is in
the slice of every block so far that it covers, and a block that is irreversible was appended
before. -/
def SliceItem.Follows (cfg : StoreConfig) (fmt : StoreFormat δ) (items : List (SliceItem δ)) :
    SliceItem δ → Prop
  | .trace bt => ∀ l ∈ recordedLib items, fmt.number bt ≤ l →
      fmt.number bt ∈ appendedNumbers fmt items
  | .lib l => (∀ l' ∈ recordedLib items, l.toNat = l'.toNat + 1) ∧
    (recordedLib items = none → ∀ number ∈ appendedNumbers fmt items, number ≤ l →
      sliceNumber cfg number = sliceNumber cfg l)

inductive Orderly (cfg : StoreConfig) (fmt : StoreFormat δ) : List (SliceItem δ) → Prop
  | nil : Orderly cfg fmt []
  | concat {items : List (SliceItem δ)} {item : SliceItem δ} (h : Orderly cfg fmt items)
      (hnext : item.Follows cfg fmt items) : Orderly cfg fmt (items ++ [item])

variable {cfg : StoreConfig}

theorem mem_appendedNumbers {number : UInt32} :
    number ∈ appendedNumbers fmt items ↔ ∃ bt, .trace bt ∈ items ∧ fmt.number bt = number := by
  simp only [appendedNumbers, mem_filterMap, Option.map_eq_some_iff]
  constructor
  · rintro ⟨item, hitem, bt, hbt, hnumber⟩
    cases item with
    | trace bt' =>
      cases hbt
      exact ⟨bt, hitem, hnumber⟩
    | lib l => cases hbt
  · rintro ⟨bt, hbt, hnumber⟩
    exact ⟨.trace bt, hbt, bt, rfl, hnumber⟩

@[simp] theorem recordedLib_trace (bt : δ) :
    recordedLib (items ++ [.trace bt]) = recordedLib items := by
  rw [recordedLib, filterMap_append]
  exact congrArg getLast? (append_nil _)

@[simp] theorem recordedLib_lib (l : UInt32) : recordedLib (items ++ [.lib l]) = some l := by
  rw [recordedLib, filterMap_append]
  exact getLast?_concat

namespace Orderly

theorem exists_recordedLib (h : Orderly cfg fmt items) {l : UInt32} (hl : .lib l ∈ items) :
    ∃ l' ∈ recordedLib items, l ≤ l' := by
  induction h with
  | nil => simp at hl
  | @concat items item h hnext ih =>
    rcases mem_append.mp hl with hl | hl
    · obtain ⟨l', hl', hle⟩ := ih hl
      cases item with
      | trace bt => exact ⟨l', (recordedLib_trace bt).symm ▸ hl', hle⟩
      | lib l'' =>
        have hsucc := hnext.1 l' hl'
        refine ⟨l'', recordedLib_lib l'', ?_⟩
        rw [le_iff_toNat_le] at hle ⊢
        omega
    · rw [mem_singleton] at hl
      subst hl
      exact ⟨l, recordedLib_lib l, le_refl l⟩

theorem irreversible_iff (h : Orderly cfg fmt items) :
    (lastAppended fmt n items).2 = true ↔ ∃ l ∈ recordedLib items, n ≤ l := by
  rw [TraceApi.irreversible_iff]
  constructor
  · rintro ⟨l, hl, hle⟩
    obtain ⟨l', hl', hle'⟩ := h.exists_recordedLib hl
    exact ⟨l', hl', UInt32.le_trans hle hle'⟩
  rintro ⟨l, hl, hle⟩
  obtain ⟨item, hitem, hlib⟩ := mem_filterMap.mp (mem_of_getLast? hl)
  cases item with
  | trace bt => cases hlib
  | lib l' =>
    cases hlib
    exact ⟨l, hitem, hle⟩

theorem isSome_lastAppended (h : Orderly cfg fmt items) {bt : δ} (hbt : .trace bt ∈ items)
    (hn : fmt.number bt = n) : (lastAppended fmt n items).1.isSome = true := by
  induction h generalizing bt with
  | nil => simp at hbt
  | @concat items item h hnext ih =>
    rw [lastAppended_concat]
    cases hfound : lastAppended fmt n items with
    | mk found irreversible =>
      rw [hfound] at ih
      rcases mem_append.mp hbt with hbt | hbt
      · have hsome := ih hbt hn
        cases irreversible with
        | true => exact hsome
        | false =>
          cases item with
          | lib l => exact hsome
          | trace bt' =>
            simp only [SliceItem.scan]
            split_ifs
            · rfl
            · exact hsome
      · rw [mem_singleton] at hbt
        subst hbt
        cases irreversible with
        | false => simp [SliceItem.scan, hn]
        | true =>
          -- the block is irreversible, so it was appended before
          obtain ⟨l, hl, hle⟩ := h.irreversible_iff.mp (congrArg Prod.snd hfound)
          obtain ⟨bt', hbt', hnumber⟩ := mem_appendedNumbers.mp (hnext l hl (hn ▸ hle))
          exact ih hbt' (hnumber.trans hn)

/-- A number that is not in the slice of the block only covers it if it was never appended. -/
theorem lastAppended_eq_none (h : Orderly cfg fmt items) {l : UInt32}
    (hnext : (SliceItem.lib l).Follows cfg fmt items) (hle : n ≤ l)
    (hslice : sliceNumber cfg l ≠ sliceNumber cfg n)
    (hreversible : (lastAppended fmt n items).2 = false) : (lastAppended fmt n items).1 = none := by
  cases hbt : (lastAppended fmt n items).1 with
  | none => rfl
  | some bt =>
    exfalso
    obtain ⟨hbtmem, hnumber⟩ := exists_of_lastAppended hbt
    cases hrecorded : recordedLib items with
    | none =>
      have hmem := mem_appendedNumbers.mpr ⟨bt, hbtmem, hnumber⟩
      have hsame := hnext.2 hrecorded n hmem hle
      exact hslice hsame.symm
    | some l' =>
      have hsucc := hnext.1 l' hrecorded
      have hlt : ¬n ≤ l' := fun hle' =>
        Bool.false_ne_true (hreversible.symm.trans (h.irreversible_iff.mpr ⟨l', hrecorded, hle'⟩))
      rw [le_iff_toNat_le] at hle hlt
      have heq : l = n := UInt32.toNat_inj.mp (by omega)
      exact hslice (heq ▸ rfl)

/-- To look at the slice of the block is enough: either nothing is missed, or the block was never
appended. -/
theorem lastAppended_ofSlice (h : Orderly cfg fmt items) :
    lastAppended fmt n (SliceItem.ofSlice fmt cfg (SliceDirectory.sliceNumber cfg n) items) =
        lastAppended fmt n items ∨
      (lastAppended fmt n items).1 = none ∧
      (lastAppended fmt n
        (SliceItem.ofSlice fmt cfg (SliceDirectory.sliceNumber cfg n) items)).1 = none := by
  induction h with
  | nil => exact .inl rfl
  | @concat items item h hnext ih =>
    rw [ofSlice_concat]
    by_cases hslice : sliceNumber cfg (item.number fmt) = sliceNumber cfg n
    · rw [if_pos hslice, lastAppended_concat, lastAppended_concat]
      rcases ih with ih | ⟨hall, hof⟩
      · exact .inl (by rw [ih])
      by_cases hitem : ∃ bt, item = .trace bt ∧ fmt.number bt = n
      · obtain ⟨bt, rfl, rfl⟩ := hitem
        have hreversible : ∀ l ∈ recordedLib items, ¬fmt.number bt ≤ l := by
          intro l hl hle
          obtain ⟨bt', hbt', hnumber⟩ := mem_appendedNumbers.mp (hnext l hl hle)
          have hsome := h.isSome_lastAppended hbt' hnumber
          rw [hall] at hsome
          cases hsome
        have hall' : (lastAppended fmt (fmt.number bt) items).2 = false := by
          rw [← Bool.not_eq_true, h.irreversible_iff]
          rintro ⟨l, hl, hle⟩
          exact hreversible l hl hle
        have hof' : (lastAppended fmt (fmt.number bt) (SliceItem.ofSlice fmt cfg
            (sliceNumber cfg (fmt.number bt)) items)).2 = false := by
          rw [← Bool.not_eq_true, TraceApi.irreversible_iff]
          rintro ⟨l, hl, hle⟩
          obtain ⟨l', hl', hle'⟩ := h.exists_recordedLib (mem_of_mem_filter hl)
          exact hreversible l' hl' (UInt32.le_trans hle hle')
        have hsame : lastAppended fmt (fmt.number bt) (SliceItem.ofSlice fmt cfg
            (sliceNumber cfg (fmt.number bt)) items) =
            lastAppended fmt (fmt.number bt) items := by grind
        exact .inl (by rw [hsame])
      · exact .inr ⟨(scan_fst hitem).trans hall, (scan_fst hitem).trans hof⟩
    · rw [if_neg hslice, lastAppended_concat]
      have hitem : ¬∃ bt, item = .trace bt ∧ fmt.number bt = n := by
        rintro ⟨bt, rfl, rfl⟩
        exact hslice rfl
      rcases ih with ih | ⟨hall, hof⟩
      · by_cases hcovers : ∃ l, item = .lib l ∧ n ≤ l ∧ (lastAppended fmt n items).2 = false
        · obtain ⟨l, rfl, hle, hreversible⟩ := hcovers
          have hnone := h.lastAppended_eq_none hnext hle hslice hreversible
          exact .inr ⟨(scan_fst hitem).trans hnone, by rw [ih, hnone]⟩
        · exact .inl (ih.trans (Prod.ext (scan_fst hitem).symm (scan_snd hcovers).symm))
      · exact .inr ⟨(scan_fst hitem).trans hall, hof⟩

end Orderly

/-! ## Entries and data -/

/-- The entries and the data that are left by `items`. -/
inductive Slice (fmt : StoreFormat δ) :
    List (SliceItem δ) → List MetadataLogEntry → Bytes → Prop
  | nil : Slice fmt [] [] []
  | trace {items : List (SliceItem δ)} {es : List MetadataLogEntry} {data bytes : Bytes} {bt : δ}
      (h : Slice fmt items es data) (hpack : fmt.dataLogEntry.pack bt = some bytes)
      (hlength : data.length < 2 ^ 64) :
      Slice fmt (items ++ [.trace bt])
        (es ++ [.block (fmt.id bt) (fmt.number bt) (.ofNat data.length)]) (data ++ bytes)
  | lib {items : List (SliceItem δ)} {es : List MetadataLogEntry} {data : Bytes}
      (h : Slice fmt items es data) (l : UInt32) :
      Slice fmt (items ++ [.lib l]) (es ++ [.lib l]) data
  /-- The trace was written, but not its entry. -/
  | lost {items : List (SliceItem δ)} {es : List MetadataLogEntry} {data : Bytes}
      (h : Slice fmt items es data) (bytes : Bytes) : Slice fmt items es (data ++ bytes)

variable {es : List MetadataLogEntry} {data : Bytes} {offset : UInt64} {bt : δ}

def ReadAt (fmt : StoreFormat δ) (data : Bytes) (offset : UInt64) (bt : δ) : Prop :=
  ∃ bytes rest, fmt.dataLogEntry.pack bt = some bytes ∧ bytes ≠ [] ∧
    data.drop offset.toNat = bytes ++ rest

theorem ReadAt.lt_length (h : ReadAt fmt data offset bt) : offset.toNat < data.length := by
  obtain ⟨bytes, rest, -, hne, hdrop⟩ := h
  by_contra hle
  rw [drop_eq_nil_of_le (not_lt.mp hle)] at hdrop
  exact hne (append_eq_nil_iff.mp hdrop.symm).1

theorem ReadAt.append (h : ReadAt fmt data offset bt) (more : Bytes) :
    ReadAt fmt (data ++ more) offset bt := by
  have hlt := h.lt_length
  obtain ⟨bytes, rest, hpack, hne, hdrop⟩ := h
  refine ⟨bytes, rest ++ more, hpack, hne, ?_⟩
  rw [drop_append_of_le_length hlt.le, hdrop, append_assoc]

theorem ReadAt.extractTrace (h : ReadAt fmt data offset bt) :
    extractTrace fmt (data.drop offset.toNat) = .ok bt := by
  obtain ⟨bytes, rest, hpack, -, hdrop⟩ := h
  rw [SliceDirectory.extractTrace, hdrop, fmt.dataLogEntry.unpack_pack hpack]
  rfl

theorem variant_ne_nil {α : Type} {index : α → ℕ} {alternative : ℕ → Option (Serial α)} {a : α}
    {bs : Bytes} (h : (Serial.variant .varint index alternative).pack a = some bs) : bs ≠ [] := by
  simp only [Serial.variant, bind_some_iff, pure_some_iff] at h
  obtain ⟨_, _, tag, htag, second, _, rfl⟩ := h
  have hne : tag ≠ [] := by
    simp only [Serial.varint] at htag
    split_ifs at htag
    cases htag
    unfold packVarint
    split_ifs <;> exact cons_ne_nil _ _
  exact append_ne_nil_of_left_ne_nil hne _

theorem rel_append {a : Option UInt64} {b : Option δ} (h : Option.Rel (ReadAt fmt data) a b)
    (more : Bytes) : Option.Rel (ReadAt fmt (data ++ more)) a b := by
  cases h with
  | none => exact .none
  | some h => exact .some (h.append more)

theorem Slice.scan (h : Slice fmt items es data) (n : UInt32) :
    Option.Rel (ReadAt fmt data) (es.foldl (scanEntry n) (none, false)).1
        (lastAppended fmt n items).1 ∧
      (es.foldl (scanEntry n) (none, false)).2 = (lastAppended fmt n items).2 := by
  induction h with
  | nil => exact ⟨.none, rfl⟩
  | @trace items es data bytes bt h hpack hlength ih =>
    rw [lastAppended_concat, foldl_append, foldl_cons, foldl_nil]
    generalize es.foldl (scanEntry n) (none, false) = entries at ih ⊢
    generalize lastAppended fmt n items = found at ih ⊢
    obtain ⟨offset, irreversible⟩ := entries
    obtain ⟨bt', irreversible'⟩ := found
    obtain ⟨hrel, rfl⟩ := ih
    cases irreversible with
    | true => exact ⟨rel_append hrel bytes, rfl⟩
    | false =>
      refine ⟨?_, rfl⟩
      simp only [scanEntry, SliceItem.scan]
      split_ifs with hnumber
      · have hoffset : (UInt64.ofNat data.length).toNat = data.length :=
          UInt64.toNat_ofNat_of_lt' hlength
        refine .some ⟨bytes, [], hpack, variant_ne_nil hpack, ?_⟩
        rw [hoffset, drop_left, append_nil]
      · exact rel_append hrel bytes
  | @lib items es data h l ih =>
    rw [lastAppended_concat, foldl_append, foldl_cons, foldl_nil]
    generalize es.foldl (scanEntry n) (none, false) = entries at ih ⊢
    generalize lastAppended fmt n items = found at ih ⊢
    obtain ⟨offset, irreversible⟩ := entries
    obtain ⟨bt', irreversible'⟩ := found
    obtain ⟨hrel, rfl⟩ := ih
    cases irreversible with
    | true => exact ⟨hrel, rfl⟩
    | false => exact ⟨hrel, rfl⟩
  | @lost items es data h bytes ih => exact ⟨rel_append ih.1 bytes, ih.2⟩

/-! ## Reading the index -/

theorem scanEntry_of_irreversible {found : Option UInt64 × Bool} (h : found.2 = true)
    (es : List MetadataLogEntry) : es.foldl (scanEntry n) found = found := by
  induction es with
  | nil => rfl
  | cons e es ih =>
    obtain ⟨offset, irreversible⟩ := found
    cases h
    exact ih

theorem scanEntries_eq {bytes : Bytes} (h : MetadataLogEntry.serial.packAll es = some bytes)
    {fuel : ℕ} (hfuel : bytes.length ≤ fuel) (found : Option UInt64 × Bool) :
    scanEntries n fuel bytes found = .ok (es.foldl (scanEntry n) found) := by
  induction es generalizing bytes fuel found with
  | nil =>
    cases h
    cases fuel with
    | zero => rfl
    | succ fuel => exact if_pos (.inl rfl)
  | cons e es ih =>
    obtain ⟨first, hfirst, rest, hrest, rfl⟩ := Serial.packAll_cons_eq_some_iff.mp h
    have hne : first ≠ [] := variant_ne_nil hfirst
    have hpos : 0 < first.length := length_pos_iff.mpr hne
    rw [length_append] at hfuel
    cases fuel with
    | zero => omega
    | succ fuel =>
      rw [scanEntries]
      by_cases hstop : found.2 = true
      · rw [if_pos (.inr hstop), foldl_cons, ← foldl_cons, scanEntry_of_irreversible hstop]
        rfl
      have hcontinue : ¬(first ++ rest = [] ∨ found.2 = true) :=
        not_or.mpr ⟨append_ne_nil_of_left_ne_nil hne _, hstop⟩
      rw [if_neg hcontinue, MetadataLogEntry.serial.unpack_pack hfirst]
      exact ih hrest (by omega) _

end DcdProtocol.TraceApi
