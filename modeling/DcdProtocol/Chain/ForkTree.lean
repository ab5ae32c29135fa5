import DcdProtocol.Chain.ForkDatabase
import DcdProtocol.Chain.FinishNext
import DcdProtocol.Library.Worklist

/-!
# The fork database is a tree

The blocks of the fork database are a tree over its root, and its head is the best validated block
of it.  The operations change the index, the root and the head in different ways, and none of them
checks the whole of this.

The id of a block state starts with its number, which is one more than that of its parent
(`Numbered`): `block_header_state::next` builds no others.  So no block can be its own ancestor, and
the root cannot be added again.  `WellFormed` is the invariant that the operations keep;
`RepInvariant` reads it off in terms of the blocks in the index.

`remove` takes the descendants of a block from a worklist.  Its result is described by the relation
`IsChild`; `advance_root` removes the old ancestors of the new root one after the other, and between
two of these removals the only blocks without a parent are those whose parent comes next.
-/

namespace DcdProtocol.Chain

open Library List FlatMap PendingBlockHeaderState BlockState Worklist

/-! ## Numbers in ids -/

theorem getLsbD_endianReverseU32 (x : UInt32) {i : ℕ} (hi : i < 8) :
    (endianReverseU32 x).toBitVec.getLsbD i = x.toBitVec.getLsbD (24 + i) ∧
      (endianReverseU32 x).toBitVec.getLsbD (8 + i) = x.toBitVec.getLsbD (16 + i) ∧
      (endianReverseU32 x).toBitVec.getLsbD (16 + i) = x.toBitVec.getLsbD (8 + i) ∧
      (endianReverseU32 x).toBitVec.getLsbD (24 + i) = x.toBitVec.getLsbD i := by
  unfold endianReverseU32
  interval_cases i <;> simp

theorem endianReverseU32_endianReverseU32 (x : UInt32) :
    endianReverseU32 (endianReverseU32 x) = x := by
  apply UInt32.eq_of_toBitVec_eq
  apply BitVec.eq_of_getLsbD_eq
  intro i hi
  have hbyte : i % 8 < 8 := by omega
  obtain ⟨h0, h1, h2, h3⟩ := getLsbD_endianReverseU32 (endianReverseU32 x) hbyte
  obtain ⟨g0, g1, g2, g3⟩ := getLsbD_endianReverseU32 x hbyte
  have hcases : i = i % 8 ∨ i = 8 + i % 8 ∨ i = 16 + i % 8 ∨ i = 24 + i % 8 := by omega
  rcases hcases with h | h | h | h
  · rw [h, h0, g3]
  · rw [h, h1, g2]
  · rw [h, h2, g1]
  · rw [h, h3, g0]

theorem numFromId_calculateId (h : BlockHeader) (crypto : Crypto) :
    numFromId (h.calculateId crypto) = h.blockNum := by
  have hlow : (((crypto.hashHeader h).h0 &&& 0xffffffff00000000) +
      (endianReverseU32 h.blockNum).toUInt64).toUInt32 = endianReverseU32 h.blockNum := by
    apply UInt32.eq_of_toBitVec_eq
    simp
  rw [numFromId, BlockHeader.calculateId, hlow, endianReverseU32_endianReverseU32]

/-- The number in the id of a block state, and in the id of its parent. -/
structure BlockHeaderState.Numbered (b : BlockHeaderState) : Prop where
  id : numFromId b.id = b.blockNum
  previous : b.blockNum.toNat = (numFromId b.header.previous).toNat + 1

namespace BlockHeaderState

variable {ctx : HeaderContext} {s s' : BlockHeaderState} {i : HeaderInput}

theorem id_of_step (hok : s.step ctx i = .ok s') : s'.id = i.header.calculateId ctx.crypto := by
  simp only [step, bind_ok_iff] at hok
  obtain ⟨p, -, hok⟩ := hok
  obtain ⟨r, hcore, sig, sigs, rfl⟩ := complete_ok hok
  simp only [finishNextCore, bind_ok_iff, pure_ok_iff] at hcore
  obtain ⟨_, -, exts, -, _, -, _, -, _, -, _, -, rfl⟩ := hcore
  rfl

theorem numbered_of_step (hs : numFromId s.id = s.blockNum) (hnum : s.blockNum.toNat + 1 < 2 ^ 32)
    (hok : s.step ctx i = .ok s') : s'.Numbered := by
  obtain ⟨time, proauth, newSchedule, newRate, hacc⟩ := step_cases hok
  have hprevious : i.header.previous = s.id := by
    have htemplate := hacc.template
    simp only [checkTemplate, bind_ok_iff, dcdAssert_ok_iff] at htemplate
    obtain ⟨-, -, -, hprevious, -⟩ := htemplate
    exact hprevious
  have hblockNum : s'.blockNum = s.blockNum + 1 := congrArg (·.blockNum) hacc.common
  have hheader : s'.header.previous = s.id := by
    rw [← hprevious]
    exact congrArg BlockHeader.previous hacc.header
  constructor
  · rw [id_of_step hok, numFromId_calculateId, BlockHeader.blockNum, hprevious, hs, hblockNum]
  · simp_all

theorem numbered_of_step_genesis : ∃ s, (genesisHeaderState sampleContext.crypto sampleGenesis).step
    sampleContext (sampleHeader 2 2 systemAccountName 0 0 none) = .ok s ∧ s.Numbered := by
  obtain ⟨s, hok⟩ : ∃ s, (genesisHeaderState sampleContext.crypto sampleGenesis).step sampleContext
    (sampleHeader 2 2 systemAccountName 0 0 none) = .ok s := ⟨_, rfl⟩
  exact ⟨s, hok, numbered_of_step (by decide +kernel) (by decide) hok⟩

end BlockHeaderState

/-! ## The order of the index -/

namespace BlockState

/-- The key of `by_lib_block_num`. -/
def indexKey (b : BlockState) : Bool ×ₗ UInt32ᵒᵈ ×ₗ UInt32ᵒᵈ ×ₗ Sha256 :=
  toLex (!b.validated, toLex (OrderDual.toDual b.dposIrreversibleBlocknum,
    toLex (OrderDual.toDual b.blockNum, b.id)))

/-- What `first_preferred` compares. -/
def preference (b : BlockState) : UInt32 ×ₗ UInt32 :=
  toLex (b.dposIrreversibleBlocknum, b.blockNum)

variable {a b c : BlockState} {blocks : List BlockState}

theorem before_iff : a.Before b ↔ a.indexKey < b.indexKey := by
  have hbool : ((!a.validated) < (!b.validated)) ↔ a.validated = true ∧ b.validated = false := by
    cases a.validated <;> cases b.validated <;> simp
  rw [indexKey, indexKey, Prod.Lex.toLex_lt_toLex, Prod.Lex.toLex_lt_toLex,
    Prod.Lex.toLex_lt_toLex, hbool, Before, FirstPreferred, FirstPreferred]
  simp only [OrderDual.toDual_lt_toDual, OrderDual.toDual_inj]
  grind

theorem firstPreferred_iff : a.FirstPreferred b ↔ b.preference < a.preference := by
  rw [preference, preference, Prod.Lex.toLex_lt_toLex, FirstPreferred]

theorem first?_cons (b : BlockState) (blocks : List BlockState) :
    ∃ best, first? (b :: blocks) = some best ∧ (best = b ∨ best ∈ blocks) ∧
      best.indexKey ≤ b.indexKey ∧ ∀ a ∈ blocks, best.indexKey ≤ a.indexKey := by
  show ∃ best, blocks.foldl _ (some b) = some best ∧ _
  induction blocks generalizing b with
  | nil => exact ⟨b, rfl, .inl rfl, le_rfl, forall_mem_nil _⟩
  | cons c blocks ih =>
    rw [foldl_cons]
    dsimp only
    by_cases hbefore : c.Before b
    · rw [if_pos hbefore]
      obtain ⟨best, hbest, hmem, hle, hall⟩ := ih c
      refine ⟨best, hbest, ?_, hle.trans (before_iff.mp hbefore).le, ?_⟩
      · grind
      · grind
    · rw [if_neg hbefore]
      obtain ⟨best, hbest, hmem, hle, hall⟩ := ih b
      refine ⟨best, hbest, ?_, hle, ?_⟩
      · rw [mem_cons]
        tauto
      · rw [before_iff, not_lt] at hbefore
        exact forall_mem_cons.mpr ⟨hle.trans hbefore, hall⟩

theorem exists_first? (hb : b ∈ blocks) : ∃ best, first? blocks = some best := by
  cases blocks with
  | nil => cases hb
  | cons c blocks =>
    obtain ⟨best, hbest, -⟩ := first?_cons c blocks
    exact ⟨best, hbest⟩

theorem first?_eq_some (hbest : first? blocks = some b) :
    b ∈ blocks ∧ ∀ a ∈ blocks, ¬a.Before b := by
  cases blocks with
  | nil => cases hbest
  | cons c blocks =>
    obtain ⟨best, hfirst, hmem, hle, hall⟩ := first?_cons c blocks
    obtain rfl : best = b := Option.some.inj (hfirst.symm.trans hbest)
    simp only [before_iff, not_lt]
    exact ⟨mem_cons.mpr hmem, forall_mem_cons.mpr ⟨hle, hall⟩⟩

theorem eta_validated (hb : b.validated = true) : { b with validated := true } = b := by
  obtain ⟨bhs, validated⟩ := b
  obtain rfl : validated = true := hb
  rfl

theorem validated_of_not_before (hbefore : ¬a.Before b) (ha : a.validated = true) :
    b.validated = true := by
  by_contra hb
  exact hbefore (.inl ⟨ha, Bool.eq_false_iff.mpr hb⟩)

theorem not_firstPreferred_of_not_before (hbefore : ¬a.Before b)
    (hvalidated : a.validated = b.validated) : ¬a.FirstPreferred b := by
  intro hpreferred
  exact hbefore (.inr ⟨hvalidated, .inl hpreferred⟩)

end BlockState

/-! ## The invariant -/

namespace ForkDatabase

variable {db db' : ForkDatabase} {n h : BlockState} {id : Sha256} {b : BlockState}
  {ignoreDuplicate : Bool} {p : BlockState}

/-- The blocks of the index are a tree over the root. -/
structure IsTree (db : ForkDatabase) : Prop where
  keyed : ∀ id b, db.getBlock id = some b → b.id = id
  numbered : ∀ id b, db.getBlock id = some b → b.Numbered
  rootNum : numFromId db.root.id = db.root.blockNum
  parent : ∀ id b, db.getBlock id = some b →
    b.header.previous = db.root.id ∨ ∃ p, db.getBlock b.header.previous = some p

/-- A tree whose head is its best validated block. -/
structure WellFormed (db : ForkDatabase) : Prop extends db.IsTree where
  head : db.head = db.root ∨ db.getBlock db.head.id = some db.head ∧ db.head.validated = true
  best : ∀ id b, db.getBlock id = some b → b.validated = true → ¬b.FirstPreferred db.head

theorem mem_values_iff : b ∈ db.index.values ↔ ∃ id, db.getBlock id = some b :=
  FlatMap.mem_values_iff

namespace IsTree

theorem parent_blockNum (htree : db.IsTree) {b p : BlockState} (hb : db.getBlock id = some b)
    (hp : db.getBlock b.header.previous = some p) : b.blockNum.toNat = p.blockNum.toNat + 1 := by
  rw [(htree.numbered id b hb).previous, ← htree.keyed _ p hp, (htree.numbered _ p hp).id]

theorem blockNum_of_root (htree : db.IsTree) {b : BlockState} (hb : db.getBlock id = some b)
    (hroot : b.header.previous = db.root.id) :
    b.blockNum.toNat = db.root.blockNum.toNat + 1 := by
  rw [(htree.numbered id b hb).previous, hroot, htree.rootNum]

theorem root_lt (htree : db.IsTree) {b : BlockState} (hb : db.getBlock id = some b) :
    db.root.blockNum.toNat < b.blockNum.toNat := by
  induction hnum : b.blockNum.toNat using Nat.strong_induction_on generalizing id b with
  | _ num ih =>
    rcases htree.parent id b hb with hroot | ⟨p, hp⟩
    · have := htree.blockNum_of_root hb hroot
      omega
    · have hparent := htree.parent_blockNum hb hp
      have := ih p.blockNum.toNat (by omega) hp rfl
      omega

theorem root_notMem (htree : db.IsTree) : db.getBlock db.root.id = none := by
  cases hb : db.getBlock db.root.id with
  | none => rfl
  | some b =>
    have hnum := (htree.numbered _ b hb).id
    rw [htree.keyed _ b hb, htree.rootNum] at hnum
    have := htree.root_lt hb
    rw [hnum] at this
    exact absurd this (lt_irrefl _)

theorem of_headers (htree : db.IsTree) (hroot : db'.root = db.root)
    (hindex : ∀ id, (db'.getBlock id).map (·.toBlockHeaderState) =
      (db.getBlock id).map (·.toBlockHeaderState)) : db'.IsTree := by
  have hback : ∀ id b, db'.getBlock id = some b →
      ∃ b₀, db.getBlock id = some b₀ ∧ b₀.toBlockHeaderState = b.toBlockHeaderState := by
    intro id b hb
    have := hindex id
    rw [hb, Option.map_some, eq_comm, Option.map_eq_some_iff] at this
    exact this
  constructor
  · intro id b hb
    obtain ⟨b₀, hb₀, heq⟩ := hback id b hb
    rw [← htree.keyed id b₀ hb₀, heq]
  · intro id b hb
    obtain ⟨b₀, hb₀, heq⟩ := hback id b hb
    exact heq ▸ htree.numbered id b₀ hb₀
  · rw [hroot]
    exact htree.rootNum
  · intro id b hb
    obtain ⟨b₀, hb₀, heq⟩ := hback id b hb
    rw [hroot, ← heq]
    refine (htree.parent id b₀ hb₀).imp_right ?_
    rintro ⟨p, hp⟩
    have := hindex b₀.header.previous
    rw [hp, Option.map_some, Option.map_eq_some_iff] at this
    obtain ⟨p', hp', -⟩ := this
    exact ⟨p', hp'⟩

end IsTree

/-! ## Adding and validating blocks -/

theorem add_eq_ok (hok : db.add n ignoreDuplicate = .ok db') :
    (∃ p, db.getBlockHeader n.header.previous = some p) ∧ (db.getBlock n.id ≠ none ∧ db' = db ∨
        db.getBlock n.id = none ∧ ∃ best,
          first? (db.index.insert n.id n).values = some best ∧ db' = { db with
            index := db.index.insert n.id n
            head := if best.validated then best else db.head }) := by
  obtain ⟨_, hparent, hok⟩ := bind_ok_iff.mp hok
  refine ⟨Option.isSome_iff_exists.mp (dcdAssert_ok_iff.mp hparent), ?_⟩
  split at hok
  next hcontains =>
    refine .inl ⟨Option.isSome_iff_ne_none.mp hcontains, ?_⟩
    split at hok
    · exact (pure_ok_iff.mp hok).symm
    · cases hok
  next hcontains =>
    refine .inr ⟨Option.not_isSome_iff_eq_none.mp hcontains, ?_⟩
    have hmem : n ∈ (db.index.insert n.id n).values :=
      FlatMap.mem_values_iff.mpr ⟨n.id, FlatMap.find?_insert_self _ _ _⟩
    obtain ⟨best, hbest⟩ := exists_first? hmem
    refine ⟨best, hbest, ?_⟩
    have hcandidate : candidate { db with index := db.index.insert n.id n } = some best := hbest
    dsimp only at hok
    rw [hcandidate] at hok
    rw [← pure_ok_iff.mp hok]
    split <;> rfl

theorem add_of_new (ignoreDuplicate : Bool)
    (hparent : db.getBlockHeader n.header.previous = some p) (hnew : db.getBlock n.id = none) :
    ∃ head, db.add n ignoreDuplicate = .ok { db with index := db.index.insert n.id n, head } := by
  have hcontains : ¬db.index.contains n.id = true := by
    rw [FlatMap.contains, Option.not_isSome_iff_eq_none]
    exact hnew
  rw [add, hparent, if_neg hcontains]
  dsimp only
  split
  next best _ =>
    by_cases hvalid : best.validated = true
    · rw [if_pos hvalid]
      exact ⟨best, rfl⟩
    · rw [if_neg hvalid]
      exact ⟨db.head, rfl⟩
  next => exact ⟨db.head, rfl⟩

theorem markValid_eq_ok (hok : db.markValid h = .ok db') :
    h.validated = true ∧ db' = db ∨
      h.validated = false ∧ ∃ b best, db.getBlock h.id = some b ∧
        first? (db.index.insert h.id { b with validated := true }).values = some best ∧
        db' = { db with
          index := db.index.insert h.id { b with validated := true }
          head := if best.FirstPreferred db.head then best else db.head } := by
  rw [markValid] at hok
  split at hok
  next hvalidated => exact .inl ⟨hvalidated, (pure_ok_iff.mp hok).symm⟩
  next hvalidated =>
    refine .inr ⟨Bool.eq_false_iff.mpr hvalidated, ?_⟩
    split at hok
    · cases hok
    next b hb =>
      have hmem : { b with validated := true } ∈
          (db.index.insert h.id { b with validated := true }).values :=
        FlatMap.mem_values_iff.mpr ⟨h.id, FlatMap.find?_insert_self _ _ _⟩
      obtain ⟨best, hbest⟩ := exists_first? hmem
      refine ⟨b, best, hb, hbest, ?_⟩
      have hcandidate : candidate { db with
          index := db.index.insert h.id { b with validated := true } } = some best := hbest
      dsimp only at hok
      rw [hcandidate] at hok
      rw [← pure_ok_iff.mp hok]
      split <;> rfl

variable {newRoot : BlockState} {result todo : List Sha256} {id' : Sha256} {fuel : ℕ}
  {db₀ : ForkDatabase} {queue : List Sha256}

theorem getBlock_insert (b : BlockState) : { db with index := db.index.insert id b }.getBlock id' =
      if id' = id then some b else db.getBlock id' := by
  show (db.index.insert id b).find? id' = _
  by_cases hid : id' = id
  · simp_all
  · rw [find?_insert_of_ne _ _ hid, if_neg hid]
    rfl

theorem mem_values_insert {a : BlockState} (ha : a ∈ (db.index.insert id b).values) :
    a = b ∨ ∃ id', db.getBlock id' = some a := by
  obtain ⟨id', ha⟩ := FlatMap.mem_values_iff.mp ha
  rw [find?_insert] at ha
  split at ha
  · exact .inl (Option.some.inj ha).symm
  · exact .inr ⟨id', ha⟩

theorem exists_getBlock_of_getBlockHeader
    (hp : db.getBlockHeader id = some p) : id = db.root.id ∨ db.getBlock id = some p := by
  rw [getBlockHeader] at hp
  split at hp
  next hroot => exact .inl hroot.symm
  next => exact .inr hp

theorem IsTree.insert (htree : db.IsTree) (hn : n.Numbered)
    (hparent : ∃ p, db.getBlockHeader n.header.previous = some p)
    (hnew : db.getBlock n.id = none) : { db with index := db.index.insert n.id n }.IsTree := by
  have hcases : ∀ id b, { db with index := db.index.insert n.id n }.getBlock id = some b →
      b = n ∧ id = n.id ∨ db.getBlock id = some b := by
    intro id b hb
    rw [getBlock_insert] at hb
    split at hb
    next hid => exact .inl ⟨(Option.some.inj hb).symm, hid⟩
    next => exact .inr hb
  have hkept : ∀ id b, db.getBlock id = some b →
      { db with index := db.index.insert n.id n }.getBlock id = some b := by
    intro id b hb
    rw [getBlock_insert, if_neg, hb]
    rintro rfl
    rw [hnew] at hb
    cases hb
  constructor
  · intro id b hb
    rcases hcases id b hb with ⟨rfl, rfl⟩ | hb
    · rfl
    · exact htree.keyed id b hb
  · intro id b hb
    rcases hcases id b hb with ⟨rfl, rfl⟩ | hb
    · exact hn
    · exact htree.numbered id b hb
  · exact htree.rootNum
  · intro id b hb
    rcases hcases id b hb with ⟨rfl, rfl⟩ | hb
    · obtain ⟨p, hp⟩ := hparent
      refine (exists_getBlock_of_getBlockHeader hp).imp_right ?_
      exact fun hp => ⟨p, hkept _ p hp⟩
    · refine (htree.parent id b hb).imp_right ?_
      rintro ⟨p, hp⟩
      exact ⟨p, hkept _ p hp⟩

theorem WellFormed.add (hdb : db.WellFormed) (hn : n.Numbered)
    (hok : db.add n ignoreDuplicate = .ok db') : db'.WellFormed := by
  obtain ⟨hparent, ⟨-, rfl⟩ | ⟨hnew, best, hbest, rfl⟩⟩ := add_eq_ok hok
  · exact hdb
  obtain ⟨hmem, hfirst⟩ := first?_eq_some hbest
  have hmono : ∀ id b, db.getBlock id = some b → (db.index.insert n.id n).find? id = some b := by
    intro id b hb
    rw [find?_insert_of_ne, ← hb]
    · rfl
    · grind
  have htree := hdb.toIsTree.insert hn hparent hnew
  have hkey : ∀ b, b ∈ (db.index.insert n.id n).values →
      (db.index.insert n.id n).find? b.id = some b := by
    intro b hb
    obtain ⟨id, hb⟩ := FlatMap.mem_values_iff.mp hb
    have hid : b.id = id := htree.keyed id b hb
    rw [hid, hb]
  refine ⟨⟨htree.keyed, htree.numbered, htree.rootNum, htree.parent⟩, ?_, ?_⟩
  · show (if best.validated = true then best else db.head) = db.root ∨ _
    split
    next hvalid => exact .inr ⟨hkey best hmem, hvalid⟩
    next => exact hdb.head.imp_right fun ⟨hhead, hvalid⟩ => ⟨hmono _ _ hhead, hvalid⟩
  · intro id b hb hvalid
    have hbefore := hfirst b (mem_values_iff.mpr ⟨id, hb⟩)
    have hbestValid := validated_of_not_before hbefore hvalid
    rw [if_pos hbestValid]
    exact not_firstPreferred_of_not_before hbefore (hvalid.trans hbestValid.symm)

theorem WellFormed.markValid (hdb : db.WellFormed) (hok : db.markValid h = .ok db') :
    db'.WellFormed := by
  rcases markValid_eq_ok hok with ⟨-, rfl⟩ | ⟨-, b, best, hb, hbest, rfl⟩
  · exact hdb
  obtain ⟨hmem, hfirst⟩ := first?_eq_some hbest
  have htree : IsTree { db with index := db.index.insert h.id { b with validated := true } } := by
    refine hdb.toIsTree.of_headers rfl ?_
    intro id
    rw [getBlock_insert]
    split
    next hid => rw [hid, hb, Option.map_some, Option.map_some]
    next => rfl
  have hkey : ∀ a, a ∈ (db.index.insert h.id { b with validated := true }).values →
      (db.index.insert h.id { b with validated := true }).find? a.id = some a := by
    intro a ha
    obtain ⟨id, ha⟩ := FlatMap.mem_values_iff.mp ha
    have hid : a.id = id := htree.keyed id a ha
    rw [hid, ha]
  have hself : { b with validated := true } ∈
      (db.index.insert h.id { b with validated := true }).values :=
    FlatMap.mem_values_iff.mpr ⟨h.id, FlatMap.find?_insert_self _ _ _⟩
  have hbestValid : best.validated = true := validated_of_not_before (hfirst _ hself) rfl
  refine ⟨⟨htree.keyed, htree.numbered, htree.rootNum, htree.parent⟩, ?_, ?_⟩
  · show (if best.FirstPreferred db.head then best else db.head) = db.root ∨ _
    split
    next => exact .inr ⟨hkey best hmem, hbestValid⟩
    next =>
      refine hdb.head.imp_right ?_
      rintro ⟨hhead, hvalid⟩
      refine ⟨?_, hvalid⟩
      rw [getBlock_insert]
      split
      next hid =>
        -- the head is the block that is marked, and is validated already
        rw [hid, hb] at hhead
        rw [Option.some.inj hhead, eta_validated hvalid]
      next => exact hhead
  · intro id a ha hvalid
    have hbefore := hfirst a (mem_values_iff.mpr ⟨id, ha⟩)
    have hle := not_firstPreferred_of_not_before hbefore (hvalid.trans hbestValid.symm)
    split
    next => exact hle
    next hhead =>
      rw [firstPreferred_iff, not_lt] at hle hhead ⊢
      exact hle.trans hhead

/-! ## Removing blocks -/

/-- The block `child` is in the index and built on `parent`. -/
def IsChild (db : ForkDatabase) (parent child : Sha256) : Prop :=
  ∃ b, db.getBlock child = some b ∧ b.header.previous = parent

/-- The block `id` itself, or a block built on it at any distance. -/
abbrev Descends (db : ForkDatabase) : Sha256 → Sha256 → Prop := Relation.ReflTransGen db.IsChild

theorem map_id_values (hkeyed : ∀ id b, db.getBlock id = some b → b.id = id) :
    db.index.values.map (fun b => b.id) = db.index.keys := by
  rw [values, FlatMap.keys, map_map]
  apply map_congr_left
  rintro ⟨id, b⟩ hmem
  exact hkeyed id b (mem_entries_iff.mp hmem)

theorem mem_children_iff (hkeyed : ∀ id b, db.getBlock id = some b → b.id = id)
    {parent child : Sha256} : child ∈ db.children parent ↔ db.IsChild parent child := by
  simp only [children, mem_map, mem_filter, decide_eq_true_eq, mem_values_iff]
  constructor
  · rintro ⟨b, ⟨⟨id', hb⟩, hprevious⟩, rfl⟩
    refine ⟨b, ?_, hprevious⟩
    rw [hkeyed id' b hb, hb]
  · rintro ⟨b, hb, hprevious⟩
    exact ⟨b, ⟨⟨child, hb⟩, hprevious⟩, hkeyed child b hb⟩

theorem removeQueue_eq_ok_iff (hqueue : ∀ a ∈ queue, a ≠ db.head.id) :
    db.removeQueue fuel todo queue = .ok result ↔
      collect db.children fuel todo queue = some result ∧ ∀ a ∈ result, a ≠ db.head.id := by
  induction fuel generalizing todo queue with
  | zero =>
    cases todo with
    | nil =>
      rw [removeQueue, pure_ok_iff, collect, Option.some_inj]
      exact ⟨fun h => ⟨h, h ▸ hqueue⟩, And.left⟩
    | cons a todo =>
      constructor
      · intro hok
        cases hok
      · rintro ⟨hcollect, -⟩
        cases hcollect
  | succ fuel ih =>
    cases todo with
    | nil =>
      rw [removeQueue, pure_ok_iff, collect, Option.some_inj]
      exact ⟨fun h => ⟨h, h ▸ hqueue⟩, And.left⟩
    | cons a todo =>
      rw [removeQueue, bind_ok_iff, collect]
      simp only [dcdAssert_ok_iff, exists_const]
      have hstep (ha : a ≠ db.head.id) : ∀ x ∈ queue ++ [a], x ≠ db.head.id := by grind
      constructor
      · grind
      rintro ⟨hcollect, hhead⟩
      have ha : a ≠ db.head.id := hhead a (mem_of_collect hcollect a (by simp))
      exact ⟨ha, (ih (hstep ha)).mpr ⟨hcollect, hhead⟩⟩

theorem mem_of_collect_children (hkeyed : ∀ id b, db.getBlock id = some b → b.id = id)
    (hcollect : collect db.children fuel [id] [] = some result) :
    id' ∈ result ↔ db.Descends id id' := by
  constructor
  · refine forall_of_collect (P := db.Descends id) hcollect ?_ ?_ id'
    · grind
    · intro a ha b hb
      exact ha.tail ((mem_children_iff hkeyed).mp hb)
  · intro hdescends
    induction hdescends with
    | refl => exact mem_of_collect hcollect id (by simp)
    | tail _ hchild ih =>
      exact closed_of_collect hcollect (by simp) _ ih _ ((mem_children_iff hkeyed).mpr hchild)

theorem remove_eq_ok (hkeyed : ∀ id b, db.getBlock id = some b → b.id = id)
    (hok : db.remove id = .ok db') :
    ¬db.Descends id db.head.id ∧ db'.root = db.root ∧ db'.head = db.head ∧
      ∀ id' b, db'.getBlock id' = some b ↔ db.getBlock id' = some b ∧ ¬db.Descends id id' := by
  obtain ⟨queue, hqueue, hok⟩ := bind_ok_iff.mp hok
  obtain ⟨hcollect, hhead⟩ := (removeQueue_eq_ok_iff (by simp)).mp hqueue
  rw [← pure_ok_iff.mp hok]
  refine ⟨?_, rfl, rfl, ?_⟩
  · intro hdescends
    exact hhead _ ((mem_of_collect_children hkeyed hcollect).mpr hdescends) rfl
  · intro id' b
    rw [and_comm, ← mem_of_collect_children hkeyed hcollect]
    exact find?_foldl_erase_eq_some

theorem WellFormed.remove (hdb : db.WellFormed) (hok : db.remove id = .ok db') :
    db'.WellFormed := by
  obtain ⟨hhead, hroot', hhead', hindex⟩ := remove_eq_ok hdb.keyed hok
  refine ⟨⟨?_, ?_, ?_, ?_⟩, ?_, ?_⟩
  · intro id' b hb
    exact hdb.keyed id' b ((hindex id' b).mp hb).1
  · intro id' b hb
    exact hdb.numbered id' b ((hindex id' b).mp hb).1
  · rw [hroot']
    exact hdb.rootNum
  · intro id' b hb
    obtain ⟨hb, hkept⟩ := (hindex id' b).mp hb
    rw [hroot']
    refine (hdb.parent id' b hb).imp_right ?_
    rintro ⟨p, hp⟩
    -- a block whose parent is removed is removed
    refine ⟨p, (hindex _ p).mpr ⟨hp, fun hdescends => hkept ?_⟩⟩
    exact hdescends.tail ⟨b, hb, rfl⟩
  · rw [hhead', hroot']
    refine hdb.head.imp_right ?_
    rintro ⟨hb, hvalid⟩
    exact ⟨(hindex _ _).mpr ⟨hb, hhead⟩, hvalid⟩
  · intro id' b hb hvalid
    rw [hhead']
    exact hdb.best id' b ((hindex id' b).mp hb).1 hvalid

/-! ## Rolling back -/

theorem find?_foldl_unvalidate {blocks : List BlockState} {index : FlatMap Sha256 BlockState}
    (hblocks : ∀ b ∈ blocks, (index.find? b.id).map (·.toBlockHeaderState) =
      some b.toBlockHeaderState) (id : Sha256) :
    ((blocks.foldl (fun index b => index.insert b.id { b with validated := false })
        index).find? id).map (·.toBlockHeaderState) =
        (index.find? id).map (·.toBlockHeaderState) ∧
      ∀ b, (blocks.foldl (fun index b => index.insert b.id { b with validated := false })
        index).find? id = some b → b.validated = false ∨
          index.find? id = some b ∧ id ∉ blocks.map (·.id) := by
  induction blocks generalizing index with
  | nil => exact ⟨rfl, fun b hb => .inr ⟨hb, not_mem_nil⟩⟩
  | cons c blocks ih =>
    have hc := hblocks c mem_cons_self
    have hsame : ∀ id, ((index.insert c.id { c with validated := false }).find? id).map
        (·.toBlockHeaderState) = (index.find? id).map (·.toBlockHeaderState) := by
      intro id
      by_cases hid : id = c.id
      · rw [hid, find?_insert_self, hc, Option.map_some]
      · rw [find?_insert_of_ne _ _ hid]
    rw [foldl_cons, map_cons, mem_cons]
    have hrest : ∀ b ∈ blocks, ((index.insert c.id { c with validated := false }).find? b.id).map
        (·.toBlockHeaderState) = some b.toBlockHeaderState := by
      intro b hb
      rw [hsame]
      exact hblocks b (mem_cons_of_mem c hb)
    obtain ⟨hheaders, hvalid⟩ := ih hrest
    refine ⟨hheaders.trans (hsame id), ?_⟩
    intro b hb
    rcases hvalid b hb with hfalse | ⟨hfind, hnotMem⟩
    · exact .inl hfalse
    by_cases hid : id = c.id
    · rw [hid, find?_insert_self] at hfind
      rw [← Option.some.inj hfind]
      exact .inl rfl
    · rw [find?_insert_of_ne _ _ hid] at hfind
      exact .inr ⟨hfind, by tauto⟩

theorem WellFormed.rollbackHeadToRoot (hdb : db.WellFormed) : db.rollbackHeadToRoot.WellFormed := by
  have hblocks : ∀ b ∈ db.index.values, (db.index.find? b.id).map (·.toBlockHeaderState) =
      some b.toBlockHeaderState := by
    intro b hb
    obtain ⟨id, hb⟩ := mem_values_iff.mp hb
    have hid := hdb.keyed id b hb
    rw [hid]
    exact congrArg (Option.map _) hb
  have htree : db.rollbackHeadToRoot.IsTree :=
    hdb.toIsTree.of_headers rfl fun id => (find?_foldl_unvalidate hblocks id).1
  refine ⟨htree, .inl rfl, ?_⟩
  intro id b hb hvalid
  rcases (find?_foldl_unvalidate hblocks id).2 b hb with hfalse | ⟨hfind, hnotMem⟩
  · rw [hvalid] at hfalse
    cases hfalse
  · rw [map_id_values hdb.keyed] at hnotMem
    exact absurd (mem_keys_iff.mpr ⟨b, hfind⟩) hnotMem

/-! ## Advancing the root -/

theorem root_mem_blocksToRemove {blocks : List Sha256}
    (hok : db.blocksToRemove fuel b blocks = .ok result) : db.root.id ∈ result := by
  induction fuel generalizing b blocks with
  | zero => cases hok
  | succ fuel ih =>
    rw [blocksToRemove] at hok
    split at hok
    · exact ih hok
    · obtain ⟨_, hroot, hok⟩ := bind_ok_iff.mp hok
      rw [← pure_ok_iff.mp hok, ← dcdAssert_ok_iff.mp hroot]
      simp

/-- The state of `advance_root` when the blocks in `todo` have still to be removed: blocks without
a parent are built on one of them, or on the new root. -/
structure Pruning (db₀ : ForkDatabase) (newRoot : BlockState) (todo : List Sha256)
    (db : ForkDatabase) : Prop where
  root : db.root = db₀.root
  head : db.head = db₀.head
  subset : ∀ id b, db.getBlock id = some b → db₀.getBlock id = some b
  erased : db.getBlock newRoot.id = none
  parent : ∀ id b, db.getBlock id = some b → b.header.previous ∈ todo ∨
    b.header.previous = newRoot.id ∨ ∃ p, db.getBlock b.header.previous = some p
  headKept : db.head = newRoot ∨ db.getBlock db.head.id = some db.head ∨ db.head.id ∈ todo

theorem getBlock_erase : { db with index := db.index.erase id }.getBlock id' = some b ↔
      id' ≠ id ∧ db.getBlock id' = some b := by
  show (db.index.erase id).find? id' = some b ↔ _
  rw [find?_erase]
  by_cases hid : id' = id <;> simp [getBlock]

theorem pruning_init (hkeyed : ∀ id b, db.getBlock id = some b → b.id = id)
    (hparent : ∀ id b, db.getBlock id = some b →
      b.header.previous = db.root.id ∨ ∃ p, db.getBlock b.header.previous = some p)
    (hhead : db.head = db.root ∨ db.getBlock db.head.id = some db.head) (hnewRoot : db.getBlock id = some newRoot)
    (htodo : db.root.id ∈ todo) :
    Pruning db newRoot todo { db with index := db.index.erase id } := by
  have hid := hkeyed id newRoot hnewRoot
  refine ⟨rfl, rfl, fun id' b hb => (getBlock_erase.mp hb).2, ?_, ?_, ?_⟩
  · rw [hid, Option.eq_none_iff_forall_ne_some]
    intro b hb
    exact (getBlock_erase.mp hb).1 rfl
  · intro id' b hb
    rcases hparent id' b (getBlock_erase.mp hb).2 with hroot | ⟨p, hp⟩
    · exact .inl (hroot ▸ htodo)
    · by_cases hprevious : b.header.previous = id
      · grind
      · exact .inr (.inr ⟨p, getBlock_erase.mpr ⟨hprevious, hp⟩⟩)
  · rcases hhead with hroot | hhead
    · grind
    · by_cases hheadId : db.head.id = id
      · grind
      · exact .inr (.inl (getBlock_erase.mpr ⟨hheadId, hhead⟩))

theorem Pruning.remove (hkeyed₀ : ∀ id b, db₀.getBlock id = some b → b.id = id)
    (hpruning : Pruning db₀ newRoot (id :: todo) db)
    (hok : db.remove id = .ok db') : Pruning db₀ newRoot todo db' := by
  have hkeyed : ∀ id b, db.getBlock id = some b → b.id = id :=
    fun id b hb => hkeyed₀ id b (hpruning.subset id b hb)
  obtain ⟨hheadNot, hroot, hhead, hindex⟩ := remove_eq_ok hkeyed hok
  refine ⟨hroot.trans hpruning.root, hhead.trans hpruning.head, ?_, ?_, ?_, ?_⟩
  · intro id' b hb
    exact hpruning.subset id' b ((hindex id' b).mp hb).1
  · rw [Option.eq_none_iff_forall_ne_some]
    intro b hb
    have := ((hindex _ b).mp hb).1
    rw [hpruning.erased] at this
    cases this
  · intro id' b hb
    obtain ⟨hb, hkept⟩ := (hindex id' b).mp hb
    rcases hpruning.parent id' b hb with htodo | hnewRoot | ⟨p, hp⟩
    · rcases mem_cons.mp htodo with rfl | htodo
      · exact absurd (.single ⟨b, hb, rfl⟩) hkept
      · exact .inl htodo
    · exact .inr (.inl hnewRoot)
    · refine .inr (.inr ⟨p, (hindex _ p).mpr ⟨hp, fun hdescends => hkept ?_⟩⟩)
      exact hdescends.tail ⟨b, hb, rfl⟩
  · rw [hhead]
    rcases hpruning.headKept with hnewRoot | hindexed | htodo
    · exact .inl hnewRoot
    · grind
    · grind

theorem Pruning.wellFormed (hdb₀ : db₀.WellFormed)
    (hnewRoot : db₀.getBlock id = some newRoot) (hpruning : Pruning db₀ newRoot [] db) :
    { db with root := newRoot }.WellFormed := by
  refine ⟨⟨?_, ?_, ?_, ?_⟩, ?_, ?_⟩
  · intro id' b hb
    exact hdb₀.keyed id' b (hpruning.subset id' b hb)
  · intro id' b hb
    exact hdb₀.numbered id' b (hpruning.subset id' b hb)
  · exact (hdb₀.numbered id newRoot hnewRoot).id
  · intro id' b hb
    rcases hpruning.parent id' b hb with htodo | hparent
    · cases htodo
    · exact hparent
  · show db.head = newRoot ∨ _
    rcases hpruning.headKept with heq | hindexed | htodo
    · exact .inl heq
    · refine .inr ⟨hindexed, ?_⟩
      have hindexed₀ := hpruning.subset _ _ hindexed
      rw [hpruning.head] at hindexed₀
      rw [hpruning.head]
      rcases hdb₀.head with hroot | ⟨-, hvalid⟩
      · rw [hroot, hdb₀.root_notMem] at hindexed₀
        cases hindexed₀
      · exact hvalid
    · cases htodo
  · intro id' b hb hvalid
    rw [hpruning.head]
    exact hdb₀.best id' b (hpruning.subset id' b hb) hvalid

theorem WellFormed.advanceRoot (id : Sha256) :
    Triple WellFormed (advanceRoot id) (fun _ => WellFormed) fun _ => True := by
  refine .getState fun db hdb => ?_
  split
  · exact .throw fun _ _ => trivial
  next newRoot hnewRoot =>
    refine .bind (Q := fun _ s => s = db) (.ofExcept (fun _ _ hs _ => hs) fun _ _ => trivial)
      fun _ => ?_
    refine .bind (Q := fun blocks s => s = db ∧ db.root.id ∈ blocks)
      (.ofExcept (fun blocks s hs hok => ⟨hs, root_mem_blocksToRemove hok⟩) fun _ _ => trivial)
      fun blocks => ?_
    refine .bind (Q := fun _ => Pruning db newRoot blocks) (.modifyState ?_) fun _ => ?_
    · rintro s ⟨rfl, hblocks⟩
      exact pruning_init hdb.keyed hdb.parent (hdb.head.imp_right And.left) hnewRoot hblocks
    refine .bind (.forM (I := Pruning db newRoot) ?_ blocks) fun _ => ?_
    · intro block todo
      refine .getState fun t ht => ?_
      refine .bind (Q := fun t' _ => Pruning db newRoot todo t') ?_ fun t' => ?_
      · exact .ofExcept (fun t' _ _ hok => ht.remove hdb.keyed hok) fun _ _ => trivial
      · exact .modifyState fun _ hs => hs
    · exact .modifyState fun s hs => hs.wellFormed hdb hnewRoot

/-! ## Runs -/

end ForkDatabase

/-- A block state with the number it should have. -/
structure NumberedBlock where
  block : BlockState
  numbered : block.Numbered

structure NumberedRoot where
  state : BlockHeaderState
  numbered : numFromId state.id = state.blockNum

inductive ForkDatabaseCall
  | reset (root : NumberedRoot)
  | add (n : NumberedBlock) (ignoreDuplicate : Bool)
  | markValid (h : BlockState)
  | remove (id : Sha256)
  | advanceRoot (id : Sha256)
  | rollbackHeadToRoot

namespace ForkDatabase

def call (db : ForkDatabase) : ForkDatabaseCall → Except ChainException ForkDatabase
  | .reset root => pure (.reset root.state)
  | .add n ignoreDuplicate => db.add n.block ignoreDuplicate
  | .markValid h => db.markValid h
  | .remove id => db.remove id
  | .advanceRoot id =>
    match (advanceRoot id).exec db with
    | (.ok _, db') => pure db'
    | (.error e, _) => throw e
  | .rollbackHeadToRoot => pure db.rollbackHeadToRoot

abbrev ForkDatabaseRun (root : NumberedRoot) :=
  Run (fun db call db' => ForkDatabase.call db call = .ok db') (ForkDatabase.reset root.state)

variable {root : NumberedRoot} {ts : List (Transition ForkDatabase ForkDatabaseCall)}
  {db db' : ForkDatabase}

theorem wellFormed_reset (root : NumberedRoot) : (reset root.state).WellFormed := by
  refine ⟨⟨?_, ?_, root.numbered, ?_⟩, .inl rfl, ?_⟩
  · intro id b hb
    cases hb
  · intro id b hb
    cases hb
  · intro id b hb
    cases hb
  · intro id b hb
    cases hb

theorem WellFormed.call (hdb : db.WellFormed) {call : ForkDatabaseCall}
    (hok : db.call call = .ok db') : db'.WellFormed := by
  cases call with
  | reset root =>
    rw [← pure_ok_iff.mp hok]
    exact wellFormed_reset root
  | add n ignoreDuplicate => exact hdb.add n.numbered hok
  | markValid h => exact hdb.markValid hok
  | remove id => exact hdb.remove hok
  | advanceRoot id =>
    have hadvance := WellFormed.advanceRoot id db hdb
    rw [ForkDatabase.call] at hok
    split at hok
    next heq =>
      rw [heq] at hadvance
      rw [← pure_ok_iff.mp hok]
      exact hadvance
    next => cases hok
  | rollbackHeadToRoot =>
    rw [← pure_ok_iff.mp hok]
    exact hdb.rollbackHeadToRoot

theorem wellFormed_of_run (hrun : ForkDatabaseRun root ts db) : db.WellFormed :=
  hrun.invariant (I := fun _ db => db.WellFormed) (wellFormed_reset root)
    fun _ _ _ _ _ ih hok => ih.call hok

/-- The invariant, in terms of the blocks in the index. -/
structure RepInvariant (db : ForkDatabase) : Prop where
  ids : (db.index.values.map fun b => b.id).Nodup
  root : ∀ b ∈ db.index.values, b.id ≠ db.root.id
  parent : ∀ b ∈ db.index.values,
    b.header.previous = db.root.id ∧ b.blockNum.toNat = db.root.blockNum.toNat + 1 ∨
      ∃ p ∈ db.index.values,
        b.header.previous = p.id ∧ b.blockNum.toNat = p.blockNum.toNat + 1
  head : db.head = db.root ∨ db.head ∈ db.index.values ∧ db.head.validated = true
  best : ∀ b ∈ db.index.values, b.validated = true → ¬b.FirstPreferred db.head

theorem WellFormed.repInvariant (hdb : db.WellFormed) : db.RepInvariant := by
  constructor
  · rw [map_id_values hdb.keyed]
    exact db.index.keys_nodup
  · intro b hb heq
    obtain ⟨id, hb⟩ := mem_values_iff.mp hb
    rw [← hdb.keyed id b hb, heq, hdb.root_notMem] at hb
    cases hb
  · intro b hb
    obtain ⟨id, hb⟩ := mem_values_iff.mp hb
    rcases hdb.parent id b hb with hroot | ⟨p, hp⟩
    · exact .inl ⟨hroot, hdb.blockNum_of_root hb hroot⟩
    · exact .inr ⟨p, mem_values_iff.mpr ⟨_, hp⟩, (hdb.keyed _ p hp).symm,
        hdb.parent_blockNum hb hp⟩
  · refine hdb.head.imp_right ?_
    rintro ⟨hhead, hvalid⟩
    exact ⟨mem_values_iff.mpr ⟨_, hhead⟩, hvalid⟩
  · intro b hb hvalid
    obtain ⟨id, hb⟩ := mem_values_iff.mp hb
    exact hdb.best id b hb hvalid

/-- Whatever sequence of calls returns, the fork database is a tree over its root with the best
validated block as head. -/
theorem repInvariant_of_calls (hrun : ForkDatabaseRun root ts db) : db.RepInvariant :=
  (wellFormed_of_run hrun).repInvariant

/-! ### Sample blocks -/

def sampleId (num : UInt32) (salt : UInt64) : Sha256 :=
  { h0 := (endianReverseU32 num).toUInt64, h1 := salt }

/-- Block `num` with irreversible block number `lib`. -/
def sampleBlock (num lib : UInt32) (salt previousSalt : UInt64) : BlockState where
  blockNum := num
  dposIrreversibleBlocknum := lib
  id := sampleId num salt
  header := { previous := sampleId (num - 1) previousSalt }

def sampleRoot : NumberedRoot :=
  ⟨{ blockNum := 1, id := sampleId 1 0 }, by decide⟩

/-- A branch of two blocks and one beside it; when the first becomes the root, the branch beside it
is pruned. -/
theorem repInvariant_of_calls_pruned :
    ∃ ts db, ForkDatabaseRun sampleRoot ts db ∧ db.root.id = sampleId 2 1 ∧
      db.index.keys = [sampleId 3 3] ∧ db.RepInvariant := by
  obtain ⟨ts, db, hrun, hend⟩ := exists_run_of_exec call (.reset sampleRoot.state)
    [.add ⟨sampleBlock 2 0 1 0, by decide, by decide⟩ false, .markValid (sampleBlock 2 0 1 0),
      .add ⟨sampleBlock 3 0 3 1, by decide, by decide⟩ false, .markValid (sampleBlock 3 0 3 1),
      .advanceRoot (sampleId 2 1)]
    (fun _ db => decide (db.root.id = sampleId 2 1 ∧ db.index.keys = [sampleId 3 3]))
    (by decide +kernel)
  rw [decide_eq_true_eq] at hend
  exact ⟨ts, db, hrun, hend.1, hend.2, repInvariant_of_calls hrun⟩

end ForkDatabase

end DcdProtocol.Chain
