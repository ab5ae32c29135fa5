import DcdProtocol.Chain.ForkTree

/-!
# The fork database on disk

When a node stops, `close` writes the root, the blocks of the index and the id of the head to a
file; `open` reads it back by adding the blocks one by one.  A block can only be added when its
parent is there, so `close` has to write parents first.  It does not look at parents: it merges the
validated and the unvalidated blocks, each in the reverse order of the index, by preference.  A
parent is less preferred than its child as long as irreversible block numbers do not decrease along
the branches.

The serialization of a header state is a parameter (`HeaderStateCodec`).  It writes every field
except `header_exts`, which repeats what the header contains and which `open` computes again for the
blocks, but not for the root.
-/

namespace DcdProtocol.Chain

open Library List BlockState ForkDatabase

/-- `fc::raw::pack` and `fc::raw::unpack` for header states. -/
structure HeaderStateCodec where
  Packed : Type
  pack : BlockHeaderState → Packed
  unpack : Packed → BlockHeaderState

/-- What is unpacked is what was packed, up to `header_exts`. -/
def HeaderStateCodec.RestoresFields (codec : HeaderStateCodec) : Prop :=
  ∀ b, { codec.unpack (codec.pack b) with headerExts := b.headerExts } = b

namespace HeaderStateCodec.RestoresFields

variable {codec : HeaderStateCodec} (hcodec : codec.RestoresFields) (b : BlockHeaderState)
include hcodec

theorem apply {α : Type} (f : BlockHeaderState → α)
    (hf : ∀ b exts, f { b with headerExts := exts } = f b) :
    f (codec.unpack (codec.pack b)) = f b := by
  rw [← hf (codec.unpack (codec.pack b)) b.headerExts, hcodec b]

theorem id : (codec.unpack (codec.pack b)).id = b.id :=
  hcodec.apply b BlockHeaderState.id fun _ _ => rfl

theorem header : (codec.unpack (codec.pack b)).header = b.header :=
  hcodec.apply b BlockHeaderState.header fun _ _ => rfl

theorem activatedProtocolFeatures : (codec.unpack (codec.pack b)).activatedProtocolFeatures =
    b.activatedProtocolFeatures :=
  hcodec.apply b BlockHeaderState.activatedProtocolFeatures fun _ _ => rfl

end HeaderStateCodec.RestoresFields

/-- The contents of `fork_db.dat`; a block state is packed as its header state and its flag. -/
structure ForkDatabaseFile (codec : HeaderStateCodec) where
  totem : UInt32
  version : UInt32
  root : codec.Packed
  blocks : List (codec.Packed × Bool)
  headId : Sha256

namespace ForkDatabase

def magicNumber : UInt32 := 0x30510FDB

def minSupportedVersion : UInt32 := 1

def maxSupportedVersion : UInt32 := 1

variable (codec : HeaderStateCodec) (db : ForkDatabase)

/-- The index in the order of `by_lib_block_num`. -/
def byLibBlockNum : List BlockState :=
  db.index.values.insertionSort fun a b => a.indexKey ≤ b.indexKey

/-- The order in which the loop of `close` writes the blocks. -/
def writeOrder : List BlockState :=
  let unvalidated := (db.byLibBlockNum.filter fun b => !b.validated).reverse
  let validated := (db.byLibBlockNum.filter fun b => b.validated).reverse
  validated.merge unvalidated fun v u => !decide (v.FirstPreferred u)

def close : ForkDatabaseFile codec where
  totem := magicNumber
  version := maxSupportedVersion
  root := codec.pack db.root.toBlockHeaderState
  blocks := db.writeOrder.map fun b => (codec.pack b.toBlockHeaderState, b.validated)
  headId := db.head.id

/-- `add` with validation: newly activated protocol features have to be acceptable. -/
def addValidated (ctx : HeaderContext) (n : BlockState) : Except ChainException ForkDatabase :=
  match db.getBlockHeader n.header.previous with
  | none => throw ⟨.unlinkableBlockException, "unlinkable block"⟩
  | some prev => do
    match featureActivation? n.headerExts with
    | none => pure ()
    | some newProtocolFeatures =>
      dcdAssert (ctx.validator n.header.timestamp prev.activatedProtocolFeatures
          newProtocolFeatures) .forkDatabaseException
        "serialized fork database is incompatible with configured protocol features"
    db.add n false

variable {codec}

/-- One round of the loop of `open`. -/
def readBlock (ctx : HeaderContext) (packed : codec.Packed × Bool) :
    Except ChainException ForkDatabase := do
  let s := codec.unpack packed.1
  let headerExts ← s.header.validateAndExtractHeaderExtensions
  db.addValidated ctx ⟨{ s with headerExts }, packed.2⟩

def restoreHead (headId : Sha256) : Except ChainException ForkDatabase :=
  if db.root.id = headId then pure { db with head := db.root }
  else
    match db.getBlock headId with
    | some head => pure { db with head }
    | none => throw ⟨.forkDatabaseException, "could not find head while reconstructing fork database from file; '${filename}' is likely corrupted"⟩

/-- The last assertions of `open`. -/
def checkHead : Except ChainException Unit :=
  match db.candidate with
  | some candidate =>
    if candidate.validated then
      dcdAssert (¬candidate.FirstPreferred db.head) .forkDatabaseException
        "head not set to best available option available; '${filename}' is likely corrupted"
    else
      dcdAssert (db.head.id = db.root.id) .forkDatabaseException
        "head not set to root despite no better option available; '${filename}' is likely corrupted"
  | none =>
    dcdAssert (db.head.id = db.root.id) .forkDatabaseException
      "head not set to root despite no better option available; '${filename}' is likely corrupted"

/-- `fork_database::open` on an existing file. -/
def openFile (ctx : HeaderContext) (file : ForkDatabaseFile codec) :
    Except ChainException ForkDatabase := do
  dcdAssert (file.totem = magicNumber) .forkDatabaseException
    "Fork database file '${filename}' has unexpected magic number: ${actual_totem}. Expected ${expected_totem}"
  dcdAssert (minSupportedVersion ≤ file.version ∧ file.version ≤ maxSupportedVersion)
    .forkDatabaseException
    "Unsupported version of fork database file '${filename}'. Fork database version is ${version} while code supports version(s) [${min},${max}]"
  let db ← file.blocks.foldlM (fun db packed => readBlock db ctx packed)
    (reset (codec.unpack file.root))
  let db ← db.restoreHead file.headId
  db.checkHead
  pure db

/-! ## The order of writing -/

variable {db : ForkDatabase}

theorem writeOrder_perm : db.writeOrder.Perm db.index.values := by
  refine (merge_perm_append _).trans ?_
  refine ((reverse_perm _).append (reverse_perm _)).trans ?_
  exact (filter_append_perm _ _).trans (perm_insertionSort _ _)

theorem reverse_filter_pairwise {p : BlockState → Bool}
    (hp : ∀ a b, p a = true → p b = true → a.validated = b.validated) :
    (db.byLibBlockNum.filter p).reverse.Pairwise fun a b => a.preference ≤ b.preference := by
  rw [pairwise_reverse]
  have hsorted : db.byLibBlockNum.Pairwise fun a b => a.indexKey ≤ b.indexKey :=
    pairwise_insertionSort _ _
  refine (hsorted.sublist filter_sublist).imp_of_mem ?_
  intro a b ha hb hle
  have hflag := hp b a (mem_filter.mp hb).2 (mem_filter.mp ha).2
  rw [← not_lt, ← before_iff] at hle
  have hpreferred := not_firstPreferred_of_not_before hle hflag
  rwa [firstPreferred_iff, not_lt] at hpreferred

theorem writeOrder_pairwise : db.writeOrder.Pairwise fun a b => a.preference ≤ b.preference := by
  have hle : (fun v u : BlockState => !decide (v.FirstPreferred u)) =
      fun v u => decide (v.preference ≤ u.preference) := by
    funext v u
    rw [← decide_not, decide_eq_decide, firstPreferred_iff, not_lt]
  rw [writeOrder, hle]
  refine List.Pairwise.merge (reverse_filter_pairwise ?_) (reverse_filter_pairwise ?_)
  · intro a b ha hb
    rw [ha, hb]
  · grind

/-! ## Reading back -/

/-- What `open` relies on. -/
structure Persistable (ctx : HeaderContext) (db : ForkDatabase) : Prop extends db.WellFormed where
  /-- Irreversible block numbers do not decrease. -/
  lib : ∀ id b p, db.getBlock id = some b → db.getBlock b.header.previous = some p →
    p.dposIrreversibleBlocknum ≤ b.dposIrreversibleBlocknum
  /-- `header_exts` is what the header contains. -/
  cached : ∀ id b, db.getBlock id = some b →
    b.header.validateAndExtractHeaderExtensions = .ok b.headerExts
  /-- The validator accepts the protocol features that the blocks activate. -/
  accepted : ∀ id b prev newProtocolFeatures, db.getBlock id = some b →
    db.getBlockHeader b.header.previous = some prev →
    featureActivation? b.headerExts = some newProtocolFeatures →
    ctx.validator b.header.timestamp prev.activatedProtocolFeatures newProtocolFeatures = true

variable {ctx : HeaderContext} {b p : BlockState}

theorem Persistable.preference_lt (hdb : db.Persistable ctx) {id : Sha256}
    (hb : db.getBlock id = some b) (hp : db.getBlock b.header.previous = some p) :
    p.preference < b.preference := by
  have hnum := hdb.parent_blockNum hb hp
  rw [← firstPreferred_iff]
  rcases (hdb.lib id b p hb hp).lt_or_eq with hlt | heq
  · exact .inl hlt
  · refine .inr ⟨heq, ?_⟩
    rw [UInt32.lt_iff_toNat_lt]
    omega

theorem mem_writeOrder_iff (hkeyed : ∀ id b, db.getBlock id = some b → b.id = id) :
    b ∈ db.writeOrder ↔ db.getBlock b.id = some b := by
  rw [writeOrder_perm.mem_iff, mem_values_iff]
  constructor
  · grind
  · intro hb
    exact ⟨b.id, hb⟩

variable {cur : ForkDatabase} {post pre : List BlockState}

theorem Persistable.parent_mem (hdb : db.Persistable ctx)
    (hsplit : db.writeOrder = pre ++ b :: post)
    (hp : db.getBlock b.header.previous = some p) : p ∈ pre := by
  have hb : db.getBlock b.id = some b := (mem_writeOrder_iff hdb.keyed).mp (hsplit ▸ by simp)
  have hpid : db.getBlock p.id = some p := by
    rw [hdb.keyed _ p hp, hp]
  have hmem : p ∈ pre ++ b :: post := hsplit ▸ (mem_writeOrder_iff hdb.keyed).mpr hpid
  have hlt := hdb.preference_lt hb hp
  rcases mem_append.mp hmem with hpre | hpost
  · exact hpre
  rcases mem_cons.mp hpost with rfl | hpost
  · exact absurd hlt (lt_irrefl _)
  have hpairwise : db.writeOrder.Pairwise _ := writeOrder_pairwise
  rw [hsplit] at hpairwise
  have hle := rel_of_pairwise_cons (pairwise_append.mp hpairwise).2.1 hpost
  exact absurd hlt hle.not_gt

theorem readBlock_pack (hcodec : codec.RestoresFields)
    (hcached : b.header.validateAndExtractHeaderExtensions = .ok b.headerExts) :
    cur.readBlock ctx (codec.pack b.toBlockHeaderState, b.validated) = cur.addValidated ctx b := by
  have hexts : BlockHeader.validateAndExtractHeaderExtensions
      (codec.unpack (codec.pack b.toBlockHeaderState)).header.toBlockHeader = .ok b.headerExts := by
    rw [hcodec.header]
    exact hcached
  have hblock : (⟨{ codec.unpack (codec.pack b.toBlockHeaderState) with
      headerExts := b.headerExts }, b.validated⟩ : BlockState) = b := by
    rw [hcodec]
  rw [readBlock]
  rw [hexts]
  exact congrArg (cur.addValidated ctx) hblock

/-- The database while it is read: `done` are the blocks read so far. -/
structure Reading (codec : HeaderStateCodec) (db : ForkDatabase) (done : List BlockState)
    (cur : ForkDatabase) : Prop where
  root : cur.root = ⟨codec.unpack (codec.pack db.root.toBlockHeaderState), true⟩
  index : ∀ id b, cur.getBlock id = some b ↔ b ∈ done ∧ b.id = id

theorem Reading.root_id {done : List BlockState}
    (hcodec : codec.RestoresFields) (hcur : Reading codec db done cur) :
    cur.root.id = db.root.id := by
  rw [hcur.root]
  exact hcodec.id db.root.toBlockHeaderState

theorem Reading.readBlock (hcodec : codec.RestoresFields) (hdb : db.Persistable ctx)
    (hsplit : db.writeOrder = pre ++ b :: post) (hcur : Reading codec db pre cur) :
    ∃ cur', readBlock cur ctx (codec.pack b.toBlockHeaderState, b.validated) =
        .ok cur' ∧ Reading codec db (pre ++ [b]) cur' := by
  have hb : db.getBlock b.id = some b := (mem_writeOrder_iff hdb.keyed).mp (hsplit ▸ by simp)
  -- the parent has been read already, or is the root
  obtain ⟨prev, hprev, prev₀, hprev₀, hfeatures⟩ : ∃ prev,
      cur.getBlockHeader b.header.previous = some prev ∧
      ∃ prev₀, db.getBlockHeader b.header.previous = some prev₀ ∧
        prev.activatedProtocolFeatures = prev₀.activatedProtocolFeatures := by
    by_cases hroot : b.header.previous = db.root.id
    · refine ⟨cur.root, ?_, db.root, ?_, ?_⟩
      · rw [getBlockHeader, if_pos ((hcur.root_id hcodec).trans hroot.symm)]
      · rw [getBlockHeader, if_pos hroot.symm]
      · rw [hcur.root]
        exact hcodec.activatedProtocolFeatures db.root.toBlockHeaderState
    · obtain ⟨p, hp⟩ := (hdb.parent _ b hb).resolve_left hroot
      refine ⟨p, ?_, p, ?_, rfl⟩
      · rw [getBlockHeader, if_neg, hcur.index]
        · exact ⟨hdb.parent_mem hsplit hp, hdb.keyed _ p hp⟩
        · rw [hcur.root_id hcodec]
          exact Ne.symm hroot
      · rw [getBlockHeader, if_neg (Ne.symm hroot), hp]
  have hnew : cur.getBlock b.id = none := by
    rw [Option.eq_none_iff_forall_ne_some]
    intro c hc
    obtain ⟨hc, hid⟩ := (hcur.index _ c).mp hc
    have hnodup : (db.writeOrder.map fun b => b.id).Nodup := by
      rw [(writeOrder_perm.map _).nodup_iff, map_id_values hdb.keyed]
      exact db.index.keys_nodup
    rw [hsplit, map_append, map_cons] at hnodup
    exact (nodup_append.mp hnodup).2.2 c.id (mem_map_of_mem hc) b.id mem_cons_self hid
  obtain ⟨head, hadd⟩ := add_of_new false hprev hnew
  refine ⟨⟨cur.index.insert b.id b, cur.root, head⟩, ?_, hcur.root, ?_⟩
  · rw [readBlock_pack hcodec (hdb.cached _ b hb), addValidated, hprev]
    cases hactivation : featureActivation? b.headerExts with
    | none => exact hadd
    | some newProtocolFeatures =>
      have haccepted := hdb.accepted _ b prev₀ newProtocolFeatures hb hprev₀ hactivation
      rw [← hfeatures] at haccepted
      refine bind_ok_iff.mpr ⟨⟨⟩, ?_, hadd⟩
      exact dcdAssert_ok_iff.mpr haccepted
  intro id c
  have hinsert : getBlock ⟨cur.index.insert b.id b, cur.root, head⟩ id =
      if id = b.id then some b else cur.getBlock id := getBlock_insert b
  rw [hinsert, mem_append, mem_singleton]
  split
  next hid =>
    constructor
    · grind
    rintro ⟨hc | rfl, hcid⟩
    · have := (hcur.index id c).mpr ⟨hc, hcid⟩
      rw [hid, hnew] at this
      cases this
    · rfl
  next hid =>
    rw [hcur.index]
    constructor
    · grind
    · grind

theorem Reading.readBlocks (hcodec : codec.RestoresFields) (hdb : db.Persistable ctx)
    (hsplit : db.writeOrder = pre ++ post) (hcur : Reading codec db pre cur) :
    ∃ cur', (post.map fun b => (codec.pack b.toBlockHeaderState, b.validated)).foldlM
        (fun cur packed => ForkDatabase.readBlock cur ctx packed) cur = .ok cur' ∧
      Reading codec db db.writeOrder cur' := by
  induction post generalizing pre cur with
  | nil => simp_all
  | cons b post ih =>
    obtain ⟨next, hread, hnext⟩ := hcur.readBlock hcodec hdb hsplit
    obtain ⟨cur', hok, hcur'⟩ := ih (by simpa using hsplit) hnext
    refine ⟨cur', ?_, hcur'⟩
    exact bind_ok_iff.mpr ⟨next, hread, hok⟩

theorem Reading.index_eq (hdb : db.Persistable ctx)
    (hcur : Reading codec db db.writeOrder cur) : cur.index = db.index := by
  apply FlatMap.ext_find?
  intro id b
  refine (hcur.index id b).trans ?_
  rw [mem_writeOrder_iff hdb.keyed]
  constructor
  · rintro ⟨hb, rfl⟩
    exact hb
  · intro hb
    have hid := hdb.keyed id b hb
    exact ⟨hid ▸ hb, hid⟩

section

variable (hcodec : codec.RestoresFields) (hdb : db.Persistable ctx) (hcur : Reading codec db db.writeOrder cur)
include hcodec hdb hcur

theorem Reading.restoreHead : ∃ head, cur.restoreHead db.head.id = .ok { cur with head } ∧
      (db.head = db.root ∧ head = cur.root ∨ db.head ≠ db.root ∧ head = db.head) := by
  rw [ForkDatabase.restoreHead, hcur.root_id hcodec]
  rcases hdb.head with hroot | ⟨hhead, -⟩
  · simp_all
  have hne : db.root.id ≠ db.head.id := by
    intro heq
    rw [← heq, hdb.root_notMem] at hhead
    cases hhead
  have hcurHead : cur.getBlock db.head.id = some db.head := by
    rw [getBlock, hcur.index_eq hdb]
    exact hhead
  rw [if_neg hne, hcurHead]
  exact ⟨db.head, rfl, .inr ⟨fun heq => hne (congrArg (fun b => b.id) heq).symm, rfl⟩⟩

theorem Reading.checkHead {head : BlockState}
    (hhead : db.head = db.root ∧ head = cur.root ∨ db.head ≠ db.root ∧ head = db.head) :
    { cur with head }.checkHead = .ok ⟨⟩ := by
  have hsame : head.preference = db.head.preference := by
    rcases hhead with ⟨hroot, rfl⟩ | ⟨-, rfl⟩
    · rw [hroot, hcur.root]
      exact hcodec.apply db.root.toBlockHeaderState
        (fun b => (toLex (b.dposIrreversibleBlocknum, b.blockNum) : UInt32 ×ₗ UInt32))
        fun _ _ => rfl
    · rfl
  -- without a validated block in the index, the head is the root
  have hroot : (∀ b ∈ db.index.values, b.validated = false) → head.id = cur.root.id := by
    intro hnone
    rcases hhead with ⟨-, rfl⟩ | ⟨hne, -⟩
    · rfl
    · obtain ⟨hindexed, hvalid⟩ := hdb.head.resolve_left hne
      rw [hnone db.head (mem_values_iff.mpr ⟨_, hindexed⟩)] at hvalid
      cases hvalid
  have hcandidate : candidate { cur with head } =
      first? db.index.values := by
    rw [candidate, hcur.index_eq hdb]
  rw [ForkDatabase.checkHead, hcandidate]
  cases hfirst : first? db.index.values with
  | none =>
    refine dcdAssert_ok_iff.mpr (hroot ?_)
    intro b hb
    obtain ⟨best, hbest⟩ := exists_first? hb
    rw [hfirst] at hbest
    cases hbest
  | some best =>
    obtain ⟨hmem, hbefore⟩ := first?_eq_some hfirst
    obtain ⟨id, hbest⟩ := mem_values_iff.mp hmem
    dsimp only
    split
    next hvalid =>
      refine dcdAssert_ok_iff.mpr ?_
      rw [firstPreferred_iff, hsame, ← firstPreferred_iff]
      exact hdb.best id best hbest hvalid
    next hvalid =>
      refine dcdAssert_ok_iff.mpr (hroot ?_)
      intro b hb
      by_contra hbValid
      exact hvalid (validated_of_not_before (hbefore b hb) (Bool.not_eq_false _ ▸ hbValid))

end

/-- What `close` writes, `open` reads: the same blocks with the same flags and the same head, and the
same root up to what the serialization does to it. -/
theorem open_close (hcodec : codec.RestoresFields) (hdb : db.Persistable ctx) :
    ∃ db', openFile ctx (db.close codec) = .ok db' ∧ db'.index = db.index ∧
      { db'.root.toBlockHeaderState with headerExts := db.root.headerExts } =
        db.root.toBlockHeaderState ∧
      (codec.unpack (codec.pack db.root.toBlockHeaderState) = db.root.toBlockHeaderState →
        db'.root.toBlockHeaderState = db.root.toBlockHeaderState) ∧
      (db.head = db.root ∧ db'.head = db'.root ∨ db.head ≠ db.root ∧ db'.head = db.head) := by
  have hinit : Reading codec db []
      (reset (codec.unpack (codec.pack db.root.toBlockHeaderState))) := by
    refine ⟨rfl, ?_⟩
    intro id b
    constructor
    · intro hb
      cases hb
    · rintro ⟨hb, -⟩
      cases hb
  obtain ⟨cur, hread, hcur⟩ := hinit.readBlocks hcodec hdb (nil_append _).symm
  obtain ⟨head, hrestore, hhead⟩ := hcur.restoreHead hcodec hdb
  have hindex : cur.index = db.index := hcur.index_eq hdb
  refine ⟨{ cur with head }, ?_, hindex, ?_, ?_, ?_⟩
  · refine bind_ok_iff.mpr ⟨⟨⟩, dcdAssert_ok_iff.mpr rfl, ?_⟩
    refine bind_ok_iff.mpr ⟨⟨⟩, dcdAssert_ok_iff.mpr ⟨le_rfl, le_rfl⟩, ?_⟩
    refine bind_ok_iff.mpr ⟨cur, hread, ?_⟩
    refine bind_ok_iff.mpr ⟨_, hrestore, ?_⟩
    exact bind_ok_iff.mpr ⟨⟨⟩, hcur.checkHead hcodec hdb hhead, rfl⟩
  · show { cur.root.toBlockHeaderState with headerExts := db.root.headerExts } = _
    rw [hcur.root]
    exact hcodec db.root.toBlockHeaderState
  · intro hexact
    rw [hcur.root]
    exact hexact
  · exact hhead

/-! ### The reflected fields -/

/-- The fields of `FC_REFLECT` for `block_header_state`. -/
def reflectedCodec : HeaderStateCodec where
  Packed := BlockHeaderStateCommon × Sha256 × SignedBlockHeader × ScheduleInfo × RateInfo ×
    List Sha256 × List Signature
  pack b := (b.toBlockHeaderStateCommon, b.id, b.header, b.pendingSchedule, b.pendingRate,
    b.activatedProtocolFeatures, b.additionalSignatures)
  unpack := fun (common, id, header, pendingSchedule, pendingRate, activatedProtocolFeatures,
      additionalSignatures) =>
    { toBlockHeaderStateCommon := common
      id, header, pendingSchedule, pendingRate, activatedProtocolFeatures, additionalSignatures }

theorem persistable_of_plain (hdb : db.WellFormed)
    (hplain : ∀ b ∈ db.index.values, b.header.headerExtensions = [] ∧ b.headerExts = [] ∧
      ∀ p ∈ db.index.values, p.dposIrreversibleBlocknum ≤ b.dposIrreversibleBlocknum ∨
        p.id ≠ b.header.previous) : db.Persistable ctx := by
  refine ⟨hdb, ?_, ?_, ?_⟩
  · intro id b p hb hp
    obtain ⟨-, -, hlib⟩ := hplain b (mem_values_iff.mpr ⟨id, hb⟩)
    exact (hlib p (mem_values_iff.mpr ⟨_, hp⟩)).resolve_right (not_not.mpr (hdb.keyed _ p hp))
  · intro id b hb
    obtain ⟨hheader, hexts, -⟩ := hplain b (mem_values_iff.mpr ⟨id, hb⟩)
    rw [BlockHeader.validateAndExtractHeaderExtensions, hheader, hexts]
    rfl
  · intro id b prev newProtocolFeatures hb _ hactivation
    obtain ⟨-, hexts, -⟩ := hplain b (mem_values_iff.mpr ⟨id, hb⟩)
    rw [hexts] at hactivation
    cases hactivation

/-- A validated block and one on it that is not. -/
theorem open_close_two :
    ∃ ts db, ForkDatabaseRun sampleRoot ts db ∧
      db.index.keys = [sampleId 2 1, sampleId 3 2] ∧
      ∃ db', openFile sampleContext (db.close reflectedCodec) = .ok db' ∧ db'.index = db.index := by
  obtain ⟨ts, db, hrun, hend⟩ := exists_run_of_exec call (.reset sampleRoot.state)
    [.add ⟨sampleBlock 2 0 1 0, by decide, by decide⟩ false, .markValid (sampleBlock 2 0 1 0),
      .add ⟨sampleBlock 3 0 2 1, by decide, by decide⟩ false]
    (fun _ db => decide (db.index.keys = [sampleId 2 1, sampleId 3 2] ∧
      ∀ b ∈ db.index.values, b.header.headerExtensions = [] ∧ b.headerExts = [] ∧
        ∀ p ∈ db.index.values, p.dposIrreversibleBlocknum ≤ b.dposIrreversibleBlocknum ∨
          p.id ≠ b.header.previous)) (by decide +kernel)
  rw [decide_eq_true_eq] at hend
  have hdb : db.Persistable sampleContext := persistable_of_plain (wellFormed_of_run hrun) hend.2
  have hcodec : reflectedCodec.RestoresFields := fun _ => rfl
  obtain ⟨db', hopen, hindex, -⟩ := open_close hcodec hdb
  exact ⟨ts, db, hrun, hend.1, db', hopen, hindex⟩

end ForkDatabase

end DcdProtocol.Chain
