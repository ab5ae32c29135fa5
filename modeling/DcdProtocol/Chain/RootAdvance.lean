import DcdProtocol.Chain.ForkBranches

/-!
# Advancing the root of the fork database

`advance_root` takes the new root out of the index and then removes the old ancestors of it, one after
the other, each with everything built on it that is still there.  The new root is no longer there, so
what is built on it stays: whatever leads from an ancestor to a descendant of the new root leads
through it.

**The head is checked too late.**  If the head is not built on the new root, the removal of some
ancestor throws, but by then the new root is gone from the index.
-/

namespace DcdProtocol.Chain.ForkDatabase

open Library List ForkDatabase

variable {db db₀ : ForkDatabase} {b newRoot : BlockState} {id x y : Sha256}

/-- The number of the root or of a block in the index. -/
def height (db : ForkDatabase) (id : Sha256) : ℕ :=
  (db.getBlockHeader id).elim 0 fun b => b.blockNum.toNat

theorem Linked.getBlockHeader_eq (hdb : db.Linked) (hb : db.getBlock id = some b) :
    db.getBlockHeader id = some b := by
  rw [getBlockHeader, if_neg fun heq => by rw [← heq, hdb.root] at hb; cases hb]
  exact hb

theorem Linked.height_lt (hdb : db.Linked) (hchild : db.IsChild x y) : db.height x < db.height y := by
  obtain ⟨b, hb, rfl⟩ := hchild
  obtain ⟨p, hp, hnum⟩ := hdb.parent y b hb
  rw [height, hp, height, hdb.getBlockHeader_eq hb]
  show p.blockNum.toNat < b.blockNum.toNat
  omega

theorem Linked.height_le (hdb : db.Linked) (h : db.Descends x y) : db.height x ≤ db.height y := by
  induction h with
  | refl => exact le_rfl
  | tail _ hchild ih => exact ih.trans (hdb.height_lt hchild).le

/-! ## Removing blocks from a part of the tree -/

section Part

variable (hdb₀ : db₀.Linked) (hsubset : ∀ id b, db.getBlock id = some b → db₀.getBlock id = some b)

include hdb₀ hsubset

theorem isForest_children : Worklist.IsForest db.children db₀.height := by
  have hkeyed := fun id b hb => hdb₀.keyed id b (hsubset id b hb)
  constructor
  · intro a c hc
    obtain ⟨b, hb, hprevious⟩ := (mem_children_iff hkeyed).mp hc
    exact hdb₀.height_lt ⟨b, hsubset c b hb, hprevious⟩
  · intro a a' c hc hc'
    obtain ⟨b, hb, rfl⟩ := (mem_children_iff hkeyed).mp hc
    obtain ⟨b', hb', rfl⟩ := (mem_children_iff hkeyed).mp hc'
    rw [Option.some.inj (hb.symm.trans hb')]
  · intro a
    have hnodup : (db.index.values.map fun b => b.id).Nodup := by
      rw [map_id_values hkeyed]
      exact db.index.keys_nodup
    exact hnodup.sublist (filter_sublist.map _)

theorem exists_remove (hhead : ¬db.Descends id db.head.id) : ∃ db', db.remove id = .ok db' := by
  have hkeyed := fun id b hb => hdb₀.keyed id b (hsubset id b hb)
  have hclosed : ∀ a ∈ id :: db.index.keys, ∀ c ∈ db.children a, c ∈ id :: db.index.keys := by
    intro a _ c hc
    obtain ⟨b, hb, -⟩ := (mem_children_iff hkeyed).mp hc
    exact mem_cons_of_mem _ (FlatMap.mem_keys_iff.mpr ⟨b, hb⟩)
  have hfuel : (id :: db.index.keys).length ≤ db.index.entries.length + 1 := by
    rw [length_cons, FlatMap.keys, length_map]
  obtain ⟨queue, hcollect⟩ := Worklist.exists_collect (isForest_children hdb₀ hsubset)
    mem_cons_self hclosed hfuel
  refine ⟨_, bind_ok_iff.mpr ⟨queue, (removeQueue_eq_ok_iff (by simp)).mpr ⟨hcollect, ?_⟩, rfl⟩⟩
  rintro a ha rfl
  exact hhead ((mem_of_collect_children hkeyed hcollect).mp ha)

omit hdb₀ in
theorem descends_of_erased (herased : db.getBlock id = none) (h : db.Descends x y)
    (hy : db₀.Descends id y) : db₀.Descends id x := by
  induction h with
  | refl => exact hy
  | tail _ hchild ih =>
    obtain ⟨b, hb, hprevious⟩ := hchild
    cases hy with
    | refl =>
      rw [herased] at hb
      cases hb
    | tail hdescends hchild' =>
      obtain ⟨b', hb', hprevious'⟩ := hchild'
      rw [hsubset _ b hb] at hb'
      rw [← Option.some.inj hb', hprevious] at hprevious'
      exact ih (hprevious' ▸ hdescends)

end Part

/-! ## The ancestors of the new root -/

theorem Linked.blocksToRemove (hdb : db.Linked) (fuel : ℕ) (hb : db.getBlock b.id = some b)
    (hfuel : b.blockNum.toNat ≤ db.root.blockNum.toNat + fuel) (acc : List Sha256) :
    ∃ l, db.blocksToRemove fuel b acc = .ok (acc ++ l) ∧
      ∀ x ∈ l, db.height x < b.blockNum.toNat := by
  induction fuel generalizing b acc with
  | zero =>
    rcases hdb.root_or_lt (hdb.getBlockHeader_eq hb) with rfl | ⟨-, hlt⟩
    · rw [hdb.root] at hb
      cases hb
    · omega
  | succ fuel ih =>
    obtain ⟨p, hp, hnum⟩ := hdb.parent _ b hb
    have hprevious := hdb.keyed_header hp
    have hheight : db.height b.header.previous < b.blockNum.toNat := by
      rw [height, hp]
      show p.blockNum.toNat < _
      omega
    rw [blocksToRemove]
    rcases hdb.root_or_lt hp with rfl | ⟨hindexed, -⟩
    · rw [← hprevious, hdb.root]
      refine ⟨[db.root.id], ?_, by simpa [hprevious] using hheight⟩
      exact bind_ok_iff.mpr ⟨(), dcdAssert_ok_iff.mpr rfl, rfl⟩
    obtain ⟨l, hok, hl⟩ := ih hindexed (by omega) (acc ++ [b.header.previous])
    rw [← hprevious, hindexed, hprevious]
    refine ⟨b.header.previous :: l, by rw [append_cons acc _ l]; exact hok, ?_⟩
    refine forall_mem_cons.mpr ⟨hheight, fun x hx => ?_⟩
    have := hl x hx
    omega

/-! ## The removals -/

/-- The state between two removals; what is built on the new root is all there. -/
structure Keeping (db₀ : ForkDatabase) (newRoot : BlockState) (todo : List Sha256)
    (db : ForkDatabase) : Prop extends Pruning db₀ newRoot todo db where
  kept : ∀ id b, db₀.getBlock id = some b → id ≠ newRoot.id → db₀.Descends newRoot.id id →
    db.getBlock id = some b
  below : ∀ x ∈ todo, ¬db₀.Descends newRoot.id x

namespace Keeping

variable {todo : List Sha256}

theorem descends_of_error (h : Keeping db₀ newRoot (x :: todo) db) (hdb₀ : db₀.Linked)
    {e : ChainException} (herror : db.remove x = .error e) :
    ¬db₀.Descends newRoot.id db₀.head.id := by
  intro hhead
  have hnot : ¬db.Descends x db.head.id := by
    rw [h.head]
    intro hdescends
    exact h.below x mem_cons_self (descends_of_erased h.subset h.erased hdescends hhead)
  obtain ⟨db', hok⟩ := exists_remove hdb₀ h.subset hnot
  rw [herror] at hok
  cases hok

theorem remove (h : Keeping db₀ newRoot (x :: todo) db) (hdb₀ : db₀.Linked) {db' : ForkDatabase}
    (hok : db.remove x = .ok db') : Keeping db₀ newRoot todo db' := by
  have hkeyed := fun id b hb => hdb₀.keyed id b (h.subset id b hb)
  obtain ⟨-, -, -, hindex⟩ := remove_eq_ok hkeyed hok
  refine ⟨h.toPruning.remove hdb₀.keyed hok, fun id b hb hne hdescends => ?_,
    fun y hy => h.below y (mem_cons_of_mem _ hy)⟩
  refine (hindex id b).mpr ⟨h.kept id b hb hne hdescends, fun hremoved => ?_⟩
  exact h.below x mem_cons_self (descends_of_erased h.subset h.erased hremoved hdescends)

theorem getBlock_iff (h : Keeping db₀ newRoot [] db) (hdb₀ : db₀.Linked) :
    db.getBlock id = some b ↔
      db₀.getBlock id = some b ∧ id ≠ newRoot.id ∧ db₀.Descends newRoot.id id := by
  refine ⟨fun hb => ⟨h.subset id b hb, ?_, ?_⟩, fun ⟨hb, hne, hdescends⟩ => h.kept id b hb hne hdescends⟩
  · rintro rfl
    rw [h.erased] at hb
    cases hb
  induction hheight : db₀.height id using Nat.strong_induction_on generalizing id b with
  | _ n ih =>
    have hchild : db₀.IsChild b.header.previous id := ⟨b, h.subset id b hb, rfl⟩
    rcases h.parent id b hb with htodo | hprevious | ⟨p, hp⟩
    · cases htodo
    · exact .single (hprevious ▸ hchild)
    · exact (ih _ (hheight ▸ hdb₀.height_lt hchild) hp rfl).tail hchild

theorem descends_head (h : Keeping db₀ newRoot [] db) (hdb₀ : db₀.Linked) :
    db₀.Descends newRoot.id db₀.head.id := by
  rw [← h.head]
  rcases h.headKept with heq | hindexed | htodo
  · rw [heq]
  · exact ((h.getBlock_iff hdb₀).mp hindexed).2.2
  · cases htodo

end Keeping

/-- What `advance_root` does with a validated block: it returns if the head is built on it; otherwise
it has lost the block. -/
theorem Linked.advanceRoot (hdb : db.Linked)
    (hhead : db.head = db.root ∨ db.getBlock db.head.id = some db.head)
    (hnewRoot : db.getBlock id = some newRoot) (hvalid : newRoot.validated = true) :
    Triple (fun s => s = db) (advanceRoot id)
      (fun _ s => db.Descends id db.head.id ∧ s.root = newRoot ∧ s.head = db.head ∧
        ∀ id' b, s.getBlock id' = some b ↔ db.getBlock id' = some b ∧ id' ≠ id ∧ db.Descends id id')
      fun s => ¬db.Descends id db.head.id ∧ s.getBlock id = none := by
  obtain rfl := hdb.keyed id newRoot hnewRoot
  have hheader := hdb.getBlockHeader_eq hnewRoot
  obtain ⟨l, hl⟩ := Path.exists_root hdb hheader
  have hnum := Path.blockNum_eq hdb hl
  have hlength := Path.length_le hdb hl
  obtain ⟨blocks, hblocks, hbelow⟩ :=
    hdb.blocksToRemove (db.index.entries.length + 1) hnewRoot (by omega) []
  have hinit : Keeping db newRoot blocks { db with index := db.index.erase newRoot.id } := by
    have hparent : ∀ id b, db.getBlock id = some b →
        b.header.previous = db.root.id ∨ ∃ p, db.getBlock b.header.previous = some p := by
      intro id b hb
      obtain ⟨p, hp, -⟩ := hdb.parent id b hb
      rw [← hdb.keyed_header hp]
      exact (hdb.root_or_lt hp).imp (fun h => by rw [h]) fun h => ⟨p, h.1⟩
    refine ⟨pruning_init hdb.keyed hparent hhead hnewRoot (root_mem_blocksToRemove hblocks),
      fun id b hb hne _ => getBlock_erase.mpr ⟨hne, hb⟩, fun x hx hdescends => ?_⟩
    have hlt := hbelow x hx
    have hle := hdb.height_le hdescends
    rw [height, hheader] at hle
    exact absurd hlt hle.not_gt
  refine .getState fun t ht => ?_
  obtain rfl := ht
  rw [hnewRoot]
  refine .bind (Q := fun _ s => s = t) (.ofExcept_cases (fun _ _ hs _ => hs) fun e s _ he => ?_)
    fun _ => ?_
  · simp [dcdAssert, hvalid] at he
  refine .bind (Q := fun l s => s = t ∧ l = blocks) (.ofExcept_cases (fun l s hs hok => ⟨hs, ?_⟩)
    fun e s _ he => ?_) fun l => ?_
  · rw [hblocks] at hok
    exact (Except.ok.inj hok).symm
  · rw [hblocks] at he
    cases he
  refine .bind (Q := fun _ => Keeping t newRoot l) (.modifyState ?_) fun _ => ?_
  · rintro s ⟨rfl, rfl⟩
    exact hinit
  refine .bind (.forM (I := Keeping t newRoot) ?_ l) fun _ => .modifyState fun s hs => ?_
  · intro block todo
    refine .getState fun s hs => .bind (Q := fun s' _ => Keeping t newRoot todo s') ?_ fun s' =>
      .modifyState fun _ h => h
    refine .ofExcept_cases (fun s' _ _ hok => hs.remove hdb hok) ?_
    rintro e s' rfl he
    exact ⟨hs.descends_of_error hdb he, hs.erased⟩
  · exact ⟨hs.descends_head hdb, rfl, hs.head, fun id' b => hs.getBlock_iff hdb⟩

/-! ## Exact or without effect -/

/-- If `advance_root` returns, the block is the root and what is built on it is the index; if it throws,
nothing has changed. -/
def AdvancesExactly (db : ForkDatabase) (id : Sha256) : Prop :=
  match (advanceRoot id).exec db with
  | (.ok _, db') => db.getBlock id = some db'.root ∧ db'.head = db.head ∧
      ∀ id' b, db'.getBlock id' = some b ↔ db.getBlock id' = some b ∧ id' ≠ id ∧ db.Descends id id'
  | (.error _, db') => db' = db

theorem exec_advanceRoot_of_not
    (h : ¬∃ newRoot, db.getBlock id = some newRoot ∧ newRoot.validated = true) :
    ∃ e, (advanceRoot id).exec db = (.error e, db) := by
  rw [advanceRoot, Stateful.exec_get_bind]
  cases hnewRoot : db.getBlock id with
  | none => exact ⟨_, rfl⟩
  | some newRoot =>
    have hvalid : ¬newRoot.validated = true := fun hvalid => h ⟨newRoot, hnewRoot, hvalid⟩
    rw [Stateful.exec_ofExcept_bind, dcdAssert, check, if_neg hvalid]
    exact ⟨_, rfl⟩

/-- It is so unless the block could become the root but the head is not built on it. -/
theorem advancesExactly_iff (hkeyed : ∀ id b, db.getBlock id = some b → b.id = id)
    (hdb : db.RepInvariant) (id : Sha256) : db.AdvancesExactly id ↔
      ((∃ newRoot, db.getBlock id = some newRoot ∧ newRoot.validated = true) →
        db.Descends id db.head.id) := by
  by_cases h : ∃ newRoot, db.getBlock id = some newRoot ∧ newRoot.validated = true
  · obtain ⟨newRoot, hnewRoot, hvalid⟩ := h
    have hhead : db.head = db.root ∨ db.getBlock db.head.id = some db.head := by
      refine hdb.head.imp_right fun ⟨hmem, _⟩ => ?_
      obtain ⟨id', hid'⟩ := mem_values_iff.mp hmem
      rwa [hkeyed id' _ hid']
    have hspec := (hdb.linked hkeyed).advanceRoot hhead hnewRoot hvalid db rfl
    rw [AdvancesExactly]
    cases hexec : (advanceRoot id).exec db with
    | mk r db' =>
      rw [hexec] at hspec
      cases r with
      | ok _ =>
        obtain ⟨hdescends, rfl, hspec⟩ := hspec
        exact iff_of_true ⟨hnewRoot, hspec⟩ fun _ => hdescends
      | error e =>
        obtain ⟨hnot, hlost⟩ := hspec
        refine iff_of_false (fun heq : db' = db => ?_) fun h => hnot (h ⟨_, hnewRoot, hvalid⟩)
        rw [heq, hnewRoot] at hlost
        cases hlost
  · obtain ⟨e, hexec⟩ := exec_advanceRoot_of_not h
    rw [AdvancesExactly, hexec]
    exact iff_of_true rfl fun hnewRoot => absurd hnewRoot h

/-- The head is built on the block that becomes the root. -/
theorem advancesExactly_iff_sample : ∃ ts db, ForkDatabaseRun sampleRoot ts db ∧
    db.AdvancesExactly (sampleId 2 1) := by
  obtain ⟨ts, db, hrun, hend⟩ := exists_run_of_exec call (.reset sampleRoot.state)
    [.add ⟨sampleBlock 2 0 1 0, by decide, by decide⟩ false, .markValid (sampleBlock 2 0 1 0)]
    (fun _ db => decide (db.head.id = sampleId 2 1)) (by decide +kernel)
  have hdb := wellFormed_of_run hrun
  refine ⟨ts, db, hrun, (advancesExactly_iff hdb.keyed hdb.repInvariant _).mpr fun _ => ?_⟩
  rw [of_decide_eq_true hend]

/-- Two validated blocks on the root: the one that is not the head cannot become the root, and it is
gone. -/
theorem advanceRoot_loses_block : ∃ ts db, ForkDatabaseRun sampleRoot ts db ∧
    db.getBlock (sampleId 2 2) = some { sampleBlock 2 0 2 0 with validated := true } ∧
    ((advanceRoot (sampleId 2 2)).exec db).1.isOk = false ∧
    ((advanceRoot (sampleId 2 2)).exec db).2.getBlock (sampleId 2 2) = none := by
  obtain ⟨ts, db, hrun, hend⟩ := exists_run_of_exec call (.reset sampleRoot.state)
    [.add ⟨sampleBlock 2 0 1 0, by decide, by decide⟩ false, .markValid (sampleBlock 2 0 1 0),
      .add ⟨sampleBlock 2 0 2 0, by decide, by decide⟩ false, .markValid (sampleBlock 2 0 2 0)]
    (fun _ db => decide
      (db.getBlock (sampleId 2 2) = some { sampleBlock 2 0 2 0 with validated := true } ∧
        ((advanceRoot (sampleId 2 2)).exec db).1.isOk = false ∧
        ((advanceRoot (sampleId 2 2)).exec db).2.getBlock (sampleId 2 2) = none))
    (by decide +kernel)
  exact ⟨ts, db, hrun, of_decide_eq_true hend⟩

end DcdProtocol.Chain.ForkDatabase
