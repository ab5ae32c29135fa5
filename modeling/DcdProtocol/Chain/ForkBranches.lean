import DcdProtocol.Chain.ForkTree

/-!
# The branches of two blocks

`fetch_branch_from` goes back from the higher of two blocks to the height of the lower one, and then
from both at once until they have the same parent.  In a tree the blocks that are passed at one height
are different until then, so the branches are disjoint, and their common end is the last common
ancestor: a later one would be in both of them.
-/

namespace DcdProtocol.Chain.ForkDatabase

open Library List Option

variable {db : ForkDatabase} {a b c p x : BlockState} {id : Sha256} {l m : List BlockState}

structure Linked (db : ForkDatabase) : Prop where
  keyed : ∀ id b, db.getBlock id = some b → b.id = id
  root : db.getBlock db.root.id = none
  parent : ∀ id b, db.getBlock id = some b → ∃ p,
    db.getBlockHeader b.header.previous = some p ∧ b.blockNum.toNat = p.blockNum.toNat + 1

theorem RepInvariant.linked (hdb : db.RepInvariant)
    (hkeyed : ∀ id b, db.getBlock id = some b → b.id = id) : db.Linked := by
  have hroot : db.getBlock db.root.id = none := by
    rw [eq_none_iff_forall_ne_some]
    intro b hb
    exact hdb.root b (mem_values_iff.mpr ⟨_, hb⟩) (hkeyed _ b hb)
  refine ⟨hkeyed, hroot, fun id b hb => ?_⟩
  rcases hdb.parent b (mem_values_iff.mpr ⟨id, hb⟩) with ⟨hprevious, hnum⟩ | ⟨p, hp, hprevious, hnum⟩
  · exact ⟨db.root, by rw [getBlockHeader, if_pos hprevious.symm], hnum⟩
  obtain ⟨id', hp'⟩ := mem_values_iff.mp hp
  obtain rfl := hkeyed id' p hp'
  refine ⟨p, ?_, hnum⟩
  rw [getBlockHeader, hprevious, if_neg fun heq => by rw [heq, hp'] at hroot; cases hroot]
  exact hp'

theorem Linked.keyed_header (hdb : db.Linked) (hb : db.getBlockHeader id = some b) : b.id = id := by
  rw [getBlockHeader] at hb
  split_ifs at hb with hroot
  · rw [← some.inj hb, hroot]
  · exact hdb.keyed id b hb

theorem Linked.root_or_lt (hdb : db.Linked) (hb : db.getBlockHeader id = some b) :
    b = db.root ∨ db.getBlock b.id = some b ∧ db.root.blockNum.toNat < b.blockNum.toNat := by
  induction hnum : b.blockNum.toNat using Nat.strong_induction_on generalizing id b with
  | _ num ih =>
    rw [getBlockHeader] at hb
    split_ifs at hb with hroot
    · exact .inl (some.inj hb).symm
    obtain rfl := hdb.keyed id b hb
    obtain ⟨p, hp, hnext⟩ := hdb.parent _ b hb
    refine .inr ⟨hb, ?_⟩
    rcases ih p.blockNum.toNat (by omega) hp rfl with rfl | ⟨-, hlt⟩ <;> omega

theorem Linked.indexed_of_ne (hdb : db.Linked) {id' : Sha256} (ha : db.getBlockHeader id = some a)
    (hb : db.getBlockHeader id' = some b) (hnum : a.blockNum.toNat = b.blockNum.toNat)
    (hne : a.id ≠ b.id) : db.getBlock a.id = some a ∧ db.getBlock b.id = some b := by
  rcases hdb.root_or_lt ha with rfl | ⟨hindexedA, hltA⟩ <;>
    rcases hdb.root_or_lt hb with rfl | ⟨hindexedB, hltB⟩
  · exact absurd rfl hne
  · omega
  · omega
  · exact ⟨hindexedA, hindexedB⟩

/-! ## Paths -/

/-- The blocks from one block back to another, which is not among them. -/
inductive Path (db : ForkDatabase) : BlockState → List BlockState → BlockState → Prop
  | nil (b : BlockState) : Path db b [] b
  | cons {b p c : BlockState} {l : List BlockState} (hb : db.getBlock b.id = some b)
      (hp : db.getBlockHeader b.header.previous = some p) (h : Path db p l c) : Path db b (b :: l) c

namespace Path

theorem append (h : Path db a l b) (h' : Path db b m c) : Path db a (l ++ m) c := by
  induction h with
  | nil => exact h'
  | cons hb hp _ ih => exact .cons hb hp (ih h')

theorem split (h : Path db a l c) (h' : Path db a m x) : x ∈ l ∨ ∃ k, Path db c k x := by
  induction h generalizing m with
  | nil => exact .inr ⟨m, h'⟩
  | cons hb hp _ ih =>
    cases h' with
    | nil => exact .inl mem_cons_self
    | cons _ hp' h' =>
      obtain rfl := some.inj (hp.symm.trans hp')
      exact (ih h').imp_left (mem_cons_of_mem _)

variable (hdb : db.Linked)

include hdb

theorem blockNum_parent (hb : db.getBlock id = some b)
    (hp : db.getBlockHeader b.header.previous = some p) :
    b.blockNum.toNat = p.blockNum.toNat + 1 := by
  obtain ⟨p', hp', hnum⟩ := hdb.parent id b hb
  rwa [some.inj (hp.symm.trans hp')]

section

variable (h : Path db a l c)
include h

theorem blockNum_eq : a.blockNum.toNat = c.blockNum.toNat + l.length := by
  induction h with
  | nil => rfl
  | cons hb hp _ ih =>
    rw [blockNum_parent hdb hb hp, ih, length_cons, Nat.add_assoc]

theorem mem (hx : x ∈ l) : db.getBlock x.id = some x ∧
    c.blockNum.toNat < x.blockNum.toNat ∧ x.blockNum.toNat ≤ a.blockNum.toNat := by
  induction h with
  | nil => cases hx
  | cons hb hp h ih =>
    have hparent := blockNum_parent hdb hb hp
    have hnum := blockNum_eq hdb h
    rcases mem_cons.mp hx with rfl | hx
    · exact ⟨hb, by omega, le_rfl⟩
    · obtain ⟨hindexed, hgt, hle⟩ := ih hx
      exact ⟨hindexed, hgt, by omega⟩

/-- What a path passes before a height is above what another one passes after it. -/
theorem disjoint_append {a' c' d d' : BlockState} {l' m' : List BlockState} (h' : Path db a' l' c')
    (hnum : c.blockNum.toNat = c'.blockNum.toNat) (hm : Path db c m d) (hm' : Path db c' m' d')
    (hl : l.Disjoint l') (hdisjoint : m.Disjoint m') : (l ++ m).Disjoint (l' ++ m') := by
  intro x hx hx'
  rcases mem_append.mp hx with hx | hx <;> rcases mem_append.mp hx' with hx' | hx'
  · exact hl hx hx'
  · have := mem hdb h hx
    have := mem hdb hm' hx'
    omega
  · have := mem hdb hm hx
    have := mem hdb h' hx'
    omega
  · exact hdisjoint hx hx'

theorem previous_getLast : ∀ x ∈ l.getLast?, x.header.previous = c.id := by
  induction h with
  | nil =>
    intro x hx
    cases hx
  | cons hb hp h ih =>
    cases h with
    | nil =>
      rintro x ⟨⟩
      exact (hdb.keyed_header hp).symm
    | cons hb' hp' h' => simpa using ih

theorem nodup : (l.map fun b => b.id).Nodup := by
  induction h with
  | nil => exact nodup_nil
  | @cons b p c l hb hp h ih =>
    refine nodup_cons.mpr ⟨fun hmem => ?_, ih⟩
    obtain ⟨x, hx, hid⟩ := mem_map.mp hmem
    obtain ⟨hindexed, -, hle⟩ := mem hdb h hx
    rw [hid, hb] at hindexed
    have hparent := blockNum_parent hdb hb hp
    rw [some.inj hindexed] at hparent
    omega

theorem length_le : l.length ≤ db.index.entries.length := by
  have hsubset : ∀ id ∈ l.map (fun b => b.id), id ∈ db.index.keys := by
    intro id hid
    obtain ⟨x, hx, rfl⟩ := mem_map.mp hid
    exact FlatMap.mem_keys_iff.mpr ⟨x, (mem hdb h hx).1⟩
  simpa [FlatMap.keys] using (subperm_of_subset (nodup hdb h) hsubset).length_le

end

theorem exists_root (hb : db.getBlockHeader id = some b) : ∃ l, Path db b l db.root := by
  induction hnum : b.blockNum.toNat using Nat.strong_induction_on generalizing id b with
  | _ num ih =>
    rcases hdb.root_or_lt hb with rfl | ⟨hindexed, -⟩
    · exact ⟨[], .nil _⟩
    · obtain ⟨p, hp, hnext⟩ := hdb.parent _ b hindexed
      obtain ⟨l, hl⟩ := ih p.blockNum.toNat (by omega) hp rfl
      exact ⟨b :: l, .cons hindexed hp hl⟩

end Path

/-! ## The loops -/

theorem Linked.descendTo (hdb : db.Linked) {num : UInt32} (hnum : db.root.blockNum ≤ num) {fuel : ℕ}
    (hb : db.getBlockHeader id = some b)
    (hfuel : b.blockNum.toNat < db.root.blockNum.toNat + fuel) (acc : List BlockState) :
    ∃ l c, db.descendTo num fuel b acc = .ok (acc ++ l, c) ∧ Path db b l c ∧
      db.getBlockHeader c.id = some c ∧ c.blockNum.toNat = min b.blockNum.toNat num.toNat := by
  rw [UInt32.le_iff_toNat_le] at hnum
  induction fuel generalizing b id acc with
  | zero =>
    rcases hdb.root_or_lt hb with rfl | ⟨-, hlt⟩ <;> omega
  | succ fuel ih =>
    rw [descendTo]
    split_ifs with hle <;> rw [UInt32.le_iff_toNat_le] at hle
    · obtain rfl := hdb.keyed_header hb
      exact ⟨[], b, by rw [append_nil]; rfl, .nil b, hb, by omega⟩
    rcases hdb.root_or_lt hb with rfl | ⟨hindexed, -⟩
    · omega
    obtain ⟨p, hp, hparent⟩ := hdb.parent _ b hindexed
    obtain ⟨l, c, hok, hpath, hc, hmin⟩ := ih hp (by omega) (acc ++ [b])
    refine ⟨b :: l, c, ?_, .cons hindexed hp hpath, hc, by omega⟩
    rw [hp, append_cons acc b l]
    exact hok

theorem Linked.descendBoth (hdb : db.Linked) (fuel : ℕ) (ha : db.getBlock a.id = some a)
    (hb : db.getBlock b.id = some b) (hne : a.id ≠ b.id)
    (hnum : a.blockNum.toNat = b.blockNum.toNat)
    (hfuel : a.blockNum.toNat ≤ db.root.blockNum.toNat + fuel) (acc₁ acc₂ : List BlockState) :
    ∃ l₁ l₂ c, db.descendBoth fuel a b acc₁ acc₂ = .ok (acc₁ ++ l₁, acc₂ ++ l₂) ∧
      Path db a l₁ c ∧ Path db b l₂ c ∧ l₁.Disjoint l₂ := by
  induction fuel generalizing a b acc₁ acc₂ with
  | zero =>
    have hroot : db.getBlockHeader a.id = some a := by
      rw [getBlockHeader, if_neg fun heq => by rw [← heq, hdb.root] at ha; cases ha]
      exact ha
    rcases hdb.root_or_lt hroot with rfl | ⟨-, hlt⟩
    · rw [hdb.root] at ha
      cases ha
    · omega
  | succ fuel ih =>
    obtain ⟨p₁, hp₁, hnum₁⟩ := hdb.parent _ a ha
    obtain ⟨p₂, hp₂, hnum₂⟩ := hdb.parent _ b hb
    have hsingle₁ : Path db a [a] p₁ := .cons ha hp₁ (.nil _)
    have hsingle₂ : Path db b [b] p₂ := .cons hb hp₂ (.nil _)
    have hsingles : [a].Disjoint [b] := by
      simpa [List.Disjoint] using fun heq : a = b => hne (congrArg (·.id) heq)
    rw [descendBoth]
    split_ifs with hsame
    · obtain rfl : p₁ = p₂ := some.inj (by rw [← hp₁, ← hp₂, hsame])
      exact ⟨[a], [b], p₁, rfl, hsingle₁, hsingle₂, hsingles⟩
    have hid₁ := hdb.keyed_header hp₁
    have hid₂ := hdb.keyed_header hp₂
    have hne' : p₁.id ≠ p₂.id := by rwa [hid₁, hid₂]
    have hindexed := hdb.indexed_of_ne hp₁ hp₂ (by omega) hne'
    obtain ⟨l₁, l₂, c, hok, hpath₁, hpath₂, hdisjoint⟩ := ih hindexed.1 hindexed.2
      hne' (by omega) (by omega) (acc₁ ++ [a]) (acc₂ ++ [b])
    refine ⟨a :: l₁, b :: l₂, c, ?_, .cons ha hp₁ hpath₁, .cons hb hp₂ hpath₂,
      Path.disjoint_append hdb hsingle₁ hsingle₂ (by omega) hpath₁ hpath₂ hsingles hdisjoint⟩
    rw [← hid₁, ← hid₂, hindexed.1, hindexed.2, append_cons acc₁ a l₁, append_cons acc₂ b l₂]
    exact hok

/-! ## Both branches -/

/-- `fetch_branch_from` returns the paths from both blocks to their last common ancestor. -/
theorem fetchBranchFrom_exact {first second : Sha256}
    (hkeyed : ∀ id b, db.getBlock id = some b → b.id = id) (hdb : db.RepInvariant)
    (hfirst : db.getBlockHeader first = some a) (hsecond : db.getBlockHeader second = some b) :
    ∃ l₁ l₂ c, db.fetchBranchFrom first second = .ok (l₁, l₂) ∧
      Path db a l₁ c ∧ Path db b l₂ c ∧ l₁.Disjoint l₂ ∧
      (∀ x m₁ m₂, Path db a m₁ x → Path db b m₂ x → ∃ m, Path db c m x) ∧
      (∀ x ∈ l₁.getLast?, ∀ y ∈ l₂.getLast?, x.header.previous = y.header.previous) ∧
      (l₁ = [] ↔ a = c) ∧ (l₂ = [] ↔ b = c) := by
  have hlinked := hdb.linked hkeyed
  have hfuel {id : Sha256} {b : BlockState} (hb : db.getBlockHeader id = some b) :
      db.root.blockNum.toNat ≤ b.blockNum.toNat ∧
        b.blockNum.toNat < db.root.blockNum.toNat + (db.index.entries.length + 1) := by
    obtain ⟨l, hl⟩ := Path.exists_root hlinked hb
    have hnum := Path.blockNum_eq hlinked hl
    have hlength := Path.length_le hlinked hl
    omega
  -- all but the last three parts follow from disjoint paths
  suffices ∃ l₁ l₂ c, db.fetchBranchFrom first second = .ok (l₁, l₂) ∧ Path db a l₁ c ∧
      Path db b l₂ c ∧ l₁.Disjoint l₂ by
    obtain ⟨l₁, l₂, c, hok, hpath₁, hpath₂, hdisjoint⟩ := this
    have hempty {a : BlockState} {l : List BlockState} (h : Path db a l c) : l = [] ↔ a = c := by
      have hnum := Path.blockNum_eq hlinked h
      constructor
      · rintro rfl
        cases h
        rfl
      · rintro rfl
        exact eq_nil_of_length_eq_zero (by omega)
    refine ⟨l₁, l₂, c, hok, hpath₁, hpath₂, hdisjoint, fun x m₁ m₂ h₁ h₂ => ?_, fun x hx y hy => ?_,
      hempty hpath₁, hempty hpath₂⟩
    · rcases hpath₁.split h₁ with hx₁ | hm
      · exact (hpath₂.split h₂).resolve_left fun hx₂ => hdisjoint hx₁ hx₂
      · exact hm
    · rw [Path.previous_getLast hlinked hpath₁ x hx, Path.previous_getLast hlinked hpath₂ y hy]
  obtain ⟨hrootA, hfuelA⟩ := hfuel hfirst
  obtain ⟨hrootB, hfuelB⟩ := hfuel hsecond
  obtain ⟨l₁, c₁, hok₁, hpath₁, hc₁, hmin₁⟩ :=
    hlinked.descendTo (UInt32.le_iff_toNat_le.mpr hrootB) hfirst hfuelA []
  obtain ⟨hroot₁, hfuel₁⟩ := hfuel hc₁
  obtain ⟨l₂, c₂, hok₂, hpath₂, hc₂, hmin₂⟩ :=
    hlinked.descendTo (UInt32.le_iff_toNat_le.mpr hroot₁) hsecond hfuelB []
  have hlower : l₁.Disjoint l₂ := by
    intro x hx₁ hx₂
    have h₁ := Path.mem hlinked hpath₁ hx₁
    have h₂ := Path.mem hlinked hpath₂ hx₂
    omega
  have hres : db.fetchBranchFrom first second = if c₁.id = c₂.id then .ok (l₁, l₂)
      else db.descendBoth (db.index.entries.length + 1) c₁ c₂ l₁ l₂ := by
    rw [fetchBranchFrom, hfirst, hsecond]
    show (db.descendTo b.blockNum _ a [] >>= _) = _
    rw [hok₁]
    show (db.descendTo c₁.blockNum _ b [] >>= _) = _
    rw [hok₂]
    rfl
  rw [hres]
  split_ifs with hid
  · obtain rfl : c₁ = c₂ := some.inj (by rw [← hc₁, ← hc₂, hid])
    exact ⟨l₁, l₂, c₁, rfl, hpath₁, hpath₂, hlower⟩
  have hindexed := hlinked.indexed_of_ne hc₁ hc₂ (by omega) hid
  obtain ⟨k₁, k₂, c, hok, hrest₁, hrest₂, hdisjoint⟩ := hlinked.descendBoth
    (db.index.entries.length + 1) hindexed.1 hindexed.2 hid (by omega) (by omega) l₁ l₂
  exact ⟨l₁ ++ k₁, l₂ ++ k₂, c, hok, hpath₁.append hrest₁, hpath₂.append hrest₂,
    Path.disjoint_append hlinked hpath₁ hpath₂ (by omega) hrest₁ hrest₂ hlower hdisjoint⟩

/-- Two blocks on one side of a fork at the root, and one on the other. -/
theorem fetchBranchFrom_exact_sample :
    ∃ ts db l₁ l₂ c, ForkDatabaseRun sampleRoot ts db ∧
      db.getBlockHeader (sampleId 3 3) = some (sampleBlock 3 0 3 1) ∧
      db.getBlockHeader (sampleId 2 2) = some (sampleBlock 2 0 2 0) ∧
      db.fetchBranchFrom (sampleId 3 3) (sampleId 2 2) = .ok (l₁, l₂) ∧
      Path db (sampleBlock 3 0 3 1) l₁ c ∧ Path db (sampleBlock 2 0 2 0) l₂ c ∧
      l₁.Disjoint l₂ := by
  obtain ⟨ts, db, hrun, hend⟩ := exists_run_of_exec call (.reset sampleRoot.state)
    [.add ⟨sampleBlock 2 0 1 0, by decide, by decide⟩ false,
      .add ⟨sampleBlock 3 0 3 1, by decide, by decide⟩ false,
      .add ⟨sampleBlock 2 0 2 0, by decide, by decide⟩ false]
    (fun _ db => decide (db.getBlockHeader (sampleId 3 3) = some (sampleBlock 3 0 3 1) ∧
      db.getBlockHeader (sampleId 2 2) = some (sampleBlock 2 0 2 0))) (by decide +kernel)
  obtain ⟨hfirst, hsecond⟩ := of_decide_eq_true hend
  have hdb := wellFormed_of_run hrun
  obtain ⟨l₁, l₂, c, hok, hpath₁, hpath₂, hdisjoint, -⟩ :=
    fetchBranchFrom_exact hdb.keyed hdb.repInvariant hfirst hsecond
  exact ⟨ts, db, l₁, l₂, c, hrun, hfirst, hsecond, hok, hpath₁, hpath₂, hdisjoint⟩

end DcdProtocol.Chain.ForkDatabase
