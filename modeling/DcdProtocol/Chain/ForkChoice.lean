import DcdProtocol.Chain.ForkTree

/-!
# The choice of the head

Of two equally good blocks the fork database should keep the one it validated first.  The two
operations that move its head follow different rules: `mark_valid` moves it to the front of the
index only if that is strictly preferred, `add` moves it to the front of the index if that is
validated, even if the block added is not.

Equally good blocks are ordered by their ids in the index.  So the head survives the addition of a
block exactly if no validated block comes before it there (`HeadComesFirst`); a head that is the
root is in no index, and any validated block takes its place.
-/

namespace DcdProtocol.Chain

open Library BlockState

namespace ForkDatabase

variable {db db' : ForkDatabase} {n h : BlockState} {root : NumberedRoot}
  {ts us : List (Transition ForkDatabase ForkDatabaseCall)}

/-- Each validated block, of those in the index and `n`, is the head or strictly preferred to it, or
the head comes before it in the index. -/
def HeadComesFirst (db : ForkDatabase) (n : BlockState) : Prop :=
  ∀ b, b = n ∨ (∃ id, db.getBlock id = some b) → b.validated = true →
    b = db.head ∨ b.FirstPreferred db.head ∨
      db.getBlock db.head.id = some db.head ∧ db.head.Before b

variable {ignoreDuplicate : Bool}

theorem head_of_add (hnew : db.getBlock n.id = none) (hok : db.add n ignoreDuplicate = .ok db') :
    ∃ best, (best = n ∨ ∃ id, db.getBlock id = some best) ∧ ¬n.Before best ∧
      (∀ id b, db.getBlock id = some b → ¬b.Before best) ∧
      db'.head = if best.validated then best else db.head := by
  obtain ⟨-, ⟨hknown, -⟩ | ⟨-, best, hbest, rfl⟩⟩ := add_eq_ok hok
  · exact absurd hnew hknown
  obtain ⟨hmem, hfirst⟩ := first?_eq_some hbest
  refine ⟨best, mem_values_insert hmem, ?_, ?_, rfl⟩
  · exact hfirst n (FlatMap.mem_values_iff.mpr ⟨n.id, FlatMap.find?_insert_self _ _ _⟩)
  intro id b hb
  apply hfirst b
  refine FlatMap.mem_values_iff.mpr ⟨id, ?_⟩
  rw [FlatMap.find?_insert_of_ne]
  · exact hb
  · grind

theorem add_head (hfirst : db.getBlock n.id = none → db.HeadComesFirst n)
    (hok : db.add n ignoreDuplicate = .ok db') :
    db'.head = db.head ∨ db'.head.FirstPreferred db.head := by
  cases hnew : db.getBlock n.id with
  | some b =>
    obtain ⟨-, ⟨-, rfl⟩ | ⟨hnone, -⟩⟩ := add_eq_ok hok
    · exact .inl rfl
    · grind
  | none =>
    obtain ⟨best, hmem, -, hbefore, hhead⟩ := head_of_add hnew hok
    rw [hhead]
    split
    next hvalid =>
      rcases hfirst hnew best hmem hvalid with heq | hpreferred | ⟨hindexed, hheadBefore⟩
      · exact .inl heq
      · exact .inr hpreferred
      · grind
    next => exact .inl rfl

theorem headComesFirst_of_add (hdb : db.WellFormed)
    (hn : n.validated = false) (hnew : db.getBlock n.id = none)
    (hok : db.add n ignoreDuplicate = .ok db') (hhead : db'.head = db.head) :
    db.HeadComesFirst n := by
  obtain ⟨best, hmem, -, hbefore, hbest⟩ := head_of_add hnew hok
  rintro b (rfl | ⟨id, hb⟩) hvalid
  · rw [hn] at hvalid
    cases hvalid
  have hbestValid := validated_of_not_before (hbefore id b hb) hvalid
  rw [if_pos hbestValid, hhead] at hbest
  subst hbest
  have hindexed : db.getBlock db.head.id = some db.head := by
    rcases hmem with heq | ⟨id', hhead⟩
    · grind
    · rw [hdb.keyed id' _ hhead, hhead]
  -- the keys of the index differ unless the ids are the same
  rcases lt_trichotomy db.head.indexKey b.indexKey with hlt | heq | hgt
  · exact .inr (.inr ⟨hindexed, before_iff.mpr hlt⟩)
  · have hid : db.head.id = b.id := congrArg (fun k => (ofLex (ofLex (ofLex k).2).2).2) heq
    rw [hid, hdb.keyed id b hb, hb] at hindexed
    exact .inl (Option.some.inj hindexed)
  · exact absurd (before_iff.mpr hgt) (hbefore id b hb)

theorem add_head_eq_iff (hdb : db.WellFormed)
    (hn : n.validated = false) (hok : db.add n ignoreDuplicate = .ok db') :
    db'.head = db.head ↔ db.getBlock n.id ≠ none ∨ db.HeadComesFirst n := by
  constructor
  · intro hhead
    by_cases hnew : db.getBlock n.id = none
    · exact .inr (headComesFirst_of_add hdb hn hnew hok hhead)
    · exact .inl hnew
  intro hfirst
  rcases add_head (fun hnew => hfirst.resolve_left (not_not.mpr hnew)) hok with heq | hpreferred
  · exact heq
  cases hnew : db.getBlock n.id with
  | some b =>
    obtain ⟨-, ⟨-, rfl⟩ | ⟨hnone, -⟩⟩ := add_eq_ok hok
    · rfl
    · grind
  | none =>
    obtain ⟨best, hmem, -, -, hhead⟩ := head_of_add hnew hok
    rw [hhead] at hpreferred ⊢
    split at hpreferred
    next hvalid =>
      rcases hmem with rfl | ⟨id, hbest⟩
      · grind
      · exact absurd hpreferred (hdb.best id best hbest hvalid)
    next hvalid => rw [if_neg hvalid]

theorem markValid_head (hok : db.markValid h = .ok db') :
    db'.head = db.head ∨ db'.head.FirstPreferred db.head := by
  rcases markValid_eq_ok hok with ⟨-, rfl⟩ | ⟨-, b, best, -, -, rfl⟩
  · exact .inl rfl
  · grind

/-- An `add` or `mark_valid`, where the head comes first if a block is added. -/
def FirstSeenStep (t : Transition ForkDatabase ForkDatabaseCall) : Prop :=
  match t.label with
  | .add n _ => t.before.getBlock n.block.id = none → t.before.HeadComesFirst n.block
  | .markValid _ => True
  | _ => False

/-- In every state that calls can lead to: adding a block that is not validated leaves the head
exactly if the block is known or the head comes first; marking a block as valid moves the head only
to a strictly preferred block; and so does every step of a sequence of additions, with the head
first, and marks. -/
theorem head_firstSeen (hrun : ForkDatabaseRun root ts db) :
    (∀ (n : NumberedBlock) ignoreDuplicate db', n.block.validated = false →
        db.add n.block ignoreDuplicate = .ok db' →
        (db'.head = db.head ↔
          db.getBlock n.block.id ≠ none ∨ db.HeadComesFirst n.block)) ∧
      (∀ h db', db.markValid h = .ok db' →
        db'.head = db.head ∨ db'.head.FirstPreferred db.head) ∧
      ∀ us db', Run (fun db call db' => ForkDatabase.call db call = .ok db') db us db' →
        (∀ t ∈ us, FirstSeenStep t) →
        ∀ t ∈ us, t.after.head = t.before.head ∨ t.after.head.FirstPreferred t.before.head := by
  refine ⟨?_, fun h db' hok => markValid_head hok, ?_⟩
  · intro n ignoreDuplicate db' hn hok
    exact add_head_eq_iff (wellFormed_of_run hrun) hn hok
  intro us db' hus hsteps t ht
  obtain ⟨pre, post, -, -, hok⟩ := hus.exists_of_mem ht
  have hstep := hsteps t ht
  obtain ⟨before, label, after⟩ := t
  cases label with
  | add n ignoreDuplicate => exact add_head hstep hok
  | markValid h => exact markValid_head hok
  | reset root => exact hstep.elim
  | remove id => exact hstep.elim
  | advanceRoot id => exact hstep.elim
  | rollbackHeadToRoot => exact hstep.elim

/-! ### Two validated blocks of the same height -/

/-- Block `num` on the block with the given salt. -/
def sampleNumbered (num : UInt32) (salt previousSalt : UInt64)
    (hid : numFromId (sampleId num salt) = num)
    (hprevious : num.toNat = (numFromId (sampleId (num - 1) previousSalt)).toNat + 1) :
    NumberedBlock :=
  ⟨sampleBlock num 0 salt previousSalt, hid, hprevious⟩

/-- The block with salt 5 becomes the head, and that with `salt` is validated later. -/
def validatedPair (salt : UInt64) (hid : numFromId (sampleId 2 salt) = 2) :
    List ForkDatabaseCall :=
  [.add (sampleNumbered 2 5 0 (by decide) (by decide)) false, .markValid (sampleBlock 2 0 5 0),
    .add (sampleNumbered 2 salt 0 hid (by decide)) false, .markValid (sampleBlock 2 0 salt 0)]

def thirdBlock : NumberedBlock := sampleNumbered 3 9 5 (by decide) (by decide)

/-- Whether the third block can be added, with `p` of the heads before and after. -/
def addsThird (p : BlockState → BlockState → Bool) (db : ForkDatabase) : Bool :=
  match db.add thirdBlock.block false with
  | .ok db' => p db.head db'.head
  | .error _ => false

theorem exists_of_addsThird {p : BlockState → BlockState → Bool} (hadds : addsThird p db = true) :
    ∃ db', db.add thirdBlock.block false = .ok db' ∧ p db.head db'.head = true := by
  rw [addsThird] at hadds
  split at hadds
  next db' hok => exact ⟨db', hok, hadds⟩
  next => cases hadds

/-- A validated block with a greater id does not take the head's place. -/
theorem head_firstSeen_greater :
    ∃ ts db, ForkDatabaseRun sampleRoot ts db ∧ (db.getBlock thirdBlock.block.id ≠ none ∨
      db.HeadComesFirst thirdBlock.block) := by
  obtain ⟨ts, db, hrun, hadds⟩ := exists_run_of_exec call (.reset sampleRoot.state)
    (validatedPair 6 (by decide))
    (fun _ => addsThird fun before after => decide (after = before)) (by decide +kernel)
  obtain ⟨db', hok, hhead⟩ := exists_of_addsThird hadds
  rw [decide_eq_true_eq] at hhead
  exact ⟨ts, db, hrun, ((head_firstSeen hrun).1 thirdBlock false db' rfl hok).mp hhead⟩

/-- A validated block with a smaller id takes the place of the head, which it only ties with, when
a block that is not validated is added. -/
theorem head_moves_to_tie :
    ∃ ts db, ForkDatabaseRun sampleRoot ts db ∧ ∃ db', thirdBlock.block.validated = false ∧
      db.add thirdBlock.block false = .ok db' ∧ db'.head ≠ db.head ∧
      ¬db'.head.FirstPreferred db.head := by
  obtain ⟨ts, db, hrun, hadds⟩ := exists_run_of_exec call (.reset sampleRoot.state)
    (validatedPair 3 (by decide))
    (fun _ => addsThird fun before after =>
      decide (after ≠ before ∧ ¬after.FirstPreferred before)) (by decide +kernel)
  obtain ⟨db', hok, hhead⟩ := exists_of_addsThird hadds
  rw [decide_eq_true_eq] at hhead
  exact ⟨ts, db, hrun, db', rfl, hok, hhead⟩

end ForkDatabase

end DcdProtocol.Chain
