import DcdProtocol.Chain.ForkDatabase
import DcdProtocol.Library.Ledger
import DcdProtocol.Library.Run
import DcdProtocol.Library.Stateful

/-!
# The code of contracts

Accounts with the same code share one `code_object`, which counts them.  `setcode` releases the old
code of an account, which is deleted with its last user, and takes the new one, which is created for
its first.  The counts are right after any sequence of such actions (`setcode_counts`).

The zero hash stands for an account without code, so no code may have it (`CodeHost.sha256_ne`).
-/

namespace DcdProtocol.Chain

open Library FlatMap Triple

/-- The index `by_code_hash`: the hash, `vm_type` and `vm_version`. -/
abbrev CodeKey := Sha256 ×ₗ ℕ ×ₗ ℕ

def CodeKey.hash (k : CodeKey) : Sha256 := (ofLex k).1

structure AccountMetadata where
  codeSequence : ℕ := 0
  key : CodeKey := toLex ({}, toLex (0, 0))
  lastCodeUpdate : ℕ := 0

structure CodeObject where
  key : CodeKey
  code : List UInt8
  codeRefCount : ℕ
  firstBlockUsed : ℕ

structure CodeTables where
  accounts : FlatMap Name AccountMetadata
  codes : FlatMap CodeKey CodeObject := .empty

/-- The action, the actors of its authorization, and the block it is in. -/
structure SetCode where
  account : Name
  vmtype : ℕ := 0
  vmversion : ℕ := 0
  code : List UInt8
  actors : List Name
  headBlockNum : ℕ := 0
  pendingBlockTime : ℕ := 0

structure CodeHost where
  sha256 : List UInt8 → Sha256
  sha256_ne : ∀ code, sha256 code ≠ {}
  validate : List UInt8 → Except ChainException Unit

/-- The size is cast to 32 bits where the code is hashed. -/
def SetCode.codeHash (host : CodeHost) (act : SetCode) : Sha256 :=
  if act.code = [] then {} else host.sha256 (act.code.take (act.code.length % 2 ^ 32))

def SetCode.key (host : CodeHost) (act : SetCode) : CodeKey :=
  toLex (act.codeHash host, toLex (act.vmtype, act.vmversion))

abbrev CodeM := Stateful CodeTables ChainException

/-- `db.get`. -/
def getRow {α : Type} (row : CodeTables → Option α) : CodeM α := do
  let t ← get
  Stateful.ofExcept ((row t).elim (.error ⟨.stdOutOfRange, "unknown key"⟩) .ok)

def assertCode (c : Prop) [Decidable c] (type : ExceptionType) (what : String) : CodeM Unit :=
  Stateful.ofExcept (dcdAssert c type what)

/-- The old code of an account loses a user. -/
def releaseCode (k : CodeKey) (codeHash : Sha256) : CodeM Unit :=
  if k.hash = {} then pure () else do
    let old ← getRow (·.codes.find? k)
    assertCode (old.key.hash ≠ codeHash) .setExactCode
      "contract is already running this version of code"
    modify fun t => { t with
      codes := if old.codeRefCount = 1 then t.codes.erase k
        else t.codes.insert k { old with codeRefCount := old.codeRefCount - 1 } }

/-- The new code of an account gains a user. -/
def acquireCode (k : CodeKey) (act : SetCode) : CodeM Unit :=
  if act.code = [] then pure () else modify fun t => { t with
    codes := t.codes.insert k (match t.codes.find? k with
      | some o => { o with codeRefCount := o.codeRefCount + 1 }
      | none => ⟨k, act.code, 1, act.headBlockNum + 1⟩) }

/-- `apply_dcd_setcode`. -/
def applySetCode (host : CodeHost) (act : SetCode) : CodeM Unit := do
  assertCode (act.account ∈ act.actors) .missingAuthException "missing authority of ${account}"
  assertCode (act.vmtype = 0) .invalidContractVmType "code should be 0"
  assertCode (act.vmversion = 0) .invalidContractVmVersion "version should be 0"
  Stateful.ofExcept (if act.code = [] then .ok () else host.validate act.code)
  let account ← getRow (·.accounts.find? act.account)
  assertCode (act.code ≠ [] ∨ account.key.hash ≠ {}) .setExactCode "contract is already cleared"
  releaseCode account.key (act.codeHash host)
  acquireCode (act.key host) act
  modify fun t => { t with
    accounts := t.accounts.insert act.account
      ⟨account.codeSequence + 1, act.key host, act.pendingBlockTime⟩ }

/-! ## The counts -/

def uses (k q : CodeKey) : ℤ := if q = k then 1 else 0

/-- The number of accounts with the code of a key. -/
def CodeTables.users (t : CodeTables) (k : CodeKey) : ℤ := t.accounts.sumOf fun _ a => uses k a.key

/-- Each object is used and has its own key, that of a code; the counts are what `f` says. -/
structure CountsTo (codes : FlatMap CodeKey CodeObject) (f : CodeKey → ℤ) : Prop where
  objects : ∀ k o, codes.find? k = some o → o.key = k ∧ 1 ≤ o.codeRefCount ∧ k.hash ≠ {}
  counts : ∀ k, k.hash ≠ {} → codes.amountAt (fun _ o => (o.codeRefCount : ℤ)) k = f k

section

variable {t₀ : CodeTables} {codes codes' : FlatMap CodeKey CodeObject} {f g : CodeKey → ℤ}
  {k : CodeKey} {r : Option CodeObject}

theorem CountsTo.congr (h : CountsTo codes f) (hg : ∀ k, k.hash ≠ {} → g k = f k) :
    CountsTo codes g := ⟨h.objects, fun k hk => (h.counts k hk).trans (hg k hk).symm⟩

theorem uses_eq_zero {q : CodeKey} (hq : q.hash = {}) (hk : k.hash ≠ {}) : uses k q = 0 :=
  if_neg fun (h : q = k) => hk (h ▸ hq)

/-- The object of one key is replaced or removed. -/
theorem CountsTo.update (h : CountsTo codes f) (d : ℤ) (hfind : codes'.find? k = r)
    (hother : ∀ q, q ≠ k → codes'.find? q = codes.find? q)
    (hr : ∀ o ∈ r, o.key = k ∧ 1 ≤ o.codeRefCount ∧ k.hash ≠ {})
    (hk : k.hash ≠ {} → r.elim 0 (fun o => (o.codeRefCount : ℤ)) = f k + d) :
    CountsTo codes' fun q => f q + d * uses q k := by
  constructor
  · intro q o ho
    by_cases hq : q = k
    · subst hq
      exact hr o (hfind ▸ ho)
    · exact h.objects q o (hother q hq ▸ ho)
  · intro q hhash
    rw [amountAt, uses]
    by_cases hq : q = k
    · subst hq
      rw [hfind, if_pos rfl, mul_one]
      exact hk hhash
    · rw [hother q hq, if_neg (Ne.symm hq), mul_zero, add_zero]
      exact h.counts q hhash

theorem CountsTo.eq (h : CountsTo codes f) {o : CodeObject} (ho : codes.find? k = some o) :
    f k = o.codeRefCount := by
  rw [← h.counts k (h.objects k o ho).2.2, amountAt, ho]
  rfl

/-- Reads and checks do not change the tables. -/
theorem triple_getRow {α : Type} (row : CodeTables → Option α) :
    Triple (· = t₀) (getRow row) (fun a t => t = t₀ ∧ row t₀ = some a) (· = t₀) := by
  rintro t rfl
  rw [getRow, Stateful.exec_get_bind, Stateful.exec_ofExcept]
  cases row t with
  | none => rfl
  | some a => exact ⟨rfl, rfl⟩

theorem releaseCode_counts (h : CountsTo t₀.codes f) (codeHash : Sha256) :
    Triple (· = t₀) (releaseCode k codeHash)
      (fun _ t => t.accounts = t₀.accounts ∧ CountsTo t.codes fun q => f q + -1 * uses q k)
      (· = t₀) := by
  refine .ite (fun hnone => .pure ?_) fun _ => .bind (triple_getRow _) fun old =>
    .bind (.ofExcept (fun _ _ hs _ => hs) fun _ hs => hs.1) fun _ => .modifyState ?_
  · rintro t rfl
    refine ⟨rfl, h.congr fun q hq => ?_⟩
    rw [uses_eq_zero hnone hq, mul_zero, add_zero]
  rintro t ⟨rfl, hold⟩
  obtain ⟨hkey, hpos, hhash⟩ := h.objects k old hold
  have hcount := h.eq hold
  refine ⟨rfl, ?_⟩
  split_ifs with hone
  · refine h.update (r := none) (-1) ?_ (fun q hq => ?_) nofun fun _ => ?_
    · rw [find?_erase, if_pos rfl]
    · rw [find?_erase, if_neg hq]
    · rw [hcount, hone]
      rfl
  · refine h.update (-1) (find?_insert_self _ _ _) (fun _ => find?_insert_of_ne _ _) ?_ fun _ => ?_
    · rintro o ⟨⟩
      exact ⟨hkey, Nat.le_sub_one_of_lt (by omega), hhash⟩
    · rw [hcount, Option.elim_some, Nat.cast_pred hpos]
      rfl

theorem acquireCode_counts {accounts : FlatMap Name AccountMetadata} (act : SetCode)
    (hcode : act.code = [] ↔ k.hash = {}) :
    Triple (fun t => t.accounts = accounts ∧ CountsTo t.codes f) (acquireCode k act)
      (fun _ t => t.accounts = accounts ∧ CountsTo t.codes fun q => f q + 1 * uses q k)
      (· = t₀) := by
  refine .ite (fun hnone => .pure ?_) fun hsome => .modifyState ?_
  · rintro t ⟨haccounts, h⟩
    refine ⟨haccounts, h.congr fun q hq => ?_⟩
    rw [uses_eq_zero (hcode.mp hnone) hq, mul_zero, add_zero]
  rintro t ⟨haccounts, h⟩
  have hhash : k.hash ≠ {} := mt hcode.mpr hsome
  refine ⟨haccounts, h.update 1 (find?_insert_self _ _ _) (fun _ => find?_insert_of_ne _ _) ?_
    fun _ => ?_⟩
  · rintro o ⟨⟩
    cases hfind : t.codes.find? k with
    | none => exact ⟨rfl, le_rfl, hhash⟩
    | some o => exact ⟨(h.objects k o hfind).1, Nat.le_add_left _ _, hhash⟩
  · rw [← h.counts k hhash, amountAt]
    cases t.codes.find? k with
    | none => rfl
    | some o => rfl

/-- A `setcode` keeps the counts right; one that throws changes nothing. -/
theorem applySetCode_counts (host : CodeHost) (act : SetCode) (h : CountsTo t₀.codes t₀.users) :
    Triple (· = t₀) (applySetCode host act) (fun _ t => CountsTo t.codes t.users) (· = t₀) := by
  have hcheck : ∀ x : Except ChainException Unit,
      Triple (· = t₀) (Stateful.ofExcept x) (fun _ t => t = t₀) (· = t₀) := fun x =>
    .ofExcept (fun _ _ hs _ => hs) fun _ hs => hs
  refine .bind (hcheck _) fun _ => .bind (hcheck _) fun _ => .bind (hcheck _) fun _ => ?_
  refine .bind (hcheck _) fun _ => .bind (triple_getRow _) fun account => ?_
  refine .bind (.ofExcept (fun _ _ hs _ => hs) fun _ hs => hs.1) fun _ => ?_
  have hcode : act.code = [] ↔ (act.key host).hash = {} := by
    change _ ↔ act.codeHash host = {}
    rw [SetCode.codeHash]
    split_ifs with hnone
    · exact iff_of_true hnone rfl
    · exact iff_of_false hnone (host.sha256_ne _)
  rintro t ⟨rfl, haccount⟩
  refine bind (releaseCode_counts h _) (fun _ => .bind (acquireCode_counts act hcode)
    fun _ => .modifyState ?_) t rfl
  rintro s ⟨haccounts, hcounts⟩
  refine hcounts.congr fun k _ => ?_
  change sumOf _ (s.accounts.insert _ _) = _
  rw [haccounts, sumOf_insert, amountAt, haccount, one_mul, neg_one_mul]
  rfl

end

section

variable {t : CodeTables}

/-- No account has code yet. -/
def CodeTables.Initial (t : CodeTables) : Prop :=
  t.codes = .empty ∧ ∀ n a, t.accounts.find? n = some a → a.key.hash = {}

theorem CodeTables.Initial.counts (h : t.Initial) : CountsTo t.codes t.users := by
  obtain ⟨hcodes, haccounts⟩ := h
  rw [hcodes]
  refine ⟨nofun, fun k hk => ?_⟩
  rw [CodeTables.users, sumOf, List.sum_eq_zero]
  · rfl
  · intro x hx
    obtain ⟨⟨n, a⟩, hmem, rfl⟩ := List.mem_map.mp hx
    exact uses_eq_zero (haccounts n a (mem_entries_iff.mp hmem)) hk

theorem CountsTo.exists_object (h : CountsTo t.codes t.users) {n : Name} {a : AccountMetadata}
    (ha : t.accounts.find? n = some a) (hcode : a.key.hash ≠ {}) :
    ∃ o, t.codes.find? a.key = some o := by
  have hnonneg : ∀ (m : Name) (b : AccountMetadata), t.accounts.find? m = some b →
      0 ≤ uses a.key b.key := by
    intro m b _
    rw [uses]
    split_ifs <;> decide
  have hone := amountAt_le_sumOf (k := n) hnonneg
  change _ ≤ t.users a.key at hone
  rw [← h.counts _ hcode, amountAt, amountAt, ha, Option.elim_some, uses, if_pos rfl] at hone
  refine Option.ne_none_iff_exists'.mp fun hnone => ?_
  rw [hnone] at hone
  exact absurd hone (by decide)

/-- `setcode` actions that succeed. -/
abbrev CodeRun (host : CodeHost) :=
  Run fun t act t' => (applySetCode host act).exec t = (.ok (), t')

/-- After any sequence of `setcode` actions, every code object has its own key and counts the
accounts with its code, of which there is one at least, and every account with code has its object;
a `setcode` that throws changes nothing. -/
theorem setcode_counts {host : CodeHost} {start : CodeTables}
    {ts : List (Transition CodeTables SetCode)} (hstart : start.Initial)
    (hrun : CodeRun host start ts t) :
    (∀ k o, t.codes.find? k = some o →
      o.key = k ∧ (o.codeRefCount : ℤ) = t.users k ∧ 1 ≤ o.codeRefCount) ∧
    (∀ n a, t.accounts.find? n = some a → a.key.hash ≠ {} → ∃ o, t.codes.find? a.key = some o) ∧
    ∀ act e t', (applySetCode host act).exec t = (.error e, t') → t' = t := by
  have hcounts : CountsTo t.codes t.users := by
    refine hrun.invariant (I := fun _ t => CountsTo t.codes t.users) hstart.counts ?_
    intro ts t act t' _ h hstep
    have hpost := applySetCode_counts host act h t rfl
    rwa [hstep] at hpost
  refine ⟨fun k o ho => ?_, fun n a => hcounts.exists_object, fun act e t' hthrown => ?_⟩
  · obtain ⟨hkey, hpos, -⟩ := hcounts.objects k o ho
    exact ⟨hkey, (hcounts.eq ho).symm, hpos⟩
  · have hpost := applySetCode_counts host act hcounts t rfl
    rwa [hthrown] at hpost

/-- Two accounts with one code. -/
theorem setcode_counts_shared : ∃ host start ts t k o,
    start.Initial ∧ CodeRun host start ts t ∧ t.codes.find? k = some o ∧ o.codeRefCount = 2 ∧
      t.users k = 2 := by
  let host : CodeHost := ⟨fun _ => ⟨1, 0, 0, 0⟩, fun _ => by decide, fun _ => .ok ()⟩
  let start : CodeTables := ⟨(empty.insert ⟨1⟩ {}).insert ⟨2⟩ {}, .empty⟩
  let set (n : Name) : SetCode := { account := n, code := [0], actors := [n] }
  have hrun : CodeRun host start _ _ := .snoc (.snoc .nil (l := set ⟨1⟩) rfl) (l := set ⟨2⟩) rfl
  have hstart : start.Initial := by
    refine ⟨rfl, fun n a ha => ?_⟩
    rw [find?_insert, find?_insert] at ha
    split_ifs at ha <;> cases ha <;> rfl
  have hshared := (setcode_counts hstart hrun).1 ((set ⟨1⟩).key host) _ rfl
  exact ⟨host, start, _, _, _, _, hstart, hrun, rfl, rfl, hshared.2.1.symm⟩

end

end DcdProtocol.Chain
