import DcdProtocol.Chain.Types

/-!
# Amounts in contracts

The types that contracts are written with: symbols, assets and assertions, as the contract library
has them (`asset.hpp`, `symbol.hpp`).  An amount is the integer that an `int64_t` holds.  Addition
and subtraction of assets compute in 64 bits and assert the range of the result; where a contract
computes with the amounts themselves nothing is asserted, and `int64` says that the result wraps.
-/

namespace DcdProtocol.Contract

open Library Chain

/-! ## Machine integers -/

/-- The value that an `int64_t` holds after a computation. -/
def int64 (x : ℤ) : ℤ := x.bmod (2 ^ 64)

theorem int64_eq {x : ℤ} (hlow : -2 ^ 63 ≤ x) (hhigh : x < 2 ^ 63) : int64 x = x := by
  unfold int64
  rw [Int.bmod_def]
  omega

/-! ## Failing actions -/

inductive Failure
  /-- `require_auth`. -/
  | missingAuthority (account : Name)
  /-- `check`. -/
  | assertion (what : String)
  deriving DecidableEq, Repr

def check (c : Prop) [Decidable c] (what : String) : Except Failure Unit :=
  Library.check c (.assertion what)

@[simp] theorem check_ok_iff {c : Prop} [Decidable c] {what : String} {u : Unit} :
    check c what = .ok u ↔ c := Library.check_ok_iff

/-- `require_find` and `get` of a table. -/
def require {α : Type*} (row : Option α) (what : String) : Except Failure α :=
  match row with
  | some a => .ok a
  | none => .error (.assertion what)

@[simp] theorem require_ok_iff {α : Type*} {row : Option α} {what : String} {a : α} :
    require row what = .ok a ↔ row = some a := by
  cases row with
  | none => simp [require]
  | some b => simp [require]

/-- The accounts that have authorized an action, and what else the action asks the chain for. -/
structure Context where
  /-- `get_self`. -/
  self : Name
  auths : List Name
  accounts : List Name

namespace Context

variable (ctx : Context)

def hasAuth (account : Name) : Bool := account ∈ ctx.auths

def isAccount (account : Name) : Bool := account ∈ ctx.accounts

def requireAuth (account : Name) : Except Failure Unit :=
  Library.check (account ∈ ctx.auths) (.missingAuthority account)

theorem requireAuth_eq_ok_iff {account : Name} {u : Unit} :
    ctx.requireAuth account = .ok u ↔ account ∈ ctx.auths := Library.check_ok_iff

end Context

/-! ## Symbols -/

structure SymbolCode where
  raw : UInt64
  deriving Repr

theorem SymbolCode.raw_toNat_injective : Function.Injective fun c : SymbolCode => c.raw.toNat := by
  rintro ⟨a⟩ ⟨b⟩ hab
  exact congrArg mk (UInt64.toNat_inj.mp hab)

instance : LinearOrder SymbolCode :=
  LinearOrder.lift' (fun c : SymbolCode => c.raw.toNat) SymbolCode.raw_toNat_injective

/-- The loop of `symbol_code::is_valid` with `n` characters left: letters, and nothing after the
first zero. -/
def SymbolCode.validFrom : ℕ → UInt64 → Bool
  | 0, _ => true
  | n + 1, sym =>
    let c := (sym &&& 0xFF).toNat
    let sym := sym >>> 8
    decide (65 ≤ c ∧ c ≤ 90) &&
      if sym &&& 0xFF = 0 then sym >>> 8 == 0 else validFrom n sym

def SymbolCode.isValid (c : SymbolCode) : Bool := validFrom 7 c.raw

/-- `symbol`: the number of decimals in the lowest byte, the code above it. -/
structure Symbol where
  raw : UInt64
  deriving DecidableEq, Repr

namespace Symbol

variable (s : Symbol)

def code : SymbolCode := ⟨s.raw >>> 8⟩

def isValid : Bool := s.code.isValid

end Symbol

/-! ## Assets -/

structure Asset where
  amount : ℤ
  symbol : Symbol
  deriving DecidableEq, Repr

namespace Asset

def maxAmount : ℤ := 2 ^ 62 - 1

variable (a b : Asset)

def isAmountWithinRange : Bool := decide (-maxAmount ≤ a.amount ∧ a.amount ≤ maxAmount)

def isValid : Bool := a.isAmountWithinRange && a.symbol.isValid

/-- The constructor of an asset with an amount and a symbol. -/
def make (amount : ℤ) (symbol : Symbol) : Except Failure Asset := do
  check (isAmountWithinRange ⟨amount, symbol⟩ = true)
    "magnitude of asset amount must be less than 2^62"
  check (symbol.isValid = true) "invalid symbol name"
  pure ⟨amount, symbol⟩

/-- `operator-=`. -/
def sub : Except Failure Asset := do
  check (b.symbol = a.symbol) "attempt to subtract asset with different symbol"
  let amount := int64 (a.amount - b.amount)
  check (-maxAmount ≤ amount) "subtraction underflow"
  check (amount ≤ maxAmount) "subtraction overflow"
  pure ⟨amount, a.symbol⟩

/-- `operator+=`. -/
def add : Except Failure Asset := do
  check (b.symbol = a.symbol) "attempt to add asset with different symbol"
  let amount := int64 (a.amount + b.amount)
  check (-maxAmount ≤ amount) "addition underflow"
  check (amount ≤ maxAmount) "addition overflow"
  pure ⟨amount, a.symbol⟩

variable {a b} {r : Asset}

theorem isAmountWithinRange_iff :
    a.isAmountWithinRange = true ↔ -maxAmount ≤ a.amount ∧ a.amount ≤ maxAmount :=
  decide_eq_true_iff

theorem isAmountWithinRange_of_isValid (h : a.isValid = true) : a.isAmountWithinRange = true :=
  (Bool.and_eq_true_iff.mp h).1

theorem sub_eq_ok (h : a.sub b = .ok r) (ha : a.isAmountWithinRange = true)
    (hb : b.isAmountWithinRange = true) :
    b.symbol = a.symbol ∧ r.symbol = a.symbol ∧ r.amount = a.amount - b.amount ∧
      r.isAmountWithinRange = true := by
  rw [isAmountWithinRange_iff, maxAmount] at ha hb
  have hwrap : int64 (a.amount - b.amount) = a.amount - b.amount := int64_eq (by omega) (by omega)
  simp only [sub, bind_ok_iff, check_ok_iff, pure_ok_iff, exists_const, hwrap] at h
  obtain ⟨hsymbol, hlow, hhigh, rfl⟩ := h
  exact ⟨hsymbol, rfl, rfl, isAmountWithinRange_iff.mpr ⟨hlow, hhigh⟩⟩

theorem add_eq_ok (h : a.add b = .ok r) (ha : a.isAmountWithinRange = true)
    (hb : b.isAmountWithinRange = true) :
    b.symbol = a.symbol ∧ r.symbol = a.symbol ∧ r.amount = a.amount + b.amount ∧
      r.isAmountWithinRange = true := by
  rw [isAmountWithinRange_iff, maxAmount] at ha hb
  have hwrap : int64 (a.amount + b.amount) = a.amount + b.amount := int64_eq (by omega) (by omega)
  simp only [add, bind_ok_iff, check_ok_iff, pure_ok_iff, exists_const, hwrap] at h
  obtain ⟨hsymbol, hlow, hhigh, rfl⟩ := h
  exact ⟨hsymbol, rfl, rfl, isAmountWithinRange_iff.mpr ⟨hlow, hhigh⟩⟩

end Asset

end DcdProtocol.Contract
