import DcdProtocol.Contract.Asset
import DcdProtocol.Library.Ledger
import DcdProtocol.Library.Run

/-!
# The token contract

`dcd.token` keeps one row per token, with its supply, and one row per account and token, with the
balance.  The two tables are scoped: by the symbol code for the tokens, and by the owner for the
balances; here the scope is part of the key.

An action that fails has no effect.  Who pays for the memory of a row is left out, as it only decides
whether an action fails; so is the notification of the two parties of a transfer.
-/

namespace DcdProtocol.Token

open Library hiding check check_ok_iff
open Contract
open Chain (Name)

structure CurrencyStats where
  supply : Asset
  maxSupply : Asset
  issuer : Name
  deriving DecidableEq

structure TokenContract where
  /-- The table `stat`. -/
  stats : FlatMap SymbolCode CurrencyStats := .empty
  /-- The table `accounts`, by owner and symbol code. -/
  accounts : FlatMap (Name ×ₗ SymbolCode) Asset := .empty
  deriving DecidableEq

namespace TokenContract

variable (s : TokenContract) (ctx : Context)

/-! ## Balances -/

def subBalance (owner : Name) (value : Asset) : Except Failure TokenContract := do
  let balance ← require (s.accounts.find? (toLex (owner, value.symbol.code))) "no balance object found"
  check (balance.amount ≥ value.amount) "overdrawn balance"
  let balance ← balance.sub value
  pure { s with accounts := s.accounts.insert (toLex (owner, value.symbol.code)) balance }

def addBalance (owner : Name) (value : Asset) : Except Failure TokenContract :=
  match s.accounts.find? (toLex (owner, value.symbol.code)) with
  | none => pure { s with accounts := s.accounts.insert (toLex (owner, value.symbol.code)) value }
  | some balance => do
    let balance ← balance.add value
    pure { s with accounts := s.accounts.insert (toLex (owner, value.symbol.code)) balance }

/-! ## Actions -/

def create (issuer : Name) (maximumSupply : Asset) : Except Failure TokenContract := do
  ctx.requireAuth ctx.self
  let sym := maximumSupply.symbol
  check (sym.isValid = true) "invalid symbol name"
  check (maximumSupply.isValid = true) "invalid supply"
  check (maximumSupply.amount > 0) "max-supply must be positive"
  check (s.stats.contains sym.code = false) "token with symbol already exists"
  pure { s with
    stats := s.stats.insert sym.code { supply := ⟨0, sym⟩, maxSupply := maximumSupply, issuer } }

def issue (receiver : Name) (quantity : Asset) (memo : List UInt8) : Except Failure TokenContract := do
  let sym := quantity.symbol
  check (sym.isValid = true) "invalid symbol name"
  check (memo.length ≤ 256) "memo has more than 256 bytes"
  let st ← require (s.stats.find? sym.code)
    "token with symbol does not exist, create token before issue"
  check (receiver = st.issuer) "tokens can only be issued to issuer account"
  ctx.requireAuth st.issuer
  check (quantity.isValid = true) "invalid quantity"
  check (quantity.amount > 0) "must issue positive quantity"
  check (quantity.symbol = st.supply.symbol) "symbol precision mismatch"
  check (quantity.amount ≤ int64 (st.maxSupply.amount - st.supply.amount))
    "quantity exceeds available supply"
  let supply ← st.supply.add quantity
  let s := { s with stats := s.stats.insert sym.code { st with supply } }
  s.addBalance st.issuer quantity

def retire (quantity : Asset) (memo : List UInt8) : Except Failure TokenContract := do
  let sym := quantity.symbol
  check (sym.isValid = true) "invalid symbol name"
  check (memo.length ≤ 256) "memo has more than 256 bytes"
  let st ← require (s.stats.find? sym.code) "token with symbol does not exist"
  ctx.requireAuth st.issuer
  check (quantity.isValid = true) "invalid quantity"
  check (quantity.amount > 0) "must retire positive quantity"
  check (quantity.symbol = st.supply.symbol) "symbol precision mismatch"
  let supply ← st.supply.sub quantity
  let s := { s with stats := s.stats.insert sym.code { st with supply } }
  s.subBalance st.issuer quantity

def transfer (sender receiver : Name) (quantity : Asset) (memo : List UInt8) :
    Except Failure TokenContract := do
  check (sender ≠ receiver) "cannot transfer to self"
  ctx.requireAuth sender
  check (ctx.isAccount receiver = true) "to account does not exist"
  let st ← require (s.stats.find? quantity.symbol.code) "unable to find key"
  check (quantity.isValid = true) "invalid quantity"
  check (quantity.amount > 0) "must transfer positive quantity"
  check (quantity.symbol = st.supply.symbol) "symbol precision mismatch"
  check (memo.length ≤ 256) "memo has more than 256 bytes"
  let s ← s.subBalance sender quantity
  s.addBalance receiver quantity

/-- `open`. -/
def openBalance (owner : Name) (symbol : Symbol) (ramPayer : Name) :
    Except Failure TokenContract := do
  ctx.requireAuth ramPayer
  check (ctx.isAccount owner = true) "owner account does not exist"
  let st ← require (s.stats.find? symbol.code) "symbol does not exist"
  check (st.supply.symbol = symbol) "symbol precision mismatch"
  match s.accounts.find? (toLex (owner, symbol.code)) with
  | some _ => pure s
  | none => do
    let balance ← Asset.make 0 symbol
    pure { s with accounts := s.accounts.insert (toLex (owner, symbol.code)) balance }

def close (owner : Name) (symbol : Symbol) : Except Failure TokenContract := do
  ctx.requireAuth owner
  let balance ← require (s.accounts.find? (toLex (owner, symbol.code)))
    "Balance row already deleted or never existed. Action won't have any effect."
  check (balance.amount = 0) "Cannot close because the balance is not zero."
  pure { s with accounts := s.accounts.erase (toLex (owner, symbol.code)) }

end TokenContract

/-! ## Runs -/

inductive TokenAction
  | create (issuer : Name) (maximumSupply : Asset)
  | issue (receiver : Name) (quantity : Asset) (memo : List UInt8)
  | retire (quantity : Asset) (memo : List UInt8)
  | transfer (sender receiver : Name) (quantity : Asset) (memo : List UInt8)
  | openBalance (owner : Name) (symbol : Symbol) (ramPayer : Name)
  | close (owner : Name) (symbol : Symbol)

/-- An action with the authorizations it was sent with. -/
structure TokenInput where
  context : Context
  action : TokenAction

namespace TokenContract

def step (s : TokenContract) (i : TokenInput) : Except Failure TokenContract :=
  match i.action with
  | .create issuer maximumSupply => s.create i.context issuer maximumSupply
  | .issue receiver quantity memo => s.issue i.context receiver quantity memo
  | .retire quantity memo => s.retire i.context quantity memo
  | .transfer sender receiver quantity memo => s.transfer i.context sender receiver quantity memo
  | .openBalance owner symbol ramPayer => s.openBalance i.context owner symbol ramPayer
  | .close owner symbol => s.close i.context owner symbol

end TokenContract

/-- A run of the contract from empty tables; an action that fails is rolled back. -/
abbrev TokenRun := Run (fun s i s' => settle TokenContract.step s i = s') {}

end DcdProtocol.Token
