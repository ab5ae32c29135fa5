import DcdProtocol.Token.Contract

/-!
# The supply of a token is the sum of its balances

Every action is made of at most three changes: a row of `stat` gets another supply, and balances are
adjusted by an amount (`Adjusts`).  `WellFormed` holds between the changes as well; that the supply
and the balances add up holds after the action, as the amounts of its changes cancel.

A balance is lowered by `subBalance` only, and the two actions that call it ask for the authority of
the account they call it with.
-/

namespace DcdProtocol.Token.TokenContract

open Library hiding check check_ok_iff
open Contract
open Chain (Name)

variable {s s' : TokenContract} {ctx : Context} {owner : Name} {code : SymbolCode} {value : Asset}
  {delta : ℤ}

/-- The supply of a token, zero if it does not exist. -/
def supplyOf (s : TokenContract) (code : SymbolCode) : ℤ :=
  s.stats.amountAt (fun _ st => st.supply.amount) code

/-- The balance of an account, zero without a row. -/
def balanceOf (s : TokenContract) (owner : Name) (code : SymbolCode) : ℤ :=
  s.accounts.amountAt (fun _ b => b.amount) (toLex (owner, code))

def totalBalance (s : TokenContract) (code : SymbolCode) : ℤ :=
  s.accounts.sumOf fun key b => if (ofLex key).2 = code then b.amount else 0

/-- The rows are those of existing tokens, and the amounts are in range. -/
structure WellFormed (s : TokenContract) : Prop where
  stat : ∀ code st, s.stats.find? code = some st → st.supply.symbol.code = code ∧
    0 ≤ st.supply.amount ∧ st.supply.amount ≤ st.maxSupply.amount ∧
    st.maxSupply.amount ≤ Asset.maxAmount
  balance : ∀ owner code b, s.accounts.find? (toLex (owner, code)) = some b →
    0 ≤ b.amount ∧ b.amount ≤ Asset.maxAmount ∧
    ∃ st, s.stats.find? code = some st ∧ b.symbol = st.supply.symbol

/-- The contract is well formed and its books balance. -/
structure Sound (s : TokenContract) : Prop extends WellFormed s where
  conserved : ∀ code, s.supplyOf code = s.totalBalance code

/-! ## The changes -/

/-- The balance of `owner` changes by `delta`, and nothing else does. -/
structure Adjusts (s : TokenContract) (owner : Name) (value : Asset) (delta : ℤ)
    (s' : TokenContract) : Prop where
  stats : s'.stats = s.stats
  accounts : ∃ b : Asset, b.symbol = value.symbol ∧ 0 ≤ b.amount ∧ b.amount ≤ Asset.maxAmount ∧
    b.amount = s.balanceOf owner value.symbol.code + delta ∧
    s'.accounts = s.accounts.insert (toLex (owner, value.symbol.code)) b

namespace Adjusts

variable (h : Adjusts s owner value delta s')
include h

theorem balanceOf (o : Name) (c : SymbolCode) :
    s'.balanceOf o c =
      if o = owner ∧ c = value.symbol.code then s.balanceOf owner value.symbol.code + delta
      else s.balanceOf o c := by
  obtain ⟨b, -, -, -, hamount, haccounts⟩ := h.accounts
  rw [TokenContract.balanceOf, haccounts, FlatMap.amountAt_insert, hamount]
  by_cases hkey : o = owner ∧ c = value.symbol.code
  · grind
  · rw [if_neg hkey, if_neg (fun heq => hkey (Prod.mk.inj (toLex_inj.mp heq)))]
    rfl

theorem totalBalance (c : SymbolCode) :
    s'.totalBalance c = s.totalBalance c + if value.symbol.code = c then delta else 0 := by
  obtain ⟨b, -, -, -, hamount, haccounts⟩ := h.accounts
  rw [TokenContract.totalBalance, haccounts, FlatMap.sumOf_insert, FlatMap.amountAt, hamount,
    ofLex_toLex, TokenContract.totalBalance, TokenContract.balanceOf, FlatMap.amountAt]
  split_ifs with hc
  · omega
  · cases s.accounts.find? (toLex (owner, value.symbol.code)) with
    | none => simp
    | some b => simp

theorem wellFormed (hs : s.WellFormed)
    (hstat : ∃ st, s.stats.find? value.symbol.code = some st ∧ value.symbol = st.supply.symbol) :
    s'.WellFormed := by
  obtain ⟨b, hsymbol, hlow, hhigh, -, haccounts⟩ := h.accounts
  refine ⟨h.stats ▸ hs.stat, fun o c b' hb' => ?_⟩
  rw [h.stats]
  rw [haccounts, FlatMap.find?_insert] at hb'
  split_ifs at hb' with hkey
  · simp_all
  · exact hs.balance o c b' hb'

end Adjusts

theorem WellFormed.isAmountWithinRange (hs : s.WellFormed) {b : Asset}
    (hb : s.accounts.find? (toLex (owner, code)) = some b) : b.isAmountWithinRange = true := by
  obtain ⟨hlow, hhigh, -⟩ := hs.balance owner code b hb
  rw [Asset.isAmountWithinRange_iff, Asset.maxAmount] at *
  omega

theorem adjusts_of_subBalance (hs : s.WellFormed) (hvalue : value.isAmountWithinRange = true)
    (hok : s.subBalance owner value = .ok s') :
    Adjusts s owner value (-value.amount) s' := by
  rw [subBalance] at hok
  simp only [bind_ok_iff, require_ok_iff, check_ok_iff, pure_ok_iff, exists_const] at hok
  obtain ⟨b, hb, henough, r, hsub, rfl⟩ := hok
  obtain ⟨hsymbol, hr, hamount, hrange⟩ := Asset.sub_eq_ok hsub (hs.isAmountWithinRange hb) hvalue
  rw [Asset.isAmountWithinRange_iff] at hrange
  refine ⟨rfl, r, hr.trans hsymbol.symm, by omega, hrange.2, ?_, rfl⟩
  rw [balanceOf, FlatMap.amountAt, hb, hamount, Option.elim_some]
  omega

theorem adjusts_of_addBalance (hs : s.WellFormed) (hvalue : value.isAmountWithinRange = true)
    (hpositive : 0 < value.amount) (hok : s.addBalance owner value = .ok s') :
    Adjusts s owner value value.amount s' := by
  rw [addBalance] at hok
  cases hb : s.accounts.find? (toLex (owner, value.symbol.code)) with
  | none =>
    rw [hb] at hok
    obtain rfl := pure_ok_iff.mp hok
    rw [Asset.isAmountWithinRange_iff] at hvalue
    refine ⟨rfl, value, rfl, hpositive.le, hvalue.2, ?_, rfl⟩
    rw [balanceOf, FlatMap.amountAt, hb, Option.elim_none, zero_add]
  | some b =>
    rw [hb] at hok
    simp only [bind_ok_iff, pure_ok_iff] at hok
    obtain ⟨r, hadd, rfl⟩ := hok
    obtain ⟨hsymbol, hr, hamount, hrange⟩ := Asset.add_eq_ok hadd (hs.isAmountWithinRange hb) hvalue
    obtain ⟨hlow, -, -⟩ := hs.balance _ _ _ hb
    rw [Asset.isAmountWithinRange_iff] at hrange
    refine ⟨rfl, r, hr.trans hsymbol.symm, by omega, hrange.2, ?_, rfl⟩
    rw [balanceOf, FlatMap.amountAt, hb, hamount, Option.elim_some]

theorem WellFormed.setSupply (hs : s.WellFormed) {st : CurrencyStats} {supply : Asset}
    (hst : s.stats.find? code = some st) (hsymbol : supply.symbol = st.supply.symbol)
    (hlow : 0 ≤ supply.amount) (hhigh : supply.amount ≤ st.maxSupply.amount) :
    WellFormed { s with stats := s.stats.insert code { st with supply } } := by
  obtain ⟨hcode, -, -, hmax⟩ := hs.stat code st hst
  refine ⟨fun c st' hst' => ?_, fun o c b hb => ?_⟩
  · rw [FlatMap.find?_insert] at hst'
    split_ifs at hst' with hc
    · grind
    · exact hs.stat c st' hst'
  · obtain ⟨hb₀, hb₁, st', hst', hbsymbol⟩ := hs.balance o c b hb
    refine ⟨hb₀, hb₁, ?_⟩
    rw [FlatMap.find?_insert]
    split_ifs with hc
    · grind
    · exact ⟨st', hst', hbsymbol⟩

theorem supplyOf_insert (s : TokenContract) (code c : SymbolCode) (st : CurrencyStats) :
    supplyOf { s with stats := s.stats.insert code st } c =
      if c = code then st.supply.amount else s.supplyOf c :=
  FlatMap.amountAt_insert _ _ _ _ _

theorem le_balanceOf_of_subBalance (hok : s.subBalance owner value = .ok s') :
    value.amount ≤ s.balanceOf owner value.symbol.code := by
  rw [subBalance] at hok
  simp only [bind_ok_iff, require_ok_iff, check_ok_iff, exists_const] at hok
  obtain ⟨b, hb, henough, -⟩ := hok
  rw [balanceOf, FlatMap.amountAt, hb, Option.elim_some]
  exact henough

theorem Sound.balanceOf_le_supplyOf (hs : s.Sound) (owner : Name) (code : SymbolCode) :
    s.balanceOf owner code ≤ s.supplyOf code := by
  rw [hs.conserved, totalBalance]
  have hle := FlatMap.amountAt_le_sumOf (m := s.accounts) (k := toLex (owner, code))
    (f := fun key b => if (ofLex key).2 = code then b.amount else 0) (by
      intro key b hb
      split_ifs
      · exact (hs.balance (ofLex key).1 (ofLex key).2 b hb).1
      · exact le_rfl)
  rw [FlatMap.amountAt, ofLex_toLex] at hle
  simp only [if_true] at hle
  exact hle

theorem Sound.conserved_of_adjusts (hs : s.Sound) {st st' : CurrencyStats}
    (hst : s.stats.find? value.symbol.code = some st)
    (hamount : st'.supply.amount = st.supply.amount + delta)
    (hadjust : Adjusts { s with stats := s.stats.insert value.symbol.code st' } owner value delta s')
    (c : SymbolCode) : s'.supplyOf c = s'.totalBalance c := by
  have hsupply : s'.supplyOf c = _ :=
    (congrArg (FlatMap.amountAt _ · c) hadjust.stats).trans (supplyOf_insert s _ c st')
  have htotal : s'.totalBalance c = s.totalBalance c + _ := hadjust.totalBalance c
  rw [hsupply, htotal, ← hs.conserved c]
  split_ifs with hc hc' hc'
  · rw [hc, supplyOf, FlatMap.amountAt, hst, Option.elim_some, hamount]
  · exact absurd hc.symm hc'
  · exact absurd hc'.symm hc
  · rw [add_zero]

/-! ## The actions -/

/-- What an action that was authorized by `auths` does to the books. -/
structure Balances (auths : List Name) (s s' : TokenContract) : Prop where
  sound : s'.Sound
  authorized : ∀ owner code, s'.balanceOf owner code < s.balanceOf owner code → owner ∈ auths

theorem balances_create (hs : s.Sound) {issuer : Name} {maximumSupply : Asset}
    (hok : s.create ctx issuer maximumSupply = .ok s') : Balances ctx.auths s s' := by
  rw [create] at hok
  simp only [bind_ok_iff, check_ok_iff, pure_ok_iff, exists_const] at hok
  obtain ⟨-, -, -, hvalid, hpositive, hnew, rfl⟩ := hok
  have hrange := Asset.isAmountWithinRange_iff.mp (Asset.isAmountWithinRange_of_isValid hvalid)
  have hnone : s.stats.find? maximumSupply.symbol.code = none := by
    exact Option.isSome_eq_false_iff.mp hnew |> Option.isNone_iff_eq_none.mp
  refine ⟨⟨⟨fun c st hst => ?_, fun o c b hb => ?_⟩, fun c => ?_⟩, ?_⟩
  · rw [FlatMap.find?_insert] at hst
    split_ifs at hst with hc
    · grind
    · exact hs.stat c st hst
  · obtain ⟨hlow, hhigh, st, hst, hsymbol⟩ := hs.balance o c b hb
    refine ⟨hlow, hhigh, st, ?_, hsymbol⟩
    rw [FlatMap.find?_insert, if_neg]
    · exact hst
    · grind
  · rw [supplyOf_insert]
    split_ifs with hc
    · -- A token without a row has no supply, and hence no balances.
      have hzero : s.supplyOf c = 0 := by rw [supplyOf, FlatMap.amountAt, hc, hnone, Option.elim_none]
      exact hzero.symm.trans (hs.conserved c)
    · exact hs.conserved c
  · intro o c hlt
    exact absurd hlt (lt_irrefl _)

variable {quantity : Asset} {memo : List UInt8} {symbol : Symbol}

theorem balances_issue (hs : s.Sound) {receiver : Name}
    (hok : s.issue ctx receiver quantity memo = .ok s') : Balances ctx.auths s s' := by
  rw [issue] at hok
  simp only [bind_ok_iff, check_ok_iff, require_ok_iff, exists_const] at hok
  obtain ⟨-, -, st, hst, -, -, -, hvalid, hpositive, hsymbol, havailable, supply, hsupply, hadd⟩ := hok
  have hrange := Asset.isAmountWithinRange_of_isValid hvalid
  obtain ⟨hcode, hlow, hle, hmax⟩ := hs.stat _ _ hst
  rw [int64_eq (by rw [Asset.maxAmount] at hmax; omega) (by rw [Asset.maxAmount] at hmax; omega)]
    at havailable
  obtain ⟨-, hsupplySymbol, hamount, -⟩ := Asset.add_eq_ok hsupply
    (Asset.isAmountWithinRange_iff.mpr (by rw [Asset.maxAmount] at *; omega)) hrange
  have hwf := hs.toWellFormed.setSupply hst hsupplySymbol (by omega) (by omega)
  have hadjust := adjusts_of_addBalance hwf hrange hpositive hadd
  have hstat : ∃ st', (s.stats.insert quantity.symbol.code { st with supply }).find?
      quantity.symbol.code = some st' ∧ quantity.symbol = st'.supply.symbol := by simp_all
  refine ⟨⟨hadjust.wellFormed hwf hstat, hs.conserved_of_adjusts hst hamount hadjust⟩, ?_⟩
  intro o c hlt
  rw [hadjust.balanceOf] at hlt
  split_ifs at hlt with hkey
  · obtain ⟨rfl, rfl⟩ := hkey
    change s.balanceOf _ _ + _ < s.balanceOf _ _ at hlt
    omega
  · exact absurd hlt (lt_irrefl _)

theorem balances_retire (hs : s.Sound)
    (hok : s.retire ctx quantity memo = .ok s') : Balances ctx.auths s s' := by
  rw [retire] at hok
  simp only [bind_ok_iff, check_ok_iff, require_ok_iff, exists_const,
    ctx.requireAuth_eq_ok_iff] at hok
  obtain ⟨-, -, st, hst, hauth, hvalid, hpositive, hsymbol, supply, hsupply, hsub⟩ := hok
  have hrange := Asset.isAmountWithinRange_of_isValid hvalid
  obtain ⟨hcode, hlow, hle, hmax⟩ := hs.stat _ _ hst
  obtain ⟨-, hsupplySymbol, hamount, -⟩ := Asset.sub_eq_ok hsupply
    (Asset.isAmountWithinRange_iff.mpr (by rw [Asset.maxAmount] at *; omega)) hrange
  -- The issuer has what is retired, so the supply does not become negative.
  have henough := le_balanceOf_of_subBalance hsub
  change quantity.amount ≤ s.balanceOf st.issuer quantity.symbol.code at henough
  have hbalance := hs.balanceOf_le_supplyOf st.issuer quantity.symbol.code
  rw [supplyOf, FlatMap.amountAt, hst, Option.elim_some] at hbalance
  have hwf := hs.toWellFormed.setSupply hst hsupplySymbol (by omega) (by omega)
  have hadjust := adjusts_of_subBalance hwf hrange hsub
  have hstat : ∃ st', (s.stats.insert quantity.symbol.code { st with supply }).find?
      quantity.symbol.code = some st' ∧ quantity.symbol = st'.supply.symbol := by simp_all
  have hdelta : supply.amount = st.supply.amount + -quantity.amount := by omega
  refine ⟨⟨hadjust.wellFormed hwf hstat, hs.conserved_of_adjusts hst hdelta hadjust⟩, ?_⟩
  intro o c hlt
  rw [hadjust.balanceOf] at hlt
  split_ifs at hlt with hkey
  · exact hkey.1 ▸ hauth
  · exact absurd hlt (lt_irrefl _)

theorem balances_transfer (hs : s.Sound) {sender receiver : Name} (hok : s.transfer ctx sender receiver quantity memo = .ok s') :
    Balances ctx.auths s s' := by
  rw [transfer] at hok
  simp only [bind_ok_iff, check_ok_iff, require_ok_iff, exists_const,
    ctx.requireAuth_eq_ok_iff] at hok
  obtain ⟨hne, hauth, -, st, hst, hvalid, hpositive, hsymbol, -, s₁, hsub, hadd⟩ := hok
  have hrange := Asset.isAmountWithinRange_of_isValid hvalid
  have hsubtract := adjusts_of_subBalance hs.toWellFormed hrange hsub
  have hwf := hsubtract.wellFormed hs.toWellFormed ⟨st, hst, hsymbol⟩
  have hcredit := adjusts_of_addBalance hwf hrange hpositive hadd
  have hstat : s₁.stats.find? quantity.symbol.code = some st := hsubtract.stats ▸ hst
  refine ⟨⟨hcredit.wellFormed hwf ⟨st, hstat, hsymbol⟩, fun c => ?_⟩, fun o c hlt => ?_⟩
  · rw [hcredit.totalBalance, hsubtract.totalBalance, ← hs.conserved c, supplyOf, hcredit.stats,
      hsubtract.stats, ← supplyOf]
    split_ifs
    · omega
    · omega
  · rw [hcredit.balanceOf, hsubtract.balanceOf, hsubtract.balanceOf] at hlt
    split_ifs at hlt with h₁ h₂ h₃
    · exact absurd h₂.1 hne.symm
    · grind
    · exact h₃.1 ▸ hauth
    · exact absurd hlt (lt_irrefl _)

theorem balances_openBalance (hs : s.Sound) {ramPayer : Name}
    (hok : s.openBalance ctx owner symbol ramPayer = .ok s') : Balances ctx.auths s s' := by
  rw [openBalance] at hok
  simp only [bind_ok_iff, check_ok_iff, require_ok_iff, exists_const] at hok
  obtain ⟨-, -, -, st, hst, hsymbol, hok⟩ := hok
  cases hb : s.accounts.find? (toLex (owner, symbol.code)) with
  | some b =>
    rw [hb] at hok
    obtain rfl := pure_ok_iff.mp hok
    exact ⟨hs, fun o c hlt => absurd hlt (lt_irrefl _)⟩
  | none =>
    rw [hb] at hok
    simp only [bind_ok_iff, pure_ok_iff, Asset.make, check_ok_iff, exists_const] at hok
    obtain ⟨b, ⟨-, -, rfl⟩, rfl⟩ := hok
    have hzero : s.balanceOf owner symbol.code = 0 := by
      rw [balanceOf, FlatMap.amountAt, hb, Option.elim_none]
    have hadjust : Adjusts s owner ⟨0, symbol⟩ 0
        { s with accounts := s.accounts.insert (toLex (owner, symbol.code)) ⟨0, symbol⟩ } :=
      ⟨rfl, ⟨0, symbol⟩, rfl, le_rfl, show (0 : ℤ) ≤ Asset.maxAmount by decide,
        by rw [hzero, add_zero], rfl⟩
    refine ⟨⟨hadjust.wellFormed hs.toWellFormed ⟨st, hst, hsymbol.symm⟩, fun c => ?_⟩, ?_⟩
    · rw [hadjust.totalBalance, ite_self, add_zero]
      exact hs.conserved c
    intro o c hlt
    rw [hadjust.balanceOf] at hlt
    split_ifs at hlt with hkey
    · grind
    · exact absurd hlt (lt_irrefl _)

theorem balances_close (hs : s.Sound) (hok : s.close ctx owner symbol = .ok s') :
    Balances ctx.auths s s' := by
  rw [close] at hok
  simp only [bind_ok_iff, check_ok_iff, require_ok_iff, pure_ok_iff, exists_const,
    ctx.requireAuth_eq_ok_iff] at hok
  obtain ⟨hauth, b, hb, hzero, rfl⟩ := hok
  refine ⟨⟨⟨hs.stat, fun o c b' hb' => ?_⟩, fun c => ?_⟩, fun o c hlt => ?_⟩
  · rw [FlatMap.find?_erase] at hb'
    split_ifs at hb'
    exact hs.balance o c b' hb'
  · have hrow : s.accounts.amountAt
        (fun key b => if (ofLex key).2 = c then b.amount else 0) (toLex (owner, symbol.code)) = 0 := by
      rw [FlatMap.amountAt, hb, Option.elim_some, hzero, ite_self]
    rw [totalBalance, FlatMap.sumOf_erase, hrow, sub_zero]
    exact hs.conserved c
  · rw [balanceOf, FlatMap.amountAt_erase] at hlt
    split_ifs at hlt with hkey
    · simp_all
    · exact absurd hlt (lt_irrefl _)

/-! ## Runs -/

theorem sound_empty : Sound {} := by
  refine ⟨⟨fun c st hst => ?_, fun o c b hb => ?_⟩, fun c => rfl⟩
  · exact absurd hst (by simp)
  · exact absurd hb (by simp)

theorem balances_step (hs : s.Sound) {i : TokenInput} (hok : s.step i = .ok s') :
    Balances i.context.auths s s' := by
  rw [step] at hok
  split at hok
  · exact balances_create hs hok
  · exact balances_issue hs hok
  · exact balances_retire hs hok
  · exact balances_transfer hs hok
  · exact balances_openBalance hs hok
  · exact balances_close hs hok

theorem balances_settle (hs : s.Sound) (i : TokenInput) :
    Balances i.context.auths s (settle step s i) := by
  rw [settle]
  cases hok : s.step i with
  | error e => exact ⟨hs, fun o c hlt => absurd hlt (lt_irrefl _)⟩
  | ok s' => exact balances_step hs hok

theorem sound_run {ts : List (Transition TokenContract TokenInput)} (hrun : TokenRun ts s) :
    s.Sound := by
  refine hrun.invariant (I := fun _ s => s.Sound) sound_empty ?_
  rintro ts s i _ - hs rfl
  exact (balances_settle hs i).sound

/-- In every run, the supply of a token is the sum of its balances and at most the maximum, every
balance belongs to a token and has its precision, and no action lowers a balance without the
authority of the owner. -/
theorem supply_eq_totalBalance {ts : List (Transition TokenContract TokenInput)} {s : TokenContract}
    (hrun : TokenRun ts s) :
    (∀ code, s.supplyOf code = s.totalBalance code) ∧
      (∀ code st, s.stats.find? code = some st →
        0 ≤ st.supply.amount ∧ st.supply.amount ≤ st.maxSupply.amount) ∧
      (∀ owner code b, s.accounts.find? (toLex (owner, code)) = some b →
        0 ≤ b.amount ∧ ∃ st, s.stats.find? code = some st ∧ b.symbol = st.supply.symbol) ∧
      ∀ t ∈ ts, ∀ owner code, t.after.balanceOf owner code < t.before.balanceOf owner code →
        owner ∈ t.label.context.auths := by
  have hs := sound_run hrun
  refine ⟨hs.conserved, fun code st hst => ?_, fun owner code b hb => ?_, fun t ht => ?_⟩
  · obtain ⟨-, hlow, hhigh, -⟩ := hs.stat code st hst
    exact ⟨hlow, hhigh⟩
  · obtain ⟨hlow, -, hst⟩ := hs.balance owner code b hb
    exact ⟨hlow, hst⟩
  · obtain ⟨pre, post, -, hpre, hstep⟩ := hrun.exists_of_mem ht
    rw [← hstep]
    exact (balances_settle (sound_run hpre) t.label).authorized

/-- The symbol `4,TOK`. -/
def sampleSymbol : Symbol := ⟨0x4b4f5404⟩

/-- A token is created and issued, a part of it is transferred and another part retired; a transfer
of more than there is fails. -/
def sampleActions : List TokenInput :=
  let contract : Name := ⟨1⟩
  let issuer : Name := ⟨2⟩
  let holder : Name := ⟨3⟩
  let accounts := [contract, issuer, holder]
  [⟨⟨contract, [contract], accounts⟩, .create issuer ⟨1000, sampleSymbol⟩⟩,
    ⟨⟨contract, [issuer], accounts⟩, .issue issuer ⟨600, sampleSymbol⟩ []⟩,
    ⟨⟨contract, [issuer], accounts⟩, .transfer issuer holder ⟨250, sampleSymbol⟩ []⟩,
    ⟨⟨contract, [holder], accounts⟩, .transfer holder issuer ⟨251, sampleSymbol⟩ []⟩,
    ⟨⟨contract, [issuer], accounts⟩, .retire ⟨100, sampleSymbol⟩ []⟩]

theorem supply_eq_totalBalance_sampleActions :
    ∃ ts s, TokenRun ts s ∧ s.supplyOf sampleSymbol.code = 500 ∧
      s.totalBalance sampleSymbol.code = 500 ∧ s.balanceOf ⟨3⟩ sampleSymbol.code = 250 := by
  obtain ⟨ts, hrun⟩ := exists_run_foldl (settle step) {} sampleActions
  have hsupply : (sampleActions.foldl (settle step) {}).supplyOf sampleSymbol.code = 500 := by
    decide +kernel
  refine ⟨ts, _, hrun, hsupply, ?_, by decide +kernel⟩
  rw [← (supply_eq_totalBalance hrun).1, hsupply]

end DcdProtocol.Token.TokenContract
