import DcdProtocol.System.CommissionSteps
import DcdProtocol.Library.Double

/-!
# The oracles of the system contract

Oracles report rates.  Every ten minutes `onblock` takes the median of the positive ones and sends
it to the chain if it differs from the rate sent last.

The functions are written over any type of rates with the comparisons the code uses
(`RateValue`), and with `mean` for its `(a + b) / 2`: the contract computes with binary64 numbers,
and what is proved about medians is about exact rationals.
-/

namespace DcdProtocol.System

open Library Chain

/-- The constants and comparisons of rates. -/
class RateValue (R : Type) where
  zero : R
  one : R
  /-- `r == 0`. -/
  isZero : R → Bool
  /-- `r > 0`. -/
  isPos : R → Bool
  /-- `a == b`. -/
  beq : R → R → Bool
  /-- `a < b`. -/
  lt : R → R → Bool

instance : RateValue Double := ⟨.zero, .one, Double.isZero, Double.isPos, Double.beq, Double.lt⟩

instance : RateValue ℚ :=
  ⟨0, 1, fun r => decide (r = 0), fun r => decide (0 < r), fun a b => decide (a = b),
    fun a b => decide (a < b)⟩

def exactMean (a b : ℚ) : ℚ := (a + b) / 2

def oraclesUpdatePeriodSeconds : ℕ := 10 * 60

structure OracleInfo (R : Type) where
  owner : Name
  feeRateTime : ℕ
  feeRate : R

/-- The oracles table, and what `dcd_global_state3` holds for it. -/
structure OracleState (R : Type) where
  oracles : FlatMap Name (OracleInfo R) := .empty
  oraclesLastUpdated : ℕ
  lastOracleRate : R

namespace OracleState

open SystemContract (check)

variable {R : Type} [RateValue R] (s : OracleState R)

/-- `dcd_global_state3` starts with the time of the first action. -/
def initial (t₀ : BlockTimestamp) : OracleState R where
  oraclesLastUpdated := t₀.toTimePoint
  lastOracleRate := RateValue.one

def regoracle (ct : ℕ) (oracle : Name) : Except ChainException (OracleState R) := do
  check (s.oracles.contains oracle = false) "User already added as an oracle"
  pure { s with oracles := s.oracles.insert oracle ⟨oracle, ct, RateValue.zero⟩ }

def unregoracle (oracle : Name) : Except ChainException (OracleState R) := do
  check (s.oracles.contains oracle = true) "User not added as an oracle"
  pure { s with oracles := s.oracles.erase oracle }

def setrateorcl (ct : ℕ) (oracle : Name) (feeRate : R) :
    Except ChainException (OracleState R) := do
  check (s.oracles.contains oracle = true) "User not added as an oracle"
  check (RateValue.isPos feeRate = true) "Rate needs to be > than 0.0"
  pure { s with oracles := s.oracles.insert oracle ⟨oracle, ct, feeRate⟩ }

def eligibleRates : List R :=
  (s.oracles.values.map OracleInfo.feeRate).filter RateValue.isPos

/-- The rates as `sort` leaves them. -/
def sortedRates : List R :=
  s.eligibleRates.insertionSort fun a b => RateValue.lt b a = false

/-- The rate that `calculate_new_oracle_rate` sets: the middle one, or the mean of the two middle
ones. -/
def rateToSet (mean : R → R → R) : R :=
  let rates := s.sortedRates
  let size := rates.length
  if size > 0 then
    if size % 2 = 0 then mean (rates.getD (size / 2 - 1) RateValue.zero)
      (rates.getD (size / 2) RateValue.zero)
    else rates.getD (size / 2) RateValue.zero
  else RateValue.one

/-- The rate is sent if it differs from the last one. -/
def calculateNewOracleRate (mean : R → R → R) : OracleState R × Option R :=
  let rate := s.rateToSet mean
  if RateValue.beq rate s.lastOracleRate then (s, none)
  else ({ s with lastOracleRate := rate }, some rate)

/-- The new state, and the rate of the `setrate` that is sent. -/
def updateOraclesRateState (mean : R → R → R) (ct : ℕ) : OracleState R × Option R :=
  if secondsSince ct s.oraclesLastUpdated ≥ oraclesUpdatePeriodSeconds then
    let (s, sent) := s.calculateNewOracleRate mean
    ({ s with oraclesLastUpdated := ct }, sent)
  else (s, none)

end OracleState

inductive OracleAction (R : Type)
  | regoracle (oracle : Name)
  | unregoracle (oracle : Name)
  | setrateorcl (oracle : Name) (feeRate : R)

def OracleState.perform {R : Type} [RateValue R] (s : OracleState R) (ct : ℕ) :
    OracleAction R → Except ChainException (OracleState R)
  | .regoracle oracle => s.regoracle ct oracle
  | .unregoracle oracle => s.unregoracle oracle
  | .setrateorcl oracle feeRate => s.setrateorcl ct oracle feeRate

end DcdProtocol.System
