/-!
A float times a power of ten, in floating arithmetic. Each multiplication and division rounds, so
the result need not be the float nearest to the exact product.
-/

namespace SignalFlow

namespace Decimal

-- The exponent of the greatest power of ten that is a float.
def greatestPower : Nat := 308

-- The float nearest to a power of ten.
def power (exponent : Nat) : Float :=
  Float.ofScientific 1 false exponent

-- `x * 10 ^ exponent`, or `none` if that is beyond the greatest float. A division by more than the
-- greatest power is done in two steps, and one by more than its square leaves nothing of a float
-- that stands for digits.
def scale? (x : Float) (exponent : Int) : Option Float :=
  if x == 0 then some x
  else if 0 ≤ exponent then
    if greatestPower < exponent then none
    else
      let product := x * power exponent.toNat
      if product.isFinite then some product else none
  else
    let divisor := exponent.natAbs
    if divisor ≤ greatestPower then some (x / power divisor)
    else if divisor ≤ 2 * greatestPower then
      some (x / power greatestPower / power (divisor - greatestPower))
    else some 0

end Decimal

end SignalFlow
