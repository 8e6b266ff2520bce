import SignalFlow.Decimal.Binary

/-!
Reading a decimal: the floating-point number nearest to `digits * 10 ^ scale`. Exponents far outside
the range of the format are settled without computing the power.
-/

namespace SignalFlow

namespace Decimal

def signed (negative : Bool) (x : Float) : Float :=
  if negative then -x else x

-- The sum of a scale and a digit count above which every decimal overflows.
def overflowMagnitude : Int := 310

-- The sum of a scale and a digit count below which every decimal rounds to zero.
def underflowMagnitude : Int := -326

-- `none` if the decimal is beyond the greatest finite number.
def nearest? (negative : Bool) (digits : Nat) (scale : Int) : Option Float :=
  if digits = 0 then some (signed negative 0)
  else
    let magnitude := scale + ((Nat.toDigits 10 digits).length : Int)
    if overflowMagnitude < magnitude then none
    else if magnitude < underflowMagnitude then some (signed negative 0)
    else
      let x := Float.ofScientific digits (scale < 0) scale.natAbs
      if x.isFinite then some (signed negative x) else none

end Decimal

end SignalFlow
