import SignalFlow.Decimal.Binary

/-!
The fewest decimal digits that read back as a given binary number.

A number `m * 2 ^ e` is what a decimal reads as exactly when the decimal lies between the midpoints
to the two neighbouring numbers, the midpoints included if `m` is even. On the grid of multiples of
`10 ^ k` it is enough to try the two points next to the number. The coarsest grid with a hit gives
the digits; of two hits the nearer one counts.
-/

namespace SignalFlow

namespace Decimal

-- Which of two equally near decimals is taken.
inductive Tie where
  | toEven
  | up
deriving DecidableEq, Repr

-- Digits and the power of ten that their last one stands for.
structure Digits where
  digits : Nat
  scale : Int
deriving DecidableEq, Repr

def Digits.text (d : Digits) : List Char :=
  Nat.toDigits 10 d.digits

-- The power of ten that the first digit stands for.
def Digits.magnitude (d : Digits) : Int :=
  d.scale + (d.text.length : Int) - 1

-- A positive number with the midpoints to its neighbours, as numerators over one denominator.
structure Rounding where
  lower : Nat
  value : Nat
  upper : Nat
  denominator : Nat
  closed : Bool

namespace Rounding

def of (significand : Nat) (exponent : Int) : Rounding :=
  let shift := exponent - 2
  let unit := Nat.pow 2 shift.toNat
  -- below a power of two the neighbours stand half as far apart
  let isPower := significand = Binary.fullSignificand ∧ exponent ≠ Binary.leastExponent
  let half := if isPower then 1 else 2
  { lower := (4 * significand - half) * unit
    value := 4 * significand * unit
    upper := (4 * significand + 2) * unit
    denominator := Nat.pow 2 (-shift).toNat
    closed := significand % 2 == 0 }

-- Whether `digits * 10 ^ scale` reads as the number.
def holds (r : Rounding) (d : Digits) : Bool :=
  let point := d.digits * Nat.pow 10 d.scale.toNat * r.denominator
  let ten := Nat.pow 10 (-d.scale).toNat
  if r.closed then r.lower * ten ≤ point && point ≤ r.upper * ten
  else r.lower * ten < point && point < r.upper * ten

-- The greatest point of the grid `10 ^ scale` that is not above the number.
def floor (r : Rounding) (scale : Int) : Digits :=
  ⟨r.value * Nat.pow 10 (-scale).toNat / (r.denominator * Nat.pow 10 scale.toNat), scale⟩

-- On a grid where both neighbours read back, the nearer one.
def nearer (r : Rounding) (tie : Tie) (below above : Digits) : Digits :=
  let twice := 2 * r.value * Nat.pow 10 (-below.scale).toNat
  let middle := (below.digits + above.digits) * Nat.pow 10 below.scale.toNat * r.denominator
  if twice < middle then below
  else if middle < twice then above
  else match tie with
    | .toEven => if below.digits % 2 = 0 then below else above
    | .up => above

def onGrid (r : Rounding) (tie : Tie) (scale : Int) : Option Digits :=
  let below := r.floor scale
  let above : Digits := ⟨below.digits + 1, scale⟩
  match r.holds below, r.holds above with
  | true, true => some (r.nearer tie below above)
  | true, false => some below
  | false, true => some above
  | false, false => none

-- The power of ten of the number's first digit.
def magnitude (r : Rounding) : Int :=
  let guess : Int :=
    ((Nat.toDigits 10 r.value).length : Int) - (Nat.toDigits 10 r.denominator).length
  let power := r.denominator * Nat.pow 10 guess.toNat
  if power ≤ r.value * Nat.pow 10 (-guess).toNat then guess else guess - 1

-- The first hit among `grids` ever finer grids, else the floor on the last one.
def search (r : Rounding) (tie : Tie) : (grids : Nat) → (scale : Int) → Digits
  | 0, scale => r.floor scale
  | grids + 1, scale => (r.onGrid tie scale).getD (r.search tie grids (scale - 1))

end Rounding

-- Trailing zeros move into the scale.
def Digits.strip (d : Digits) : Digits :=
  go d.text.length d
where
  go : Nat → Digits → Digits
    | 0, d => d
    | n + 1, d =>
      if d.digits ≠ 0 ∧ d.digits % 10 = 0 then go n ⟨d.digits / 10, d.scale + 1⟩ else d

-- No binary number of 53 digits needs more decimal digits.
def mostDigits : Nat := 17

def shortest (tie : Tie) (significand : Nat) (exponent : Int) : Digits :=
  let r := Rounding.of significand exponent
  (r.search tie mostDigits r.magnitude).strip

end Decimal

end SignalFlow
