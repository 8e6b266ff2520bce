/-!
What a binary floating-point number stands for: nothing, an infinity, or a sign, a whole
significand and a power of two. All questions about its exact value are answered here with whole
numbers.
-/

namespace SignalFlow

inductive Binary where
  | nan
  | infinity (negative : Bool)
  -- stands for `significand * 2 ^ exponent`, negated if `negative`
  | finite (negative : Bool) (significand : Nat) (exponent : Int)
deriving DecidableEq, Repr

namespace Binary

-- The least significand with the full 53 binary digits.
def fullSignificand : Nat := Nat.pow 2 52

def leastExponent : Int := -1074

def ofBits (bits : UInt64) : Binary :=
  let negative := bits.toNat / Nat.pow 2 63 == 1
  let field := bits.toNat / fullSignificand % 2048
  let fraction := bits.toNat % fullSignificand
  if field = 2047 then
    if fraction = 0 then .infinity negative else .nan
  else if field = 0 then .finite negative fraction leastExponent
  else .finite negative (fullSignificand + fraction) (leastExponent + (field - 1 : Nat))

def ofFloat (x : Float) : Binary :=
  ofBits x.toBits

-- The numerator of the absolute value over `denominator`.
def numerator (significand : Nat) (exponent : Int) : Nat :=
  significand * Nat.pow 2 exponent.toNat

def denominator (exponent : Int) : Nat :=
  Nat.pow 2 (-exponent).toNat

def isWhole : Binary → Bool
  | .finite _ m e => numerator m e % denominator e == 0
  | _ => false

-- The value without its fractional part, forced into the interval from `lo` to `hi`. What is no
-- number counts as zero.
def clamp (lo hi : Int) : Binary → Int
  | .nan => 0
  | .infinity negative => if negative then lo else hi
  | .finite negative m e =>
    let size : Int := (numerator m e / denominator e : Nat)
    max lo (min hi (if negative then -size else size))

end Binary

end SignalFlow
