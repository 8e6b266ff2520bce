import SignalFlow.Decimal.Scaled
import SignalFlow.Json.Basic

/-!
Numerals and the numbers that they stand for. A numeral that is no integer of 64 bits is read by
its leading digits: as many as fit 64 bits make a significand, and the other digits only count as
places.
-/

namespace SignalFlow

namespace Json

def digitValue (c : Char) : Nat :=
  c.toNat - '0'.toNat

def digitsValue (ds : List Char) : Nat :=
  ds.foldl (fun n c => 10 * n + digitValue c) 0

structure Numeral where
  negative : Bool
  whole : List Char
  fraction : Option (List Char)
  exponent : Option Int
deriving DecidableEq

namespace Numeral

-- Appends digits to a significand up to the first one with which it would not fit 64 bits, and
-- gives the digits that are left.
def absorb (significand : Nat) : List Char → Nat × List Char
  | [] => (significand, [])
  | c :: rest =>
    let longer := 10 * significand + digitValue c
    if (longer : Int) ≤ greatestUnsigned then absorb longer rest else (significand, c :: rest)

-- The significand of a numeral and the power of ten that belongs to it. A whole part that does not
-- fit stops at its first digit too many, and still the fraction goes on with it.
def parts (n : Numeral) : Nat × Int :=
  let fraction := n.fraction.getD []
  let (whole, dropped) := absorb 0 n.whole
  let (significand, unread) := absorb whole fraction
  (significand, n.exponent.getD 0 + dropped.length - (fraction.length - unread.length : Nat))

-- The float that a numeral is read as, if it is not out of range.
def float? (n : Numeral) : Option Number :=
  let (significand, exponent) := n.parts
  match Decimal.scale? (Float.ofNat significand) exponent with
  | some x => Number.ofFloat? (if n.negative then -x else x)
  | none => none

-- The integer that a numeral writes. Zero with a sign is none.
def integer? (n : Numeral) : Option Number :=
  if n.fraction.isSome || n.exponent.isSome then none
  else
    let size : Nat := digitsValue n.whole
    if n.negative then if size = 0 then none else Number.ofInt? (-size) else Number.ofInt? size

-- An integer that fits 64 bits; everything else is a float.
def value? (n : Numeral) : Option Number :=
  n.integer?.or n.float?

end Numeral

end Json

end SignalFlow
