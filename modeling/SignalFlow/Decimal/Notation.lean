import SignalFlow.Decimal.Nearest

/-!
Numbers as people write them: digits with an optional sign, a point anywhere among them and an
exponent, or the name of a number that is not finite, in letters of either case.
-/

namespace SignalFlow

namespace Decimal

def infinity : Float := 1 / 0

-- The numbers that have names instead of digits.
def named : List (String × Float) :=
  [("inf", infinity), ("infinity", infinity), ("nan", 0 / 0)]

def valueOf (digits : List Char) : Nat :=
  digits.foldl (fun n c => 10 * n + (c.toNat - '0'.toNat)) 0

-- Whether there is a minus in front, and what follows a sign of either kind.
def splitSign : List Char → Bool × List Char
  | '-' :: rest => (true, rest)
  | '+' :: rest => (false, rest)
  | cs => (false, cs)

-- The exponent that is all there is.
def exponent? : List Char → Option Int
  | [] => some 0
  | mark :: rest =>
    let (negative, digits) := splitSign rest
    if (mark = 'e' || mark = 'E') && !digits.isEmpty && digits.all Char.isDigit then
      some (if negative then -(valueOf digits : Int) else valueOf digits)
    else none

-- The digits behind a point in front, and what follows them.
def splitFraction : List Char → List Char × List Char
  | '.' :: rest => rest.span Char.isDigit
  | cs => ([], cs)

-- A number without sign; beyond the greatest finite number it is infinite.
def unsigned? (negative : Bool) (cs : List Char) : Option Float := do
  let (whole, rest) := cs.span Char.isDigit
  let (fraction, rest) := splitFraction rest
  if whole.isEmpty && fraction.isEmpty then none
  else
    let exponent ← exponent? rest
    let digits := valueOf (whole ++ fraction)
    some ((nearest? negative digits (exponent - fraction.length)).getD (signed negative infinity))

def parse? (text : String) : Option Float :=
  let (negative, cs) := splitSign text.toList
  match named.lookup (String.ofList (cs.map Char.toLower)) with
  | some x => some (signed negative x)
  | none => unsigned? negative cs

end Decimal

end SignalFlow
