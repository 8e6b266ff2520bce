import SignalFlow.Decimal.Shortest

/-!
The text of a floating-point number: its shortest digits, laid out as a `Layout` says.
-/

namespace SignalFlow

namespace Decimal

structure Layout where
  -- whether a number whose first digit stands for this power of ten is written without exponent
  plain : Int → Bool
  -- what follows a whole number that is written without exponent
  wholeEnding : String
  -- the sign of an exponent that is not negative
  exponentSign : String
  tie : Tie

-- The layout of structured text: a fraction or an exponent tells every float from an integer.
def Layout.structured : Layout :=
  { plain := fun e => -5 ≤ e && e < 16
    wholeEnding := ".0"
    exponentSign := "+"
    tie := .toEven }

-- The layout of messages: no exponent, and a whole number looks like an integer.
def Layout.message : Layout :=
  { plain := fun _ => true
    wholeEnding := ""
    exponentSign := "+"
    tie := .up }

def zeros (n : Nat) : String := String.ofList (List.replicate n '0')

namespace Layout

-- Digits without exponent: `12300`, `1.23`, `0.00123`.
def positional (l : Layout) (d : Digits) : String :=
  let text := d.text
  if 0 ≤ d.scale then String.ofList text ++ zeros d.scale.toNat ++ l.wholeEnding
  else
    let places := (-d.scale).toNat
    if places < text.length then
      String.ofList (text.take (text.length - places)) ++ "."
        ++ String.ofList (text.drop (text.length - places))
    else "0." ++ zeros (places - text.length) ++ String.ofList text

-- One digit, a fraction if there are more, and the exponent.
def scientific (l : Layout) (d : Digits) : String :=
  let head := String.ofList (d.text.take 1)
  let tail := d.text.drop 1
  let fraction := if tail.isEmpty then "" else "." ++ String.ofList tail
  let exponent :=
    if d.magnitude < 0 then toString d.magnitude else l.exponentSign ++ toString d.magnitude
  head ++ fraction ++ "e" ++ exponent

def finite (l : Layout) (negative : Bool) (significand : Nat) (exponent : Int) : String :=
  let sign := if negative then "-" else ""
  if significand = 0 then sign ++ "0" ++ l.wholeEnding
  else
    let d := shortest l.tie significand exponent
    sign ++ if l.plain d.magnitude then l.positional d else l.scientific d

def render (l : Layout) (x : Float) : String :=
  match Binary.ofFloat x with
  | .nan => "NaN"
  | .infinity negative => if negative then "-inf" else "inf"
  | .finite negative m e => l.finite negative m e

end Layout

end Decimal

end SignalFlow
