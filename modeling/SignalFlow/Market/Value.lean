import SignalFlow.Json.Fields
import SignalFlow.Decimal.Layout

/-!
What ports carry while a plan runs.
-/

namespace SignalFlow

inductive Value where
  | number (x : Float)
  | bool (b : Bool)
  | null
deriving BEq

namespace Value

def number? : Value → Option Float
  | .number x => some x
  | _ => none

def bool? : Value → Option Bool
  | .bool b => some b
  | _ => none

-- A whole number is shown as an integer of 64 bits, the nearest one if it is out of range.
def text : Value → String
  | .number x =>
    let value := Binary.ofFloat x
    if value.isWhole then toString (value.clamp leastInteger greatestSigned)
    else Decimal.Layout.message.render x
  | .bool true => "true"
  | .bool false => "false"
  | .null => "null"

def toJson : Value → Json
  | .number x => .ofFloat x
  | .bool b => .bool b
  | .null => .null

def ofDocument? : Document → Option Value
  | .num n => some (.number n.toFloat)
  | .bool b => some (.bool b)
  | .null => some .null
  | _ => none

end Value

end SignalFlow
