import SignalFlow.Json.Basic
import SignalFlow.Time.Rfc3339

/-!
Signals: what a strategy tells the outside to do.
-/

namespace SignalFlow

inductive SignalType where
  | buy
  | sell
  | closePosition
  | alert
  | emergencyExit
deriving DecidableEq, Repr

namespace SignalType

def all : List SignalType := [.buy, .sell, .closePosition, .alert, .emergencyExit]

def name : SignalType → String
  | .buy => "buy"
  | .sell => "sell"
  | .closePosition => "close_position"
  | .alert => "alert"
  | .emergencyExit => "emergency_exit"

def ofName? (s : String) : Option SignalType :=
  all.find? (·.name == s)

end SignalType

-- The side of an order.
inductive Side where
  | buy
  | sell
  | close
deriving DecidableEq, Repr

namespace Side

def all : List Side := [.buy, .sell, .close]

def name : Side → String
  | .buy => "buy"
  | .sell => "sell"
  | .close => "close"

def ofName? (s : String) : Option Side :=
  all.find? (·.name == s)

end Side

structure Signal where
  node : String
  strategy : String
  symbol : String
  signalType : SignalType
  side : Option Side
  quantity : Float
  price : Option Float
  confidence : Float
  riskLevel : String
  message : Option String
  -- the indicator values of the tick up to the signal, by node
  indicators : Dict Float
  timestamp : Instant
deriving DecidableEq

namespace Signal

-- A plan signals at most once per node and tick.
def id (s : Signal) : String :=
  s.strategy ++ ":" ++ s.symbol ++ ":" ++ s.node ++ ":" ++ Rfc3339.write s.timestamp

def toJson (s : Signal) : Json :=
  .obj [("signal_id", .str s.id), ("node_id", .str s.node), ("strategy", .str s.strategy),
    ("symbol", .str s.symbol), ("signal_type", .str s.signalType.name),
    ("side", .ofOption (fun side => .str side.name) s.side), ("quantity", .ofFloat s.quantity),
    ("price", .ofOption .ofFloat s.price), ("confidence", .ofFloat s.confidence),
    ("risk_level", .str s.riskLevel), ("message", .ofOption .str s.message),
    ("indicators", .ofDict .ofFloat s.indicators), ("timestamp", .str (Rfc3339.write s.timestamp))]

end Signal

end SignalFlow
