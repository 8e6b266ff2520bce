import SignalFlow.Catalog.Basic
import SignalFlow.Temporal.Machine

/-!
How a node is run, by the name of its type.
-/

namespace SignalFlow

inductive SourceKind where
  | price
  | volume
deriving DecidableEq, Repr

inductive IndicatorKind where
  | sma
  | ema
  | rsi
  | macd
  | atr
deriving DecidableEq, Repr

def IndicatorKind.name : IndicatorKind → String
  | .sma => "sma"
  | .ema => "ema"
  | .rsi => "rsi"
  | .macd => "macd"
  | .atr => "atr"

inductive ConditionKind where
  | threshold
  | range
  | duration
  | sequence
deriving DecidableEq, Repr

inductive CompositionKind where
  | and
  | or
  | weighted
deriving DecidableEq, Repr

inductive ActionKind where
  | buy
  | sell
  | closePosition
  | alert
  | emergencyExit
deriving DecidableEq, Repr

inductive Kind where
  | dataSource (kind : SourceKind)
  | indicator (kind : IndicatorKind)
  | condition (kind : ConditionKind)
  | composition (kind : CompositionKind)
  | action (kind : ActionKind)
deriving DecidableEq, Repr

namespace Kind

-- The kinds with the node types that they run.
def table : List (String × Kind) :=
  [("price_source", .dataSource .price), ("volume_source", .dataSource .volume),
   ("sma", .indicator .sma), ("ema", .indicator .ema), ("rsi", .indicator .rsi),
   ("macd", .indicator .macd), ("atr", .indicator .atr),
   ("threshold_condition", .condition .threshold), ("range_condition", .condition .range),
   ("duration_condition", .condition .duration), ("sequence_condition", .condition .sequence),
   ("and_gate", .composition .and), ("or_gate", .composition .or),
   ("weighted_gate", .composition .weighted),
   ("buy_signal", .action .buy), ("sell_signal", .action .sell),
   ("close_position", .action .closePosition), ("alert_action", .action .alert),
   ("emergency_exit", .action .emergencyExit)]

def ofNodeType? (nodeType : String) : Option Kind :=
  table.lookup nodeType

def category : Kind → Category
  | .dataSource _ => .dataSource
  | .indicator _ => .indicator
  | .condition _ => .condition
  | .composition _ => .composition
  | .action _ => .action

-- The category and the kind within it.
def label : Kind → String
  | .dataSource .price => "DataSource(Price)"
  | .dataSource .volume => "DataSource(Volume)"
  | .indicator .sma => "Indicator(Sma)"
  | .indicator .ema => "Indicator(Ema)"
  | .indicator .rsi => "Indicator(Rsi)"
  | .indicator .macd => "Indicator(Macd)"
  | .indicator .atr => "Indicator(Atr)"
  | .condition .threshold => "Condition(Threshold)"
  | .condition .range => "Condition(Range)"
  | .condition .duration => "Condition(Duration)"
  | .condition .sequence => "Condition(Sequence)"
  | .composition .and => "Composition(And)"
  | .composition .or => "Composition(Or)"
  | .composition .weighted => "Composition(Weighted)"
  | .action .buy => "Action(Buy)"
  | .action .sell => "Action(Sell)"
  | .action .closePosition => "Action(ClosePosition)"
  | .action .alert => "Action(Alert)"
  | .action .emergencyExit => "Action(EmergencyExit)"

-- The machine that a node of this kind needs.
def machineKind? : Kind → Option MachineKind
  | .condition .duration => some .duration
  | .condition .sequence => some .sequence
  | _ => none

end Kind

end SignalFlow
