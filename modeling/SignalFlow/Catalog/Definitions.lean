import SignalFlow.Catalog.Basic

/-!
The catalog: every kind of node that a strategy may use.
-/

namespace SignalFlow

namespace Catalog

def comparisonOperators : List String := [">", "<", ">=", "<=", "==", "!="]

def riskLevels : List String := ["low", "medium", "high"]

def alertLevels : List String := ["info", "warning", "critical"]

def input (name : String) (type : DataType) : Port := ⟨name, type, .input, true⟩

def optionalInput (name : String) (type : DataType) : Port := ⟨name, type, .input, false⟩

def output (name : String) (type : DataType) : Port := ⟨name, type, .output, false⟩

def whole (n : Nat) : Json := .ofNat n

def real (x : Float) : Json := .ofFloat x

def dataSources : List Definition :=
  [{ name := "price_source"
     category := .dataSource
     description := "Latest traded price for a symbol"
     ports := [output "price" .price]
     parameters := [{ name := "symbol", type := .string }] },
   { name := "volume_source"
     category := .dataSource
     description := "Latest traded volume for a symbol"
     ports := [output "volume" .volume]
     parameters := [{ name := "symbol", type := .string }] }]

-- All indicators take a price series and give one value.
def indicator (name description : String) (period : Nat) : Definition :=
  { name
    category := .indicator
    description
    ports := [input "price" .price, output "value" .indicatorValue]
    parameters :=
      [{ name := "period", type := .integer, default := some (whole period),
         min := some 1, max := some 500 }] }

def indicators : List Definition :=
  [indicator "sma" "Simple moving average of price" 20,
   indicator "ema" "Exponential moving average of price" 20,
   indicator "rsi" "Relative strength index" 14,
   indicator "macd" "Moving average convergence divergence line" 26,
   indicator "atr" "Average true range" 14]

def conditions : List Definition :=
  [{ name := "threshold_condition"
     category := .condition
     description := "Compare a value against a fixed threshold"
     ports := [input "value" .indicatorValue, output "result" .boolean]
     parameters :=
      [{ name := "operator", type := .string, required := true, default := some (.str ">"),
         allowed := comparisonOperators },
       { name := "threshold", type := .number, required := true }] },
   { name := "range_condition"
     category := .condition
     description := "True while a value stays inside [lower, upper]"
     ports := [input "value" .indicatorValue, output "result" .boolean]
     parameters :=
      [{ name := "lower", type := .number, required := true },
       { name := "upper", type := .number, required := true }] },
   { name := "duration_condition"
     category := .condition
     description := "True once its input has held continuously for a duration"
     ports := [input "condition" .boolean, output "result" .boolean]
     parameters :=
      [{ name := "duration_seconds", type := .number, required := true,
         default := some (real 60), min := some 0, max := some 86400 },
       { name := "reset_on_false", type := .boolean, default := some (.bool true) }] },
   { name := "sequence_condition"
     category := .condition
     description := "True once enough events arrive with bounded gaps between them"
     ports := [input "event" .boolean, output "result" .boolean]
     parameters :=
      [{ name := "required_events", type := .integer, default := some (whole 3),
         min := some 1, max := some 1000 },
       { name := "max_gap_seconds", type := .number, default := some (real 300),
         min := some 0, max := some 86400 }] }]

def compositions : List Definition :=
  [{ name := "and_gate"
     category := .composition
     description := "True when every connected input is true"
     ports := [input "inputs" .boolean, output "result" .boolean] },
   { name := "or_gate"
     category := .composition
     description := "True when any connected input is true"
     ports := [input "inputs" .boolean, output "result" .boolean] },
   { name := "weighted_gate"
     category := .composition
     description := "True when the weighted share of true inputs reaches a threshold"
     ports := [input "inputs" .boolean, output "result" .boolean]
     parameters :=
      [{ name := "weights", type := .numberList },
       { name := "threshold", type := .number, default := some (real 0.5),
         min := some 0, max := some 1 }] }]

def confidence : Parameter :=
  { name := "confidence", type := .number, default := some (real 1), min := some 0, max := some 1 }

-- Actions that place an order share a trigger, a signal and the parameters for its size.
def orderAction (name description : String) : Definition :=
  { name
    category := .action
    description
    ports := [input "trigger" .boolean, output "signal" .signal]
    parameters :=
      [{ name := "size", type := .number, required := true, default := some (real 100),
         min := some 0 },
       confidence,
       { name := "risk_level", type := .string, default := some (.str "medium"),
         allowed := riskLevels }] }

def actions : List Definition :=
  [orderAction "buy_signal" "Emit a buy signal when triggered",
   orderAction "sell_signal" "Emit a sell signal when triggered",
   { name := "close_position"
     category := .action
     description := "Emit a signal to flatten the open position"
     ports := [input "trigger" .boolean, output "signal" .signal]
     parameters := [confidence] },
   { name := "alert_action"
     category := .action
     description := "Emit a notification without trading"
     ports := [optionalInput "trigger" .boolean, output "signal" .signal]
     parameters :=
      [{ name := "message", type := .string, default := some (.str "Alert") },
       { name := "level", type := .string, default := some (.str "info"),
         allowed := alertLevels }] },
   { name := "emergency_exit"
     category := .action
     description := "Close everything immediately when triggered"
     ports := [input "trigger" .boolean, output "signal" .signal] }]

-- Every kind, in the order in which the catalog lists them.
def all : List Definition :=
  dataSources ++ indicators ++ conditions ++ compositions ++ actions

def find? (nodeType : String) : Option Definition :=
  all.find? (·.name == nodeType)

def ofCategory (category : Category) : List Definition :=
  all.filter (·.category = category)

-- The input ports of a kind, none if the kind is unknown.
def inputPorts (nodeType : String) : List Port :=
  (find? nodeType).elim [] Definition.inputs

-- The output ports of a kind, none if the kind is unknown.
def outputPorts (nodeType : String) : List Port :=
  (find? nodeType).elim [] Definition.outputs

-- What is said of a kind that the catalog does not list.
def unknownTypeMessage (nodeType : String) : String :=
  "Node type '" ++ nodeType ++ "' is not registered in the catalog"

end Catalog

end SignalFlow
