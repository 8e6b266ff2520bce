import SignalFlow.Market.Tick
import SignalFlow.Plan.Basic

/-!
Running one node in one tick.
-/

namespace SignalFlow

-- What a tick brings from outside.
structure Surroundings where
  now : Instant
  snapshot : Snapshot
  readings : IndicatorKey → Reading
  -- milliseconds that a node may take
  timeout : Nat

-- What a node may look at while it runs.
structure NodeView where
  node : Node
  inputs : Dict (List Value)
  strategy : String
  symbol : String
  -- the indicator values of this tick so far
  indicators : Dict Float
  indicatorKey : Option IndicatorKey

namespace NodeView

def values (v : NodeView) (port : String) : List Value :=
  (v.inputs.get? port).getD []

-- The first value at a port, which has to be a number.
def number (v : NodeView) (port : String) : Except NodeError Float :=
  match v.values port with
  | [] => .error (.missingInput port)
  | value :: _ =>
    match value.number? with
    | some x => .ok x
    | none => .error (.invalidInput port "number" value)

def readBool (port : String) (value : Value) : Except NodeError Bool :=
  match value.bool? with
  | some b => .ok b
  | none => .error (.invalidInput port "boolean" value)

-- All values at a port, which have to be booleans.
def booleans (v : NodeView) (port : String) : Except NodeError (List Bool) :=
  (v.values port).mapM (readBool port)

-- The first of the booleans at a port.
def boolean (v : NodeView) (port : String) : Except NodeError Bool := do
  match ← v.booleans port with
  | [] => .error (.missingInput port)
  | b :: _ => .ok b

-- Data sources and indicators.

-- The symbol that a source watches: its own, or else that of the plan.
def watchedSymbol (v : NodeView) : String :=
  match v.node.string? "symbol" with
  | some s => if s.isEmpty then v.symbol else s
  | none => v.symbol

def runSource (v : NodeView) (s : Surroundings) (kind : SourceKind) : Except NodeError NodeOutput :=
  let symbol := v.watchedSymbol
  let found : Option Float :=
    match kind with
    | .price => (s.snapshot.get? symbol).bind (·.price)
    | .volume => (s.snapshot.get? symbol).bind (·.volume)
  let port := match kind with
    | .price => "price"
    | .volume => "volume"
  match found with
  | some x => .ok (.single port (.number x))
  | none => .error (.missingMarketData symbol)

-- The series that an indicator reads; a node without one reads what its parameters name.
def series (v : NodeView) (kind : IndicatorKind) : IndicatorKey :=
  v.indicatorKey.getD (v.node.series v.symbol kind)

-- An indicator needs a price to be there, though its value comes from the feed.
def runIndicator (v : NodeView) (s : Surroundings) (kind : IndicatorKind) :
    Except NodeError NodeOutput := do
  let _ ← v.number "price"
  match s.readings (v.series kind) with
  | .ready x => .ok (.single "value" (.number x))
  | .warmingUp => .error (.indicatorNotReady (v.series kind))
  | .late => .error (.timeout s.timeout)
  | .absent =>
    .ok { NodeOutput.single "value" (.number (mockValue kind.name)) with mocked := true }

-- Conditions.

def compare (operator : String) (value threshold : Float) : Bool :=
  match operator with
  | ">" => threshold < value
  | "<" => value < threshold
  | ">=" => threshold ≤ value
  | "<=" => value ≤ threshold
  | "==" => value == threshold
  | "!=" => value != threshold
  | _ => false

def runThreshold (v : NodeView) : Except NodeError Bool := do
  let value ← v.number "value"
  .ok (compare ((v.node.string? "operator").getD ">") value ((v.node.float? "threshold").getD 0))

def infinity : Float := 1 / 0

-- A bound that is missing is infinite.
def runRange (v : NodeView) : Except NodeError Bool := do
  let value ← v.number "value"
  .ok (decide ((v.node.float? "lower").getD (-infinity) ≤ value)
    && decide (value ≤ (v.node.float? "upper").getD infinity))

-- One observation of the machine; without a machine a temporal condition is false.
def runTemporal (v : NodeView) (s : Surroundings) (port : String) (machine : Option Machine) :
    Except NodeError (Bool × Option Machine) := do
  let input ← v.boolean port
  match machine with
  | none => .ok (false, none)
  | some m =>
    let r := m.advance v.node input (.ofFloat s.now.toFloat)
    .ok (r.2, some r.1)

-- Compositions.

-- Adds up the weights of the true inputs and of all inputs, from the input at `index` on.
def addWeights {α : Type} [OfNat α 1] [Add α] (weights : List α) :
    (index : Nat) → (inputs : List Bool) → (hit total : α) → α × α
  | _, [], hit, total => (hit, total)
  | i, on :: rest, hit, total =>
    let w := weights[i]?.getD 1
    addWeights weights (i + 1) rest (if on then hit + w else hit) (total + w)

-- The share of the true inputs by weight; inputs without a weight weigh one.
def weightedShare {α : Type} [OfNat α 0] [OfNat α 1] [Add α] [Div α] [LT α] [DecidableLT α]
    (weights : List α) (inputs : List Bool) : α :=
  let sums := addWeights weights 0 inputs 0 0
  if 0 < sums.2 then sums.1 / sums.2 else 0

-- A gate without inputs is false.
def gate {α : Type} [OfNat α 0] [OfNat α 1] [Add α] [Div α] [LT α] [DecidableLT α] [LE α]
    [DecidableLE α] (kind : CompositionKind) (weights : List α) (threshold : α)
    (inputs : List Bool) : Bool :=
  !inputs.isEmpty &&
    match kind with
    | .and => inputs.all id
    | .or => inputs.any id
    | .weighted => decide (threshold ≤ weightedShare weights inputs)

def weights (n : Node) : List Float :=
  (((n.parameters.get? "weights").bind Json.items?).getD []).filterMap Json.float?

def runComposition (v : NodeView) (kind : CompositionKind) : Except NodeError Bool := do
  let inputs ← v.booleans "inputs"
  .ok (gate kind (weights v.node) ((v.node.float? "threshold").getD 0.5) inputs)

-- Actions.

def signalType : ActionKind → SignalType
  | .buy => .buy
  | .sell => .sell
  | .closePosition => .closePosition
  | .alert => .alert
  | .emergencyExit => .emergencyExit

def side? : ActionKind → Option Side
  | .buy => some .buy
  | .sell => some .sell
  | .closePosition => some .close
  | .emergencyExit => some .close
  | .alert => none

-- Only orders have a quantity.
def quantity (n : Node) : ActionKind → Float
  | .buy => (n.float? "size").getD 0
  | .sell => (n.float? "size").getD 0
  | _ => 0

def message? (n : Node) : ActionKind → Option String
  | .alert => some ((n.string? "message").getD "Alert")
  | .emergencyExit => some "Emergency exit"
  | _ => none

def riskLevel (n : Node) : ActionKind → String
  | .alert => (n.string? "level").getD "info"
  | .emergencyExit => "high"
  | _ => (n.string? "risk_level").getD "medium"

def signal (v : NodeView) (s : Surroundings) (kind : ActionKind) : Signal where
  node := v.node.id
  strategy := v.strategy
  symbol := v.symbol
  signalType := signalType kind
  side := side? kind
  quantity := quantity v.node kind
  price := (s.snapshot.get? v.symbol).bind (·.price)
  confidence := (v.node.float? "confidence").getD 1
  riskLevel := riskLevel v.node kind
  message := message? v.node kind
  indicators := v.indicators
  timestamp := s.now

-- An action fires if it has triggers and all of them are true.
def runAction (v : NodeView) (s : Surroundings) (kind : ActionKind) :
    Except NodeError NodeOutput := do
  let triggers ← v.booleans "trigger"
  if !triggers.isEmpty && triggers.all id then
    .ok { NodeOutput.single "signal" (.bool true) with signal := some (v.signal s kind) }
  else .ok (.single "signal" (.bool false))

-- Puts the result of a condition or a composition on its port.
def verdict (result : Except NodeError Bool) : Except NodeError NodeOutput :=
  result.map fun b => .single "result" (.bool b)

-- What the node gives, and its machine afterwards. A machine moves only if its node completes.
def run (v : NodeView) (s : Surroundings) (kind : Kind) (machine : Option Machine) :
    Except NodeError NodeOutput × Option Machine :=
  let temporal (port : String) : Except NodeError NodeOutput × Option Machine :=
    match v.runTemporal s port machine with
    | .ok (b, m) => (verdict (.ok b), m)
    | .error e => (.error e, machine)
  match kind with
  | .dataSource kind => (v.runSource s kind, machine)
  | .indicator kind => (v.runIndicator s kind, machine)
  | .condition .threshold => (verdict v.runThreshold, machine)
  | .condition .range => (verdict v.runRange, machine)
  | .condition .duration => temporal "condition"
  | .condition .sequence => temporal "event"
  | .composition kind => (verdict (v.runComposition kind), machine)
  | .action kind => (v.runAction s kind, machine)

end NodeView

end SignalFlow
