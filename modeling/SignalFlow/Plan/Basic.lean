import SignalFlow.Indicator
import SignalFlow.Market.Signal
import SignalFlow.Market.Value
import SignalFlow.Plan.Kind
import SignalFlow.StateStore

/-!
Plans: what a graph is compiled to for one symbol. A plan knows the order of its nodes, where each
input comes from, and the machines of its temporal conditions; nodes remember what they did last.
-/

namespace SignalFlow

def greatestPeriod : Int := 0xFFFFFFFF

-- The period of an indicator node, in the 32 bits that a series has for it.
def Node.period (n : Node) : Nat :=
  ((n.float? "period").map (countOf greatestPeriod)).getD 14

-- The series that a node of an indicator kind reads in a plan for a symbol.
def Node.series (n : Node) (symbol : String) (kind : IndicatorKind) : IndicatorKey :=
  .of symbol kind.name n.period

-- A set of names, listed in order.
abbrev NameSet := Dict Unit

-- What keeps a node from completing in one tick.
inductive NodeError where
  | missingInput (port : String)
  | missingMarketData (symbol : String)
  | indicatorNotReady (key : IndicatorKey)
  | invalidInput (port expected : String) (found : Value)
  | timeout (millis : Nat)
  | blocked (node : String)

def NodeError.message : NodeError → String
  | .missingInput port => "Required input '" ++ port ++ "' has no value"
  | .missingMarketData symbol => "Market snapshot has no data for symbol '" ++ symbol ++ "'"
  | .indicatorNotReady key => "Indicator '" ++ key.text ++ "' has not produced a value yet"
  | .invalidInput port expected found =>
    "Input '" ++ port ++ "' expected " ++ expected ++ ", but found '" ++ found.text ++ "'"
  | .timeout millis => "Node execution exceeded " ++ toString millis ++ " ms"
  | .blocked node =>
    "Skipped because upstream node '" ++ node ++ "' did not complete"

-- What a node produced.
structure NodeOutput where
  -- a value for each output port
  values : Dict Value := ∅
  -- whether the value of an indicator was made up for want of a feed
  mocked : Bool := false
  signal : Option Signal := none

def NodeOutput.single (port : String) (value : Value) : NodeOutput :=
  { values := Dict.empty.insert port value }

-- Where a node stands in the current tick.
inductive NodeState where
  | pending
  | completed (output : NodeOutput)
  | failed (error : NodeError)
  | skipped (error : NodeError)

namespace NodeState

def name : NodeState → String
  | .pending => "pending"
  | .completed _ => "completed"
  | .failed _ => "failed"
  | .skipped _ => "skipped"

def output? : NodeState → Option NodeOutput
  | .completed output => some output
  | _ => none

def error? : NodeState → Option NodeError
  | .failed error => some error
  | .skipped error => some error
  | _ => none

def isCompleted (s : NodeState) : Bool :=
  s.output?.isSome

end NodeState

structure PlanNode where
  kind : Kind
  node : Node
  -- the nodes that feed this one
  dependencies : NameSet := ∅
  -- the nodes that this one feeds
  dependents : NameSet := ∅
  state : NodeState := .pending
  -- where it stood before in the same tick, latest first
  earlier : List NodeState := []
  -- the series that an indicator reads
  indicatorKey : Option IndicatorKey := none

namespace PlanNode

-- The node before a tick.
def reset (n : PlanNode) : PlanNode :=
  { n with state := .pending, earlier := [] }

def enter (n : PlanNode) (state : NodeState) : PlanNode :=
  { n with state, earlier := n.state :: n.earlier }

-- The latest output of the tick; it stays if the node is run again and fails.
def output? (n : PlanNode) : Option NodeOutput :=
  (n.state :: n.earlier).findSome? NodeState.output?

-- The latest error of the tick.
def error? (n : PlanNode) : Option NodeError :=
  (n.state :: n.earlier).findSome? NodeState.error?

end PlanNode

-- An output port.
structure PortRef where
  node : String
  port : String
deriving DecidableEq, Repr

-- The output ports that are wired into an input port, in the order of their edges.
structure Route where
  port : String
  sources : List PortRef
deriving DecidableEq, Repr

structure Plan where
  name : String
  -- the strategy under whose name the machines are stored
  strategy : String
  symbol : String
  nodes : Dict PlanNode
  order : List String
  machines : Dict Machine
  -- for every node that consumes something, a route into each input port
  routes : Dict (List Route)

namespace Plan

-- The temporal nodes, in order.
def temporalNodes (p : Plan) : List String :=
  p.order.filter p.machines.contains

def stateKey (p : Plan) (node : String) : StateKey :=
  ⟨p.strategy, p.symbol, node⟩

def isCompleted (p : Plan) (node : String) : Bool :=
  (p.nodes.get? node).any (·.state.isCompleted)

-- The value on an output port, if its node completed and has one there.
def valueAt? (p : Plan) (source : PortRef) : Option Value :=
  ((p.nodes.get? source.node).bind PlanNode.output?).bind (·.values.get? source.port)

-- The values that arrive at the input ports of a node; of routes into one port the last counts.
def inputs (p : Plan) (node : String) : Dict (List Value) :=
  Dict.ofList (((p.routes.get? node).getD []).map fun r => (r.port, r.sources.filterMap p.valueAt?))

-- The plan before a tick: all nodes are pending.
def reset (p : Plan) : Plan :=
  { p with nodes := p.nodes.map PlanNode.reset }

def setState (p : Plan) (node : String) (state : NodeState) : Plan :=
  { p with nodes := p.nodes.modify node (·.enter state) }

end Plan

end SignalFlow
