import SignalFlow.Graph.Order
import SignalFlow.Plan.Basic
import SignalFlow.Schema.Hydration
import SignalFlow.Schema.Registry
import SignalFlow.Validation.Passes

/-!
From a graph to a plan. The graph is brought to the current schema, gets its defaults and is
checked; only then are the state store and the indicator feed touched.
-/

namespace SignalFlow

-- What compilation and execution are set up with.
structure Setup where
  registry : Registry := .new
  config : Config := {}

-- The services that a deployment may have.
structure Services where
  store : Option StoreLink := none
  feed : Option IndicatorFeed := none

-- A graph that passes its check meets none of the last three.
inductive CompileError where
  | migration (error : MigrationError)
  | invalid (report : Report)
  | unmappedType (node nodeType : String)
  | unknownNode (node : String)
  | cyclic (visited total : Nat)

def CompileError.message : CompileError → String
  | .migration error => error.message
  | .invalid report =>
    "Graph failed validation with " ++ toString report.errors.length ++ " error(s)"
  | .unmappedType node nodeType =>
    "Node '" ++ node ++ "' has type '" ++ nodeType ++ "' with no execution mapping"
  | .unknownNode node => "Edge references node '" ++ node ++ "', which is not part of the graph"
  | .cyclic visited total =>
    "Topological sort visited " ++ toString visited ++ " of " ++ toString total
      ++ " nodes; the graph contains a cycle"

namespace Compile

-- The graph as it is compiled.
def prepare (setup : Setup) (g : Graph) : Except CompileError Graph :=
  match setup.registry.migrate g none with
  | .error e => .error (.migration e)
  | .ok migrated =>
    let hydrated := migrated.hydrate
    let report := hydrated.validate setup.config
    if report.isValid then .ok hydrated else .error (.invalid report)

def addNode (nodes : Dict PlanNode) (n : Node) : Except CompileError (Dict PlanNode) :=
  match Kind.ofNodeType? n.nodeType with
  | none => .error (.unmappedType n.id n.nodeType)
  | some kind => .ok (nodes.insert n.id { kind, node := n })

def addDependency (name : String) (n : PlanNode) : PlanNode :=
  { n with dependencies := n.dependencies.insert name () }

def addDependent (name : String) (n : PlanNode) : PlanNode :=
  { n with dependents := n.dependents.insert name () }

def addEdge (nodes : Dict PlanNode) (e : Edge) : Except CompileError (Dict PlanNode) :=
  if !nodes.contains e.targetNode then .error (.unknownNode e.targetNode)
  else if !nodes.contains e.sourceNode then .error (.unknownNode e.sourceNode)
  else
    .ok ((nodes.modify e.sourceNode (addDependent e.targetNode)).modify e.targetNode
      (addDependency e.sourceNode))

def order (g : Graph) : Except CompileError (List String) :=
  let positions := g.wiring.order
  if positions.length < g.nodes.length then .error (.cyclic positions.length g.nodes.length)
  else .ok (positions.map g.idAt)

-- The distinct sources of the edges into a port, each where it occurs first.
def sources (g : Graph) (node port : String) : List PortRef :=
  Validation.distinct []
    ((g.edges.filter fun e => e.targetNode == node && e.targetPort == port).map
      fun e => ⟨e.sourceNode, e.sourcePort⟩)

def routesInto (g : Graph) (n : Node) : List Route :=
  (Catalog.inputPorts n.nodeType).map fun p => ⟨p.name, sources g n.id p.name⟩

def routes (g : Graph) : Dict (List Route) :=
  g.nodes.foldl
    (fun d n => if (routesInto g n).isEmpty then d else d.insert n.id (routesInto g n)) ∅

-- The plan of a graph, without machines and indicator series.
def skeleton (strategy : String) (g : Graph) (symbol : String) : Except CompileError Plan := do
  let nodes ← g.nodes.foldlM addNode ∅
  let nodes ← g.edges.foldlM addEdge nodes
  let order ← order g
  .ok { name := g.name, strategy, symbol, nodes, order, machines := ∅, routes := routes g }

-- The stored state of a machine if it can be read and is of the right kind, else a fresh one.
def recover (kind : MachineKind) (stored : Option Blob) : Machine :=
  match stored.bind Blob.machine? with
  | some m => if m.kind = kind then m else .zero kind
  | none => .zero kind

def recoverFrom (store : Option StoreLink) (key : StateKey) (kind : MachineKind) :
    Machine × Option StoreLink :=
  match store with
  | none => (.zero kind, none)
  | some link =>
    let found := link.read key
    (recover kind found.1, some found.2)

def register (feed : Option IndicatorFeed) (key : IndicatorKey) (n : Node) :
    Option IndicatorFeed :=
  feed.map (·.register key (.obj [("node_id", .str n.id)]))

-- Gives a node what it needs of the services.
def equip (state : Plan × Services) (id : String) : Plan × Services :=
  let (plan, services) := state
  match plan.nodes.get? id with
  | none => state
  | some n =>
    match n.kind, n.kind.machineKind? with
    | .indicator kind, _ =>
      let key := n.node.series plan.symbol kind
      ({ plan with nodes := plan.nodes.modify id fun n => { n with indicatorKey := some key } },
        { services with feed := register services.feed key n.node })
    | _, some kind =>
      let recovered := recoverFrom services.store (plan.stateKey id) kind
      ({ plan with machines := plan.machines.insert id recovered.1 },
        { services with store := recovered.2 })
    | _, none => state

end Compile

-- Compiles a graph for a symbol, and gives the services as compilation leaves them. The machines
-- are taken from the store under the name of the strategy.
def Graph.compile (g : Graph) (setup : Setup) (services : Services) (strategy symbol : String) :
    Except CompileError Plan × Services :=
  match Compile.prepare setup g with
  | .error e => (.error e, services)
  | .ok prepared =>
    match Compile.skeleton strategy prepared symbol with
    | .error e => (.error e, services)
    | .ok plan =>
      let equipped := plan.order.foldl Compile.equip (plan, services)
      (.ok equipped.1, equipped.2)

end SignalFlow
