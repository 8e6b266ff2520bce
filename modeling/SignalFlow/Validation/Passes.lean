import SignalFlow.Config
import SignalFlow.Graph.Cycle
import SignalFlow.Graph.Reach
import SignalFlow.Validation.Report

/-!
The checks of a graph, pass by pass: its structure, its nodes, its edges, its logic, and limits and
habits of trading. An empty graph ends the check at once.
-/

namespace SignalFlow

namespace Validation

-- Every element that repeats an earlier one, as often as it does.
def repeated {α : Type} [DecidableEq α] : (seen : List α) → List α → List α
  | _, [] => []
  | seen, a :: rest => if a ∈ seen then a :: repeated seen rest else repeated (a :: seen) rest

-- The first occurrences.
def distinct {α : Type} [DecidableEq α] : (seen : List α) → List α → List α
  | _, [] => []
  | seen, a :: rest => if a ∈ seen then distinct seen rest else a :: distinct (a :: seen) rest

def ids (g : Graph) : List String :=
  g.nodes.map Node.id

-- First pass: ids and edges that occur more than once.

def structureIssues (g : Graph) : List Issue :=
  (distinct [] (repeated [] (ids g))).map .duplicateNode
    ++ (repeated [] g.edges).map .duplicateEdge

-- Second pass: kinds, parameters, required inputs, and actions that nobody listens to.

def isConnected (g : Graph) (id port : String) : Bool :=
  g.edges.any fun e => e.targetNode == id && e.targetPort == port

def hasOutgoing (g : Graph) (id : String) : Bool :=
  g.edges.any (·.sourceNode == id)

def nodeIssues (g : Graph) (n : Node) : List Issue :=
  match Catalog.find? n.nodeType with
  | none => [.unknownNodeType n.id n.nodeType]
  | some d =>
    (Catalog.parameterFaults n.nodeType n.parameters).map (.invalidParameter n.id)
      ++ ((d.inputs.filter fun p => p.required && !isConnected g n.id p.name).map
        fun p => .missingInput n.id p.name)
      ++ if d.category = .action && !hasOutgoing g n.id then [.unusedOutput n.id] else []

-- Third pass: the ends of edges, their ports, and the types of those.

def missingEnds (g : Graph) (e : Edge) : List Issue :=
  (if (g.node? e.sourceNode).isNone then [.missingNode .source e.sourceNode] else [])
    ++ if (g.node? e.targetNode).isNone then [.missingNode .target e.targetNode] else []

def portIssues (source target : Node) (output? input? : Option Port) (e : Edge) : List Issue :=
  (if output?.isNone then [.invalidPort .source source.id source.nodeType e.sourcePort] else [])
    ++ (if input?.isNone then [.invalidPort .target target.id target.nodeType e.targetPort] else [])
    ++ match output?, input? with
      | some output, some input =>
        if output.dataType.canConnectTo input.dataType then []
        else [.typeMismatch source.id output target.id input]
      | _, _ => []

-- The ports of an edge are looked at only if both of its ends exist and have a known kind.
def edgeIssues (g : Graph) (e : Edge) : List Issue :=
  match g.node? e.sourceNode, g.node? e.targetNode with
  | some source, some target =>
    match Catalog.find? source.nodeType, Catalog.find? target.nodeType with
    | some sourceKind, some targetKind =>
      portIssues source target (sourceKind.port? e.sourcePort .output)
        (targetKind.port? e.targetPort .input) e
    | _, _ => []
  | _, _ => missingEnds g e

-- Fourth pass: cycles, separate parts, and sinks that no source leads to.

-- Positions that feed others and are fed by none.
def sources (w : Wiring) : List Nat :=
  (List.range w.size).filter fun i => w.inDegree i = 0 && 0 < w.outDegree i

def unreachableSinks (w : Wiring) : List Nat :=
  let reached := w.reached (sources w)
  (List.range w.size).filter fun i => w.outDegree i = 0 && i ∉ reached

def logicIssues (g : Graph) : List Issue :=
  let w := g.wiring
  let components := w.components.length
  w.cycles.map (fun c => .cycle (c.map g.idAt))
    ++ (if 1 < components then [.disconnected components] else [])
    ++ (unreachableSinks w).map fun i => .unreachableSink (g.idAt i)

-- Fifth pass: sizes, and what a trading strategy should look after.

-- The edge ends at that id; a loop has two.
def edgeEnds (g : Graph) (id : String) : Nat :=
  g.edges.countP (·.sourceNode == id) + g.edges.countP (·.targetNode == id)

def orderActions : List String := ["buy_signal", "sell_signal"]

def emergencyExit : String := "emergency_exit"

def practiceIssues (config : Config) (g : Graph) : List Issue :=
  let actions := g.nodes.countP (·.nodeType ∈ orderActions)
  (if config.maxNodes < g.nodes.length then [.tooManyNodes g.nodes.length config.maxNodes] else [])
    ++ ((distinct [] (ids g)).filter fun id => config.maxEdgesPerNode < edgeEnds g id).map
      (fun id => .highConnectivity id (edgeEnds g id) config.maxEdgesPerNode)
    ++ (if 1 < actions then [.conflictingActions actions] else [])
    ++ if g.nodes.any (·.nodeType == emergencyExit) then [] else [.missingEmergencyExit]

def issues (config : Config) (g : Graph) : List Issue :=
  if g.nodes.isEmpty then [.emptyGraph]
  else
    structureIssues g ++ g.nodes.flatMap (nodeIssues g) ++ g.edges.flatMap (edgeIssues g)
      ++ logicIssues g ++ practiceIssues config g

end Validation

-- Checks the graph; no graph makes the check fail.
def Graph.validate (g : Graph) (config : Config) : Report :=
  .ofIssues (Validation.issues config g)

end SignalFlow
