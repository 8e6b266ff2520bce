import SignalFlow.Json.Basic

/-!
Strategies as authors draw them: nodes with parameters, and edges from output ports to input ports.
Nothing here is promised of a graph; ids may repeat, and edges may name nodes that do not exist.
-/

namespace SignalFlow

-- Where a node is drawn.
structure Position where
  x : Float
  y : Float
deriving BEq

structure Node where
  id : String
  nodeType : String
  position : Position := ⟨0, 0⟩
  parameters : Dict Json := ∅
  metadata : Dict Json := ∅
deriving BEq

namespace Node

def float? (n : Node) (name : String) : Option Float :=
  (n.parameters.get? name).bind Json.float?

def string? (n : Node) (name : String) : Option String :=
  (n.parameters.get? name).bind Json.string?

def bool? (n : Node) (name : String) : Option Bool :=
  (n.parameters.get? name).bind Json.bool?

end Node

-- The target consumes what the source puts on its port.
structure Edge where
  sourceNode : String
  sourcePort : String
  targetNode : String
  targetPort : String
deriving DecidableEq, Repr

def Edge.touches (e : Edge) (id : String) : Bool :=
  e.sourceNode == id || e.targetNode == id

structure Graph where
  name : String
  version : String := ""
  description : String := ""
  nodes : List Node := []
  edges : List Edge := []
  metadata : Dict Json := ∅
deriving BEq

namespace Graph

def new (name : String) : Graph :=
  { name, version := "1.0.0" }

def addNode (g : Graph) (n : Node) : Graph :=
  { g with nodes := g.nodes ++ [n] }

def addEdge (g : Graph) (e : Edge) : Graph :=
  { g with edges := g.edges ++ [e] }

-- The first node with that id.
def node? (g : Graph) (id : String) : Option Node :=
  g.nodes.find? (·.id == id)

def edgesTouching (g : Graph) (id : String) : List Edge :=
  g.edges.filter (·.touches id)

def incoming (g : Graph) (id : String) : List Edge :=
  g.edges.filter (·.targetNode == id)

def outgoing (g : Graph) (id : String) : List Edge :=
  g.edges.filter (·.sourceNode == id)

-- The graph without the first node of that id and without all edges that touch the id. A graph that
-- has no such node stays as it is.
def removeNode (g : Graph) (id : String) : Graph :=
  if (g.node? id).isSome then
    { g with
      nodes := g.nodes.eraseP (·.id == id)
      edges := g.edges.filter (!·.touches id) }
  else g

def schemaVersionKey : String := "schema_version"

-- The version of the schema that the graph was authored for, if its metadata tell.
def schemaVersion? (g : Graph) : Option String :=
  (g.metadata.get? schemaVersionKey).bind Json.string?

end Graph

end SignalFlow
