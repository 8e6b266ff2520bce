import SignalFlow.Graph.Basic
import SignalFlow.Json.Fields
import SignalFlow.Json.Printer
import SignalFlow.Json.Reader

/-!
The portable form of graphs. Writing lists every field in the declared order; reading accepts what
`Document.Fields` accepts, with empty defaults for everything but names, ids, types and positions.
-/

namespace SignalFlow

namespace Position

def toJson (p : Position) : Json :=
  .obj [("x", .ofFloat p.x), ("y", .ofFloat p.y)]

def ofDocument? (d : Document) : Option Position := do
  let f ← d.fields? ["x", "y"]
  some { x := ← f.required "x" Document.float?, y := ← f.required "y" Document.float? }

end Position

namespace Node

def toJson (n : Node) : Json :=
  .obj [("id", .str n.id), ("node_type", .str n.nodeType), ("position", n.position.toJson),
    ("parameters", .ofDict (fun j => j) n.parameters),
    ("metadata", .ofDict (fun j => j) n.metadata)]

def ofDocument? (d : Document) : Option Node := do
  let f ← d.fields? ["id", "node_type", "position", "parameters", "metadata"]
  some {
    id := ← f.required "id" Document.string?
    nodeType := ← f.required "node_type" Document.string?
    position := ← f.required "position" Position.ofDocument?
    parameters := ← f.withDefault "parameters" ∅ (Document.dict? Document.json?)
    metadata := ← f.withDefault "metadata" ∅ (Document.dict? Document.json?) }

end Node

namespace Edge

def toJson (e : Edge) : Json :=
  .obj [("source_node", .str e.sourceNode), ("source_port", .str e.sourcePort),
    ("target_node", .str e.targetNode), ("target_port", .str e.targetPort)]

def ofDocument? (d : Document) : Option Edge := do
  let f ← d.fields? ["source_node", "source_port", "target_node", "target_port"]
  some {
    sourceNode := ← f.required "source_node" Document.string?
    sourcePort := ← f.required "source_port" Document.string?
    targetNode := ← f.required "target_node" Document.string?
    targetPort := ← f.required "target_port" Document.string? }

end Edge

namespace Graph

def toJson (g : Graph) : Json :=
  .obj [("name", .str g.name), ("version", .str g.version), ("description", .str g.description),
    ("nodes", .arr (g.nodes.map Node.toJson)), ("edges", .arr (g.edges.map Edge.toJson)),
    ("metadata", .ofDict (fun j => j) g.metadata)]

def ofDocument? (d : Document) : Option Graph := do
  let f ← d.fields? ["name", "version", "description", "nodes", "edges", "metadata"]
  some {
    name := ← f.required "name" Document.string?
    version := ← f.withDefault "version" "" Document.string?
    description := ← f.withDefault "description" "" Document.string?
    nodes := ← f.withDefault "nodes" [] (Document.list? Node.ofDocument?)
    edges := ← f.withDefault "edges" [] (Document.list? Edge.ofDocument?)
    metadata := ← f.withDefault "metadata" ∅ (Document.dict? Document.json?) }

def ofJson? (j : Json) : Option Graph :=
  ofDocument? (Document.ofJson j)

def parse? (text : String) : Option Graph :=
  (Document.parse? text).bind ofDocument?

-- The text that authors keep in files.
def text (g : Graph) : String :=
  g.toJson.pretty

end Graph

end SignalFlow
