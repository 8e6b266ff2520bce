import SignalFlow.Json.Basic

/-!
The shape of a graph in its portable form, checked before it is read: which fields are there.
-/

namespace SignalFlow

namespace Shape

inductive Part where
  | node
  | edge
deriving DecidableEq, Repr

def Part.name : Part → String
  | .node => "node"
  | .edge => "edge"

inductive Problem where
  | notAnObject
  | notAList (field : String)
  | missing (part : Part) (index : Nat) (field : String)
deriving DecidableEq, Repr

def Problem.message : Problem → String
  | .notAnObject => "graph must be a JSON object"
  | .notAList field => "'" ++ field ++ "' must be an array"
  | .missing part index field =>
    part.name ++ " " ++ toString index ++ " is missing '" ++ field ++ "'"

def nodeFields : List String := ["id", "node_type", "position"]

def edgeFields : List String := ["source_node", "source_port", "target_node", "target_port"]

-- A field of a node has to be there and not `null`.
def hasValue (node : Json) (field : String) : Bool :=
  (node.member? field).any (!·.isNull)

-- A field of an edge has to be text.
def hasText (edge : Json) (field : String) : Bool :=
  (edge.member? field).any Json.isString

def missingFields (part : Part) (fields : List String) (has : Json → String → Bool)
    (items : List Json) : List Problem :=
  (items.zipIdx).flatMap fun (item, index) =>
    (fields.filter (!has item ·)).map (.missing part index)

def listProblems (raw : Json) (field : String) (check : List Json → List Problem) : List Problem :=
  match (raw.member? field).bind Json.items? with
  | some items => check items
  | none => [.notAList field]

def problems (raw : Json) : List Problem :=
  match raw with
  | .obj _ =>
    listProblems raw "nodes" (missingFields .node nodeFields hasValue)
      ++ listProblems raw "edges" (missingFields .edge edgeFields hasText)
  | _ => [.notAnObject]

end Shape

end SignalFlow
