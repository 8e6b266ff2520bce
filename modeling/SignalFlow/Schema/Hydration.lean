import SignalFlow.Catalog.Definitions
import SignalFlow.Graph.Basic

/-!
Filling in defaults: every parameter that a node lacks or has set to `null` gets the default of its
kind, if there is one.
-/

namespace SignalFlow

namespace Parameter

-- The values with the default of this parameter, where it is needed.
def hydrate (p : Parameter) (values : Dict Json) : Dict Json :=
  match p.default, values.get? p.name with
  | some default, none => values.insert p.name default
  | some default, some .null => values.insert p.name default
  | _, _ => values

end Parameter

def Definition.hydrate (d : Definition) (values : Dict Json) : Dict Json :=
  d.parameters.foldl (fun values p => p.hydrate values) values

-- Nodes of unknown kinds stay as they are.
def Node.hydrate (n : Node) : Node :=
  match Catalog.find? n.nodeType with
  | none => n
  | some d => { n with parameters := d.hydrate n.parameters }

def Graph.hydrate (g : Graph) : Graph :=
  { g with nodes := g.nodes.map Node.hydrate }

end SignalFlow
