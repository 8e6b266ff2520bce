import SignalFlow.Catalog.Basic

/-!
Definitions as an editor for strategies reads them.
-/

namespace SignalFlow

def Port.toJson (p : Port) : Json :=
  .obj [("name", .str p.name), ("data_type", .str p.dataType.name),
    ("type_text", .str p.dataType.name), ("direction", .str p.direction.name),
    ("required", .bool p.required)]

def Parameter.toJson (p : Parameter) : Json :=
  .obj [("name", .str p.name), ("type", .str p.type.name), ("default", p.default.getD .null),
    ("required", .bool p.required), ("min", .ofOption .ofFloat p.min),
    ("max", .ofOption .ofFloat p.max), ("allowed", .arr (p.allowed.map .str))]

def Definition.toJson (d : Definition) : Json :=
  .obj [("id", .str d.name), ("category", .str d.category.name),
    ("description", .str d.description), ("ports", .arr (d.ports.map Port.toJson)),
    ("parameters", .arr (d.parameters.map Parameter.toJson))]

end SignalFlow
