import SignalFlow.Plan.Kind
import SignalFlow.Proofs.Catalog.Definitions

/-!
The ports of each kind as the kind is run. They are those of the catalog, and the catalog lists no
kind that cannot be run.
-/

namespace SignalFlow

namespace Kind

open Catalog (input optionalInput)

-- The port that a kind reads; a data source reads none.
def input? : Kind → Option Port
  | .dataSource _          => none
  | .indicator _           => some <| input "price" .price
  | .condition .threshold  => some <| input "value" .indicatorValue
  | .condition .range      => some <| input "value" .indicatorValue
  | .condition .duration   => some <| input "condition" .boolean
  | .condition .sequence   => some <| input "event" .boolean
  | .composition _         => some <| input "inputs" .boolean
  | .action .alert         => some <| optionalInput "trigger" .boolean
  | .action _              => some <| input "trigger" .boolean

-- The port that a kind puts its result on.
def output : Kind → Port
  | .dataSource .price     => Catalog.output "price" .price
  | .dataSource .volume    => Catalog.output "volume" .volume
  | .indicator _           => Catalog.output "value" .indicatorValue
  | .condition _           => Catalog.output "result" .boolean
  | .composition _         => Catalog.output "result" .boolean
  | .action _              => Catalog.output "signal" .signal

end Kind

namespace Catalog

theorem isSome_ofNodeType? : ∀ d ∈ all, (Kind.ofNodeType? d.name).isSome := by decide

theorem ports_of_ofNodeType? : ∀ d ∈ all, ∀ kind ∈ Kind.ofNodeType? d.name,
    d.inputs = kind.input?.toList ∧ d.outputs = [kind.output] := by
  decide

end Catalog

theorem Definition.mem_inputs_iff {d : Definition} {p : Port} :
    p ∈ d.inputs ↔ p ∈ d.ports ∧ p.direction = .input := by
  simp [inputs]

theorem Definition.mem_outputs_iff {d : Definition} {p : Port} :
    p ∈ d.outputs ↔ p ∈ d.ports ∧ p.direction = .output := by
  simp [outputs]

namespace Node.Declared

variable {n : Node} {d : Definition} {kind : Kind} {p : Port}

theorem mem_inputs_iff (h : n.Declared d) (hk : Kind.ofNodeType? n.nodeType = some kind) :
    p ∈ d.inputs ↔ kind.input? = some p := by
  have ⟨hi, _⟩ := Catalog.ports_of_ofNodeType? d h.left kind (h.right ▸ hk)
  rw [hi, Option.mem_toList]

theorem mem_outputs_iff (h : n.Declared d) (hk : Kind.ofNodeType? n.nodeType = some kind) :
    p ∈ d.outputs ↔ p = kind.output := by
  have ⟨_, ho⟩ := Catalog.ports_of_ofNodeType? d h.left kind (h.right ▸ hk)
  rw [ho, List.mem_singleton]

end Node.Declared

end SignalFlow
