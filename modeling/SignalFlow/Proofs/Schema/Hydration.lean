import SignalFlow.Proofs.Catalog.Definitions
import SignalFlow.Proofs.Catalog.Parameters
import SignalFlow.Proofs.Dict
import SignalFlow.Proofs.Graph.Positions
import SignalFlow.Schema.Hydration

/-!
Filling in defaults reaches the declared parameters that are not given, and nothing else.
-/

namespace SignalFlow

open Validation (ids)

-- There is a value under that name, other than `null`.
def Dict.Gives (values : Dict Json) (name : String) : Prop :=
  ∃ v, values.get? name = some v ∧ v ≠ .null

namespace Parameter

-- What a parameter stands at after its default is filled in.
def filled (p : Parameter) (values : Dict Json) : Option Json :=
  match values.get? p.name with
  | none       => p.default
  | some .null => p.default.or (some .null)
  | some v     => some v

variable {p : Parameter} {values : Dict Json} {k : String} {v : Json}

theorem filled_of_gives (h : values.Gives p.name) : p.filled values = values.get? p.name := by
  have ⟨v, hv, hn⟩ := h
  unfold filled
  split
  case h_1 hv'     => cases hv.symm.trans hv'
  case h_2 hv'     => exact absurd (Option.some.inj <| hv.symm.trans hv') hn
  case h_3 _ _ hv' => exact hv'.symm

theorem filled_of_not_gives (h : ¬values.Gives p.name) (hd : p.default = some v) :
    p.filled values = some v := by
  unfold filled
  split
  case h_1         => exact hd
  case h_2         => rw [hd, Option.some_or]
  case h_3 w hn hw => exact absurd ⟨w, hw, hn⟩ h

theorem filled_of_default_eq_none (h : p.default = none) :
    p.filled values = values.get? p.name := by
  unfold filled
  split <;> simp_all

theorem get?_hydrate :
    (p.hydrate values).get? k = if k = p.name then p.filled values else values.get? k := by
  by_cases hk : k = p.name
  case neg =>
    unfold hydrate
    split <;> simp [hk]
  case pos =>
    subst hk
    rw [if_pos rfl]
    cases hd : p.default <;> rcases hv : values.get? p.name with _ | (_ | _) <;>
      simp [hydrate, filled, hd, hv]

theorem local_hydrate : Dict.Local (fun values p => hydrate p values) name where
  frame := fun _ _ _ hk => by rw [get?_hydrate, if_neg hk]
  reads := fun _ _ _ h => by simp only [get?_hydrate, filled, h]

end Parameter

theorem Definition.get?_hydrate {d : Definition} {p : Parameter} {values : Dict Json}
    (hd : d ∈ Catalog.all) (hp : p ∈ d.parameters) :
    (d.hydrate values).get? p.name = p.filled values := by
  rw [hydrate, Parameter.local_hydrate.get?_foldl_of_mem (Catalog.nodup_parameters d hd) hp,
    Parameter.get?_hydrate, if_pos rfl]

section Node

variable {n : Node}

@[simp] theorem Node.hydrate_id : n.hydrate.id = n.id := by
  unfold hydrate
  split <;> rfl

@[simp] theorem Node.hydrate_nodeType : n.hydrate.nodeType = n.nodeType := by
  unfold hydrate
  split <;> rfl

theorem Node.Declared.hydrate_parameters {d : Definition} (h : n.Declared d) :
    n.hydrate.parameters = d.hydrate n.parameters := by
  rw [Node.hydrate, Node.declared_iff.mp h]

theorem Node.Declared.get?_hydrate {d : Definition} {p : Parameter} (h : n.Declared d)
    (hp : p ∈ d.parameters) : n.hydrate.parameters.get? p.name = p.filled n.parameters := by
  rw [h.hydrate_parameters, Definition.get?_hydrate h.left hp]

theorem Node.Declared.get?_hydrate_of_not_mem {d : Definition} {name : String} (h : n.Declared d)
    (hn : name ∉ d.parameters.map Parameter.name) :
    n.hydrate.parameters.get? name = n.parameters.get? name := by
  rw [h.hydrate_parameters]
  exact Parameter.local_hydrate.get?_foldl_of_not_mem hn

end Node

namespace Graph

variable (g : Graph) {id : String}

@[simp] theorem hydrate_edges : g.hydrate.edges = g.edges := rfl

@[simp] theorem hydrate_nodes : g.hydrate.nodes = g.nodes.map Node.hydrate := rfl

@[simp] theorem ids_hydrate : ids g.hydrate = ids g := by
  simp [ids]

@[simp] theorem node?_hydrate : g.hydrate.node? id = (g.node? id).map Node.hydrate := by
  simp only [node?, hydrate_nodes, List.find?_map, Function.comp_def, Node.hydrate_id]

@[simp] theorem position?_hydrate : g.hydrate.position? id = g.position? id := by
  simp [position?, List.findIdx?_map, Function.comp_def]

@[simp] theorem wiring_hydrate : g.hydrate.wiring = g.wiring := by
  have ha : g.hydrate.arc? = g.arc? := by
    funext e
    simp [arc?]
  simp [wiring, ha]

@[simp] theorem idAt_hydrate : g.hydrate.idAt = g.idAt := by
  funext i
  simp [idAt, Function.comp_def]

end Graph

end SignalFlow
