import SignalFlow.Proofs.Catalog.Definitions
import SignalFlow.Proofs.Catalog.Parameters
import SignalFlow.Proofs.Graph.Positions

/-!
Graphs that make sense, whatever it takes to find out: ids, kinds, parameters, ports and edges are
in order, and nothing feeds itself.
-/

open Relation

namespace SignalFlow

open Validation (ids)

namespace DataType

-- A source of this type may be wired to a target of that type.
def Fits (source target : DataType) : Prop :=
  source = target ∨ (source, target) ∈ coercions

theorem canConnectTo_iff {source target : DataType} :
    source.canConnectTo target ↔ source.Fits target := by
  simp [canConnectTo, Fits]

end DataType

namespace Graph

-- A node with that id is of a kind that has the port.
def HasPort (g : Graph) (id : String) (p : Port) : Prop :=
  ∃ n ∈ g.nodes, n.id = id ∧ ∃ d, n.Declared d ∧ p ∈ d.ports

-- The edge leads from an output port to an input port, and what it carries fits both.
structure Wires (g : Graph) (e : Edge) (output input : Port) : Prop where
  source     : g.HasPort e.sourceNode output
  sourcePort : output.name = e.sourcePort ∧ output.direction = .output
  target     : g.HasPort e.targetNode input
  targetPort : input.name = e.targetPort ∧ input.direction = .input
  fits       : output.dataType.Fits input.dataType

def Connected (g : Graph) (id port : String) : Prop :=
  ∃ e ∈ g.edges, e.targetNode = id ∧ e.targetPort = port

structure WellFormed (g : Graph) : Prop where
  nonempty   : g.nodes ≠ []
  distinct   : (ids g).Nodup
  known      : ∀ n ∈ g.nodes, ∃ d, n.Declared d
  parameters : ∀ n ∈ g.nodes, ∀ d, n.Declared d → ∀ p ∈ d.parameters, p.Accepts n.parameters
  connected  : ∀ n ∈ g.nodes, ∀ d, n.Declared d → ∀ p ∈ d.inputs, p.required →
    g.Connected n.id p.name
  wired      : ∀ e ∈ g.edges, ∃ output input, g.Wires e output input
  acyclic    : ∀ id, ¬TransGen g.Feeds id id

variable {g : Graph} {n m : Node} {d : Definition} {p : Port} {id : String}

theorem eq_of_id_eq (h : (ids g).Nodup) (hn : n ∈ g.nodes) (hm : m ∈ g.nodes) (he : n.id = m.id) :
    n = m :=
  List.inj_on_of_nodup_map h hn hm he

theorem isSome_node?_iff : (g.node? id).isSome ↔ id ∈ ids g := by
  simp [node?, List.find?_isSome, ids]

theorem node?_eq_some_iff (h : (ids g).Nodup) : g.node? id = some n ↔ n ∈ g.nodes ∧ n.id = id :=
  find?_eq_some_iff_of_nodup h fun _ => beq_iff_eq

theorem hasPort_iff (h : (ids g).Nodup) (hn : n ∈ g.nodes) (hd : n.Declared d) :
    g.HasPort n.id p ↔ p ∈ d.ports := by
  constructor
  case mpr => exact fun hp => ⟨n, hn, rfl, d, hd, hp⟩
  case mp =>
    intro ⟨m, hm, he, d', hd', hp⟩
    cases eq_of_id_eq h hm hn he
    exact hd'.unique hd ▸ hp

theorem HasPort.mem_ids (h : g.HasPort id p) : id ∈ ids g :=
  have ⟨_, hn, he, _⟩ := h
  List.mem_map.mpr ⟨_, hn, he⟩

theorem resolved_of_wired (h : ∀ e ∈ g.edges, ∃ output input, g.Wires e output input) :
    g.Resolved := fun e he =>
  have ⟨_, _, hw⟩ := h e he
  ⟨hw.source.mem_ids, hw.target.mem_ids⟩

theorem WellFormed.resolved (h : g.WellFormed) : g.Resolved :=
  resolved_of_wired h.wired

end Graph

end SignalFlow
