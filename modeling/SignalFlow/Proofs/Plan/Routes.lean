import SignalFlow.Proofs.Plan.Compile

/-!
The routes of a plan lead along the edges of its graph. So in the plan of a well-formed graph every
required input has a source, and every source puts a value on its route that fits the input.
-/

namespace SignalFlow

open Validation (ids)

namespace Compile

variable {g : Graph} {n : Node} {d : Definition} {kind : Kind} {port : Port}

theorem mem_sources_iff {node name : String} {r : PortRef} :
    r ∈ sources g node name ↔
      ∃ e ∈ g.edges, e.targetNode = node ∧ e.targetPort = name ∧
        ⟨e.sourceNode, e.sourcePort⟩ = r := by
  simp [sources, Validation.mem_distinct_iff, and_assoc]

theorem local_routes :
    Dict.Local (fun d n => if (routesInto g n).isEmpty then d else d.insert n.id (routesInto g n))
      Node.id where
  frame d n k hk := by
    split
    case isTrue  => rfl
    case isFalse => rw [Dict.get?_insert, if_neg hk]
  reads d d' n h := by
    split
    case isTrue  => exact h
    case isFalse => simp

theorem get?_routes (h : (ids g).Nodup) (hn : n ∈ g.nodes) :
    (routes g).get? n.id = if (routesInto g n).isEmpty then none else some (routesInto g n) := by
  rw [routes, local_routes.get?_foldl_of_mem h hn]
  split
  case isTrue  => rfl
  case isFalse => simp

theorem get?_routes_of_input? (h : (ids g).Nodup) (hn : n ∈ g.nodes) (hd : n.Declared d)
    (hk : Kind.ofNodeType? n.nodeType = some kind) (hp : kind.input? = some port) :
    (routes g).get? n.id = some [⟨port.name, sources g n.id port.name⟩] := by
  have ⟨hi, _⟩ := Catalog.ports_of_ofNodeType? d hd.left kind (hd.right ▸ hk)
  have hr : routesInto g n = [⟨port.name, sources g n.id port.name⟩] := by
    simp [routesInto, Catalog.inputPorts, Node.declared_iff.mp hd, hi, hp]
  rw [get?_routes h hn, hr, if_neg (by simp)]

end Compile

namespace Plan

-- The part of a node that stays the same while the plan runs.
def shape? (p : Plan) (id : String) : Option (Kind × NameSet) :=
  (p.nodes.get? id).map fun n => (n.kind, n.dependencies)

-- A node comes after the source of a route into it, and takes what the source gives.
structure Feeds (p : Plan) (dependencies : NameSet) (port : Port) (r : PortRef) : Prop where
  after  : r.node ∈ dependencies.keys
  source : ∃ kind dependencies, p.shape? r.node = some (kind, dependencies) ∧
    r.port = kind.output.name ∧ kind.output.dataType.Fits port.dataType

-- Every node that reads a port has a route into it, and what comes along the route fits.
def WellTyped (p : Plan) : Prop :=
  ∀ id kind dependencies port, p.shape? id = some (kind, dependencies) → kind.input? = some port →
    ∃ sources, p.routes.get? id = some [⟨port.name, sources⟩] ∧
      (port.required → sources ≠ []) ∧ ∀ r ∈ sources, p.Feeds dependencies port r

namespace Implements

variable {p : Plan} {g : Graph} {e : Edge} {n : PlanNode} {output input : Port}

theorem shape?_source (h : p.Implements g) (hw : g.WellFormed) (hp : g.HasPort e.sourceNode output)
    (hd : output.direction = .output) :
    ∃ kind dependencies, p.shape? e.sourceNode = some (kind, dependencies) ∧
      kind.output = output := by
  have ⟨s, hs, hid, d, hsd, ho⟩ := hp
  have ⟨n, hn⟩ := h.linked.present s hs
  have hl := h.linked.links _ _ hn
  have he := Graph.eq_of_id_eq hw.distinct hl.mem hs (h.linked.id _ _ hn)
  refine ⟨n.kind, n.dependencies, by rw [shape?, ←hid, hn, Option.map_some], ?_⟩
  have hm := Definition.mem_outputs_iff.mpr ⟨ho, hd⟩
  exact ((hsd.mem_outputs_iff (he ▸ hl.kind)).mp hm).symm

theorem feeds (h : p.Implements g) (hw : g.WellFormed) (hn : n.Links g.nodes g.edges)
    (he : e ∈ g.edges) (hid : e.targetNode = n.node.id) (hi : n.kind.input? = some input) :
    p.Feeds n.dependencies input ⟨e.sourceNode, e.sourcePort⟩ := by
  have ⟨output, target, hw'⟩ := hw.wired e he
  have ⟨d, hd⟩ := hw.known n.node hn.mem
  have ht := (Graph.hasPort_iff hw.distinct hn.mem hd).mp (hid ▸ hw'.target)
  have ht := Definition.mem_inputs_iff.mpr ⟨ht, hw'.targetPort.right⟩
  cases hi.symm.trans <| (hd.mem_inputs_iff hn.kind).mp ht
  have ⟨kind, dependencies, hs, ho⟩ := h.shape?_source hw hw'.source hw'.sourcePort.right
  constructor
  case after  => exact (hn.dependencies e.sourceNode).mpr ⟨e, he, rfl, hid⟩
  case source => exact ⟨kind, dependencies, hs, ho ▸ hw'.sourcePort.left.symm, ho ▸ hw'.fits⟩

theorem wellTyped (h : p.Implements g) (hw : g.WellFormed) : p.WellTyped := by
  intro id kind dependencies input hs hi
  have ⟨n, hn, he⟩ := Option.map_eq_some_iff.mp hs
  cases he
  have hl := h.linked.links id n hn
  have hid := h.linked.id id n hn
  have ⟨d, hd⟩ := hw.known n.node hl.mem
  have hr := Compile.get?_routes_of_input? hw.distinct hl.mem hd hl.kind hi
  refine ⟨_, by rw [h.routes, ←hid]; exact hr, fun hq => ?_, fun r hm => ?_⟩
  · have hm := (hd.mem_inputs_iff hl.kind).mpr hi
    have ⟨e, he, ht, hp⟩ := hw.connected n.node hl.mem d hd input hm hq
    exact List.ne_nil_of_mem <| Compile.mem_sources_iff.mpr ⟨e, he, ht, hp, rfl⟩
  · have ⟨e, he, ht, _, hr⟩ := Compile.mem_sources_iff.mp hm
    exact hr ▸ h.feeds hw hl he ht hi

end Implements

end Plan

end SignalFlow
