import SignalFlow.Proofs.Plan.Compile

/-!
Taking a node out of a graph that makes sense. Its edges go with it, so that inputs elsewhere may be
left without any. Nothing else can be wrong with what remains.
-/

open Relation

namespace SignalFlow

open Validation (ids)

-- The node is of a kind for which the input has to be connected.
def Node.Requires (n : Node) (port : String) : Prop :=
  ∃ d, n.Declared d ∧ ∃ p ∈ d.inputs, p.required ∧ p.name = port

-- Well-formed, but for that there may be no nodes, and that nothing may be connected.
structure Graph.Consistent (g : Graph) : Prop where
  distinct   : (ids g).Nodup
  known      : ∀ n ∈ g.nodes, ∃ d, n.Declared d
  parameters : ∀ n ∈ g.nodes, ∀ d, n.Declared d → ∀ p ∈ d.parameters, p.Accepts n.parameters
  wired      : ∀ e ∈ g.edges, ∃ output input, g.Wires e output input
  acyclic    : ∀ id, ¬TransGen g.Feeds id id

theorem Graph.WellFormed.consistent {g : Graph} (h : g.WellFormed) : g.Consistent :=
  ⟨h.distinct, h.known, h.parameters, h.wired, h.acyclic⟩

namespace Validation

variable {g : Graph} {n : Node} {i : Issue} {config : Config}

theorem mem_errors_iff :
    i ∈ (g.validate config).errors ↔ i ∈ issues config g ∧ i.severity = .error := by
  rw [Graph.validate, Report.ofIssues, List.mem_filter, decide_eq_true_eq]

-- Where its kind and its parameters are in order, a node can but lack connections.
theorem mem_nodeIssues_iff {d : Definition} (hd : n.Declared d)
    (ha : ∀ p ∈ d.parameters, p.Accepts n.parameters) :
    i ∈ nodeIssues g n ∧ i.severity = .error ↔
      ∃ port, n.Requires port ∧ ¬g.Connected n.id port ∧ i = .missingInput n.id port := by
  have hf := Node.declared_iff.mp hd
  have hp : Catalog.parameterFaults n.nodeType n.parameters = [] :=
    parameterFaults_eq_nil_iff.mpr ⟨d, hf, ha⟩
  have missing (p : Port) : (p.required && !isConnected g n.id p.name) = true ↔
      p.required ∧ ¬g.Connected n.id p.name := by
    simp [←isConnected_iff]
  have unused : ErrorFree (if d.category = .action && !hasOutgoing g n.id then [.unusedOutput n.id]
      else []) := by
    simp [Issue.severity]
  simp only [nodeIssues, hf, hp, List.map_nil, List.nil_append, List.mem_append, List.mem_map,
    List.mem_filter, missing]
  constructor
  case mp  =>
    rintro ⟨hi, he⟩
    cases hi
    case inr hi => exact absurd he <| unused i hi
    case inl hi =>
      obtain ⟨p, ⟨hp, hr, hc⟩, rfl⟩ := hi
      exact ⟨p.name, ⟨d, hd, p, hp, hr, rfl⟩, hc, rfl⟩
  case mpr =>
    rintro ⟨_, ⟨d', hd', p, hp, hr, rfl⟩, hc, rfl⟩
    exact ⟨.inl ⟨p, ⟨hd.unique hd' ▸ hp, hr, hc⟩, rfl⟩, rfl⟩

-- What is consistent can but be empty or lack connections.
theorem mem_errors_iff_of_consistent (h : g.Consistent) :
    i ∈ (g.validate config).errors ↔ (i = .emptyGraph ∧ g.nodes = []) ∨
      ∃ n ∈ g.nodes, ∃ port, n.Requires port ∧ ¬g.Connected n.id port ∧
        i = .missingInput n.id port := by
  rw [mem_errors_iff, issues]
  split
  case isTrue hn =>
    have hn := List.isEmpty_iff.mp hn
    simp only [hn, List.mem_singleton, List.not_mem_nil, false_and, exists_false, or_false,
      and_true, and_iff_left_iff_imp]
    exact fun hi => hi ▸ rfl
  case isFalse hn =>
    have hn : g.nodes ≠ [] := fun he => hn <| List.isEmpty_iff.mpr he
    have structural : ErrorFree (structureIssues g) := errorFree_structureIssues.mpr h.distinct
    have edges : ErrorFree (g.edges.flatMap (edgeIssues g)) := errorFree_flatMap.mpr fun e he =>
      (errorFree_edgeIssues h.distinct h.known).mpr <| h.wired e he
    have logic : ErrorFree (logicIssues g) := errorFree_logicIssues.mpr <|
      (Graph.acyclic_wiring_iff <| Graph.resolved_of_wired h.wired).mpr h.acyclic
    have practice : ErrorFree (practiceIssues config g) := errorFree_practiceIssues
    have node n (hm : n ∈ g.nodes) : i ∈ nodeIssues g n ∧ i.severity = .error ↔
        ∃ port, n.Requires port ∧ ¬g.Connected n.id port ∧ i = .missingInput n.id port := by
      obtain ⟨d, hd⟩ := h.known n hm
      exact mem_nodeIssues_iff hd <| h.parameters n hm d hd
    simp only [List.mem_append, hn, and_false, false_or]
    constructor
    case mp  =>
      rintro ⟨(((hi | hi) | hi) | hi) | hi, he⟩
      · exact absurd he <| structural i hi
      · obtain ⟨n, hm, hi⟩ := List.mem_flatMap.mp hi
        exact ⟨n, hm, (node n hm).mp ⟨hi, he⟩⟩
      · exact absurd he <| edges i hi
      · exact absurd he <| logic i hi
      · exact absurd he <| practice i hi
    case mpr =>
      rintro ⟨n, hm, hp⟩
      obtain ⟨hi, he⟩ := (node n hm).mpr hp
      exact ⟨.inl <| .inl <| .inl <| .inr <| List.mem_flatMap.mpr ⟨n, hm, hi⟩, he⟩

end Validation

namespace Graph

-- An input that has to be connected was fed by the removed node, and by no other.
structure Unplugs (g : Graph) (id : String) (n : Node) (port : String) : Prop where
  mem      : n ∈ g.nodes
  other    : n.id ≠ id
  required : n.Requires port
  before   : ∃ e ∈ g.edges, e.targetNode = n.id ∧ e.targetPort = port
  lost     : ∀ e ∈ g.edges, e.targetNode = n.id → e.targetPort = port → e.sourceNode = id

-- What is left of a graph without a node, and what the check finds to be wrong with it.
structure Removes (g : Graph) (id : String) (rest : Graph) : Prop where
  nodes     : rest.nodes = g.nodes.filter (·.id ≠ id)
  edges     : rest.edges = g.edges.filter (!·.touches id)
  untouched : ∀ e ∈ rest.edges, e.sourceNode ≠ id ∧ e.targetNode ≠ id
  frame     : { rest with nodes := g.nodes, edges := g.edges } = g
  errors    : ∀ config i, i ∈ (rest.validate config).errors ↔
    (i = .emptyGraph ∧ ids g = [id]) ∨ ∃ n port, i = .missingInput n.id port ∧ g.Unplugs id n port
  kinds     : ∀ config kind, (rest.validate config).hasError kind →
    kind = .emptyGraph ∨ kind = .missingInput

variable {g : Graph} {id : String} {n : Node} {e : Edge} {a b port : String}

theorem touches_eq_false_iff : e.touches id = false ↔ e.sourceNode ≠ id ∧ e.targetNode ≠ id := by
  simp [Edge.touches]

theorem not_touches (hr : g.Resolved) (he : e ∈ g.edges) (hid : id ∉ ids g) :
    e.touches id = false := by
  have ⟨hs, ht⟩ := hr e he
  exact touches_eq_false_iff.mpr ⟨ne_of_mem_of_not_mem hs hid, ne_of_mem_of_not_mem ht hid⟩

-- Only one node has the id, if any.
theorem eraseP_id_eq_filter {l : List Node} (h : (l.map Node.id).Nodup) :
    l.eraseP (·.id == id) = l.filter (·.id ≠ id) := by
  induction l
  case nil           => rfl
  case cons n l hi =>
    have ⟨hn, hl⟩ := List.nodup_cons.mp h
    by_cases he : n.id = id
    case neg => simp [he, hi hl]
    case pos =>
      have others : ∀ m ∈ l, m.id ≠ id := fun m hm hid => hn <| by
        rw [he, ←hid]
        exact List.mem_map_of_mem hm
      simpa [he] using (List.filter_eq_self.mpr <| by simpa using others).symm

theorem nodes_removeNode (hn : (ids g).Nodup) :
    (g.removeNode id).nodes = g.nodes.filter (·.id ≠ id) := by
  rw [←eraseP_id_eq_filter hn, removeNode]
  split
  case isTrue     => rfl
  case isFalse hs =>
    have hid : ∀ n ∈ g.nodes, n.id ≠ id := by simpa [isSome_node?_iff, ids] using hs
    exact (List.eraseP_of_forall_not <| by simpa using hid).symm

theorem edges_removeNode (hr : g.Resolved) :
    (g.removeNode id).edges = g.edges.filter (!·.touches id) := by
  rw [removeNode]
  split
  case isTrue     => rfl
  case isFalse hs =>
    have hid := mt isSome_node?_iff.mpr hs
    exact (List.filter_eq_self.mpr fun e he => by rw [not_touches hr he hid]; rfl).symm

theorem frame_removeNode : { g.removeNode id with nodes := g.nodes, edges := g.edges } = g := by
  rw [removeNode]
  split <;> rfl

theorem mem_nodes_removeNode_iff (hn : (ids g).Nodup) :
    n ∈ (g.removeNode id).nodes ↔ n ∈ g.nodes ∧ n.id ≠ id := by
  rw [nodes_removeNode hn, List.mem_filter, decide_eq_true_eq]

theorem mem_edges_removeNode_iff (hr : g.Resolved) :
    e ∈ (g.removeNode id).edges ↔ e ∈ g.edges ∧ e.sourceNode ≠ id ∧ e.targetNode ≠ id := by
  rw [edges_removeNode hr, List.mem_filter, Bool.not_eq_true', touches_eq_false_iff]

theorem HasPort.removeNode {p : Port} (h : g.HasPort a p) (hn : (ids g).Nodup) (ha : a ≠ id) :
    (g.removeNode id).HasPort a p := by
  obtain ⟨n, hm, rfl, hd⟩ := h
  exact ⟨n, (mem_nodes_removeNode_iff hn).mpr ⟨hm, ha⟩, rfl, hd⟩

-- All that is left was in order before.
theorem Consistent.removeNode (h : g.Consistent) (id : String) : (g.removeNode id).Consistent := by
  have hr := resolved_of_wired h.wired
  have old {n} (hn : n ∈ (g.removeNode id).nodes) : n ∈ g.nodes :=
    ((mem_nodes_removeNode_iff h.distinct).mp hn).left
  constructor
  case distinct   =>
    rw [ids, nodes_removeNode h.distinct]
    exact h.distinct.sublist <| List.filter_sublist.map Node.id
  case known      => exact fun n hn => h.known n (old hn)
  case parameters => exact fun n hn => h.parameters n (old hn)
  case wired      =>
    intro e he
    obtain ⟨he, hs, ht⟩ := (mem_edges_removeNode_iff hr).mp he
    obtain ⟨output, input, hw⟩ := h.wired e he
    have source := hw.source.removeNode h.distinct hs
    have target := hw.target.removeNode h.distinct ht
    exact ⟨output, input, { hw with source, target }⟩
  case acyclic    =>
    have feeds a b (hf : (g.removeNode id).Feeds a b) : g.Feeds a b := by
      obtain ⟨e, he, hab⟩ := hf
      exact ⟨e, ((mem_edges_removeNode_iff hr).mp he).left, hab⟩
    exact fun k ht => h.acyclic k <| TransGen.mono feeds _ _ ht

theorem connected_removeNode_iff (hr : g.Resolved) (ha : a ≠ id) :
    (g.removeNode id).Connected a port ↔
      ∃ e ∈ g.edges, e.targetNode = a ∧ e.targetPort = port ∧ e.sourceNode ≠ id := by
  simp only [Connected, mem_edges_removeNode_iff hr]
  constructor
  case mp  =>
    rintro ⟨e, ⟨he, hs, _⟩, ht, hp⟩
    exact ⟨e, he, ht, hp, hs⟩
  case mpr =>
    rintro ⟨e, he, ht, hp, hs⟩
    exact ⟨e, ⟨he, hs, ht ▸ ha⟩, ht, hp⟩

-- An input of a well-formed graph is disconnected exactly if it gets unplugged.
theorem WellFormed.unplugs_iff (h : g.WellFormed) : g.Unplugs id n port ↔
    n ∈ (g.removeNode id).nodes ∧ n.Requires port ∧ ¬(g.removeNode id).Connected n.id port := by
  rw [mem_nodes_removeNode_iff h.distinct]
  constructor
  case mp  =>
    intro hu
    refine ⟨⟨hu.mem, hu.other⟩, hu.required, ?_⟩
    rw [connected_removeNode_iff h.resolved hu.other]
    exact fun ⟨e, he, ht, hp, hs⟩ => hs <| hu.lost e he ht hp
  case mpr =>
    intro ⟨⟨hm, hid⟩, hq, hc⟩
    rw [connected_removeNode_iff h.resolved hid] at hc
    have ⟨d, hd, p, hp, hr, hname⟩ := hq
    refine ⟨hm, hid, hq, hname ▸ h.connected n hm d hd p hp hr, ?_⟩
    exact fun e he ht hp => by_contra fun hs => hc ⟨e, he, ht, hp, hs⟩

theorem WellFormed.nodes_removeNode_eq_nil_iff (h : g.WellFormed) :
    (g.removeNode id).nodes = [] ↔ ids g = [id] := by
  rw [nodes_removeNode h.distinct, List.filter_eq_nil_iff]
  have all : (∀ n ∈ g.nodes, ¬decide (n.id ≠ id) = true) ↔ ∀ a ∈ ids g, a = id := by simp [ids]
  rw [all]
  constructor
  case mpr => exact fun hi a ha => List.mem_singleton.mp (hi ▸ ha)
  case mp  =>
    intro hi
    cases hl : ids g
    case nil      => exact absurd (List.map_eq_nil_iff.mp hl) h.nonempty
    case cons a l =>
      rw [hl, List.forall_mem_cons] at hi
      obtain ⟨rfl, hi⟩ := hi
      have hn := (List.nodup_cons.mp <| hl ▸ h.distinct).left
      have rest : l = [] := List.eq_nil_iff_forall_not_mem.mpr fun b hb => hn <| hi b hb ▸ hb
      rw [rest]

theorem WellFormed.mem_errors_removeNode_iff (h : g.WellFormed) (config : Config) (i : Issue) :
    i ∈ ((g.removeNode id).validate config).errors ↔
      (i = .emptyGraph ∧ ids g = [id]) ∨
        ∃ n port, i = .missingInput n.id port ∧ g.Unplugs id n port := by
  rw [Validation.mem_errors_iff_of_consistent <| h.consistent.removeNode id,
    h.nodes_removeNode_eq_nil_iff]
  simp only [h.unplugs_iff]
  refine or_congr_right ?_
  constructor
  case mp  => exact fun ⟨n, hm, port, hq, hc, hi⟩ => ⟨n, port, hi, hm, hq, hc⟩
  case mpr => exact fun ⟨n, port, hi, hm, hq, hc⟩ => ⟨n, hm, port, hq, hc, hi⟩

-- Whoever takes a node out of a graph that passes its check has not much to look after.
theorem removes_removeNode {config : Config} (h : (g.validate config).errors = []) (id : String) :
    g.Removes id (g.removeNode id) := by
  have hw := (g.errors_validate_eq_nil_iff config).mp h
  constructor
  case nodes     => exact nodes_removeNode hw.distinct
  case edges     => exact edges_removeNode hw.resolved
  case untouched => exact fun e he => ((mem_edges_removeNode_iff hw.resolved).mp he).right
  case frame     => exact frame_removeNode
  case errors    => exact hw.mem_errors_removeNode_iff
  case kinds     =>
    intro config kind hk
    obtain ⟨i, hi, hk⟩ := List.any_eq_true.mp hk
    obtain ⟨rfl, _⟩ | ⟨_, _, rfl, _⟩ := (hw.mem_errors_removeNode_iff config i).mp hi
    · exact .inl (of_decide_eq_true hk).symm
    · exact .inr (of_decide_eq_true hk).symm

-- Without its source the condition has nothing to compare.
theorem removes_removeNode_breakout :
    (breakout.validate {}).errors = [] ∧ breakout.Removes "price" (breakout.removeNode "price") ∧
      .missingInput "above" "value" ∈ ((breakout.removeNode "price").validate {}).errors := by
  have h := (breakout.errors_validate_eq_nil_iff {}).mpr wellFormed_breakout
  have removes := removes_removeNode h "price"
  have unplugs : ∃ n, n.id = "above" ∧ breakout.Unplugs "price" n "value" := by
    refine ⟨_, rfl, .tail _ <| .head _, ?_, ?_, ?_, ?_⟩
    case refine_1 => decide
    case refine_2 => exact ⟨_, Node.declared_iff.mpr rfl, _, .head _, rfl, rfl⟩
    case refine_3 => decide
    case refine_4 => decide
  obtain ⟨n, hn, hu⟩ := unplugs
  exact ⟨h, removes, (removes.errors {} _).mpr <| .inr ⟨n, "value", by rw [hn], hu⟩⟩

end Graph

end SignalFlow
